import Nsdci.Nt.File

/-!
# What survives the file of a tally server

The tallies written to a file are restored exactly if no byte of a name, of the number of keys or of
a sum is a carriage return, and no line feed follows one in what was left over (`restored_iff`). The
bytes that are read have no carriage return, so such a name or sum cannot come back; a line feed
that is lost leaves too few bytes for all keys; and a number of keys that comes back smaller leaves
a bucket without all of its keys, as the file has no bytes to spare for another one.
-/

namespace Nsdci.Nt

open Lib
open TclExport (Order)

/-- A name within its limit. -/
def Named (s : Bytes) : Prop := NulFree s ∧ s.length ≤ maxName

/-- Two `unsigned long`s. -/
def Sum.Fits (l : Long) (sum : Sum) : Prop := sum.count < l.modulus ∧ sum.total < l.modulus

/-- The buckets of a server. -/
structure Table (l : Long) where
  buckets : Buckets
  named : ∀ e ∈ pairs buckets, Named e.1
  size : ∀ e ∈ pairs buckets, ∀ keys ∈ e.2, (pairs keys).length < 2 ^ 31
  keys : ∀ e ∈ pairs buckets, ∀ keys ∈ e.2, ∀ x ∈ pairs keys, Named x.1 ∧ x.2.Fits l

/-- The buckets that have keys. -/
def saved : List (Bytes × Option Keys) → List (Bytes × List (Bytes × Sum))
  | [] => []
  | (_, none) :: bs => saved bs
  | (name, some keys) :: bs =>
      if (pairs keys).length > 0 then (name, pairs keys) :: saved bs else saved bs

/-- The table that is read has the buckets with keys, their keys and their sums, and no other. -/
def Restored (t t' : Buckets) : Prop :=
  (∀ bucket key, t'.sum bucket key = t.sum bucket key) ∧
    ∀ bucket ∈ t', ∃ key sum, t'.sum bucket key = some sum

/-- No byte that counts is a carriage return, and none that is left over has a line feed behind. -/
structure Clean (l : Long) (host : Order) (stack : Stack l) (t : Buckets) : Prop where
  names : ∀ e ∈ saved (pairs t), 13 ∉ e.1
  counts : ∀ e ∈ saved (pairs t), 13 ∉ intBytes host e.2.length
  tallies : ∀ e ∈ saved (pairs t), ∀ x ∈ e.2,
    13 ∉ x.1 ∧ 13 ∉ l.bytes host x.2.count ∧ 13 ∉ l.bytes host x.2.total
  leftovers : ¬ CrLf (ntsWriteFile l host stack t)

/-! ## Numbers in memory -/

@[simp] theorem inHost_inHost (host : Order) (bs : Bytes) : inHost host (inHost host bs) = bs := by
  cases host with
  | big => rfl
  | little => exact List.reverse_reverse bs

@[simp] theorem length_inHost (host : Order) (bs : Bytes) :
    (inHost host bs).length = bs.length := by
  cases host with
  | big => rfl
  | little => exact List.length_reverse

theorem mem_inHost {host : Order} {bs : Bytes} {b : UInt8} : b ∈ inHost host bs ↔ b ∈ bs := by
  cases host with
  | big => exact Iff.rfl
  | little => exact List.mem_reverse

theorem map_inHost (host : Order) (f : UInt8 → UInt8) (bs : Bytes) :
    (inHost host bs).map f = inHost host (bs.map f) := by
  cases host with
  | big => rfl
  | little => exact List.map_reverse

theorem length_intBytes (host : Order) (n : Nat) : (intBytes host n).length = 4 := by
  rw [intBytes, length_inHost, length_be32]

/-- An `int` that is not negative is read as it was written. -/
theorem ofIntBytes_intBytes (host : Order) {n : Nat} (hn : n < 2 ^ 31) :
    ofIntBytes host (intBytes host n) = n := by
  rw [ofIntBytes, intBytes, inHost_inHost, ofBe32_be32_natCast (by omega)]
  exact int32_natCast_eq_iff.mpr hn

theorem length_bytes (l : Long) (host : Order) (x : Nat) : (l.bytes host x).length = l.size := by
  cases l with
  | bits32 => exact length_inHost host _
  | bits64 => exact length_inHost host _

/-- An `unsigned long` is read as it was written. -/
theorem ofBytes_bytes {l : Long} (host : Order) {x : Nat} (hx : x < l.modulus) :
    l.ofBytes host (l.bytes host x) = x := by
  cases l with
  | bits32 =>
      show ofBe32 (inHost host (inHost host (be32 x))) = x
      rw [inHost_inHost, ofBe32_be32_natCast hx]
  | bits64 =>
      have hlt : x < 18446744073709551616 := hx
      show ofBe32 ((inHost host (inHost host _)).take 4) * 4294967296 +
        ofBe32 ((inHost host (inHost host _)).drop 4) = x
      rw [inHost_inHost, List.take_left' (length_be32 _), List.drop_left' (length_be32 _),
        ofBe32_be32_natCast (by omega), ofBe32_be32]
      omega

/-- The bytes of an `unsigned long` that was read are the ones that were read. -/
theorem bytes_ofBytes (l : Long) (host : Order) {bs : Bytes} (h : bs.length = l.size) :
    l.bytes host (l.ofBytes host bs) = bs := by
  have hlen : (inHost host bs).length = l.size := (length_inHost host bs).trans h
  cases l with
  | bits32 =>
      show inHost host (be32 (ofBe32 (inHost host bs))) = bs
      rw [be32_ofBe32 hlen, inHost_inHost]
  | bits64 =>
      have hhigh : ((inHost host bs).take 4).length = 4 := by
        rw [List.length_take, hlen]
        rfl
      have hlow : ((inHost host bs).drop 4).length = 4 := by
        rw [List.length_drop, hlen]
        rfl
      have hlt := ofBe32_lt ((inHost host bs).drop 4)
      have hdiv : (ofBe32 ((inHost host bs).take 4) * 4294967296 +
          ofBe32 ((inHost host bs).drop 4)) / 4294967296 = ofBe32 ((inHost host bs).take 4) := by
        omega
      show inHost host (be32 ((_ * 4294967296 + _) / 4294967296 : Nat) ++
        be32 (_ * 4294967296 + _ : Nat)) = bs
      rw [hdiv, be32_ofBe32 hhigh, be32_mul_add, be32_ofBe32 hlow, List.take_append_drop,
        inHost_inHost]

/-- A carriage return makes a word smaller. -/
theorem ofBe32_map_lt {bs : Bytes} (h : bs.length = 4) (hcr : 13 ∈ bs) :
    ofBe32 (bs.map eolByte) < ofBe32 bs := by
  have hbyte : ∀ b : UInt8, (eolByte b).toNat ≤ b.toNat ∧
      (b = 13 → (eolByte b).toNat < b.toNat) := by
    intro b
    unfold eolByte
    split_ifs with hb
    · rw [hb]
      exact ⟨by decide, fun _ => by decide⟩
    · exact ⟨Nat.le_refl _, fun hb' => absurd hb' hb⟩
  match bs, h with
  | [a, b, c, d], _ =>
      have ha := hbyte a
      have hb := hbyte b
      have hc := hbyte c
      have hd := hbyte d
      show (eolByte a).toNat * 16777216 + (eolByte b).toNat * 65536 + (eolByte c).toNat * 256 +
        (eolByte d).toNat < a.toNat * 16777216 + b.toNat * 65536 + c.toNat * 256 + d.toNat
      simp only [List.mem_cons, List.not_mem_nil, or_false, eq_comm] at hcr
      rcases hcr with hcr | hcr | hcr | hcr
      · have hlt := ha.2 hcr
        omega
      · have hlt := hb.2 hcr
        omega
      · have hlt := hc.2 hcr
        omega
      · have hlt := hd.2 hcr
        omega

/-- **A number with a carriage return comes back smaller.** -/
theorem ofIntBytes_map_lt {host : Order} {n : Nat} (hn : n < 2 ^ 31) (h : 13 ∈ intBytes host n) :
    (ofIntBytes host ((intBytes host n).map eolByte)).toNat < n := by
  have hlt := ofBe32_map_lt (length_be32 n) (mem_inHost.mp h)
  rw [ofBe32_be32_natCast (by omega)] at hlt
  rw [ofIntBytes, intBytes, map_inHost, inHost_inHost, int32_natCast_eq_iff.mpr (by omega)]
  exact hlt

/-! ## What is written -/

variable {l : Long} {host : Order}

/-- The `Tally` of a key and its sum. -/
structure WroteTally (l : Long) (host : Order) (x : Bytes × Sum) (tally : Bytes) : Prop where
  length : tally.length = l.sizeofTally
  key : ∃ rest, tally.take sizeofName = asciz x.1 ++ rest
  sum : tally.drop l.sumOffset = l.bytes host x.2.count ++ l.bytes host x.2.total

/-- The buffer and the `Tally`s of a bucket. -/
structure Wrote (l : Long) (host : Order) (e : Bytes × List (Bytes × Sum))
    (b : Bytes × List Bytes) : Prop where
  length : b.1.length = sizeofName
  name : ∃ rest, b.1 = asciz e.1 ++ rest
  tallies : List.Forall₂ (WroteTally l host) e.2 b.2

/-- A name fits its buffer. -/
theorem length_strcpy {buf s : Bytes} (hbuf : buf.length = sizeofName) (hs : s.length ≤ maxName) :
    (strcpy buf s).length = sizeofName := by
  have hname : sizeofName = maxName + 1 := rfl
  rw [strcpy, asciz, List.length_append, List.length_append, List.length_drop,
    List.length_singleton, hbuf]
  omega

/-- What stands for something. -/
theorem exists_of_forall₂ {α β : Type} {R : α → β → Prop} {as : List α} {bs : List β}
    (h : List.Forall₂ R as bs) {b : β} (hb : b ∈ bs) : ∃ a ∈ as, R a b := by
  induction h with
  | nil => exact absurd hb List.not_mem_nil
  | cons hab _ ih =>
      rcases List.mem_cons.mp hb with rfl | hb
      · exact ⟨_, List.mem_cons_self, hab⟩
      · obtain ⟨a, ha, hR⟩ := ih hb
        exact ⟨a, List.mem_cons_of_mem _ ha, hR⟩

/-- What is written for the keys of a bucket. -/
theorem wrote_writeTallies {padding buf : Bytes} (hpadding : padding.length = l.padding)
    (hbuf : buf.length = sizeofName) {es : List (Bytes × Sum)}
    (hes : ∀ x ∈ es, x.1.length ≤ maxName) :
    List.Forall₂ (WroteTally l host) es (writeTallies l host padding buf es).1 ∧
      (writeTallies l host padding buf es).2.length = sizeofName := by
  induction es generalizing buf with
  | nil => exact ⟨List.Forall₂.nil, hbuf⟩
  | cons x es ih =>
      obtain ⟨key, sum⟩ := x
      have hcopy : (strcpy buf key).length = sizeofName :=
        length_strcpy hbuf (hes (key, sum) List.mem_cons_self)
      obtain ⟨hrest, hleft⟩ := ih hcopy fun x hx => hes x (List.mem_cons_of_mem _ hx)
      refine ⟨List.Forall₂.cons ⟨?_, ⟨buf.drop (key.length + 1), ?_⟩, ?_⟩ hrest, hleft⟩
      · rw [List.length_append, List.length_append, List.length_append, hcopy, hpadding,
          length_bytes, length_bytes, Long.sizeofTally, Long.sumOffset]
        omega
      · rw [List.append_assoc, List.append_assoc, List.take_left' hcopy]
        rfl
      · have hoffset : (strcpy buf key ++ padding).length = l.sumOffset := by
          rw [List.length_append, hcopy, hpadding]
          rfl
        rw [List.append_assoc, List.drop_left' hoffset]

/-- What is written for the buckets. -/
theorem wrote_writeBuckets {padding key tallyKey : Bytes} (hpadding : padding.length = l.padding)
    (hkey : key.length = sizeofName) (htally : tallyKey.length = sizeofName)
    {bs : List (Bytes × Option Keys)} (hnames : ∀ e ∈ bs, e.1.length ≤ maxName)
    (hkeys : ∀ e ∈ bs, ∀ keys ∈ e.2, ∀ x ∈ pairs keys, x.1.length ≤ maxName) :
    List.Forall₂ (Wrote l host) (saved bs) (writeBuckets l host padding key tallyKey bs) := by
  induction bs generalizing key tallyKey with
  | nil => exact List.Forall₂.nil
  | cons e bs ih =>
      have hnames' := fun e' he' => hnames e' (List.mem_cons_of_mem e he')
      have hkeys' := fun e' he' => hkeys e' (List.mem_cons_of_mem e he')
      obtain ⟨name, _ | keys⟩ := e
      · exact ih hkey htally hnames' hkeys'
      · unfold saved writeBuckets
        split_ifs
        · have hcopy := length_strcpy hkey (hnames _ List.mem_cons_self)
          obtain ⟨htallies, hleft⟩ := wrote_writeTallies hpadding htally
            (hkeys _ List.mem_cons_self keys rfl)
          exact List.Forall₂.cons ⟨hcopy, ⟨_, rfl⟩, htallies⟩ (ih hcopy hleft hnames' hkeys')
        · exact ih hkey htally hnames' hkeys'

/-- What is written for a table. -/
theorem Table.wrote (t : Table l) (host : Order) (stack : Stack l) :
    List.Forall₂ (Wrote l host) (saved (pairs t.buckets))
      (writeBuckets l host stack.padding stack.key stack.tallyKey (pairs t.buckets)) :=
  wrote_writeBuckets stack.length_padding stack.length_key stack.length_tallyKey
    (fun e he => (t.named e he).2) fun e he keys hkeys x hx => (t.keys e he keys hkeys x hx).1.2

/-- The bytes of a bucket in the file. -/
theorem Wrote.length_bucketBytes {e : Bytes × List (Bytes × Sum)} {b : Bytes × List Bytes}
    (h : Wrote l host e b) :
    (bucketBytes host b).length = sizeofName + 4 + e.2.length * l.sizeofTally := by
  have htallies : b.2.flatten.length = e.2.length * l.sizeofTally := by
    have hall := h.tallies
    generalize e.2 = es at hall
    generalize b.2 = tallies at hall
    induction hall with
    | nil => exact (Nat.zero_mul _).symm
    | cons htally _ ih =>
        rw [List.flatten_cons, List.length_append, ih, htally.length, List.length_cons]
        ring
  rw [bucketBytes, List.length_append, List.length_append, h.length, length_intBytes, htallies]

/-! ## What is read -/

/-- A string without a carriage return is given as it is. -/
theorem map_asciz {s : Bytes} (h : 13 ∉ s) : (asciz s).map eolByte = asciz s := by
  refine map_eolByte fun hmem => ?_
  rcases List.mem_append.mp hmem with hs | hzero
  · exact h hs
  · exact absurd (List.mem_singleton.mp hzero) (by decide)

/-- A name without a carriage return stays in its buffer. -/
theorem map_named {buf s : Bytes} (hcr : 13 ∉ s) (h : ∃ rest, buf = asciz s ++ rest) :
    ∃ rest, buf.map eolByte = asciz s ++ rest := by
  obtain ⟨rest, rfl⟩ := h
  exact ⟨rest.map eolByte, by rw [List.map_append, map_asciz hcr]⟩

/-- A `Tally` that no carriage return is in stays one, whatever was left over. -/
theorem WroteTally.map {x : Bytes × Sum} {tally : Bytes} (h : WroteTally l host x tally)
    (hcr : 13 ∉ x.1 ∧ 13 ∉ l.bytes host x.2.count ∧ 13 ∉ l.bytes host x.2.total) :
    WroteTally l host x (tally.map eolByte) where
  length := (List.length_map eolByte).trans h.length
  key := by
    rw [← List.map_take]
    exact map_named hcr.1 h.key
  sum := by
    rw [← List.map_drop, h.sum, List.map_append, map_eolByte hcr.2.1, map_eolByte hcr.2.2]

/-- The string in a buffer. -/
theorem readCStr_named {buf s : Bytes} (hs : NulFree s) (h : ∃ rest, buf = asciz s ++ rest) :
    (readCStr buf).map Prod.fst = some s := by
  obtain ⟨rest, rfl⟩ := h
  rw [readCStr_asciz hs]
  rfl

/-- **A `Tally` is read as it was written.** -/
theorem WroteTally.tallyOf {x : Bytes × Sum} {tally buf name : Bytes}
    (h : WroteTally l host x tally) (hkey : NulFree x.1) (hsum : x.2.Fits l)
    (hname : NulFree name) (hbuf : ∃ rest, buf = asciz name ++ rest) :
    tallyOf l host buf tally = some (name, x.1, x.2) := by
  obtain ⟨rest, hrest⟩ := hbuf
  obtain ⟨rest', hrest'⟩ := h.key
  have htotal : tally.drop (l.sumOffset + l.size) = l.bytes host x.2.total := by
    rw [← List.drop_drop, h.sum, List.drop_left' (length_bytes l host _)]
  unfold Nt.tallyOf
  rw [hrest, hrest', readCStr_asciz hname, readCStr_asciz hkey, h.sum,
    List.take_left' (length_bytes l host _), htotal, ofBytes_bytes host hsum.1,
    ofBytes_bytes host hsum.2]
  rfl

/-- `Tally`s are read one by one. -/
theorem readTallies_flatten {tallies : List Bytes} (hsize : ∀ tally ∈ tallies,
    tally.length = l.sizeofTally) {m : Nat} (hm : m ≤ tallies.length) (rest : Bytes) :
    readTallies l m (tallies.flatten ++ rest) =
      (tallies.take m, (tallies.drop m).flatten ++ rest) := by
  induction m generalizing tallies with
  | zero => rfl
  | succ m ih =>
      cases tallies with
      | nil => exact absurd hm (by simp)
      | cons tally tallies =>
          have htally := hsize tally List.mem_cons_self
          have hrest := ih (fun x hx => hsize x (List.mem_cons_of_mem _ hx))
            (Nat.le_of_succ_le_succ hm)
          have hlong : ¬ ((tally :: tallies).flatten ++ rest).length < l.sizeofTally := by
            rw [List.flatten_cons, List.append_assoc, List.length_append]
            omega
          unfold readTallies
          rw [if_neg hlong, List.flatten_cons, List.append_assoc, List.drop_left' htally,
            List.take_left' htally, hrest]
          rfl

/-- A bucket is read, as far as the number of its keys tells. -/
theorem readBuckets_cons {buf count : Bytes} {tallies : List Bytes}
    (hbuf : buf.length = sizeofName) (hcount : count.length = 4)
    (hsize : ∀ tally ∈ tallies, tally.length = l.sizeofTally)
    (hm : (ofIntBytes host count).toNat ≤ tallies.length) (rest : Bytes) :
    readBuckets l host (buf ++ count ++ tallies.flatten ++ rest) =
      (buf, tallies.take (ofIntBytes host count).toNat) ::
        readBuckets l host ((tallies.drop (ofIntBytes host count).toNat).flatten ++ rest) := by
  have hhead : (buf ++ count).length = sizeofName + 4 := by
    rw [List.length_append, hbuf, hcount]
  have hread : readCount host (buf ++ count ++ (tallies.flatten ++ rest)) =
      (ofIntBytes host count).toNat := by
    unfold readCount
    rw [List.append_assoc, List.drop_left' hbuf, List.take_left' hcount]
  have hlong : ¬ (buf ++ count ++ (tallies.flatten ++ rest)).length < sizeofName + 4 := by
    rw [List.length_append]
    omega
  rw [List.append_assoc, readBuckets, dif_neg hlong, hread, List.drop_left' hhead,
    readTallies_flatten hsize hm, List.append_assoc, List.take_left' hbuf]

/-- `Tally`s are pieces of the file, and no more of it is read than there is. -/
theorem readTallies_spec (l : Long) (n : Nat) (s : Bytes) :
    (readTallies l n s).1.length * l.sizeofTally + (readTallies l n s).2.length ≤ s.length ∧
      (∀ tally ∈ (readTallies l n s).1, tally ⊆ s ∧ tally.length = l.sizeofTally) ∧
      (readTallies l n s).2 ⊆ s := by
  induction n generalizing s with
  | zero =>
      refine ⟨?_, fun tally h => absurd h List.not_mem_nil, List.Subset.refl s⟩
      show 0 * l.sizeofTally + s.length ≤ s.length
      omega
  | succ n ih =>
      unfold readTallies
      split_ifs with hshort
      · refine ⟨?_, fun tally h => absurd h List.not_mem_nil, List.nil_subset s⟩
        show 0 * l.sizeofTally + 0 ≤ s.length
        omega
      · obtain ⟨hbytes, htallies, hleft⟩ := ih (s.drop l.sizeofTally)
        have hsub : s.drop l.sizeofTally ⊆ s := List.drop_subset _ s
        rw [List.length_drop] at hbytes
        dsimp only
        refine ⟨?_, fun tally h => ?_, fun b hb => hsub (hleft hb)⟩
        · rw [List.length_cons, Nat.succ_mul]
          omega
        · rcases List.mem_cons.mp h with rfl | h
          · refine ⟨List.take_subset _ s, ?_⟩
            rw [List.length_take]
            omega
          · exact ⟨fun b hb => hsub ((htallies tally h).1 hb), (htallies tally h).2⟩

/-- The bytes that are read for a bucket. -/
def weight (l : Long) (b : Bytes × List Bytes) : Nat :=
  sizeofName + 4 + b.2.length * l.sizeofTally

/-- How a bucket is read. -/
theorem readBuckets_step (l : Long) (host : Order) {s : Bytes}
    (h : ¬ s.length < sizeofName + 4) : ∃ n, readBuckets l host s =
      (s.take sizeofName, (readTallies l n (s.drop (sizeofName + 4))).1) ::
        readBuckets l host (readTallies l n (s.drop (sizeofName + 4))).2 :=
  ⟨readCount host s, by rw [readBuckets, dif_neg h]⟩

/-- Buckets are pieces of the file, too. -/
theorem readBuckets_spec (l : Long) (host : Order) (s : Bytes) :
    sumOf (weight l) (readBuckets l host s) ≤ s.length ∧
      ∀ b ∈ readBuckets l host s,
        b.1 ⊆ s ∧ ∀ tally ∈ b.2, tally ⊆ s ∧ tally.length = l.sizeofTally := by
  by_cases hshort : s.length < sizeofName + 4
  · rw [readBuckets, dif_pos hshort]
    exact ⟨Nat.zero_le _, fun b hb => absurd hb List.not_mem_nil⟩
  · obtain ⟨n, hread⟩ := readBuckets_step l host hshort
    have hless := length_readTallies_lt l n hshort
    obtain ⟨hbytes, htallies, hleft⟩ := readTallies_spec l n (s.drop (sizeofName + 4))
    obtain ⟨hweight, hbuckets⟩ :=
      readBuckets_spec l host (readTallies l n (s.drop (sizeofName + 4))).2
    have hsub : s.drop (sizeofName + 4) ⊆ s := List.drop_subset _ s
    rw [hread]
    refine ⟨?_, fun b hb => ?_⟩
    · have hfirst : weight l (s.take sizeofName, (readTallies l n (s.drop (sizeofName + 4))).1) =
          sizeofName + 4 +
            (readTallies l n (s.drop (sizeofName + 4))).1.length * l.sizeofTally := rfl
      rw [List.length_drop] at hbytes
      rw [sumOf_cons]
      omega
    · rcases List.mem_cons.mp hb with rfl | hb
      · exact ⟨List.take_subset _ s, fun tally htally =>
          ⟨fun b hb => hsub ((htallies tally htally).1 hb), (htallies tally htally).2⟩⟩
      · obtain ⟨hname, hpieces⟩ := hbuckets b hb
        exact ⟨fun x hx => hsub (hleft (hname hx)), fun tally htally =>
          ⟨fun x hx => hsub (hleft ((hpieces tally htally).1 hx)), (hpieces tally htally).2⟩⟩
termination_by s.length

/-! ## The table that is read -/

/-- The `Tally`s that are read, each with the buffer of its bucket. -/
def reads (bs : List (Bytes × List Bytes)) : List (Bytes × Bytes) :=
  bs.flatMap fun b => b.2.map fun tally => (b.1, tally)

/-- Sums that are set one by one. -/
def putAll (cs : List (Bytes × Bytes × Sum)) (t : Buckets) : Buckets :=
  cs.foldl (fun t x => t.put x.1 x.2.1 x.2.2) t

/-- Setting what is read, when all of it can be read. -/
theorem foldlM_put_eq_some {ps : List (Bytes × Bytes)} {t t' : Buckets} :
    ps.foldlM (fun t p => (tallyOf l host p.1 p.2).map fun x => t.put x.1 x.2.1 x.2.2) t =
        some t' ↔
      ∃ cs, List.Forall₂ (fun p c => tallyOf l host p.1 p.2 = some c) ps cs ∧
        t' = putAll cs t := by
  induction ps generalizing t with
  | nil =>
      constructor
      · intro h
        exact ⟨[], List.Forall₂.nil, (Option.some.inj h).symm⟩
      · rintro ⟨cs, hcs, rfl⟩
        cases hcs
        rfl
  | cons p ps ih =>
      rw [List.foldlM_cons]
      cases hp : tallyOf l host p.1 p.2 with
      | none =>
          refine iff_of_false (fun h => nomatch h) ?_
          rintro ⟨cs, hcs, -⟩
          cases hcs with
          | cons hc _ => exact nomatch hp.symm.trans hc
      | some c =>
          refine (ih (t := _)).trans ?_
          constructor
          · rintro ⟨cs, hcs, rfl⟩
            exact ⟨c :: cs, List.Forall₂.cons hp hcs, rfl⟩
          · rintro ⟨cs, hcs, rfl⟩
            cases hcs with
            | cons hc hcs =>
                obtain rfl := Option.some.inj (hp.symm.trans hc)
                exact ⟨_, hcs, rfl⟩

/-- What `NtsReadFile` makes of the buckets it reads. -/
theorem storeBuckets_eq (bs : List (Bytes × List Bytes)) (t : Buckets) :
    storeBuckets l host bs t =
      (reads bs).foldlM (fun t p =>
        (tallyOf l host p.1 p.2).map fun x => t.put x.1 x.2.1 x.2.2) t := by
  induction bs generalizing t with
  | nil => rfl
  | cons b bs ih =>
      rw [reads, List.flatMap_cons, List.foldlM_append, List.foldlM_map, storeBuckets,
        List.foldlM_cons]
      exact bind_congr fun t' => ih t'

/-- The sums after one is set. -/
theorem sum_put (t : Buckets) (b k : Bytes) (sum : Sum) (bucket key : Bytes) :
    (t.put b k sum).sum bucket key =
      if b = bucket ∧ k = key then some sum else t.sum bucket key := by
  unfold Buckets.put Buckets.sum
  by_cases hbucket : b = bucket
  · subst hbucket
    rw [AList.lookup_insert, Option.join_some, Option.bind_some]
    by_cases hkey : k = key
    · subst hkey
      rw [AList.lookup_insert, if_pos ⟨rfl, rfl⟩]
    · rw [AList.lookup_insert_ne (Ne.symm hkey), if_neg (fun h => hkey h.2)]
      cases (t.lookup b).join with
      | none => rfl
      | some keys => rfl
  · rw [AList.lookup_insert_ne (Ne.symm hbucket), if_neg (fun h => hbucket h.1)]

/-- A sum that is there was set. -/
theorem mem_of_putAll {cs : List (Bytes × Bytes × Sum)} {t : Buckets} {bucket key : Bytes}
    {sum : Sum} (h : (putAll cs t).sum bucket key = some sum) :
    t.sum bucket key = some sum ∨ (bucket, key, sum) ∈ cs := by
  induction cs generalizing t with
  | nil => exact Or.inl h
  | cons c cs ih =>
      rcases ih (t := _) h with hput | hmem
      · rw [sum_put] at hput
        split_ifs at hput with hc
        · obtain ⟨rfl, rfl⟩ := hc
          obtain rfl := Option.some.inj hput
          exact Or.inr List.mem_cons_self
        · exact Or.inl hput
      · exact Or.inr (List.mem_cons_of_mem _ hmem)

/-- What was there or is set is there. -/
theorem sum_putAll_of_mem {cs : List (Bytes × Bytes × Sum)} {t : Buckets} {bucket key : Bytes}
    (h : (∃ sum, t.sum bucket key = some sum) ∨ ∃ sum, (bucket, key, sum) ∈ cs) :
    ∃ sum, (putAll cs t).sum bucket key = some sum := by
  induction cs generalizing t with
  | nil =>
      rcases h with h | ⟨sum, hmem⟩
      · exact h
      · exact absurd hmem List.not_mem_nil
  | cons c cs ih =>
      refine ih (t := _) ?_
      rw [sum_put]
      split_ifs with hc
      · exact Or.inl ⟨c.2.2, rfl⟩
      · refine h.imp_right fun ⟨sum, hmem⟩ => ⟨sum, ?_⟩
        rcases List.mem_cons.mp hmem with rfl | hmem
        · exact absurd ⟨rfl, rfl⟩ hc
        · exact hmem

/-- No bucket without a key is made. -/
theorem putAll_nonempty {cs : List (Bytes × Bytes × Sum)} {t : Buckets}
    (h : ∀ bucket ∈ t, ∃ key sum, t.sum bucket key = some sum) :
    ∀ bucket ∈ putAll cs t, ∃ key sum, (putAll cs t).sum bucket key = some sum := by
  induction cs generalizing t with
  | nil => exact h
  | cons c cs ih =>
      refine ih (t := _) fun bucket hbucket => ?_
      by_cases hc : c.1 = bucket
      · exact ⟨c.2.1, c.2.2, by rw [sum_put, if_pos ⟨hc, rfl⟩]⟩
      · have hold : bucket ∈ t := by
          rcases AList.mem_insert t |>.mp hbucket with hnew | hold
          · exact absurd hnew.symm hc
          · exact hold
        obtain ⟨key, sum, hsum⟩ := h bucket hold
        exact ⟨key, sum, by rw [sum_put, if_neg fun h => hc h.1, hsum]⟩

/-! ## The table that is written -/

/-- The buckets that have keys. -/
theorem mem_saved {bs : List (Bytes × Option Keys)} {name : Bytes} {es : List (Bytes × Sum)} :
    (name, es) ∈ saved bs ↔ 0 < es.length ∧ ∃ keys, (name, some keys) ∈ bs ∧ es = pairs keys := by
  induction bs with
  | nil => exact iff_of_false List.not_mem_nil fun ⟨_, _, h, _⟩ => List.not_mem_nil h
  | cons e bs ih =>
      obtain ⟨name', _ | keys'⟩ := e
      · refine ih.trans (and_congr_right fun _ => exists_congr fun keys => ?_)
        refine and_congr_left fun _ => ?_
        have hne : (name, some keys) ≠ (name', none) := fun h => nomatch (Prod.mk.inj h).2
        rw [List.mem_cons]
        exact (or_iff_right hne).symm
      · unfold saved
        constructor
        · intro h
          split_ifs at h with hlen
          · rcases List.mem_cons.mp h with heq | h
            · obtain ⟨rfl, rfl⟩ := Prod.mk.inj heq
              exact ⟨hlen, keys', List.mem_cons_self, rfl⟩
            · obtain ⟨hpos, keys, hmem, heq⟩ := ih.mp h
              exact ⟨hpos, keys, List.mem_cons_of_mem _ hmem, heq⟩
          · obtain ⟨hpos, keys, hmem, heq⟩ := ih.mp h
            exact ⟨hpos, keys, List.mem_cons_of_mem _ hmem, heq⟩
        · rintro ⟨hpos, keys, hmem, rfl⟩
          rcases List.mem_cons.mp hmem with heq | hmem
          · obtain ⟨rfl, hkeys⟩ := Prod.mk.inj heq
            obtain rfl := Option.some.inj hkeys
            rw [if_pos hpos]
            exact List.mem_cons_self
          · have hrest := ih.mpr ⟨hpos, keys, hmem, rfl⟩
            split_ifs
            · exact List.mem_cons_of_mem _ hrest
            · exact hrest

/-- The names of these are among those of all buckets. -/
theorem saved_sublist (bs : List (Bytes × Option Keys)) :
    List.Sublist ((saved bs).map Prod.fst) (bs.map Prod.fst) := by
  induction bs with
  | nil => exact List.Sublist.refl _
  | cons e bs ih =>
      obtain ⟨name, _ | keys⟩ := e
      · exact ih.cons name
      · unfold saved
        split_ifs
        · exact ih.cons_cons name
        · exact ih.cons name

/-- A sum of a table is the one of a key of a bucket that has keys. -/
theorem sum_eq_some_iff {t : Buckets} {bucket key : Bytes} {sum : Sum} :
    t.sum bucket key = some sum ↔ ∃ es, (bucket, es) ∈ saved (pairs t) ∧ (key, sum) ∈ es := by
  unfold Buckets.sum
  constructor
  · intro h
    obtain ⟨keys, hjoin, hkey⟩ := Option.bind_eq_some_iff.mp h
    have hkeys : (key, sum) ∈ pairs keys := mem_pairs.mpr (AList.mem_lookup_iff.mp hkey)
    have hbucket : (bucket, some keys) ∈ pairs t :=
      mem_pairs.mpr (AList.mem_lookup_iff.mp (Option.join_eq_some_iff.mp hjoin))
    exact ⟨pairs keys, mem_saved.mpr ⟨List.length_pos_of_mem hkeys, keys, hbucket, rfl⟩, hkeys⟩
  · rintro ⟨es, hes, hkey⟩
    obtain ⟨-, keys, hbucket, rfl⟩ := mem_saved.mp hes
    have hlookup : t.lookup bucket = some (some keys) :=
      AList.mem_lookup_iff.mpr (mem_pairs.mp hbucket)
    rw [hlookup, Option.join_some, Option.bind_some]
    exact AList.mem_lookup_iff.mpr (mem_pairs.mp hkey)

/-- What is known of the buckets that are written. -/
structure Good (l : Long) (es : List (Bytes × List (Bytes × Sum))) : Prop where
  named : ∀ e ∈ es, NulFree e.1
  size : ∀ e ∈ es, 0 < e.2.length ∧ e.2.length < 2 ^ 31
  keys : ∀ e ∈ es, ∀ x ∈ e.2, NulFree x.1 ∧ x.2.Fits l
  distinct : (es.map Prod.fst).Nodup
  keys_distinct : ∀ e ∈ es, (e.2.map Prod.fst).Nodup

/-- The buckets of a table are such. -/
theorem Table.good (t : Table l) : Good l (saved (pairs t.buckets)) where
  named e he := by
    obtain ⟨-, keys, hmem, -⟩ := mem_saved.mp he
    exact (t.named _ hmem).1
  size e he := by
    obtain ⟨hpos, keys, hmem, heq⟩ := mem_saved.mp he
    exact ⟨hpos, heq ▸ t.size _ hmem keys rfl⟩
  keys e he x hx := by
    obtain ⟨-, keys, hmem, heq⟩ := mem_saved.mp he
    obtain ⟨hnamed, hfits⟩ := t.keys _ hmem keys rfl x (heq ▸ hx)
    exact ⟨hnamed.1, hfits⟩
  distinct := (saved_sublist _).nodup (nodup_pairs t.buckets)
  keys_distinct e he := by
    obtain ⟨-, keys, -, heq⟩ := mem_saved.mp he
    exact heq ▸ nodup_pairs keys

/-! ## Reading what was written -/

/-- A bucket with its carriage returns taken for newlines. -/
def eolBucket (b : Bytes × List Bytes) : Bytes × List Bytes :=
  (b.1.map eolByte, b.2.map (List.map eolByte))

/-- A bucket is read, as far as the number of its keys has come through. -/
theorem Wrote.readBuckets {e : Bytes × List (Bytes × Sum)} {b : Bytes × List Bytes}
    (h : Wrote l host e b) {m : Nat}
    (hm : (ofIntBytes host ((intBytes host e.2.length).map eolByte)).toNat = m)
    (hle : m ≤ e.2.length) (rest : Bytes) :
    readBuckets l host ((bucketBytes host b).map eolByte ++ rest) =
      (b.1.map eolByte, (b.2.map (List.map eolByte)).take m) ::
        readBuckets l host (((b.2.map (List.map eolByte)).drop m).flatten ++ rest) := by
  have hlength : e.2.length = b.2.length := h.tallies.length_eq
  have hbuf : (b.1.map eolByte).length = sizeofName := (List.length_map _).trans h.length
  have hcount : ((intBytes host b.2.length).map eolByte).length = 4 :=
    (List.length_map _).trans (length_intBytes host _)
  have hsize : ∀ tally ∈ b.2.map (List.map eolByte), tally.length = l.sizeofTally := by
    intro tally htally
    obtain ⟨tally, hmem, rfl⟩ := List.mem_map.mp htally
    obtain ⟨x, -, hx⟩ := exists_of_forall₂ h.tallies hmem
    exact (List.length_map _).trans hx.length
  rw [hlength] at hm hle
  have hread := readBuckets_cons hbuf hcount hsize
    (by rw [hm, List.length_map]; exact hle) rest
  rw [hm] at hread
  rw [← hread, bucketBytes, List.map_append, List.map_append, List.map_flatten]

/-- A bucket whose number has come through is read. -/
theorem Wrote.readBuckets_of_clean {e : Bytes × List (Bytes × Sum)} {b : Bytes × List Bytes}
    (h : Wrote l host e b) (hn : e.2.length < 2 ^ 31) (hcr : 13 ∉ intBytes host e.2.length)
    (rest : Bytes) :
    Nt.readBuckets l host ((bucketBytes host b).map eolByte ++ rest) =
      eolBucket b :: Nt.readBuckets l host rest := by
  have hm : (ofIntBytes host ((intBytes host e.2.length).map eolByte)).toNat = e.2.length := by
    rw [map_eolByte hcr, ofIntBytes_intBytes host hn]
    rfl
  have hlength : (b.2.map (List.map eolByte)).length = e.2.length :=
    (List.length_map _).trans h.tallies.length_eq.symm
  rw [h.readBuckets hm (Nat.le_refl _) rest, List.take_of_length_le hlength.le,
    List.drop_of_length_le hlength.le]
  rfl

/-- Of nothing no bucket is read. -/
theorem readBuckets_nil (l : Long) (host : Order) : readBuckets l host [] = [] := by
  have hshort : ([] : Bytes).length < sizeofName + 4 := Nat.zero_lt_succ _
  rw [readBuckets, dif_pos hshort]

/-- **The buckets whose numbers have come through are read as they were written**, but for what was
left over. -/
theorem readBuckets_map {es : List (Bytes × List (Bytes × Sum))} {bs : List (Bytes × List Bytes)}
    (h : List.Forall₂ (Wrote l host) es bs) (hsize : ∀ e ∈ es, e.2.length < 2 ^ 31)
    (hcr : ∀ e ∈ es, 13 ∉ intBytes host e.2.length) :
    readBuckets l host ((bs.flatMap (bucketBytes host)).map eolByte) = bs.map eolBucket := by
  induction h with
  | nil => exact readBuckets_nil l host
  | @cons e b es bs hwrote _ ih =>
      have hrest := ih (fun e he => hsize e (List.mem_cons_of_mem _ he))
        fun e he => hcr e (List.mem_cons_of_mem _ he)
      rw [List.flatMap_cons, List.map_append, hwrote.readBuckets_of_clean
        (hsize e List.mem_cons_self) (hcr e List.mem_cons_self), hrest, List.map_cons]

/-- The name in a buffer. -/
def nameOf (buf : Bytes) : Option Bytes := (readCStr buf).map Prod.fst

/-- **A number with a carriage return leaves a bucket without all of its keys.** -/
theorem exists_short {es : List (Bytes × List (Bytes × Sum))} {bs : List (Bytes × List Bytes)}
    (h : List.Forall₂ (Wrote l host) es bs) (hsize : ∀ e ∈ es, e.2.length < 2 ^ 31)
    (hnames : ∀ e ∈ es, NulFree e.1 ∧ 13 ∉ e.1)
    (hcr : ∃ e ∈ es, 13 ∈ intBytes host e.2.length) :
    ∃ e ∈ es, ∃ r ∈ readBuckets l host ((bs.flatMap (bucketBytes host)).map eolByte),
      nameOf r.1 = some e.1 ∧ r.2.length < e.2.length := by
  induction h with
  | nil =>
      obtain ⟨e, he, -⟩ := hcr
      exact absurd he List.not_mem_nil
  | @cons e b es bs hwrote _ ih =>
      rw [List.flatMap_cons, List.map_append]
      by_cases hfirst : 13 ∈ intBytes host e.2.length
      · -- the number of this bucket is smaller
        have hlt := ofIntBytes_map_lt (hsize e List.mem_cons_self) hfirst
        obtain ⟨m, hm⟩ :
            ∃ m, (ofIntBytes host ((intBytes host e.2.length).map eolByte)).toNat = m := ⟨_, rfl⟩
        obtain ⟨hname, hcr'⟩ := hnames e List.mem_cons_self
        rw [hm] at hlt
        rw [hwrote.readBuckets hm hlt.le]
        refine ⟨e, List.mem_cons_self, _, List.mem_cons_self, ?_, ?_⟩
        · exact readCStr_named hname (map_named hcr' hwrote.name)
        · exact (List.length_take_le _ _).trans_lt hlt
      · have hcr' : ∃ e ∈ es, 13 ∈ intBytes host e.2.length := by
          obtain ⟨e', he', hmem⟩ := hcr
          rcases List.mem_cons.mp he' with rfl | he'
          · exact absurd hmem hfirst
          · exact ⟨e', he', hmem⟩
        obtain ⟨e', he', r, hr, hshort⟩ := ih
          (fun e he => hsize e (List.mem_cons_of_mem _ he))
          (fun e he => hnames e (List.mem_cons_of_mem _ he)) hcr'
        rw [hwrote.readBuckets_of_clean (hsize e List.mem_cons_self) hfirst]
        exact ⟨e', List.mem_cons_of_mem _ he', r, List.mem_cons_of_mem _ hr, hshort⟩

/-! ## What the keys that come back need -/

/-- Every key is among the `Tally`s that were read. -/
def Found (l : Long) (host : Order) (es : List (Bytes × List (Bytes × Sum)))
    (rs : List (Bytes × List Bytes)) : Prop :=
  ∀ e ∈ es, ∀ x ∈ e.2, ∃ r ∈ rs, ∃ tally ∈ r.2, tallyOf l host r.1 tally = some (e.1, x.1, x.2)

/-- What a `Tally` that was read is made of. -/
theorem of_tallyOf {buf tally name key : Bytes} {sum : Sum} (h : tallyOf l host buf tally =
    some (name, key, sum)) : nameOf buf = some name ∧ nameOf (tally.take sizeofName) = some key ∧
      sum.count = l.ofBytes host ((tally.drop l.sumOffset).take l.size) ∧
      sum.total = l.ofBytes host (tally.drop (l.sumOffset + l.size)) := by
  unfold tallyOf at h
  obtain ⟨b, hb, hkey⟩ := Option.bind_eq_some_iff.mp h
  obtain ⟨k, hk, htally⟩ := Option.map_eq_some_iff.mp hkey
  obtain ⟨rfl, hpair⟩ := Prod.mk.inj htally
  obtain ⟨rfl, rfl⟩ := Prod.mk.inj hpair
  unfold nameOf
  rw [hb, hk]
  exact ⟨rfl, rfl, rfl, rfl⟩

/-- A name is in its buffer. -/
theorem subset_of_nameOf {buf name : Bytes} (h : nameOf buf = some name) : name ⊆ buf := by
  obtain ⟨r, hr, rfl⟩ := Option.map_eq_some_iff.mp h
  obtain ⟨-, rfl⟩ := nulFree_of_readCStr hr
  exact fun b hb => List.mem_append_left _ (List.mem_append_left _ hb)

/-- **The bytes of what is read are in the file.** -/
theorem notMem_of_tallyOf {buf tally name key : Bytes} {sum : Sum}
    (h : tallyOf l host buf tally = some (name, key, sum)) (hbuf : 13 ∉ buf) (htally : 13 ∉ tally)
    (hsize : tally.length = l.sizeofTally) : 13 ∉ name ∧
      13 ∉ key ∧ 13 ∉ l.bytes host sum.count ∧ 13 ∉ l.bytes host sum.total := by
  obtain ⟨hname, hkey, hcount, htotal⟩ := of_tallyOf h
  have hsizes : l.sizeofTally = l.sumOffset + 2 * l.size := rfl
  have hcountLength : ((tally.drop l.sumOffset).take l.size).length = l.size := by
    rw [List.length_take, List.length_drop]
    omega
  have htotalLength : (tally.drop (l.sumOffset + l.size)).length = l.size := by
    rw [List.length_drop]
    omega
  refine ⟨fun hmem => hbuf (subset_of_nameOf hname hmem),
    fun hmem => htally (List.take_subset _ _ (subset_of_nameOf hkey hmem)), ?_, ?_⟩
  · rw [hcount, bytes_ofBytes l host hcountLength]
    exact fun hmem => htally (List.drop_subset _ _ (List.take_subset _ _ hmem))
  · rw [htotal, bytes_ofBytes l host htotalLength]
    exact fun hmem => htally (List.drop_subset _ _ hmem)

/-- The bytes that are read for some buckets. -/
theorem sumOf_weight (l : Long) (rs : List (Bytes × List Bytes)) : sumOf (weight l) rs =
    rs.length * (sizeofName + 4) + sumOf (fun r => r.2.length) rs * l.sizeofTally := by
  induction rs with
  | nil =>
      show 0 = 0 * (sizeofName + 4) + 0 * l.sizeofTally
      rw [Nat.zero_mul, Nat.zero_mul]
  | cons r rs ih =>
      rw [sumOf_cons, sumOf_cons, ih, List.length_cons, weight]
      ring

/-- **The keys of a bucket need the bytes of the bucket**, and more when less was read at once. -/
theorem Found.weight_le {es : List (Bytes × List (Bytes × Sum))} {rs : List (Bytes × List Bytes)}
    (h : Found l host es rs) (hgood : Good l es) {e : Bytes × List (Bytes × Sum)} (he : e ∈ es) :
    sizeofName + 4 + e.2.length * l.sizeofTally ≤
        sumOf (weight l) (rs.filter fun r => nameOf r.1 = some e.1) ∧
      ((∃ r ∈ rs, nameOf r.1 = some e.1 ∧ r.2.length < e.2.length) →
        sizeofName + 4 + e.2.length * l.sizeofTally <
          sumOf (weight l) (rs.filter fun r => nameOf r.1 = some e.1)) := by
  have hmem : ∀ r, r ∈ rs.filter (fun r => nameOf r.1 = some e.1) ↔
      r ∈ rs ∧ nameOf r.1 = some e.1 := by
    intro r
    rw [List.mem_filter, decide_eq_true_iff]
  generalize rs.filter (fun r => nameOf r.1 = some e.1) = parts at hmem
  -- all keys are in these parts
  have hkeys : e.2.length ≤ sumOf (fun r => r.2.length) parts := by
    have hsub : e.2.map Prod.fst ⊆ (parts.flatMap fun r => r.2).filterMap fun tally =>
        nameOf (tally.take sizeofName) := by
      intro key hkey
      obtain ⟨x, hx, rfl⟩ := List.mem_map.mp hkey
      obtain ⟨r, hr, tally, htally, hof⟩ := h e he x hx
      obtain ⟨hname, hkey', -⟩ := of_tallyOf hof
      have hpart : r ∈ parts := (hmem r).mpr ⟨hr, hname⟩
      exact List.mem_filterMap.mpr ⟨tally, List.mem_flatMap.mpr ⟨r, hpart, htally⟩, hkey'⟩
    have hle := (List.subperm_of_subset (hgood.keys_distinct e he) hsub).length_le
    rw [List.length_map] at hle
    rw [← length_flatMap_eq]
    exact hle.trans (List.length_filterMap_le _ _)
  have hmul := Nat.mul_le_mul_right l.sizeofTally hkeys
  have hpos := (hgood.size e he).1
  rw [sumOf_weight]
  constructor
  · cases parts with
    | nil =>
        have hzero : sumOf (fun r : Bytes × List Bytes => r.2.length) [] = 0 := rfl
        omega
    | cons r parts =>
        rw [List.length_cons, Nat.succ_mul]
        omega
  · rintro ⟨r, hr, hname, hshort⟩
    have hpart := (hmem r).mpr ⟨hr, hname⟩
    cases parts with
    | nil => exact absurd hpart List.not_mem_nil
    | cons r₁ parts =>
        rw [List.length_cons, Nat.succ_mul]
        cases parts with
        | nil =>
            -- one part alone has too few of them
            obtain rfl := List.mem_singleton.mp hpart
            have hone : sumOf (fun r : Bytes × List Bytes => r.2.length) [r] = r.2.length := rfl
            omega
        | cons r₂ parts =>
            have hsize : 0 < sizeofName := Nat.zero_lt_succ _
            rw [List.length_cons, Nat.succ_mul]
            omega

/-- **When all keys are found, no byte was lost and no number has become smaller.** -/
theorem Found.complete {es : List (Bytes × List (Bytes × Sum))} {s : Bytes}
    (h : Found l host es (readBuckets l host s)) (hgood : Good l es) {n : Nat}
    (hn : sumOf (fun e => sizeofName + 4 + e.2.length * l.sizeofTally) es = n)
    (hle : s.length ≤ n) :
    s.length = n ∧ ∀ e ∈ es, ∀ r ∈ readBuckets l host s, nameOf r.1 = some e.1 →
      e.2.length ≤ r.2.length := by
  have hread := (readBuckets_spec l host s).1
  have hparts := sumOf_parts_le (weight l) (fun r => nameOf r.1) Prod.fst hgood.distinct
    (readBuckets l host s)
  have hneed := sumOf_le fun e he => (h.weight_le hgood he).1
  constructor
  · omega
  · intro e he r hr hname
    by_contra hshort
    have hlt := sumOf_lt (fun e he => (h.weight_le hgood he).1) he
      ((h.weight_le hgood he).2 ⟨r, hr, hname, Nat.lt_of_not_le hshort⟩)
    omega

/-! ## The round trip -/

/-- The sums of the buckets that are written. -/
def sumsOf (es : List (Bytes × List (Bytes × Sum))) : List (Bytes × Bytes × Sum) :=
  es.flatMap fun e => e.2.map fun x => (e.1, x.1, x.2)

/-- They are the sums of the table. -/
theorem mem_sumsOf {t : Buckets} {bucket key : Bytes} {sum : Sum} :
    (bucket, key, sum) ∈ sumsOf (saved (pairs t)) ↔ t.sum bucket key = some sum := by
  rw [sum_eq_some_iff]
  unfold sumsOf
  constructor
  · intro h
    obtain ⟨e, he, hmem⟩ := List.mem_flatMap.mp h
    obtain ⟨x, hx, heq⟩ := List.mem_map.mp hmem
    obtain ⟨rfl, hpair⟩ := Prod.mk.inj heq
    obtain ⟨rfl, rfl⟩ := Prod.mk.inj hpair
    exact ⟨e.2, he, hx⟩
  · rintro ⟨es, hes, hmem⟩
    exact List.mem_flatMap.mpr ⟨(bucket, es), hes, List.mem_map.mpr ⟨(key, sum), hmem, rfl⟩⟩

/-- The length of the file. -/
theorem length_file {es : List (Bytes × List (Bytes × Sum))} {bs : List (Bytes × List Bytes)}
    (h : List.Forall₂ (Wrote l host) es bs) :
    sumOf (fun e => sizeofName + 4 + e.2.length * l.sizeofTally) es =
      (bs.flatMap (bucketBytes host)).length := by
  induction h with
  | nil => rfl
  | cons hwrote _ ih =>
      rw [sumOf_cons, ih, List.flatMap_cons, List.length_append, hwrote.length_bucketBytes]

/-- What is read of buckets that have come through. -/
theorem tallies_of_clean {es : List (Bytes × List (Bytes × Sum))} {bs : List (Bytes × List Bytes)}
    (h : List.Forall₂ (Wrote l host) es bs)
    (hnames : ∀ e ∈ es, NulFree e.1 ∧ 13 ∉ e.1)
    (hkeys : ∀ e ∈ es, ∀ x ∈ e.2, NulFree x.1 ∧ x.2.Fits l)
    (hcr : ∀ e ∈ es, ∀ x ∈ e.2,
      13 ∉ x.1 ∧ 13 ∉ l.bytes host x.2.count ∧ 13 ∉ l.bytes host x.2.total) :
    List.Forall₂ (fun p c => tallyOf l host p.1 p.2 = some c) (reads (bs.map eolBucket))
      (sumsOf es) := by
  induction h with
  | nil => exact List.Forall₂.nil
  | @cons e b es bs hwrote _ ih =>
      have hrest := ih (fun e he => hnames e (List.mem_cons_of_mem _ he))
        (fun e he => hkeys e (List.mem_cons_of_mem _ he))
        fun e he => hcr e (List.mem_cons_of_mem _ he)
      obtain ⟨hname, hname'⟩ := hnames e List.mem_cons_self
      have hbuf := map_named hname' hwrote.name
      rw [reads, sumsOf, List.map_cons, List.flatMap_cons, List.flatMap_cons]
      refine List.rel_append ?_ hrest
      have hkeys' := hkeys e List.mem_cons_self
      have hcr' := hcr e List.mem_cons_self
      have htallies := hwrote.tallies
      dsimp only [eolBucket]
      rw [List.map_map]
      generalize e.2 = xs at hkeys' hcr' htallies
      generalize b.2 = tallies at htallies
      induction htallies with
      | nil => exact List.Forall₂.nil
      | @cons x tally xs tallies htally _ ih =>
          obtain ⟨hkey, hsum⟩ := hkeys' x List.mem_cons_self
          refine List.Forall₂.cons ?_ (ih (fun x hx => hkeys' x (List.mem_cons_of_mem _ hx))
            fun x hx => hcr' x (List.mem_cons_of_mem _ hx))
          exact (htally.map (hcr' x List.mem_cons_self)).tallyOf hkey hsum hname hbuf

variable (t : Table l) (stack : Stack l)

/-- **A table is restored when nothing that counts is a carriage return and nothing is lost.** -/
theorem Table.restored_of_clean (hclean : Clean l host stack t.buckets) :
    ∃ t', ntsReadFile l host (ntsWriteFile l host stack t.buckets) ∅ = some t' ∧
      Restored t.buckets t' := by
  have hgood := t.good
  have hwrote := t.wrote host stack
  have hread := readBuckets_map hwrote (fun e he => (hgood.size e he).2) hclean.counts
  have htallies := tallies_of_clean hwrote
    (fun e he => ⟨hgood.named e he, hclean.names e he⟩) hgood.keys hclean.tallies
  have hempty : ∀ bucket key, (∅ : Buckets).sum bucket key = none := fun _ _ => rfl
  refine ⟨putAll (sumsOf (saved (pairs t.buckets))) ∅, ?_, fun bucket key => ?_, ?_⟩
  · rw [ntsReadFile, eol_eq_map false hclean.leftovers Bool.noConfusion, ntsWriteFile, hread,
      storeBuckets_eq, foldlM_put_eq_some]
    exact ⟨_, htallies, rfl⟩
  · cases hsum : t.buckets.sum bucket key with
    | some sum =>
        obtain ⟨sum', hsum'⟩ :=
          sum_putAll_of_mem (t := ∅) (Or.inr ⟨sum, mem_sumsOf.mpr hsum⟩)
        rcases mem_of_putAll hsum' with hnone | hmem
        · exact nomatch (hempty bucket key).symm.trans hnone
        · rw [hsum', ← mem_sumsOf.mp hmem, hsum]
    | none =>
        cases hsum' : (putAll (sumsOf (saved (pairs t.buckets))) ∅).sum bucket key with
        | none => rfl
        | some sum' =>
            rcases mem_of_putAll hsum' with hnone | hmem
            · exact nomatch (hempty bucket key).symm.trans hnone
            · exact nomatch hsum.symm.trans (mem_sumsOf.mp hmem)
  · exact putAll_nonempty fun bucket hbucket => absurd hbucket (AList.notMem_empty bucket)

/-- **What is restored has no carriage return in what counts, and nothing was lost.** -/
theorem Table.clean_of_restored {t' : Buckets}
    (hread : ntsReadFile l host (ntsWriteFile l host stack t.buckets) ∅ = some t')
    (hrestored : Restored t.buckets t') : Clean l host stack t.buckets := by
  have hgood := t.good
  have hwrote := t.wrote host stack
  have hempty : ∀ bucket key, (∅ : Buckets).sum bucket key = none := fun _ _ => rfl
  rw [ntsReadFile, storeBuckets_eq, foldlM_put_eq_some] at hread
  obtain ⟨cs, hcs, rfl⟩ := hread
  have hspec := readBuckets_spec l host (eol false (ntsWriteFile l host stack t.buckets))
  -- every key was read
  have hfound : Found l host (saved (pairs t.buckets))
      (readBuckets l host (eol false (ntsWriteFile l host stack t.buckets))) := by
    intro e he x hx
    have hsum : t.buckets.sum e.1 x.1 = some x.2 := sum_eq_some_iff.mpr ⟨e.2, he, hx⟩
    rcases mem_of_putAll ((hrestored.1 e.1 x.1).trans hsum) with hnone | hmem
    · exact nomatch (hempty e.1 x.1).symm.trans hnone
    · obtain ⟨p, hp, hof⟩ := exists_of_forall₂ hcs hmem
      obtain ⟨r, hr, hmem'⟩ := List.mem_flatMap.mp hp
      obtain ⟨tally, htally, rfl⟩ := List.mem_map.mp hmem'
      exact ⟨r, hr, tally, htally, hof⟩
  have hbytes : ∀ e ∈ saved (pairs t.buckets), ∀ x ∈ e.2, 13 ∉ e.1 ∧
      13 ∉ x.1 ∧ 13 ∉ l.bytes host x.2.count ∧ 13 ∉ l.bytes host x.2.total := by
    intro e he x hx
    obtain ⟨r, hr, tally, htally, hof⟩ := hfound e he x hx
    obtain ⟨hbuf, hpieces⟩ := hspec.2 r hr
    obtain ⟨hsub, hsize⟩ := hpieces tally htally
    exact notMem_of_tallyOf hof (fun hmem => notMem_eol false _ (hbuf hmem))
      (fun hmem => notMem_eol false _ (hsub hmem)) hsize
  have hnames : ∀ e ∈ saved (pairs t.buckets), 13 ∉ e.1 := by
    intro e he
    obtain ⟨x, hx⟩ := List.exists_mem_of_length_pos (hgood.size e he).1
    exact (hbytes e he x hx).1
  obtain ⟨hlength, hcomplete⟩ := hfound.complete hgood (length_file hwrote) (length_eol_le _ _)
  have hleftovers := length_eol_iff.mp hlength
  refine ⟨hnames, fun e he hcr => ?_, fun e he x hx => (hbytes e he x hx).2, hleftovers⟩
  rw [eol_eq_map false hleftovers Bool.noConfusion] at hcomplete
  obtain ⟨e', he', r, hr, hname, hshort⟩ := exists_short hwrote
    (fun e he => (hgood.size e he).2) (fun e he => ⟨hgood.named e he, hnames e he⟩) ⟨e, he, hcr⟩
  exact absurd (hcomplete e' he' r hr hname) (Nat.not_le_of_lt hshort)

/-- **The tallies written to a file are restored exactly if no byte of a name, of a number of keys
or of a sum is a carriage return, and no line feed follows one that was left over.** -/
theorem restored_iff (host : Order) :
    (∃ t', ntsReadFile l host (ntsWriteFile l host stack t.buckets) ∅ = some t' ∧
      Restored t.buckets t') ↔ Clean l host stack t.buckets :=
  ⟨fun ⟨_, hread, hrestored⟩ => t.clean_of_restored stack hread hrestored,
    t.restored_of_clean stack⟩

/-- A server that has received one tally, of 13. -/
def thirteen : Table .bits64 where
  buckets := AList.singleton (ascii "b") (some (AList.singleton (ascii "k") ⟨1, 13⟩))
  named e he := by
    obtain rfl := List.mem_singleton.mp he
    exact ⟨by decide, by decide⟩
  size e he keys hkeys := by
    obtain rfl := List.mem_singleton.mp he
    obtain rfl := Option.some.inj hkeys
    decide
  keys e he keys hkeys x hx := by
    obtain rfl := List.mem_singleton.mp he
    obtain rfl := Option.some.inj hkeys
    obtain rfl := List.mem_singleton.mp hx
    exact ⟨⟨by decide, by decide⟩, by decide, by decide⟩

/-- A stack with nothing on it. -/
def zeros : Stack .bits64 :=
  ⟨List.replicate 33 0, List.replicate 33 0, List.replicate 7 0, rfl, rfl, rfl⟩

/-- The total of 13 does not come back. -/
theorem thirteen_lost : ¬ ∃ t',
    ntsReadFile .bits64 .little (ntsWriteFile .bits64 .little zeros thirteen.buckets) ∅ =
      some t' ∧ Restored thirteen.buckets t' := by
  rintro ⟨t', hread, hrestored⟩
  have hclean := thirteen.clean_of_restored zeros hread hrestored
  have hmem : (ascii "b", [(ascii "k", (⟨1, 13⟩ : Sum))]) ∈ saved (pairs thirteen.buckets) :=
    List.mem_singleton.mpr rfl
  have htotal := (hclean.tallies _ hmem _ List.mem_cons_self).2.2
  exact htotal (by decide)

end Nsdci.Nt
