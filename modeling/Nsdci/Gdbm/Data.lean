import Nsdci.Gdbm.Alloc
import Nsdci.Lib.Sums

/-!
# The data of a GDBM file

How `gdbm_store`, `gdbm_delete` and `_gdbm_split_bucket` use the space of a file. Seen from outside
a file is a header and a list of strings, those of the entries and the images of directories and
buckets, each written where it was given space. The main result, `gdbm_data`, says that after any
calls each string is read back where it was written, that no byte belongs to two of them, or to one
and to the free space, and that the only thing that can go wrong is that the file gets too large.
-/

namespace Nsdci.Gdbm

open Lib

/-- Bytes, and where they are in the file. -/
structure Stored where
  adr : Nat
  bytes : Bytes

/-- The space of a file, the lists of the buckets that are not the current one, and what is
stored. -/
structure Data where
  space : Space
  others : List (List AvailElem)
  stored : List Stored

/-- Write the key, and the content behind it. -/
def Space.writeData (s : Space) (adr : Nat) (key content : Bytes) : Space :=
  { s with file := putBytes (putBytes s.file adr key) (adr + key.length) content }

/-- New space for an entry, and its data in it. What `gdbm_store` does with a bucket that is full
before it writes the data is other events here. -/
def storeData (c : Conf) (s : Space) (key content : Bytes) : Except Stop (Nat × Space) :=
  if intLimit ≤ key.length + content.length then .error .size
  else gdbmAlloc c s (key.length + content.length) >>= fun p =>
    .ok (p.1, p.2.writeData p.1 key content)

/-- What happens to the space. A string is stored, or deleted, or replaced, which for one of the
same length, such as the image of a bucket, means that it is written again; another bucket becomes
the current one; an update ends. A split makes `grow`, a new bucket with a block of its own, and
`shed`, the first element of a list that is full goes to the new bucket, and `give`, the place of
the old bucket goes to the list of another one. -/
inductive Event where
  | store (key content : Bytes)
  | delete (i : Nat)
  | replace (i : Nat) (key content : Bytes)
  | turn (j : Nat)
  | endUpdate
  | grow
  | shed (j : Nat)
  | give (i j : Nat)

/-- The data part of `gdbm_store` for an entry that is there. A place of the same size is used
again, unless its address is 0. -/
def replaceData (c : Conf) (s : Space) (old : Stored) (key content : Bytes) :
    Except Stop (Nat × Space) :=
  if old.bytes.length ≠ key.length + content.length then
    gdbmFree c s old.adr old.bytes.length >>= fun s => storeData c s key content
  else if old.adr = 0 then storeData c s key content
  else .ok (old.adr, s.writeData old.adr key content)

/-- A string is stored, beside those in `l`. -/
def Data.add (d : Data) (l : List Stored) (bytes : Bytes) (p : Nat × Space) : Data :=
  { d with space := p.2, stored := l ++ [⟨p.1, bytes⟩] }

/-- Space goes to the list of another bucket directly, where there is room. -/
def Data.putOther (d : Data) (j : Nat) (l : List AvailElem) (el : AvailElem) :
    Except Stop Data :=
  putInto maxBucketAvail el l false >>= fun l' => .ok { d with others := d.others.set j l' }

/-- The place of a string goes to the list `l` of another bucket. -/
def Data.give (d : Data) (i j : Nat) (r : Stored) (l : List AvailElem) : Except Stop Data :=
  if l.length < maxBucketAvail then
    Data.putOther { d with stored := d.stored.eraseIdx i } j l ⟨r.bytes.length, r.adr⟩
  else .ok d

/-- The first element of the current bucket goes to the list `l` of another one. -/
def Data.shed (d : Data) (j : Nat) (l : List AvailElem) : Except Stop Data :=
  match d.space.bucketAvail with
  | [] => .ok d
  | el :: els =>
      if l.length < maxBucketAvail then
        Data.putOther { d with space := { d.space with bucketAvail := els } } j l el
      else .ok d

/-- One event. One for a string or a bucket that is not there is none. -/
def step (c : Conf) (d : Data) : Event → Except Stop Data
  | .store key content =>
      storeData c d.space key content >>= fun p => .ok (d.add d.stored (key ++ content) p)
  | .delete i =>
      d.stored[i]?.elim (.ok d) fun r =>
        gdbmFree c d.space r.adr r.bytes.length >>= fun s =>
          .ok { d with space := s, stored := d.stored.eraseIdx i }
  | .replace i key content =>
      d.stored[i]?.elim (.ok d) fun r =>
        replaceData c d.space r key content >>= fun p =>
          .ok (d.add (d.stored.eraseIdx i) (key ++ content) p)
  | .turn j =>
      d.others[j]?.elim (.ok d) fun l =>
        .ok { d with space := { d.space with bucketAvail := l },
                     others := d.others.set j d.space.bucketAvail }
  | .endUpdate => .ok { d with space := { d.space with headerChanged := false } }
  | .grow =>
      gdbmAlloc c d.space d.space.header.blockSize >>= fun p =>
        .ok { d with space := p.2, others := [⟨d.space.header.blockSize, p.1⟩] :: d.others }
  | .shed j => d.others[j]?.elim (.ok d) fun l => d.shed j l
  | .give i j =>
      d.stored[i]?.elim (.ok d) fun r => d.others[j]?.elim (.ok d) fun l => d.give i j r l

/-- Events in turn. -/
def steps (c : Conf) : Data → List Event → Except Stop Data
  | d, [] => .ok d
  | d, e :: es => step c d e >>= fun d => steps c d es

/-- `gdbm_open` of a new file: the header, the directory and the only bucket are in the first three
blocks, and the bucket has the fourth. -/
def create (c : Conf) (blockSize : Nat) (dir bucket : Bytes) : Data where
  space :=
    { header := ⟨blockSize, 4 * blockSize, (blockSize - c.fileHeader) / c.availElem + 1, 0, []⟩
      bucketAvail := [⟨blockSize, 3 * blockSize⟩]
      file := putBytes (putBytes (fun _ => none) blockSize dir) (2 * blockSize) bucket
      headerChanged := false }
  others := []
  stored := [⟨blockSize, dir⟩, ⟨2 * blockSize, bucket⟩]

/-! ## Accounts -/

/-- How often a byte is in what is stored. -/
def storedShare (l : List Stored) (x : Nat) : Nat :=
  (l.map fun r => inside r.adr r.bytes.length x).sum

/-- How often a byte is in the lists of the other buckets. -/
def othersShare (l : List (List AvailElem)) (x : Nat) : Nat := (l.map fun t => share t x).sum

/-- How often a byte belongs to the header, another bucket, or a string in `l`. -/
def Data.restWith (d : Data) (l : List Stored) (x : Nat) : Nat :=
  inside 0 d.space.header.blockSize x + othersShare d.others x + storedShare l x

/-- How often a byte belongs to anyone but the free space that `_gdbm_alloc` sees. -/
def Data.rest (d : Data) : Nat → Nat := d.restWith d.stored

/-- Every string is read where it was written. -/
def Reads (file : File) (l : List Stored) : Prop :=
  ∀ r ∈ l, getBytes file r.adr r.bytes.length = some r.bytes

/-- No byte of the file belongs to two of: the header, the strings, the free space of the buckets
and of the header; none behind its end belongs to any; and every string is read. -/
structure Separate (d : Data) : Prop where
  once : ∀ x, d.rest x + d.space.loose x ≤ 1
  beyond : ∀ x, d.space.header.nextBlock ≤ x → d.rest x + d.space.loose x = 0
  reads : Reads d.space.file d.stored

/-- What holds between events. -/
structure Inv (c : Conf) (d : Data) : Prop where
  space : ∃ stack, SpaceOk c d.space 0 stack d.rest
  roomy : Roomy c d.space.header
  others : ∀ l ∈ d.others, l.length ≤ maxBucketAvail
  reads : Reads d.space.file d.stored

theorem storedShare_snoc (l : List Stored) (adr : Nat) (bytes : Bytes) (x : Nat) :
    storedShare (l ++ [⟨adr, bytes⟩]) x = storedShare l x + inside adr bytes.length x := by
  unfold storedShare
  rw [List.map_append, List.sum_append, List.map_singleton, List.sum_singleton]

theorem inside_le_storedShare {l : List Stored} {r : Stored} (hr : r ∈ l) (x : Nat) :
    inside r.adr r.bytes.length x ≤ storedShare l x := by
  obtain ⟨i, hi⟩ := List.getElem?_of_mem hr
  have hsum : storedShare (l.eraseIdx i) x + inside r.adr r.bytes.length x = storedShare l x :=
    sum_map_eraseIdx _ hi
  omega

/-- A string whose bytes stay as they are is read as before. -/
theorem Reads.congr {file file' : File} {l : List Stored} (h : Reads file l)
    (hfile : ∀ x, storedShare l x ≠ 0 → file' x = file x) : Reads file' l := by
  intro r hr
  rw [getBytes_congr fun x hx => hfile x ?_]
  · exact h r hr
  · have hle := inside_le_storedShare hr x
    omega

theorem Reads.subset {file : File} {l l' : List Stored} (h : Reads file l) (hl : l' ⊆ l) :
    Reads file l' := fun r hr => h r (hl hr)

variable {c : Conf} {s : Space} {rest : Nat → Nat} {adr : Nat} {key content : Bytes}
  {stack : List (Nat × AvailBlock)} {d : Data}

/-! ## Writing data -/

/-- Data written into a place that is no one else's. -/
theorem SpaceOk.writeData
    (hs : SpaceOk c s 0 stack fun x => rest x + inside adr (key.length + content.length) x)
    (hroomy : Roomy c s.header) :
    SpaceOk c (s.writeData adr key content) 0 stack
        (fun x => rest x + inside adr (key.length + content.length) x) ∧
      Kept rest s (s.writeData adr key content) ∧
      getBytes (s.writeData adr key content).file adr (key ++ content).length =
        some (key ++ content) := by
  have hfile : (s.writeData adr key content).file = putBytes s.file adr (key ++ content) :=
    putBytes_append _ _ _ _
  have hout : ∀ x, rest x + stackShare (blockBytes c s.capacity) stack x ≠ 0 →
      (s.writeData adr key content).file x = s.file x := by
    intro x hx
    have honce := hs.counted.once x
    rw [hfile]
    refine putBytes_outside _ _ _ ?_
    rw [List.length_append]
    omega
  refine ⟨⟨hs.counted.next rfl (fun _ => Nat.le_refl _) hs.counted.header_le
    hs.counted.bucket_le, ?_⟩, ⟨fun x hx => hout x (by omega), SameShape.refl _, Nat.le_refl _,
    id⟩, ?_⟩
  · exact hs.stacked.congr (blockBytes_pos hroomy) fun x hx => hout x (by omega)
  · rw [hfile]
    exact getBytes_put _ _ _

/-- What a call leaves that gives an entry a place and writes its data there. -/
structure Written (c : Conf) (rest : Nat → Nat) (s : Space) (bytes : Bytes) (adr : Nat)
    (s' : Space) : Prop where
  space : ∃ stack, SpaceOk c s' 0 stack fun x => rest x + inside adr bytes.length x
  kept : Kept rest s s'
  read : getBytes s'.file adr bytes.length = some bytes

theorem storeData_spec (hs : SpaceOk c s 0 stack rest) (hroomy : Roomy c s.header) :
    Meets (storeData c s key content)
      (fun p => Written c rest s (key ++ content) p.1 p.2) (· = .size) := by
  unfold storeData
  split
  · exact rfl
  · refine (gdbmAlloc_spec hs hroomy).bind fun p hp => ?_
    obtain ⟨stack', hok, hkept⟩ := hp
    obtain ⟨hok', hwrite, hread⟩ := hok.writeData (hroomy.same hkept.shape)
    refine ⟨⟨stack', ?_⟩, hkept.trans hwrite fun _ => id, hread⟩
    rw [List.length_append]
    exact hok'

theorem replaceData_spec {old : Stored}
    (hs : SpaceOk c s 0 stack fun x => rest x + inside old.adr old.bytes.length x)
    (hroomy : Roomy c s.header) :
    Meets (replaceData c s old key content)
      (fun p => Written c rest s (key ++ content) p.1 p.2) (· = .size) := by
  unfold replaceData
  split
  · refine (gdbmFree_spec hs hroomy).bind fun t ht => ?_
    obtain ⟨stack', hok, hkept⟩ := ht
    refine (storeData_spec hok (hroomy.same hkept.shape)).imp fun p hp => ?_
    exact ⟨hp.space, hkept.trans hp.kept fun _ => id, hp.read⟩
  · next hsame =>
      split
      · -- the place is lost
        have hless : SpaceOk c s 0 stack rest :=
          hs.of_counted (hs.counted.mono fun x => by omega) rfl (SameShape.refl _) rfl
        exact storeData_spec hless hroomy
      · have hlen : old.bytes.length = key.length + content.length := Decidable.not_not.mp hsame
        rw [hlen] at hs
        obtain ⟨hok, hkept, hread⟩ := hs.writeData hroomy
        refine ⟨⟨stack, ?_⟩, hkept, hread⟩
        rw [List.length_append]
        exact hok

/-! ## Runs -/

/-- The accounts can be set out in another way. -/
theorem SpaceOk.recount {rest' : Nat → Nat} (hs : SpaceOk c s 0 stack rest)
    (hle : ∀ x, rest' x ≤ rest x) : SpaceOk c s 0 stack rest' :=
  hs.of_counted (hs.counted.mono fun x => Nat.add_le_add_right (hle x) _) rfl (SameShape.refl _)
    rfl

/-- The string at `i` set apart. -/
theorem Inv.apart (hd : Inv c d) {i : Nat} {r : Stored} (hi : d.stored[i]? = some r) :
    ∃ stack, SpaceOk c d.space 0 stack fun x =>
      d.restWith (d.stored.eraseIdx i) x + inside r.adr r.bytes.length x := by
  obtain ⟨stack, hs⟩ := hd.space
  refine ⟨stack, hs.recount fun x => ?_⟩
  have hsum : storedShare (d.stored.eraseIdx i) x + inside r.adr r.bytes.length x =
      storedShare d.stored x := sum_map_eraseIdx _ hi
  unfold Data.rest Data.restWith
  omega

/-- The space has changed, and some strings are gone. -/
theorem Inv.setSpace (hd : Inv c d) {l : List Stored} (hl : l ⊆ d.stored) {s' : Space}
    (hs : SpaceOk c s' 0 stack (d.restWith l)) (hkept : Kept (d.restWith l) d.space s') :
    Inv c { d with space := s', stored := l } where
  space := ⟨stack, hs.recount fun x => by
    show inside 0 s'.header.blockSize x + _ + _ ≤ d.restWith l x
    rw [hkept.shape.blockSize]
    exact Nat.le_refl _⟩
  roomy := hd.roomy.same hkept.shape
  others := hd.others
  reads := (hd.reads.subset hl).congr fun x hx => hkept.file x (by unfold Data.restWith; omega)

/-- A string has been written. -/
theorem Inv.add (hd : Inv c d) {l : List Stored} (hl : l ⊆ d.stored) {bytes : Bytes}
    {p : Nat × Space} (hp : Written c (d.restWith l) d.space bytes p.1 p.2) :
    Inv c (d.add l bytes p) := by
  obtain ⟨stack, hs⟩ := hp.space
  have hrest : Inv c { d with space := p.2, stored := l } :=
    hd.setSpace hl (hs.recount fun x => Nat.le_add_right _ _) hp.kept
  refine ⟨⟨stack, hs.recount fun x => ?_⟩, hrest.roomy, hd.others, ?_⟩
  · show inside 0 p.2.header.blockSize x + _ + storedShare (l ++ [⟨p.1, bytes⟩]) x ≤ _
    rw [hp.kept.shape.blockSize, storedShare_snoc]
    unfold Data.restWith
    exact Nat.le_of_eq (Nat.add_assoc _ _ _).symm
  · intro r hr
    rcases List.mem_append.mp hr with hr | hr
    · exact hrest.reads r hr
    · obtain rfl := List.mem_singleton.mp hr
      exact hp.read

/-- Space has gone from the list of the current bucket, or from a string, to that of another
bucket, or the other way. -/
theorem Inv.setOther (hd : Inv c d) {j : Nat} {l l' current : List AvailElem}
    {stored : List Stored} (hj : d.others[j]? = some l) (hl' : l'.length ≤ maxBucketAvail)
    (hcurrent : current.length ≤ maxBucketAvail) (hstored : stored ⊆ d.stored)
    (hshare : ∀ x, share l' x + share current x + storedShare stored x ≤
      share l x + share d.space.bucketAvail x + storedShare d.stored x) :
    Inv c ⟨{ d.space with bucketAvail := current }, d.others.set j l', stored⟩ := by
  obtain ⟨stack, hs⟩ := hd.space
  refine ⟨⟨stack, hs.of_counted (hs.counted.next rfl (fun x => ?_) hs.counted.header_le hcurrent)
    rfl (SameShape.refl _) rfl⟩, hd.roomy, ?_, hd.reads.subset hstored⟩
  · have hset : othersShare (d.others.set j l') x + share l x =
        othersShare d.others x + share l' x := sum_map_set (fun t => share t x) hj _
    have hx := hshare x
    show inside 0 d.space.header.blockSize x + othersShare (d.others.set j l') x +
        storedShare stored x + _ + (share d.space.table x + share current x) ≤
      inside 0 d.space.header.blockSize x + othersShare d.others x + storedShare d.stored x + _ +
        (share d.space.table x + share d.space.bucketAvail x)
    omega
  · intro t ht
    rcases List.mem_or_eq_of_mem_set ht with ht | rfl
    · exact hd.others t ht
    · exact hl'

/-- The current bucket's list and that of another one change places. -/
theorem Inv.turn (hd : Inv c d) {j : Nat} {l : List AvailElem} (hj : d.others[j]? = some l) :
    Inv c ⟨{ d.space with bucketAvail := l }, d.others.set j d.space.bucketAvail, d.stored⟩ := by
  obtain ⟨stack, hs⟩ := hd.space
  exact hd.setOther hj hs.counted.bucket_le (hd.others l (List.mem_of_getElem? hj))
    (List.Subset.refl _) fun x => by omega

/-- The header has been written. -/
theorem Inv.endUpdate (hd : Inv c d) :
    Inv c { d with space := { d.space with headerChanged := false } } where
  space := by
    obtain ⟨stack, hs⟩ := hd.space
    exact ⟨stack, hs.of_counted (hs.counted.next rfl (fun _ => Nat.le_refl _)
      hs.counted.header_le hs.counted.bucket_le) rfl (SameShape.refl _) rfl⟩
  roomy := hd.roomy
  others := hd.others
  reads := hd.reads

/-- A new bucket has a block, which no one had before. -/
theorem Inv.grow (hd : Inv c d) {p : Nat × Space}
    (hok : SpaceOk c p.2 0 stack fun x => d.rest x + inside p.1 d.space.header.blockSize x)
    (hkept : Kept d.rest d.space p.2) :
    Inv c ⟨p.2, [⟨d.space.header.blockSize, p.1⟩] :: d.others, d.stored⟩ where
  space := ⟨stack, hok.recount fun x => by
    have hnew : share [⟨d.space.header.blockSize, p.1⟩] x =
        inside p.1 d.space.header.blockSize x := share_cons _ _ x
    show inside 0 p.2.header.blockSize x +
        (share [⟨d.space.header.blockSize, p.1⟩] x + othersShare d.others x) +
        storedShare d.stored x ≤ inside 0 d.space.header.blockSize x + othersShare d.others x +
        storedShare d.stored x + inside p.1 d.space.header.blockSize x
    rw [hkept.shape.blockSize, hnew]
    omega⟩
  roomy := hd.roomy.same hkept.shape
  others := List.forall_mem_cons.mpr ⟨(by decide : 1 ≤ maxBucketAvail), hd.others⟩
  reads := hd.reads.congr fun x hx => hkept.file x (by unfold Data.rest Data.restWith; omega)

/-- The first element of the current bucket has gone to another one. -/
theorem Inv.shed (hd : Inv c d) {j : Nat} {l : List AvailElem} (hj : d.others[j]? = some l) :
    Meets (d.shed j l) (Inv c) (· = .size) := by
  obtain ⟨stack, hs⟩ := hd.space
  unfold Data.shed
  split
  · exact hd
  · next el els hlist =>
      split
      · next hroom =>
          refine (putInto_spec el false hroom _).bind fun l' hl' => ?_
          obtain ⟨hlen, -, hshare⟩ := hl'
          have hbucket := hs.counted.bucket_le
          rw [hlist] at hbucket
          refine hd.setOther hj hlen (Nat.le_of_succ_le hbucket) (List.Subset.refl _) fun x => ?_
          have hx := hshare x
          show share l' x + share els x + storedShare d.stored x ≤
            share l x + share d.space.bucketAvail x + storedShare d.stored x
          rw [hlist, share_cons]
          omega
      · exact hd

/-- The place of a string has gone to another bucket. -/
theorem Inv.give (hd : Inv c d) {i j : Nat} {r : Stored} {l : List AvailElem}
    (hi : d.stored[i]? = some r) (hj : d.others[j]? = some l) :
    Meets (d.give i j r l) (Inv c) (· = .size) := by
  obtain ⟨stack, hs⟩ := hd.space
  unfold Data.give
  split
  · next hroom =>
      refine (putInto_spec ⟨r.bytes.length, r.adr⟩ false hroom _).bind fun l' hl' => ?_
      obtain ⟨hlen, -, hshare⟩ := hl'
      refine hd.setOther hj hlen hs.counted.bucket_le (fun _ h => List.mem_of_mem_eraseIdx h)
        fun x => ?_
      have hx : share l' x ≤ inside r.adr r.bytes.length x + share l x := hshare x
      have hsum : storedShare (d.stored.eraseIdx i) x + inside r.adr r.bytes.length x =
          storedShare d.stored x := sum_map_eraseIdx _ hi
      show share l' x + share d.space.bucketAvail x + storedShare (d.stored.eraseIdx i) x ≤
        share l x + share d.space.bucketAvail x + storedShare d.stored x
      omega
  · exact hd

/-- **One event.** -/
theorem Inv.step (hd : Inv c d) (e : Event) : Meets (step c d e) (Inv c) (· = .size) := by
  obtain ⟨stack, hs⟩ := hd.space
  cases e with
  | store key content =>
      exact (storeData_spec hs hd.roomy).bind fun p hp => hd.add (List.Subset.refl _) hp
  | delete i =>
      show Meets (d.stored[i]?.elim _ _) _ _
      cases hi : d.stored[i]? with
      | none => exact hd
      | some r =>
          obtain ⟨stack', hapart⟩ := hd.apart hi
          refine (gdbmFree_spec hapart hd.roomy).bind fun t ht => ?_
          obtain ⟨stack'', hok, hkept⟩ := ht
          exact hd.setSpace (fun _ h => List.mem_of_mem_eraseIdx h) hok hkept
  | replace i key content =>
      show Meets (d.stored[i]?.elim _ _) _ _
      cases hi : d.stored[i]? with
      | none => exact hd
      | some r =>
          obtain ⟨stack', hapart⟩ := hd.apart hi
          exact (replaceData_spec hapart hd.roomy).bind fun p hp =>
            hd.add (fun _ h => List.mem_of_mem_eraseIdx h) hp
  | turn j =>
      show Meets (d.others[j]?.elim _ _) _ _
      cases hj : d.others[j]? with
      | none => exact hd
      | some l => exact hd.turn hj
  | endUpdate => exact hd.endUpdate
  | grow =>
      refine (gdbmAlloc_spec hs hd.roomy).bind fun p hp => ?_
      obtain ⟨stack', hok, hkept⟩ := hp
      exact hd.grow hok hkept
  | shed j =>
      show Meets (d.others[j]?.elim _ _) _ _
      cases hj : d.others[j]? with
      | none => exact hd
      | some l => exact hd.shed hj
  | give i j =>
      show Meets (d.stored[i]?.elim _ _) _ _
      cases hi : d.stored[i]? with
      | none => exact hd
      | some r =>
          show Meets (d.others[j]?.elim _ _) _ _
          cases hj : d.others[j]? with
          | none => exact hd
          | some l => exact hd.give hi hj

/-- Any number of events. -/
theorem Inv.steps (hd : Inv c d) (es : List Event) :
    Meets (steps c d es) (Inv c) (· = .size) := by
  induction es generalizing d with
  | nil => exact hd
  | cons e es ih => exact (hd.step e).bind fun d' hd' => ih hd'

theorem Inv.separate (hd : Inv c d) : Separate d := by
  obtain ⟨stack, hs⟩ := hd.space
  refine ⟨fun x => ?_, fun x hx => ?_, hd.reads⟩
  · have honce := hs.counted.once x
    omega
  · have hbeyond := hs.counted.beyond x hx
    omega

/-- The sizes of a new file: the list in its header has seven places or more, and the directory
and the bucket have a block each. -/
structure Fits (c : Conf) (blockSize : Nat) (dir bucket : Bytes) : Prop where
  availElem : 0 < c.availElem
  availBlock : 0 < c.availBlock
  header : c.fileHeader + 6 * c.availElem ≤ blockSize
  block : 0 < blockSize
  dir : dir.length = blockSize
  bucket : bucket.length = blockSize

variable {blockSize : Nat} {dir bucket : Bytes}

theorem reads_create (hfits : Fits c blockSize dir bucket) :
    Reads (create c blockSize dir bucket).space.file (create c blockSize dir bucket).stored := by
  refine List.forall_mem_cons.mpr ⟨?_, List.forall_mem_singleton.mpr (getBytes_put _ _ _)⟩
  show getBytes (putBytes _ (2 * blockSize) bucket) blockSize dir.length = some dir
  rw [getBytes_congr fun x hx => putBytes_outside _ _ _ ?_]
  · exact getBytes_put _ _ _
  · -- the bucket is behind the directory
    rw [hfits.dir] at hx
    refine inside_of_le ?_
    unfold inside at hx
    split at hx <;> omega

theorem inv_create (hfits : Fits c blockSize dir bucket) :
    Inv c (create c blockSize dir bucket) where
  space := by
    -- each has a block of its own
    have hall : ∀ x, (create c blockSize dir bucket).rest x +
        (create c blockSize dir bucket).space.loose x = inside 0 (4 * blockSize) x := by
      intro x
      show inside 0 blockSize x + 0 + (inside blockSize dir.length x +
        (inside (2 * blockSize) bucket.length x + 0)) +
          (0 + (inside (3 * blockSize) blockSize x + 0)) = _
      rw [hfits.dir, hfits.bucket]
      unfold inside
      split <;> split <;> split <;> split <;> split <;> omega
    refine ⟨[], ⟨⟨fun x => ?_, fun x hx => ?_, Nat.zero_le _, (by decide : 1 ≤ maxBucketAvail)⟩,
      rfl⟩⟩
    · have hone : inside 0 (4 * blockSize) x ≤ 1 := inside_le_one
      rw [stackShare_nil, Nat.add_zero, hall x]
      exact hone
    · have hx : 4 * blockSize ≤ x := hx
      rw [stackShare_nil, Nat.add_zero, hall x]
      exact if_neg (by omega)
  roomy := by
    refine ⟨hfits.block, ?_, hfits.availBlock⟩
    have hheader := hfits.header
    have hsix : 6 ≤ (blockSize - c.fileHeader) / c.availElem :=
      (Nat.le_div_iff_mul_le hfits.availElem).mpr (by omega)
    exact Nat.succ_le_succ hsix
  others := fun l hl => absurd hl List.not_mem_nil
  reads := reads_create hfits

/-- **No byte is given out twice, and what is stored is read back**, whatever happens to the space
of a file; and the only error is that the file gets too large. -/
theorem gdbm_data (c : Conf) (hfits : Fits c blockSize dir bucket) (es : List Event) :
    Meets (steps c (create c blockSize dir bucket) es) Separate (· = .size) :=
  ((inv_create hfits).steps es).imp fun _ hd => hd.separate

/-- The sizes where `off_t` has eight bytes. -/
def conf64 : Conf := ⟨16, 32, 72, false, false⟩

/-- A file with the smallest blocks. -/
def create512 : Data := create conf64 512 (List.replicate 512 0) (List.replicate 512 0)

/-- The place of an entry that was deleted is the place of the next one. -/
theorem gdbm_data_deleted :
    (steps conf64 create512 [.store [1] [2, 3, 4, 5, 6, 7], .endUpdate, .delete 2,
      .store [5] [6, 7]]).isOk = true ∧
    Meets (steps conf64 create512 [.store [1] [2, 3, 4, 5, 6, 7], .endUpdate, .delete 2,
      .store [5] [6, 7]]) Separate (· = .size) := by
  refine ⟨by decide, gdbm_data conf64 ⟨?_, ?_, ?_, ?_, ?_, ?_⟩ _⟩
  · exact Nat.succ_pos 15
  · exact Nat.succ_pos 31
  · exact (by decide : 72 + 6 * 16 ≤ 512)
  · exact Nat.succ_pos 511
  · exact List.length_replicate
  · exact List.length_replicate

end Nsdci.Gdbm
