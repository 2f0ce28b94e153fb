import Nsdci.Gdbm

/-!
# No byte is given out twice

Each byte of the file belongs to at most one of the following: the rest of the database (`rest`
counts how often), an element of the free lists, a block of free space in the file (`SpaceOk`). An
allocation moves a region to the rest, and `_gdbm_free` moves one back; both leave the bytes of the
rest as they are (`Kept`), and neither writes behind the end of a table nor reads anything but a
block of free space for one.
-/

namespace Nsdci.Gdbm

open Lib

/-- The region of an element. -/
def AvailElem.at (e : AvailElem) (x : Nat) : Nat := inside e.adr e.size x

/-- How often a byte is in the elements of a list. -/
def share (l : List AvailElem) (x : Nat) : Nat := (l.map (·.at x)).sum

@[simp] theorem share_nil (x : Nat) : share [] x = 0 := rfl

@[simp] theorem share_cons (e : AvailElem) (l : List AvailElem) (x : Nat) :
    share (e :: l) x = e.at x + share l x := List.sum_cons

@[simp] theorem share_append (l l' : List AvailElem) (x : Nat) :
    share (l ++ l') x = share l x + share l' x := by
  unfold share
  rw [List.map_append, List.sum_append]

/-- The lists of the header and of the current bucket. -/
def Space.loose (s : Space) (x : Nat) : Nat := share s.table x + share s.bucketAvail x

/-! ## The lists -/

theorem share_getAvElem (size : Nat) (l : List AvailElem) (x : Nat) :
    (getAvElem size l).1.at x + share (getAvElem size l).2 x = share l x := by
  induction l with
  | nil => exact (inside_zero : inside 0 0 x = 0)
  | cons e l ih =>
      unfold getAvElem
      split
      · show (getAvElem size l).1.at x + (e.at x + share (getAvElem size l).2 x) = _
        rw [share_cons]
        omega
      · rfl

theorem size_getAvElem (size : Nat) (l : List AvailElem) (h : (getAvElem size l).1.size ≠ 0) :
    size ≤ (getAvElem size l).1.size := by
  induction l with
  | nil => exact absurd rfl h
  | cons e l ih =>
      by_cases hlt : e.size < size
      · simp only [getAvElem, hlt, if_true] at h ⊢
        exact ih h
      · simp only [getAvElem, hlt, if_false]
        exact Nat.le_of_not_lt hlt

theorem length_getAvElem (size : Nat) (l : List AvailElem) :
    (getAvElem size l).2.length ≤ l.length := by
  induction l with
  | nil => exact Nat.le_refl 0
  | cons e l ih =>
      unfold getAvElem
      split
      · simpa using ih
      · simp

/-- The elements of the bucket are of size 0 or more, so the first one is taken. -/
theorem length_getAvElem_zero {l : List AvailElem} (h : l ≠ []) :
    (getAvElem 0 l).2.length + 1 = l.length := by
  obtain ⟨e, l, rfl⟩ := List.exists_cons_of_ne_nil h
  rfl

theorem mergeAvElem_spec {new : AvailElem} {l l' : List AvailElem}
    (h : mergeAvElem new l = some l') :
    l'.length = l.length ∧ ∀ x, share l' x = new.at x + share l x := by
  induction l generalizing l' with
  | nil => exact absurd h.symm (Option.some_ne_none l')
  | cons e l ih =>
      unfold mergeAvElem at h
      split at h
      · next hbefore =>
          obtain rfl := Option.some.inj h
          refine ⟨rfl, fun x => ?_⟩
          have hjoin := inside_add e.adr e.size new.size x
          rw [hbefore] at hjoin
          rw [share_cons, share_cons]
          show inside e.adr (e.size + new.size) x + _ =
            inside new.adr new.size x + (inside _ _ x + _)
          omega
      · split at h
        · next hbehind =>
            obtain rfl := Option.some.inj h
            refine ⟨rfl, fun x => ?_⟩
            have hjoin := inside_add new.adr new.size e.size x
            rw [hbehind] at hjoin
            rw [share_cons, share_cons]
            show inside new.adr (e.size + new.size) x + _ =
              inside new.adr new.size x + (inside _ _ x + _)
            rw [Nat.add_comm e.size]
            omega
        · obtain ⟨l'', hl'', rfl⟩ := Option.map_eq_some_iff.mp h
          obtain ⟨hlen, hshare⟩ := ih hl''
          refine ⟨by rw [List.length_cons, List.length_cons, hlen], fun x => ?_⟩
          rw [share_cons, share_cons, hshare x]
          omega

theorem insertAvElem_spec (new : AvailElem) (l : List AvailElem) :
    (insertAvElem new l).length = l.length + 1 ∧
      ∀ x, share (insertAvElem new l) x = new.at x + share l x := by
  induction l with
  | nil => exact ⟨rfl, fun _ => rfl⟩
  | cons e l ih =>
      unfold insertAvElem
      split
      · refine ⟨by rw [List.length_cons, List.length_cons, ih.1], fun x => ?_⟩
        rw [share_cons, share_cons, ih.2 x]
        omega
      · exact ⟨rfl, fun x => rfl⟩

/-- An element goes to the list, or is too small and is lost. -/
theorem putAvElem_spec (new : AvailElem) (l : List AvailElem) (canMerge : Bool) :
    (putAvElem new l canMerge).length ≤ l.length + 1 ∧
      ∀ x, share (putAvElem new l canMerge) x ≤ new.at x + share l x := by
  unfold putAvElem
  split
  · exact ⟨Nat.le_succ _, fun x => Nat.le_add_left _ _⟩
  · cases hmerge : (if canMerge then mergeAvElem new l else none) with
    | none =>
        obtain ⟨hlen, hshare⟩ := insertAvElem_spec new l
        exact ⟨Nat.le_of_eq hlen, fun x => Nat.le_of_eq (hshare x)⟩
    | some l' =>
        have hsome : mergeAvElem new l = some l' := by
          split at hmerge
          · exact hmerge
          · exact absurd hmerge.symm (Option.some_ne_none l')
        obtain ⟨hlen, hshare⟩ := mergeAvElem_spec hsome
        exact ⟨Nat.le_succ_of_le (Nat.le_of_eq hlen), fun x => Nat.le_of_eq (hshare x)⟩

/-- Where there is room, the table is not left. -/
theorem putInto_spec {capacity : Nat} (new : AvailElem) {l : List AvailElem} (canMerge : Bool)
    (hroom : l.length < capacity) (E : Stop → Prop) :
    Meets (putInto capacity new l canMerge)
      (fun l' => l'.length ≤ capacity ∧ l'.length ≤ l.length + 1 ∧
        ∀ x, share l' x ≤ new.at x + share l x) E := by
  obtain ⟨hlen, hshare⟩ := putAvElem_spec new l canMerge
  have hle : (putAvElem new l canMerge).length ≤ capacity := by omega
  unfold putInto
  rw [if_pos hle]
  exact ⟨hle, hlen, hshare⟩

theorem halves_spec (l : List AvailElem) :
    (halves l).2.length = l.length / 2 ∧
      ∀ x, share (halves l).1 x + share (halves l).2 x ≤ share l x := by
  induction l using halves.induct with
  | case1 => exact ⟨rfl, fun _ => Nat.le_refl 0⟩
  | case2 a => exact ⟨by simp [halves], fun _ => Nat.zero_le _⟩
  | case3 a b es ih =>
      rw [halves]
      refine ⟨?_, fun x => ?_⟩
      · simp only [List.length_cons, ih.1]
        omega
      · have hx := ih.2 x
        simp only [share_cons]
        omega

/-! ## The blocks in the file -/

/-- The blocks of free space behind an address of the chain, up to another. -/
def Stacked (file : File) (size base : Nat) : Nat → List (Nat × AvailBlock) → Prop
  | p, [] => p = base
  | p, (a, b) :: st =>
      p = a ∧ getRecord file a size = some b ∧ Stacked file size base b.nextBlock st

/-- How often a byte is in these blocks and in the elements in them. -/
def stackShare (size : Nat) (stack : List (Nat × AvailBlock)) (x : Nat) : Nat :=
  (stack.map fun p => inside p.1 size x + share p.2.table x).sum

@[simp] theorem stackShare_nil (size x : Nat) : stackShare size [] x = 0 := rfl

@[simp] theorem stackShare_cons (size a : Nat) (b : AvailBlock) (st : List (Nat × AvailBlock))
    (x : Nat) : stackShare size ((a, b) :: st) x =
      inside a size x + share b.table x + stackShare size st x := List.sum_cons

theorem Stacked.congr {file file' : File} {size base p : Nat} {stack : List (Nat × AvailBlock)}
    (h : Stacked file size base p stack) (hsize : 0 < size)
    (hfile : ∀ x, stackShare size stack x ≠ 0 → file' x = file x) :
    Stacked file' size base p stack := by
  induction stack generalizing p with
  | nil => exact h
  | cons q stack ih =>
      obtain ⟨a, b⟩ := q
      obtain ⟨hp, hread, hrest⟩ := h
      refine ⟨hp, ?_, ih hrest fun x hx => hfile x ?_⟩
      · rw [getRecord_congr hsize fun x hx => hfile x ?_]
        · exact hread
        · rw [stackShare_cons]
          omega
      · rw [stackShare_cons]
        omega

/-! ## Accounts -/

/-- No byte belongs to two, and none behind the end of the file belongs to any. -/
structure Counted (s : Space) (rest : Nat → Nat) : Prop where
  once : ∀ x, rest x + s.loose x ≤ 1
  beyond : ∀ x, s.header.nextBlock ≤ x → rest x + s.loose x = 0
  header_le : s.table.length ≤ s.capacity
  bucket_le : s.bucketAvail.length ≤ maxBucketAvail

/-- The blocks in the file are accounted for as well. -/
structure SpaceOk (c : Conf) (s : Space) (base : Nat) (stack : List (Nat × AvailBlock))
    (rest : Nat → Nat) : Prop where
  counted : Counted s fun x => rest x + stackShare (blockBytes c s.capacity) stack x
  stacked : Stacked s.file (blockBytes c s.capacity) base s.header.avail.nextBlock stack

/-- The sizes that the free lists need. -/
structure Roomy (c : Conf) (h : Header) : Prop where
  block : 0 < h.blockSize
  avail : 7 ≤ h.avail.size
  availBlock : 0 < c.availBlock

/-- Nothing but the free space has changed in the header. -/
structure SameShape (h h' : Header) : Prop where
  blockSize : h'.blockSize = h.blockSize
  capacity : h'.avail.size = h.avail.size

/-- What the rest of the database has in the file is as it was. -/
structure Kept (rest : Nat → Nat) (s s' : Space) : Prop where
  file : ∀ x, rest x ≠ 0 → s'.file x = s.file x
  shape : SameShape s.header s'.header
  next : s.header.nextBlock ≤ s'.header.nextBlock
  flag : s.headerChanged = true → s'.headerChanged = true

theorem SameShape.refl (h : Header) : SameShape h h := ⟨rfl, rfl⟩

theorem SameShape.trans {h h' h'' : Header} (h1 : SameShape h h') (h2 : SameShape h' h'') :
    SameShape h h'' :=
  ⟨h2.blockSize.trans h1.blockSize, h2.capacity.trans h1.capacity⟩

theorem Kept.refl (rest : Nat → Nat) (s : Space) : Kept rest s s :=
  ⟨fun _ _ => rfl, SameShape.refl _, Nat.le_refl _, id⟩

theorem Kept.trans {rest rest' : Nat → Nat} {s s' s'' : Space} (h1 : Kept rest s s')
    (h2 : Kept rest' s' s'') (hrest : ∀ x, rest x ≠ 0 → rest' x ≠ 0) : Kept rest s s'' :=
  ⟨fun x hx => (h2.file x (hrest x hx)).trans (h1.file x hx), h1.shape.trans h2.shape,
    h1.next.trans h2.next, h2.flag ∘ h1.flag⟩

variable {c : Conf} {s s' : Space} {rest rest' : Nat → Nat} {base adr n : Nat}
  {stack : List (Nat × AvailBlock)}

theorem Roomy.same {h h' : Header} (hr : Roomy c h) (hs : SameShape h h') : Roomy c h' where
  block := hs.blockSize ▸ hr.block
  avail := hs.capacity ▸ hr.avail
  availBlock := hr.availBlock

theorem blockBytes_pos (hr : Roomy c s.header) : 0 < blockBytes c s.capacity :=
  Nat.lt_of_lt_of_le hr.availBlock (Nat.le_add_left _ _)

/-- Less is accounted for. -/
theorem Counted.mono (h : Counted s rest) (hle : ∀ x, rest' x ≤ rest x) : Counted s rest' where
  once := fun x => (Nat.add_le_add_right (hle x) _).trans (h.once x)
  beyond := fun x hx => by
    have hbeyond := h.beyond x hx
    have hlex := hle x
    omega
  header_le := h.header_le
  bucket_le := h.bucket_le

/-- A change of the lists, of what the database has, and of the end of the file. -/
theorem Counted.next (h : Counted s rest) (hend : s'.header.nextBlock = s.header.nextBlock)
    (hshare : ∀ x, rest' x + s'.loose x ≤ rest x + s.loose x)
    (hheader : s'.table.length ≤ s'.capacity) (hbucket : s'.bucketAvail.length ≤ maxBucketAvail) :
    Counted s' rest' where
  once := fun x => (hshare x).trans (h.once x)
  beyond := fun x hx => by
    have hbeyond := h.beyond x (hend ▸ hx)
    have hx := hshare x
    omega
  header_le := hheader
  bucket_le := hbucket

/-! ## More blocks -/

theorem le_coverBlocks {blockSize size : Nat} (hblock : 0 < blockSize) {fuel k : Nat}
    (h : size ≤ k + fuel) : size ≤ coverBlocks blockSize size fuel k := by
  induction fuel generalizing k with
  | zero => exact h
  | succ fuel ih =>
      unfold coverBlocks
      split
      · exact ih (by omega)
      · omega

/-- What stays as it is when blocks are added. -/
structure Extended (s s' : Space) : Prop where
  file : s'.file = s.file
  header : s'.header = { s.header with nextBlock := s'.header.nextBlock }
  next : s.header.nextBlock ≤ s'.header.nextBlock
  flag : s.headerChanged = true → s'.headerChanged = true

/-- The new blocks are behind the end of the file. -/
theorem getBlock_spec (hs : Counted s rest) (hroomy : Roomy c s.header) (size : Nat) :
    Meets (getBlock size s)
      (fun p => Counted p.2 (fun x => rest x + p.1.at x) ∧ size ≤ p.1.size ∧ Extended s p.2)
      (· = .size) := by
  unfold getBlock
  split
  · exact rfl
  · refine ⟨⟨fun x => ?_, fun x hx => ?_, hs.header_le, hs.bucket_le⟩,
      le_coverBlocks hroomy.block (Nat.le_add_left _ _), rfl, rfl, Nat.le_add_right _ _,
      fun _ => rfl⟩
    · show rest x + inside s.header.nextBlock (blocksFor s.header size) x + s.loose x ≤ 1
      have honce := hs.once x
      by_cases hx : x < s.header.nextBlock
      · rw [inside_of_le hx]
        omega
      · have hbeyond := hs.beyond x (by omega)
        have hone : inside s.header.nextBlock (blocksFor s.header size) x ≤ 1 := inside_le_one
        omega
    · have hbeyond := hs.beyond x (Nat.le_of_add_right_le hx)
      show rest x + inside s.header.nextBlock (blocksFor s.header size) x + s.loose x = 0
      have hout : inside s.header.nextBlock (blocksFor s.header size) x = 0 :=
        if_neg fun hin => absurd hin.2 (Nat.not_lt.mpr hx)
      omega

/-- An element that was found and is large enough, or blocks. -/
theorem orBlock_spec {el : AvailElem} (hs : Counted s fun x => rest x + el.at x)
    (hroomy : Roomy c s.header) {size : Nat} (hel : el.size ≠ 0 → size ≤ el.size) :
    Meets (orBlock size el s)
      (fun p => Counted p.2 (fun x => rest x + p.1.at x) ∧ size ≤ p.1.size ∧ Extended s p.2)
      (· = .size) := by
  unfold orBlock
  split
  · exact getBlock_spec (hs.mono fun x => Nat.le_add_right _ _) hroomy size
  · next hne => exact ⟨hs, hel hne, rfl, rfl, Nat.le_refl _, id⟩

/-! ## Freeing -/

/-- Only the lists change, and that in the header gets at most `k` elements more. -/
structure Shallow (k : Nat) (s s' : Space) : Prop where
  file : s'.file = s.file
  header : s'.header = { s.header with avail := { s.header.avail with table := s'.table } }
  length : s'.table.length ≤ s.table.length + k
  flag : s.headerChanged = true → s'.headerChanged = true

theorem Shallow.refl (k : Nat) (s : Space) : Shallow k s s :=
  ⟨rfl, rfl, Nat.le_add_right _ _, id⟩

theorem Shallow.trans {j k : Nat} {s'' : Space} (h1 : Shallow j s s') (h2 : Shallow k s' s'') :
    Shallow (j + k) s s'' where
  file := h2.file.trans h1.file
  header := by rw [h2.header, h1.header]
  length := by
    have hone := h1.length
    have htwo := h2.length
    omega
  flag := h2.flag ∘ h1.flag

theorem Shallow.mono {j k : Nat} (h : Shallow j s s') (hle : j ≤ k) : Shallow k s s' where
  file := h.file
  header := h.header
  length := h.length.trans (Nat.add_le_add_left hle _)
  flag := h.flag

/-- An element goes from the current bucket to the header. -/
theorem moveToHeader_spec (hs : Counted s rest) (hne : s.bucketAvail ≠ [])
    (hroom : s.table.length < s.capacity) (E : Stop → Prop) :
    Meets (putInto s.capacity (getAvElem 0 s.bucketAvail).1 s.table c.coalesceBlocks)
      (fun table => Counted { s.setTable table with bucketAvail := (getAvElem 0 s.bucketAvail).2 }
          rest ∧
        Shallow 1 s { s.setTable table with bucketAvail := (getAvElem 0 s.bucketAvail).2 }) E := by
  refine (putInto_spec (getAvElem 0 s.bucketAvail).1 c.coalesceBlocks hroom E).imp ?_
  intro table htable
  obtain ⟨hcap, hone, hshare⟩ := htable
  have hlen := length_getAvElem_zero hne
  refine ⟨hs.next rfl (fun x => ?_) hcap ?_, rfl, rfl, hone, id⟩
  · have hget := share_getAvElem 0 s.bucketAvail x
    have hput := hshare x
    show rest x + (share table x + share (getAvElem 0 s.bucketAvail).2 x) ≤
      rest x + (share s.table x + share s.bucketAvail x)
    omega
  · have hbucket := hs.bucket_le
    show (getAvElem 0 s.bucketAvail).2.length ≤ maxBucketAvail
    omega

theorem adjustLoop_spec (fuel : Nat) (hs : Counted s rest) (E : Stop → Prop) :
    Meets (adjustLoop c fuel s)
      (fun s' => Counted s' rest ∧
        Shallow (s.bucketAvail.length - (maxBucketAvail - maxBucketAvail / 3)) s s') E := by
  induction fuel generalizing s with
  | zero => exact ⟨hs, Shallow.refl _ _⟩
  | succ fuel ih =>
      unfold adjustLoop
      split
      · next hmore =>
          have hne : s.bucketAvail ≠ [] := by
            intro hnil
            rw [hnil] at hmore
            exact absurd hmore.1 (Nat.not_lt_zero _)
          have hlen := length_getAvElem_zero hne
          refine (moveToHeader_spec hs hne hmore.2 E).bind fun table htable => ?_
          obtain ⟨hcounted, hfirst⟩ := htable
          refine (ih hcounted).imp fun s' hs' => ⟨hs'.1, (hfirst.trans hs'.2).mono ?_⟩
          show 1 + ((getAvElem 0 s.bucketAvail).2.length - _) ≤ _
          omega
      · exact ⟨hs, Shallow.refl _ _⟩

theorem adjustBucketAvail_spec (hs : Counted s rest) (E : Stop → Prop) :
    Meets (adjustBucketAvail c s) (fun s' => Counted s' rest ∧ Shallow 2 s s') E := by
  unfold adjustBucketAvail
  split
  · next hfew =>
      cases hlast : s.table.getLast? with
      | none => exact ⟨hs, Shallow.refl _ _⟩
      | some el =>
          have hroom : s.bucketAvail.length < maxBucketAvail :=
            hfew.trans (by decide)
          refine (putInto_spec el c.coalesceBlocks hroom E).bind fun table htable => ?_
          obtain ⟨hcap, -, hshare⟩ := htable
          have htable : s.table = s.table.dropLast ++ [el] :=
            (List.dropLast_append_getLast? el hlast).symm
          have hlen : s.table.dropLast.length ≤ s.table.length := by
            rw [List.length_dropLast]
            exact Nat.sub_le _ _
          refine ⟨hs.next rfl (fun x => ?_) (hlen.trans hs.header_le) hcap, rfl, rfl,
            hlen.trans (Nat.le_add_right _ _), id⟩
          have hput := hshare x
          have hsplit : share s.table x = share s.table.dropLast x + el.at x := by
            conv_lhs => rw [htable]
            rw [share_append, share_cons, share_nil, Nat.add_zero]
          show rest x + (share s.table.dropLast x + share table x) ≤
            rest x + (share s.table x + share s.bucketAvail x)
          omega
  · refine (adjustLoop_spec s.bucketAvail.length hs E).imp fun s' hs' => ⟨hs'.1, hs'.2.mono ?_⟩
    have hbucket := hs.bucket_le
    unfold maxBucketAvail at *
    omega

/-- An element goes to the list in the header, where there is room. -/
theorem freeToHeader_room (free : Space → Nat → Nat → Except Stop Space) {el : AvailElem}
    (hs : Counted s fun x => rest x + el.at x) (hroom : s.table.length < s.capacity)
    (E : Stop → Prop) :
    Meets (freeToHeader c free el s) (fun s' => Counted s' rest ∧ Shallow 1 s s') E := by
  unfold freeToHeader pushIfFull
  rw [if_neg (Nat.ne_of_lt hroom)]
  refine (putInto_spec el c.coalesceBlocks hroom E).bind fun table htable => ?_
  obtain ⟨hcap, hone, hshare⟩ := htable
  refine ⟨hs.next rfl (fun x => ?_) hcap hs.bucket_le, rfl, rfl, hone, fun _ => rfl⟩
  have hput := hshare x
  show rest x + (share table x + share s.bucketAvail x) ≤
    rest x + el.at x + (share s.table x + share s.bucketAvail x)
  omega

theorem freeToBucket_spec {el : AvailElem} (hs : Counted s fun x => rest x + el.at x)
    (hroom : s.bucketAvail.length < maxBucketAvail) (E : Stop → Prop) :
    Meets (freeToBucket c el s) (fun s' => Counted s' rest ∧ Shallow 1 s s') E := by
  unfold freeToBucket
  refine (putInto_spec el c.coalesceBlocks hroom E).bind fun table htable => ?_
  obtain ⟨hcap, -, hshare⟩ := htable
  refine ⟨hs.next rfl (fun x => ?_) hs.header_le hcap, rfl, rfl, Nat.le_succ _, id⟩
  have hput := hshare x
  show rest x + (share s.table x + share table x) ≤
    rest x + el.at x + (share s.table x + share s.bucketAvail x)
  omega

/-- The list in the header is not full, so nothing is written. -/
theorem freeAt_shallow (depth : Nat) (hs : Counted s fun x => rest x + inside adr n x)
    (hroom : s.table.length < s.capacity) (E : Stop → Prop) :
    Meets (freeAt c (depth + 1) s adr n) (fun s' => Counted s' rest ∧ Shallow 3 s s') E := by
  unfold freeAt
  split
  · exact ⟨hs.mono fun x => Nat.le_add_right _ _, Shallow.refl _ _⟩
  have hheader : Meets (freeToHeader c (freeAt c depth) ⟨n, adr⟩ s)
      (fun t => Counted t rest ∧ Shallow 1 s t) E := freeToHeader_room _ hs hroom E
  refine Meets.bind (P := fun t => Counted t rest ∧ Shallow 1 s t) ?_ fun t ht => ?_
  · split
    · exact hheader
    · split
      · next hbucket => exact freeToBucket_spec hs hbucket E
      · exact hheader
  · split
    · exact (adjustBucketAvail_spec ht.1 E).imp fun s' hs' => ⟨hs'.1, ht.2.trans hs'.2⟩
    · exact ⟨ht.1, ht.2.mono (by omega)⟩

end Nsdci.Gdbm
