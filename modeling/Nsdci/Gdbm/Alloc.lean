import Nsdci.Gdbm.Owned

/-!
# Allocations

What `push_avail_block`, `pop_avail_block`, `_gdbm_free` and `_gdbm_alloc` do to the accounts. A
block that is pushed comes out of the free space itself, and its place in the file is that of no
one else, so it is read back as it was written. Blocks pushed while another one is popped are lost
when the chain goes on behind the one that was popped; their space is then never used again.
-/

namespace Nsdci.Gdbm

open Lib

variable {c : Conf} {s s' : Space} {rest rest' : Nat → Nat} {base adr n : Nat}
  {stack : List (Nat × AvailBlock)}

/-- New accounts over the same blocks in the file. -/
theorem SpaceOk.of_counted (hs : SpaceOk c s base stack rest)
    (hcounted : Counted s' fun x => rest' x + stackShare (blockBytes c s.capacity) stack x)
    (hfile : s'.file = s.file) (hshape : SameShape s.header s'.header)
    (hnext : s'.header.avail.nextBlock = s.header.avail.nextBlock) :
    SpaceOk c s' base stack rest' := by
  have hcap : s'.capacity = s.capacity := hshape.capacity
  refine ⟨?_, ?_⟩
  · rw [hcap]
    exact hcounted
  · rw [hcap, hfile, hnext]
    exact hs.stacked

theorem Extended.shape (h : Extended s s') : SameShape s.header s'.header :=
  ⟨by rw [h.header], by rw [h.header]⟩

theorem Extended.kept (h : Extended s s') (rest : Nat → Nat) : Kept rest s s' :=
  ⟨fun x _ => congrFun h.file x, h.shape, h.next, h.flag⟩

theorem Shallow.shape {k : Nat} (h : Shallow k s s') : SameShape s.header s'.header :=
  ⟨by rw [h.header], by rw [h.header]⟩

theorem Shallow.kept {k : Nat} (h : Shallow k s s') (rest : Nat → Nat) : Kept rest s s' :=
  ⟨fun x _ => congrFun h.file x, h.shape, Nat.le_of_eq (by rw [h.header]), h.flag⟩

theorem Shallow.spaceOk {k : Nat} (h : Shallow k s s') (hs : SpaceOk c s base stack rest)
    (hcounted : Counted s' fun x => rest' x + stackShare (blockBytes c s.capacity) stack x) :
    SpaceOk c s' base stack rest' :=
  hs.of_counted hcounted h.file h.shape (by rw [h.header])

/-- Another list in the header, and nothing else. -/
theorem kept_setTable (rest : Nat → Nat) (s : Space) (table : List AvailElem) :
    Kept rest s (s.setTable table) :=
  ⟨fun _ _ => rfl, ⟨rfl, rfl⟩, Nat.le_refl _, id⟩

/-! ## Blocks of free space -/

/-- The file has one more block. -/
theorem SpaceOk.push {temp : AvailBlock} (hroomy : Roomy c s.header)
    (hcounted : Counted s fun x => rest x +
      stackShare (blockBytes c s.capacity) ((adr, temp) :: stack) x)
    (hstacked : Stacked s.file (blockBytes c s.capacity) base temp.nextBlock stack)
    (hnext : s.header.avail.nextBlock = adr) :
    SpaceOk c { s with file := putRecord s.file adr (blockBytes c s.capacity) temp } base
        ((adr, temp) :: stack) rest ∧
      Kept rest s { s with file := putRecord s.file adr (blockBytes c s.capacity) temp } := by
  have hpos := blockBytes_pos hroomy
  -- the place of the block belongs to no one else
  have hfree : ∀ x, rest x ≠ 0 ∨ stackShare (blockBytes c s.capacity) stack x ≠ 0 →
      putRecord s.file adr (blockBytes c s.capacity) temp x = s.file x := by
    intro x hx
    have honce := hcounted.once x
    simp only [stackShare_cons] at honce
    exact putRecord_outside _ _ (by omega)
  refine ⟨⟨?_, hnext, getRecord_put _ _ hpos _, ?_⟩, fun x hx => hfree x (.inl hx),
    SameShape.refl _, Nat.le_refl _, id⟩
  · exact hcounted.next rfl (fun x => Nat.le_refl _) hcounted.header_le hcounted.bucket_le
  · exact hstacked.congr hpos fun x hx => hfree x (.inr hx)

/-- The list in the header is split: one half of it, and the two parts of the place for the new
block, are accounted for beside what stays. -/
theorem Counted.splitHeader {el : AvailElem} {size : Nat}
    (hs : Counted s fun x => rest x + el.at x) (hsize : size ≤ el.size) :
    Counted (splitHeader el.adr s).2 fun x =>
      rest x + (inside el.adr size x + share (splitHeader el.adr s).1.table x) +
        inside (el.adr + size) (el.size - size) x := by
  obtain ⟨hhalf, hshare⟩ := halves_spec s.table
  refine hs.next rfl (fun x => ?_) ?_ hs.bucket_le
  · have hx := hshare x
    have hat : el.at x = _ := inside_split hsize el.adr x
    rw [hat]
    show rest x + (inside _ _ x + share (halves s.table).1 x) + _ +
        (share (halves s.table).2 x + share s.bucketAvail x) ≤
      _ + (share s.table x + share s.bucketAvail x)
    omega
  · have hle := hs.header_le
    show (halves s.table).2.length ≤ s.capacity
    omega

/-- **A block is pushed.** The list in the header has room behind it. -/
theorem pushAvailBlock_spec (depth : Nat) (hs : SpaceOk c s base stack rest)
    (hroomy : Roomy c s.header) :
    Meets (pushAvailBlock c (freeAt c (depth + 1)) s)
      (fun s' => ∃ stack', SpaceOk c s' base stack' rest ∧ Kept rest s s' ∧
        s'.table.length < s'.capacity) (· = .size) := by
  have htable : s.table.length ≤ s.capacity := hs.counted.header_le
  have havail : 7 ≤ s.capacity := hroomy.avail
  unfold pushAvailBlock
  -- the place of the block
  have hcounted : Counted (s.setTable (getAvElem (blockBytes c s.capacity) s.table).2) fun x =>
      rest x + stackShare (blockBytes c s.capacity) stack x +
        (getAvElem (blockBytes c s.capacity) s.table).1.at x := by
    refine hs.counted.next rfl (fun x => ?_)
      ((length_getAvElem _ _).trans hs.counted.header_le) hs.counted.bucket_le
    have hget := share_getAvElem (blockBytes c s.capacity) s.table x
    show _ + (share (getAvElem (blockBytes c s.capacity) s.table).2 x + share s.bucketAvail x) ≤
      _ + (share s.table x + share s.bucketAvail x)
    omega
  have hset := kept_setTable rest s (getAvElem (blockBytes c s.capacity) s.table).2
  refine (orBlock_spec hcounted (hroomy.same hset.shape) (size_getAvElem _ _)).bind fun p hp => ?_
  obtain ⟨hp, hsize, hext⟩ := hp
  have hlen : p.2.table.length ≤ s.capacity := by
    have heq : p.2.table = (getAvElem (blockBytes c s.capacity) s.table).2 := by
      unfold Space.table
      rw [hext.header]
      rfl
    rw [heq]
    exact (length_getAvElem _ _).trans htable
  have hcap : p.2.capacity = s.capacity := hext.shape.capacity
  have hpnext : p.2.header.avail.nextBlock = s.header.avail.nextBlock := by
    rw [hext.header]
    rfl
  have hhalf := (halves_spec p.2.table).1
  -- the halves of the list, and what is left of the place
  have hsplit : Counted (splitHeader p.1.adr p.2).2 fun x =>
      (rest x + stackShare (blockBytes c s.capacity)
        ((p.1.adr, (splitHeader p.1.adr p.2).1) :: stack) x) +
        inside (p.1.adr + blockBytes c s.capacity) (p.1.size - blockBytes c s.capacity) x :=
    (hp.splitHeader hsize).mono fun x => by
      rw [stackShare_cons]
      omega
  have hroom : (splitHeader p.1.adr p.2).2.table.length <
      (splitHeader p.1.adr p.2).2.capacity := by
    show (halves p.2.table).2.length < p.2.capacity
    omega
  refine (freeAt_shallow depth hsplit hroom _).bind fun t ht => ?_
  obtain ⟨ht, hshallow⟩ := ht
  have htcap : t.capacity = s.capacity := hshallow.shape.capacity.trans hcap
  have hkept : Kept rest s t :=
    ((hset.trans (hext.kept rest) fun _ => id).trans
      (⟨fun _ _ => rfl, ⟨rfl, rfl⟩, Nat.le_refl _, id⟩ :
        Kept rest p.2 (splitHeader p.1.adr p.2).2) fun _ => id).trans (hshallow.kept rest)
      fun _ => id
  have hfile : t.file = s.file := hshallow.file.trans hext.file
  have hstacked : Stacked t.file (blockBytes c t.capacity) base
      (splitHeader p.1.adr p.2).1.nextBlock stack := by
    show Stacked t.file _ base p.2.header.avail.nextBlock stack
    rw [htcap, hfile, hpnext]
    exact hs.stacked
  have htnext : t.header.avail.nextBlock = p.1.adr := by
    rw [hshallow.header]
    rfl
  rw [← htcap] at ht
  obtain ⟨hok, hwrite⟩ := SpaceOk.push (hroomy.same hkept.shape) ht hstacked htnext
  rw [← htcap]
  refine ⟨_, hok, hkept.trans hwrite fun _ => id, ?_⟩
  have htlen := hshallow.length
  have hhalf' : (splitHeader p.1.adr p.2).2.table.length = p.2.table.length / 2 := hhalf
  show t.table.length < t.capacity
  omega

theorem pushIfFull_spec (depth : Nat) (hs : SpaceOk c s base stack rest)
    (hroomy : Roomy c s.header) :
    Meets (pushIfFull c (freeAt c (depth + 1)) s)
      (fun s' => ∃ stack', SpaceOk c s' base stack' rest ∧ Kept rest s s' ∧
        s'.table.length < s'.capacity) (· = .size) := by
  unfold pushIfFull
  split
  · exact pushAvailBlock_spec depth hs hroomy
  · next hne =>
      exact ⟨stack, hs, Kept.refl _ _, Nat.lt_of_le_of_ne hs.counted.header_le hne⟩

/-! ## `_gdbm_free` -/

/-- An element goes to the list in the header. -/
theorem SpaceOk.put {el : AvailElem} {table : List AvailElem}
    (hs : SpaceOk c s base stack fun x => rest x + el.at x) (hlen : table.length ≤ s.capacity)
    (hshare : ∀ x, share table x ≤ el.at x + share s.table x) :
    SpaceOk c (s.setTable table) base stack rest := by
  refine hs.of_counted ?_ rfl ⟨rfl, rfl⟩ rfl
  refine hs.counted.next rfl (fun x => ?_) hlen hs.counted.bucket_le
  have hx := hshare x
  show rest x + _ + (share table x + share s.bucketAvail x) ≤
    rest x + el.at x + _ + (share s.table x + share s.bucketAvail x)
  omega

/-- Whether the header has changed is of no account. -/
theorem SpaceOk.setChanged (hs : SpaceOk c s base stack rest) :
    SpaceOk c { s with headerChanged := true } base stack rest :=
  hs.of_counted (hs.counted.next rfl (fun _ => Nat.le_refl _) hs.counted.header_le
    hs.counted.bucket_le) rfl (SameShape.refl _) rfl

theorem kept_setChanged (rest : Nat → Nat) (s : Space) :
    Kept rest s { s with headerChanged := true } :=
  ⟨fun _ _ => rfl, SameShape.refl _, Nat.le_refl _, fun _ => rfl⟩

theorem freeToHeader_spec {el : AvailElem} (depth : Nat)
    (hs : SpaceOk c s base stack fun x => rest x + el.at x) (hroomy : Roomy c s.header) :
    Meets (freeToHeader c (freeAt c (depth + 1)) el s)
      (fun s' => ∃ stack', SpaceOk c s' base stack' rest ∧ Kept rest s s') (· = .size) := by
  unfold freeToHeader
  refine (pushIfFull_spec depth hs hroomy).bind fun t ht => ?_
  obtain ⟨stack', hok, hkept, hroom⟩ := ht
  refine (putInto_spec el c.coalesceBlocks hroom _).bind fun table htable => ?_
  refine ⟨stack', (hok.put htable.1 htable.2.2).setChanged, ?_⟩
  have hfirst : Kept rest s t :=
    (Kept.refl rest s).trans hkept fun x hx => by omega
  exact (hfirst.trans (kept_setTable rest t table) fun _ => id).trans
    (kept_setChanged rest _) fun _ => id

/-- **`_gdbm_free` gives a region back.** -/
theorem gdbmFree_spec (hs : SpaceOk c s base stack fun x => rest x + inside adr n x)
    (hroomy : Roomy c s.header) :
    Meets (gdbmFree c s adr n)
      (fun s' => ∃ stack', SpaceOk c s' base stack' rest ∧ Kept rest s s') (· = .size) := by
  unfold gdbmFree freeAt
  split
  · refine ⟨stack, hs.of_counted (hs.counted.mono fun x => ?_) rfl (SameShape.refl _) rfl,
      Kept.refl _ _⟩
    omega
  have hheader : Meets (freeToHeader c (freeAt c 1) ⟨n, adr⟩ s)
      (fun s' => ∃ stack', SpaceOk c s' base stack' rest ∧ Kept rest s s') (· = .size) :=
    freeToHeader_spec 0 hs hroomy
  have hplace : Meets (if s.header.blockSize ≤ n ∨ c.centralFree = true then
        freeToHeader c (freeAt c 1) ⟨n, adr⟩ s
      else if s.bucketAvail.length < maxBucketAvail then freeToBucket c ⟨n, adr⟩ s
      else freeToHeader c (freeAt c 1) ⟨n, adr⟩ s)
      (fun s' => ∃ stack', SpaceOk c s' base stack' rest ∧ Kept rest s s') (· = .size) := by
    split
    · exact hheader
    · split
      · next hbucket =>
          have hcounted : Counted s fun x =>
              rest x + stackShare (blockBytes c s.capacity) stack x +
                (⟨n, adr⟩ : AvailElem).at x :=
            hs.counted.mono fun x => by
              show _ + inside adr n x ≤ _
              omega
          exact (freeToBucket_spec hcounted hbucket _).imp fun t ht =>
            ⟨stack, ht.2.spaceOk hs ht.1, ht.2.kept rest⟩
      · exact hheader
  refine hplace.bind fun t ht => ?_
  obtain ⟨stack', hok, hkept⟩ := ht
  split
  · exact (adjustBucketAvail_spec hok.counted _).imp fun u hu =>
      ⟨stack', hu.2.spaceOk hok hu.1, hkept.trans (hu.2.kept rest) fun _ => id⟩
  · exact ⟨stack', hok, hkept⟩

/-! ## `_gdbm_alloc` -/

theorem popLoop_spec {els : List AvailElem}
    (hs : SpaceOk c s base stack fun x => rest x + share els x) (hroomy : Roomy c s.header)
    (hroom : s.table.length < s.capacity) :
    Meets (popLoop c els s)
      (fun s' => ∃ stack', SpaceOk c s' base stack' rest ∧ Kept rest s s') (· = .size) := by
  induction els generalizing s stack with
  | nil => exact ⟨stack, hs, Kept.refl _ _⟩
  | cons el els ih =>
      unfold popLoop
      refine (putInto_spec el true hroom _).bind fun table htable => ?_
      have hel : SpaceOk c s base stack fun x => rest x + share els x + el.at x := by
        have hfun : (fun x => rest x + share els x + el.at x) =
            fun x => rest x + share (el :: els) x := by
          funext x
          rw [share_cons]
          omega
        rw [hfun]
        exact hs
      have hset := kept_setTable rest s table
      refine (pushIfFull_spec 1 (hel.put htable.1 htable.2.2)
        (hroomy.same hset.shape)).bind fun t ht => ?_
      obtain ⟨stack', hok, hkept, hroom'⟩ := ht
      have hfirst : Kept rest s t := hset.trans hkept fun x hx => by omega
      refine (ih hok (hroomy.same hfirst.shape) hroom').imp fun u hu => ?_
      obtain ⟨stack'', hu, hkept'⟩ := hu
      exact ⟨stack'', hu, hfirst.trans hkept' fun _ => id⟩

theorem popAvailBlock_of_get {a : Nat} {b : AvailBlock} (hroom : s.table.length < s.capacity)
    (hp : s.header.avail.nextBlock = a)
    (hget : getRecord s.file a (blockBytes c s.capacity) = some b) :
    popAvailBlock c s = popBlock c ⟨blockBytes c s.capacity, a⟩ b s := by
  subst hp
  unfold popAvailBlock pushIfFull
  rw [if_neg (Nat.ne_of_lt hroom)]
  simp only [bind, Except.bind, hget]

/-- **A block is popped**, and its own place is free. -/
theorem popAvailBlock_spec (hs : SpaceOk c s 0 stack rest) (hroomy : Roomy c s.header)
    (hroom : s.table.length < s.capacity) (hne : s.header.avail.nextBlock ≠ 0) :
    Meets (popAvailBlock c s)
      (fun s' => ∃ stack', SpaceOk c s' 0 stack' rest ∧ Kept rest s s') (· = .size) := by
  cases stack with
  | nil => exact absurd hs.stacked hne
  | cons q stack =>
      obtain ⟨a, b⟩ := q
      obtain ⟨hp, hread, hstacked⟩ := hs.stacked
      rw [popAvailBlock_of_get hroom hp hread]
      unfold popBlock
      -- the chain from the popped block on is set aside while its elements are put back
      have haside : SpaceOk c s a [] fun x => rest x + inside a (blockBytes c s.capacity) x +
          stackShare (blockBytes c s.capacity) stack x + share b.table x := by
        refine ⟨hs.counted.mono fun x => ?_, hp⟩
        rw [stackShare_cons, stackShare_nil]
        omega
      refine (popLoop_spec haside hroomy hroom).bind fun t ht => ?_
      obtain ⟨stack₁, hok, hkept⟩ := ht
      have hcap : t.capacity = s.capacity := hkept.shape.capacity
      -- blocks that were pushed meanwhile are off the chain then, and lost
      have hnext : SpaceOk c { t.setNextAvail b.nextBlock with headerChanged := true } 0 stack
          fun x => rest x + inside a (blockBytes c s.capacity) x := by
        refine ⟨?_, ?_⟩
        · refine hok.counted.next rfl (fun x => ?_) hok.counted.header_le hok.counted.bucket_le
          show rest x + inside a (blockBytes c s.capacity) x +
              stackShare (blockBytes c t.capacity) stack x + t.loose x ≤ _
          rw [hcap]
          omega
        · show Stacked t.file (blockBytes c t.capacity) 0 b.nextBlock stack
          rw [hcap]
          exact hstacked.congr (blockBytes_pos hroomy) fun x hx => hkept.file x (by omega)
      have hrest : Kept rest s t := (Kept.refl rest s).trans hkept fun x hx => by omega
      have hset : Kept rest t { t.setNextAvail b.nextBlock with headerChanged := true } :=
        ⟨fun _ _ => rfl, ⟨rfl, rfl⟩, Nat.le_refl _, fun _ => rfl⟩
      have hsecond := hrest.trans hset fun _ => id
      refine (pushIfFull_spec 1 hnext (hroomy.same hsecond.shape)).bind fun u hu => ?_
      obtain ⟨stack₂, hu, hpush, hroom'⟩ := hu
      refine (putInto_spec ⟨blockBytes c s.capacity, a⟩ true hroom' _).bind fun table htable => ?_
      have hthird : Kept rest s u := hsecond.trans hpush fun x hx => by omega
      have hblock : SpaceOk c u 0 stack₂ fun x =>
          rest x + AvailElem.at ⟨blockBytes c s.capacity, a⟩ x := hu
      exact ⟨stack₂, hblock.put htable.1 htable.2.2,
        hthird.trans (kept_setTable rest u table) fun _ => id⟩

theorem popIfLow_spec (hs : SpaceOk c s 0 stack rest) (hroomy : Roomy c s.header) :
    Meets (popIfLow c s)
      (fun s' => ∃ stack', SpaceOk c s' 0 stack' rest ∧ Kept rest s s') (· = .size) := by
  unfold popIfLow
  split
  · next hlow =>
      have havail : 7 ≤ s.capacity := hroomy.avail
      exact popAvailBlock_spec hs hroomy (by omega) hlow.2
  · exact ⟨stack, hs, Kept.refl _ _⟩

theorem allocFromHeader_spec (hs : SpaceOk c s 0 stack rest) (hroomy : Roomy c s.header) :
    Meets (allocFromHeader c n s)
      (fun p => ∃ stack', SpaceOk c p.2 0 stack' (fun x => rest x + p.1.at x) ∧
        n ≤ p.1.size ∧ Kept rest s p.2) (· = .size) := by
  unfold allocFromHeader
  refine (popIfLow_spec hs hroomy).bind fun t ht => ?_
  obtain ⟨stack', hok, hkept⟩ := ht
  have hcounted : Counted (t.setTable (getAvElem n t.table).2) fun x =>
      rest x + stackShare (blockBytes c t.capacity) stack' x + (getAvElem n t.table).1.at x := by
    refine hok.counted.next rfl (fun x => ?_)
      ((length_getAvElem _ _).trans hok.counted.header_le) hok.counted.bucket_le
    have hget := share_getAvElem n t.table x
    show _ + (share (getAvElem n t.table).2 x + share t.bucketAvail x) ≤
      _ + (share t.table x + share t.bucketAvail x)
    omega
  have hset := hkept.trans (kept_setTable rest t (getAvElem n t.table).2) fun _ => id
  refine (orBlock_spec hcounted (hroomy.same hset.shape) (size_getAvElem _ _)).bind
    fun p hp => ?_
  obtain ⟨hp, hsize, hext⟩ := hp
  have hshape : SameShape t.header p.2.header := ⟨hext.shape.blockSize, hext.shape.capacity⟩
  have hadd : SpaceOk c p.2 0 stack' fun x => rest x + p.1.at x := by
    refine hok.of_counted (hp.mono fun x => ?_) hext.file hshape ?_
    · omega
    · rw [hext.header]
      rfl
  refine ⟨stack', hadd.setChanged, hsize, ?_⟩
  exact (hset.trans (hext.kept rest) fun _ => id).trans (kept_setChanged rest p.2) fun _ => id

/-- **`_gdbm_alloc` gives a region out** that was no one's. -/
theorem gdbmAlloc_spec (hs : SpaceOk c s 0 stack rest) (hroomy : Roomy c s.header) :
    Meets (gdbmAlloc c s n)
      (fun p => ∃ stack', SpaceOk c p.2 0 stack' (fun x => rest x + inside p.1 n x) ∧
        Kept rest s p.2) (· = .size) := by
  unfold gdbmAlloc
  have hbucket : SpaceOk c { s with bucketAvail := (getAvElem n s.bucketAvail).2 } 0 stack
      fun x => rest x + (getAvElem n s.bucketAvail).1.at x := by
    refine hs.of_counted ?_ rfl (SameShape.refl _) rfl
    refine hs.counted.next rfl (fun x => ?_) hs.counted.header_le
      ((length_getAvElem _ _).trans hs.counted.bucket_le)
    have hget := share_getAvElem n s.bucketAvail x
    show _ + (share s.table x + share (getAvElem n s.bucketAvail).2 x) ≤
      _ + (share s.table x + share s.bucketAvail x)
    omega
  have hfirst : Kept rest s { s with bucketAvail := (getAvElem n s.bucketAvail).2 } :=
    ⟨fun _ _ => rfl, SameShape.refl _, Nat.le_refl _, id⟩
  have hgot : Meets (orHeader c n (getAvElem n s.bucketAvail).1
        { s with bucketAvail := (getAvElem n s.bucketAvail).2 })
      (fun p => ∃ stack', SpaceOk c p.2 0 stack' (fun x => rest x + p.1.at x) ∧
        n ≤ p.1.size ∧ Kept rest s p.2) (· = .size) := by
    unfold orHeader
    split
    · have hless : SpaceOk c { s with bucketAvail := (getAvElem n s.bucketAvail).2 } 0 stack
          rest := hbucket.of_counted (hbucket.counted.mono fun x => by omega) rfl
        (SameShape.refl _) rfl
      refine (allocFromHeader_spec hless hroomy).imp fun p hp => ?_
      obtain ⟨stack', hok, hsize, hkept⟩ := hp
      exact ⟨stack', hok, hsize, hfirst.trans hkept fun _ => id⟩
    · next hne => exact ⟨stack, hbucket, size_getAvElem _ _ hne, hfirst⟩
  refine hgot.bind fun p hp => ?_
  obtain ⟨stack', hok, hsize, hkept⟩ := hp
  -- what is not needed goes back
  have hparts : SpaceOk c p.2 0 stack' fun x => rest x + inside p.1.adr n x +
      inside (p.1.adr + n) (p.1.size - n) x := by
    have hfun : (fun x => rest x + inside p.1.adr n x + inside (p.1.adr + n) (p.1.size - n) x) =
        fun x => rest x + p.1.at x := by
      funext x
      have hat : p.1.at x = _ := inside_split hsize p.1.adr x
      rw [hat]
      omega
    rw [hfun]
    exact hok
  refine (gdbmFree_spec hparts (hroomy.same hkept.shape)).bind fun t ht => ?_
  obtain ⟨stack'', ht, hfree⟩ := ht
  exact ⟨stack'', ht, hkept.trans hfree fun x hx => by omega⟩

end Nsdci.Gdbm
