import Mathlib.Data.Multiset.Count
import Mathlib.Data.Multiset.AddSub

/-!
# Reference-counted heaps

A heap of cells with a reference count each. A cell is freed when its count falls to 0; a change
of the count of a cell that is not allocated is a fault. `Counted h H` says that the counts are
exactly right for the multiset `H` of references held: nothing that is held was freed, and
nothing that is not held is still allocated. Each operation on the heap matches an operation on
the references.
-/

namespace Nsdci.Lib

variable {α : Type}

/-- An allocated cell. -/
structure Cell (α : Type) where
  val : α
  refcnt : Nat

/-- Cells by address; addresses from `next` on were never used. -/
structure Heap (α : Type) where
  cell : Nat → Option (Cell α) := fun _ => none
  next : Nat := 0
  fault : Bool := false

namespace Heap

/-- Change one cell. -/
def set (h : Heap α) (id : Nat) (c : Option (Cell α)) : Heap α :=
  { h with cell := fun i => if i = id then c else h.cell i }

/-- Allocate a cell with one reference, the creator's. -/
def alloc (h : Heap α) (a : α) : Heap α × Nat :=
  ({ h.set h.next (some ⟨a, 1⟩) with next := h.next + 1 }, h.next)

/-- Take a reference. -/
def incr (h : Heap α) (id : Nat) : Heap α :=
  match h.cell id with
  | none => { h with fault := true }
  | some c => h.set id (some { c with refcnt := c.refcnt + 1 })

/-- Give a reference back, and free the cell if it was the last. -/
def decr (h : Heap α) (id : Nat) : Heap α :=
  match h.cell id with
  | none => { h with fault := true }
  | some c => h.set id (if c.refcnt - 1 = 0 then none else some { c with refcnt := c.refcnt - 1 })

/-- Change what a cell holds. -/
def setVal (h : Heap α) (id : Nat) (a : α) : Heap α :=
  match h.cell id with
  | none => { h with fault := true }
  | some c => h.set id (some { c with val := a })

/-- What an allocated cell holds. -/
def val (h : Heap α) (id : Nat) : Option α := (h.cell id).map Cell.val

/-- The reference count of a cell, 0 when it is not allocated. -/
def refcnt (h : Heap α) (id : Nat) : Nat := ((h.cell id).map Cell.refcnt).getD 0

/-- The references held are exactly those the heap counts, and there was no fault. -/
structure Counted (h : Heap α) (H : Multiset Nat) : Prop where
  fault : h.fault = false
  count : ∀ id, h.refcnt id = H.count id
  live : ∀ id c, h.cell id = some c → 0 < c.refcnt
  fresh : ∀ id, h.next ≤ id → h.cell id = none

/-- A heap with nothing allocated and nothing held. -/
theorem counted_empty : Counted ({} : Heap α) 0 where
  fault := rfl
  count id := by simp [refcnt]
  live := by simp
  fresh := by simp

variable {h : Heap α} {H : Multiset Nat}

/-- What is held is allocated, with the count of its holders. -/
theorem Counted.cell_of_mem (hc : Counted h H) {id : Nat} (hid : id ∈ H) :
    ∃ a, h.cell id = some ⟨a, H.count id⟩ := by
  have hpos := Multiset.count_pos.mpr hid
  have hcount := hc.count id
  cases hcell : h.cell id with
  | none => simp [refcnt, hcell] at hcount; omega
  | some c => exact ⟨c.val, by simp [refcnt, hcell] at hcount; simp [← hcount]⟩

theorem Counted.val_of_mem (hc : Counted h H) {id : Nat} (hid : id ∈ H) :
    ∃ a, h.val id = some a := by
  obtain ⟨a, ha⟩ := hc.cell_of_mem hid
  exact ⟨a, by simp [val, ha]⟩

/-- **A cell is allocated exactly while it is held.** -/
theorem Counted.val_isSome_iff (hc : Counted h H) (id : Nat) : (h.val id).isSome ↔ id ∈ H := by
  constructor
  · intro hsome
    obtain ⟨c, hcell⟩ := Option.isSome_iff_exists.mp (by simpa [val] using hsome)
    have hlive := hc.live id c hcell
    have hcount := hc.count id
    rw [← Multiset.count_pos, ← hcount]
    simpa [refcnt, hcell] using hlive
  · intro hid
    obtain ⟨a, ha⟩ := hc.val_of_mem hid
    simp [ha]

/-- The address that is allocated next is not held. -/
theorem Counted.next_not_mem (hc : Counted h H) : h.next ∉ H := by
  intro hid
  obtain ⟨a, ha⟩ := hc.cell_of_mem hid
  simp [hc.fresh _ le_rfl] at ha

theorem Counted.lt_next (hc : Counted h H) {id : Nat} (hid : id ∈ H) : id < h.next := by
  by_contra hge
  obtain ⟨a, ha⟩ := hc.cell_of_mem hid
  simp [hc.fresh id (by omega)] at ha

/-- Allocation gives the creator a reference. -/
theorem Counted.alloc (hc : Counted h H) (a : α) :
    Counted (h.alloc a).1 ((h.alloc a).2 ::ₘ H) where
  fault := hc.fault
  count id := by
    have hcount := hc.count id
    by_cases hid : id = h.next
    · subst hid
      have hzero := Multiset.count_eq_zero_of_notMem hc.next_not_mem
      simp [Heap.alloc, refcnt, set, hzero]
    · simpa [Heap.alloc, refcnt, set, hid] using hcount
  live id c := by
    by_cases hid : id = h.next
    · rintro hcell
      obtain rfl : (⟨a, 1⟩ : Cell α) = c := by simpa [Heap.alloc, set, hid] using hcell
      exact Nat.one_pos
    · intro hcell
      exact hc.live id c (by simpa [Heap.alloc, set, hid] using hcell)
  fresh id hid := by
    have hle : h.next + 1 ≤ id := hid
    have hne : id ≠ h.next := by omega
    simpa [Heap.alloc, set, hne] using hc.fresh id (by omega)

/-- A new reference to something held. -/
theorem Counted.incr (hc : Counted h H) {id : Nat} (hid : id ∈ H) :
    Counted (h.incr id) (id ::ₘ H) := by
  obtain ⟨a, ha⟩ := hc.cell_of_mem hid
  simp only [Heap.incr, ha]
  refine ⟨hc.fault, fun i => ?_, fun i c => ?_, fun i hi => ?_⟩
  · by_cases hi : i = id
    · simp [refcnt, set, hi]
    · simpa [refcnt, set, hi] using hc.count i
  · by_cases hi : i = id
    · simp only [set, hi, if_true, Option.some.injEq]
      rintro rfl
      simp
    · intro hcell
      exact hc.live i c (by simpa [set, hi] using hcell)
  · have hlt := hc.lt_next hid
    have hle : h.next ≤ i := hi
    have hne : i ≠ id := by omega
    simpa [set, hne] using hc.fresh i hi

/-- A reference given back. -/
theorem Counted.decr {id : Nat} (hc : Counted h (id ::ₘ H)) : Counted (h.decr id) H := by
  obtain ⟨a, ha⟩ := hc.cell_of_mem (Multiset.mem_cons_self id H)
  simp only [Heap.decr, ha, Multiset.count_cons_self, Nat.add_sub_cancel]
  refine ⟨hc.fault, fun i => ?_, fun i c => ?_, fun i hi => ?_⟩
  · by_cases hi : i = id
    · by_cases hzero : H.count id = 0 <;> simp [refcnt, set, hi, hzero]
    · simpa [refcnt, set, hi] using hc.count i
  · by_cases hi : i = id
    · by_cases hzero : H.count id = 0
      · simp [set, hi, hzero]
      · simp only [set, hi, if_true, hzero, if_false, Option.some.injEq]
        rintro rfl
        exact Nat.pos_of_ne_zero hzero
    · intro hcell
      exact hc.live i c (by simpa [set, hi] using hcell)
  · have hlt := hc.lt_next (Multiset.mem_cons_self id H)
    have hle : h.next ≤ i := hi
    have hne : i ≠ id := by omega
    simpa [set, hne] using hc.fresh i hi

/-- New contents of something held. -/
theorem Counted.setVal (hc : Counted h H) {id : Nat} (hid : id ∈ H) (a : α) :
    Counted (h.setVal id a) H := by
  obtain ⟨b, hb⟩ := hc.cell_of_mem hid
  have hpos := Multiset.count_pos.mpr hid
  simp only [Heap.setVal, hb]
  refine ⟨hc.fault, fun i => ?_, fun i c => ?_, fun i hi => ?_⟩
  · by_cases hi : i = id
    · simp [refcnt, set, hi]
    · simpa [refcnt, set, hi] using hc.count i
  · by_cases hi : i = id
    · simp only [set, hi, if_true, Option.some.injEq]
      rintro rfl
      exact hpos
    · intro hcell
      exact hc.live i c (by simpa [set, hi] using hcell)
  · have hlt := hc.lt_next hid
    have hle : h.next ≤ i := hi
    have hne : i ≠ id := by omega
    simpa [set, hne] using hc.fresh i hi

/-- References given back one after another. -/
theorem Counted.decrs {ids : List Nat} (hc : Counted h (↑ids + H)) :
    Counted (ids.foldl Heap.decr h) H := by
  induction ids generalizing h with
  | nil => simpa using hc
  | cons id ids ih =>
      have hcons : Counted h (id ::ₘ (↑ids + H)) := by
        simpa [← Multiset.cons_coe, Multiset.cons_add] using hc
      exact ih hcons.decr

/-! ## Contents -/

@[simp] theorem val_incr (h : Heap α) (id i : Nat) : (h.incr id).val i = h.val i := by
  unfold incr val
  split
  · rfl
  · rename_i c hcell
    by_cases hi : i = id <;> simp [set, hi, hcell]

/-- What is held keeps its contents when another reference is given back. -/
theorem val_decr {id : Nat} (hc : Counted h (id ::ₘ H)) {i : Nat} (hi : i ∈ H) :
    (h.decr id).val i = h.val i := by
  obtain ⟨a, ha⟩ := hc.cell_of_mem (Multiset.mem_cons_self id H)
  by_cases hid : i = id
  · subst hid
    have hpos := Multiset.count_pos.mpr hi
    have hzero : H.count i ≠ 0 := by omega
    simp [decr, val, ha, set, hzero]
  · simp [decr, val, ha, set, hid]

theorem val_alloc_self (h : Heap α) (a : α) : (h.alloc a).1.val (h.alloc a).2 = some a := by
  simp [alloc, val, set]

/-- Allocation changes nothing that is held. -/
theorem val_alloc (hc : Counted h H) (a : α) {i : Nat} (hi : i ∈ H) :
    (h.alloc a).1.val i = h.val i := by
  have hne : i ≠ h.next := fun heq => hc.next_not_mem (heq ▸ hi)
  simp [alloc, val, set, hne]

/-! ## Later heaps -/

/-- A later heap: addresses are not used again, and what was allocated is unchanged or freed. -/
structure Extends (h h' : Heap α) : Prop where
  next : h.next ≤ h'.next
  val : ∀ id, id < h.next → h'.val id = h.val id ∨ h'.val id = none

theorem Extends.refl (h : Heap α) : Extends h h := ⟨le_rfl, fun _ _ => Or.inl rfl⟩

theorem Extends.trans {h h' h'' : Heap α} (h₁ : Extends h h') (h₂ : Extends h' h'') :
    Extends h h'' := by
  refine ⟨h₁.next.trans h₂.next, fun id hid => ?_⟩
  rcases h₂.val id (Nat.lt_of_lt_of_le hid h₁.next) with heq | hnone
  · rw [heq]
    exact h₁.val id hid
  · exact Or.inr hnone

theorem extends_incr (h : Heap α) (id : Nat) : Extends h (h.incr id) := by
  refine ⟨?_, fun i _ => Or.inl (val_incr h id i)⟩
  unfold incr
  split <;> exact le_rfl

theorem extends_decr (h : Heap α) (id : Nat) : Extends h (h.decr id) := by
  unfold decr
  split
  · exact ⟨le_rfl, fun _ _ => Or.inl rfl⟩
  · rename_i c hcell
    refine ⟨le_rfl, fun i _ => ?_⟩
    by_cases hi : i = id
    · by_cases hlast : c.refcnt - 1 = 0
      · exact Or.inr (by simp [val, set, hi, hlast])
      · exact Or.inl (by simp [val, set, hi, hlast, hcell])
    · exact Or.inl (by simp [val, set, hi])

theorem extends_decrs (ids : List Nat) (h : Heap α) : Extends h (ids.foldl decr h) := by
  induction ids generalizing h with
  | nil => exact Extends.refl h
  | cons id ids ih => exact (extends_decr h id).trans (ih _)

theorem extends_alloc (h : Heap α) (a : α) : Extends h (h.alloc a).1 := by
  refine ⟨Nat.le_succ _, fun id hid => Or.inl ?_⟩
  have hne : id ≠ h.next := by omega
  simp [alloc, val, set, hne]

/-- What is held in a later heap, and was allocated before, is unchanged. -/
theorem Extends.val_of_mem {h h' : Heap α} (hext : Extends h h') (hc : Counted h' H) {id : Nat}
    (hid : id ∈ H) (hlt : id < h.next) : h'.val id = h.val id := by
  obtain ⟨a, ha⟩ := hc.val_of_mem hid
  rcases hext.val id hlt with heq | hnone
  · exact heq
  · rw [ha] at hnone
    exact absurd hnone (by simp)

end Heap

end Nsdci.Lib
