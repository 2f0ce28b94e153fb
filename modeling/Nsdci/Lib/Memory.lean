import Mathlib.Data.List.Basic
import Mathlib.Data.List.Range
import Mathlib.Tactic.Ring

/-!
# Byte memories and pointers

A memory gives every block an unbounded row of bytes; a pointer is a block with an offset.
`Mem.read` and `Mem.write` move runs of bytes, and the lemmas here say how reads split and
what a write changes. Bounds are not part of the memory: a model that needs them keeps the
allocated size of a block beside it.
-/

namespace Nsdci.Lib

/-- A run of bytes. -/
abbrev Bytes := List UInt8

/-- An address: a block and a byte offset inside it. -/
structure Ptr (β : Type*) where
  block : β
  off : Nat
  deriving DecidableEq, Repr

/-- Pointer arithmetic inside a block. -/
def Ptr.add {β : Type*} (p : Ptr β) (n : Nat) : Ptr β := ⟨p.block, p.off + n⟩

@[simp] theorem Ptr.add_block {β : Type*} (p : Ptr β) (n : Nat) :
    (p.add n).block = p.block := rfl

@[simp] theorem Ptr.add_off {β : Type*} (p : Ptr β) (n : Nat) :
    (p.add n).off = p.off + n := rfl

/-- A byte for every block and offset. -/
abbrev Mem (β : Type*) := β → Nat → UInt8

namespace Mem

variable {β : Type*}

/-- The `n` bytes from `p` on. -/
def read (m : Mem β) (p : Ptr β) (n : Nat) : Bytes :=
  (List.range n).map fun i => m p.block (p.off + i)

@[simp] theorem length_read (m : Mem β) (p : Ptr β) (n : Nat) : (m.read p n).length = n := by
  simp [read]

@[simp] theorem read_zero (m : Mem β) (p : Ptr β) : m.read p 0 = [] := rfl

/-- A read splits at any point. -/
theorem read_append (m : Mem β) (p : Ptr β) (a b : Nat) :
    m.read p (a + b) = m.read p a ++ m.read (p.add a) b := by
  simp [read, List.range_add, Nat.add_assoc]

/-- Dropping the front of a read is reading from further on. -/
theorem drop_read (m : Mem β) (p : Ptr β) (k n : Nat) :
    (m.read p n).drop k = m.read (p.add k) (n - k) := by
  rcases Nat.le_total k n with h | h
  · obtain ⟨d, rfl⟩ := Nat.exists_eq_add_of_le h
    rw [read_append, List.drop_left' (by simp)]
    simp
  · rw [List.drop_eq_nil_of_le (by simpa using h), Nat.sub_eq_zero_of_le h, read_zero]

/-- The front of a read is a shorter read. -/
theorem take_read (m : Mem β) (p : Ptr β) {k n : Nat} (h : k ≤ n) :
    (m.read p n).take k = m.read p k := by
  obtain ⟨d, rfl⟩ := Nat.exists_eq_add_of_le h
  rw [read_append, List.take_left' (by simp)]

variable [DecidableEq β]

/-- Store the bytes `bs` from `p` on. -/
def write (m : Mem β) (p : Ptr β) (bs : Bytes) : Mem β := fun b i =>
  if b = p.block ∧ p.off ≤ i then (bs[i - p.off]?).getD (m b i) else m b i

@[simp] theorem write_nil (m : Mem β) (p : Ptr β) : m.write p [] = m := by
  funext b i
  simp [write]

/-- Reading back exactly what was written. -/
theorem read_write_same (m : Mem β) (p : Ptr β) (bs : Bytes) :
    (m.write p bs).read p bs.length = bs := by
  apply List.ext_getElem
  · simp
  · intro i h₁ h₂
    simp [read, write, h₂]

/-- A read that ends at or before the written run, or is in another block, is unchanged. -/
theorem read_write_before (m : Mem β) (p q : Ptr β) (bs : Bytes) (n : Nat)
    (h : q.block ≠ p.block ∨ q.off + n ≤ p.off) :
    (m.write p bs).read q n = m.read q n := by
  apply List.map_congr_left
  intro i hi
  have hi : i < n := List.mem_range.mp hi
  have hno : ¬ (q.block = p.block ∧ p.off ≤ q.off + i) := by
    rintro ⟨hb, hoff⟩
    rcases h with h | h
    · exact h hb
    · omega
  simp [write, hno]

/-- Writing right behind a run extends it. -/
theorem read_write_append (m : Mem β) (p : Ptr β) (n : Nat) (bs : Bytes) :
    (m.write (p.add n) bs).read p (n + bs.length) = m.read p n ++ bs := by
  rw [read_append, read_write_before _ _ _ _ _ (Or.inr (by simp)), read_write_same]

/-- Writing back what is there changes nothing. -/
theorem write_read (m : Mem β) (p : Ptr β) (n : Nat) : m.write p (m.read p n) = m := by
  funext b i
  unfold write
  split_ifs with h
  · obtain ⟨rfl, hoff⟩ := h
    by_cases hi : i - p.off < n
    · simp [read, hi, Nat.add_sub_cancel' hoff]
    · simp [read, hi]
  · rfl

/-- Two writes in a row are one. -/
theorem write_append (m : Mem β) (p : Ptr β) (as bs : Bytes) :
    m.write p (as ++ bs) = (m.write p as).write (p.add as.length) bs := by
  funext b i
  by_cases hb : b = p.block ∧ p.off ≤ i
  · by_cases hi : p.off + as.length ≤ i
    · have hnone : as[i - p.off]? = none := List.getElem?_eq_none (by omega)
      have hright : (as ++ bs)[i - p.off]? = bs[i - p.off - as.length]? :=
        List.getElem?_append_right (by omega)
      simp [write, hb, hi, hnone, hright, Nat.sub_sub]
    · have hlt : i - p.off < as.length := by omega
      have hleft : (as ++ bs)[i - p.off]? = as[i - p.off]? := List.getElem?_append_left hlt
      simp [write, hb, hi, hleft]
  · have hno : ¬ (b = p.block ∧ p.off + as.length ≤ i) := fun h => hb ⟨h.1, by omega⟩
    simp [write, hb, hno]

end Mem

end Nsdci.Lib
