import Nsdci.Lib.Memory

/-!
# Dynamic strings (`Ns_DString`)

A dynamic string owns a block of `spaceAvl` bytes and uses the first `length` of them, with a
NUL behind. Growing past the block moves the string to a new one and copies the bytes in use;
what lies behind them there is arbitrary. The library itself is not part of this program: how
large a new block is made (`DStringLib`) is a parameter.
-/

namespace Nsdci

open Lib

/-- The choices of the string library: the size of the buffer inside the structure, and the size
of a block that must hold more than `n` bytes when the old one has `avl`. -/
structure DStringLib where
  staticSize : Nat
  grow : Nat → Nat → Nat
  static_pos : 0 < staticSize
  lt_grow : ∀ avl n, n < grow avl n

/-- A library that doubles a block, or makes it just large enough. -/
def DStringLib.doubling : DStringLib where
  staticSize := 200
  grow avl n := if 2 * avl ≤ n then n + 1 else 2 * avl
  static_pos := by decide
  lt_grow avl n := by
    split
    · exact Nat.lt_succ_self n
    · exact Nat.lt_of_not_le ‹_›

/-- The memory strings live in, and the first block that is not in use. -/
structure Arena where
  mem : Mem Nat
  next : Nat

/-- `Ns_DString`: there is always room for the NUL. -/
structure DString where
  block : Nat
  length : Nat
  spaceAvl : Nat
  fits : length < spaceAvl
  deriving DecidableEq

namespace DString

/-- `ds.string`. -/
def string (ds : DString) : Ptr Nat := ⟨ds.block, 0⟩

/-- The bytes in use. -/
def contents (m : Mem Nat) (ds : DString) : Bytes := m.read ds.string ds.length

@[simp] theorem string_block (ds : DString) : ds.string.block = ds.block := rfl
@[simp] theorem string_off (ds : DString) : ds.string.off = 0 := rfl

end DString

namespace Arena

variable (lib : DStringLib)

/-- `Ns_DStringInit`. -/
def dsInit (a : Arena) : DString × Arena :=
  (⟨a.next, 0, lib.staticSize, lib.static_pos⟩,
    ⟨a.mem.write ⟨a.next, 0⟩ [0], a.next + 1⟩)

/-- The move to a larger block that `Ns_DStringSetLength` makes when the string must hold `n`
bytes. -/
def reserve (a : Arena) (ds : DString) (n : Nat) : { d : DString // n < d.spaceAvl } × Arena :=
  if h : n < ds.spaceAvl then (⟨ds, h⟩, a)
  else
    (⟨⟨a.next, ds.length, lib.grow ds.spaceAvl n,
        Nat.lt_of_lt_of_le ds.fits (Nat.le_trans (Nat.le_of_not_lt h)
          (Nat.le_of_lt (lib.lt_grow _ _)))⟩, lib.lt_grow _ _⟩,
      ⟨a.mem.write ⟨a.next, 0⟩ (ds.contents a.mem), a.next + 1⟩)

/-- `Ns_DStringSetLength`. A negative length counts as 0. -/
def setLength (a : Arena) (ds : DString) (n : Int) : DString × Arena :=
  let r := a.reserve lib ds n.toNat
  (⟨r.1.val.block, n.toNat, r.1.val.spaceAvl, r.1.property⟩,
    { r.2 with mem := r.2.mem.write ⟨r.1.val.block, n.toNat⟩ [0] })

/-- `Ns_DStringNAppend`. -/
def nAppend (a : Arena) (ds : DString) (bs : Bytes) : DString × Arena :=
  let r := a.reserve lib ds (ds.length + bs.length)
  (⟨r.1.val.block, ds.length + bs.length, r.1.val.spaceAvl, r.1.property⟩,
    { r.2 with mem := r.2.mem.write ⟨r.1.val.block, ds.length⟩ (bs ++ [0]) })

end Arena

/-- The string's block is in use. -/
def DString.Below (ds : DString) (next : Nat) : Prop := ds.block < next

instance (ds : DString) (next : Nat) : Decidable (ds.Below next) :=
  inferInstanceAs (Decidable (ds.block < next))

namespace Arena

variable (lib : DStringLib) (a : Arena) (ds : DString)

/-- What `reserve` does: the string keeps its block or gets the first unused one; its bytes, and
every other block in use, are as before. -/
theorem reserve_spec (n : Nat) (hds : ds.Below a.next) :
    let r := a.reserve lib ds n
    (r.1.val.block = ds.block ∨ r.1.val.block = a.next) ∧ r.1.val.Below r.2.next ∧
      a.next ≤ r.2.next ∧
      (∀ k ≤ ds.length, r.2.mem.read r.1.val.string k = a.mem.read ds.string k) ∧
      ∀ b < a.next, r.2.mem b = a.mem b := by
  unfold DString.Below at *
  unfold reserve
  split_ifs with h
  · exact ⟨Or.inl rfl, hds, Nat.le_refl _, fun _ _ => rfl, fun _ _ => rfl⟩
  · refine ⟨Or.inr rfl, Nat.lt_succ_self _, Nat.le_succ _, fun k hk => ?_, fun b hb => ?_⟩
    · have hsame := Mem.read_write_same a.mem ⟨a.next, 0⟩ (ds.contents a.mem)
      simp only [DString.contents, Mem.length_read] at hsame
      have htake := congrArg (List.take k) hsame
      rwa [Mem.take_read _ _ hk, Mem.take_read _ _ hk] at htake
    · funext i
      have hne : b ≠ a.next := Nat.ne_of_lt hb
      simp [Mem.write, hne]

/-- A write to a block leaves the others alone. -/
theorem write_other (m : Mem Nat) (p : Ptr Nat) (bs : Bytes) {b : Nat} (h : b ≠ p.block) :
    m.write p bs b = m b := by
  funext i
  simp [Mem.write, h]

/-- **`Ns_DStringSetLength` keeps the bytes in use, up to the new length, and every other block
in use.** -/
theorem setLength_spec (n : Int) (hds : ds.Below a.next) :
    let r := a.setLength lib ds n
    r.1.length = n.toNat ∧ (r.1.block = ds.block ∨ r.1.block = a.next) ∧ r.1.Below r.2.next ∧
      a.next ≤ r.2.next ∧
      (∀ k ≤ ds.length, k ≤ n.toNat → r.2.mem.read r.1.string k = a.mem.read ds.string k) ∧
      ∀ b < a.next, b ≠ ds.block → r.2.mem b = a.mem b := by
  obtain ⟨hblock, hbelow, hnext, hread, hother⟩ := reserve_spec lib a ds n.toNat hds
  refine ⟨rfl, hblock, hbelow, hnext, fun k hk hkn => ?_, fun b hb hne => ?_⟩
  · rw [← hread k hk]
    exact Mem.read_write_before _ _ _ _ _ (Or.inr (by simpa [DString.string] using hkn))
  · rw [← hother b hb]
    apply write_other
    have hlt : (a.reserve lib ds n.toNat).1.val.block = a.next → b ≠ a.next := fun _ =>
      Nat.ne_of_lt hb
    rcases hblock with h | h
    · simpa [h] using hne
    · simpa [h] using hlt h

/-- `Ns_DStringNAppend` puts the bytes behind those in use. -/
theorem nAppend_spec (bs : Bytes) (hds : ds.Below a.next) :
    let r := a.nAppend lib ds bs
    r.1.length = ds.length + bs.length ∧ (r.1.block = ds.block ∨ r.1.block = a.next) ∧
      r.1.Below r.2.next ∧ a.next ≤ r.2.next ∧
      r.1.contents r.2.mem = ds.contents a.mem ++ bs ∧
      ∀ b < a.next, b ≠ ds.block → r.2.mem b = a.mem b := by
  obtain ⟨hblock, hbelow, hnext, hread, hother⟩ :=
    reserve_spec lib a ds (ds.length + bs.length) hds
  refine ⟨rfl, hblock, hbelow, hnext, ?_, fun b hb hne => ?_⟩
  · have hbytes := Mem.read_write_append
      (a.reserve lib ds (ds.length + bs.length)).2.mem
      (a.reserve lib ds (ds.length + bs.length)).1.val.string ds.length (bs ++ [0])
    rw [hread _ (Nat.le_refl _)] at hbytes
    have htake := congrArg (List.take (ds.length + bs.length)) hbytes
    rw [Mem.take_read _ _ (by simp), ← List.append_assoc,
      List.take_left' (by simp)] at htake
    simpa [nAppend, DString.contents, DString.string, Ptr.add] using htake
  · rw [← hother b hb]
    apply write_other
    rcases hblock with h | h
    · simpa [h] using hne
    · have := Nat.ne_of_lt hb
      simpa [h] using this

end Arena

end Nsdci
