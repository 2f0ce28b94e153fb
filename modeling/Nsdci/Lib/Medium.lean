import Nsdci.Lib.CString

/-!
# A medium of bytes and records

A program writes bytes and whole records to a medium, and reads them back. What a record looks
like in bytes is left open: a cell that a record was written to has the record and its offset in
it, and a record is read where all its cells are (`getRecord`). So a read tells whether what is
read is what was written there, and another write over a part of a record destroys it.

`inside` counts the cells of a region. With it, that regions have no cell in common is an
inequality of sums.
-/

namespace Nsdci.Lib

variable {σ : Type}

/-- A byte, or one byte of a record. -/
inductive Piece (σ : Type) where
  | byte (b : UInt8)
  | part (r : σ) (offset : Nat)
  deriving DecidableEq

/-- What has been written where. -/
abbrev Medium (σ : Type) := Nat → Option (Piece σ)

variable {m m' : Medium σ} {adr len k n x : Nat} {bs cs : Bytes} {r : σ}

/-- Write bytes. -/
def putBytes (m : Medium σ) (adr : Nat) : Bytes → Medium σ
  | [] => m
  | b :: bs => Function.update (putBytes m (adr + 1) bs) adr (some (.byte b))

/-- Write a record of this length. -/
def putRecord (m : Medium σ) (adr len : Nat) (r : σ) : Medium σ := fun x =>
  if adr ≤ x ∧ x < adr + len then some (.part r (x - adr)) else m x

/-- Read this many bytes. -/
def getBytes (m : Medium σ) (adr : Nat) : Nat → Option Bytes
  | 0 => some []
  | n + 1 =>
      match m adr with
      | some (.byte b) => (getBytes m (adr + 1) n).map (b :: ·)
      | _ => none

/-- Read a record of this length. -/
def getRecord [DecidableEq σ] (m : Medium σ) (adr len : Nat) : Option σ :=
  match m adr with
  | some (.part r 0) =>
      if ∀ i < len, m (adr + i) = some (.part r i) then some r else none
  | _ => none

/-! ## Regions -/

/-- How often a cell is in a region. -/
def inside (adr len x : Nat) : Nat := if adr ≤ x ∧ x < adr + len then 1 else 0

@[simp] theorem inside_zero : inside adr 0 x = 0 := if_neg (by omega)

theorem inside_of_le (h : x < adr) : inside adr len x = 0 := if_neg (by omega)

theorem inside_le_one : inside adr len x ≤ 1 := by
  unfold inside
  split <;> omega

theorem inside_eq_one (hle : adr ≤ x) (hlt : x < adr + len) : inside adr len x = 1 :=
  if_pos ⟨hle, hlt⟩

theorem inside_add (adr k n x : Nat) :
    inside adr (k + n) x = inside adr k x + inside (adr + k) n x := by
  unfold inside
  split <;> split <;> split <;> omega

/-- A region in two parts. -/
theorem inside_split (h : k ≤ len) (adr x : Nat) :
    inside adr len x = inside adr k x + inside (adr + k) (len - k) x := by
  rw [← inside_add, Nat.add_sub_cancel' h]

/-! ## Bytes -/

theorem putBytes_outside (m : Medium σ) (adr : Nat) (bs : Bytes)
    (h : inside adr bs.length x = 0) : putBytes m adr bs x = m x := by
  induction bs generalizing adr with
  | nil => rfl
  | cons b bs ih =>
      rw [List.length_cons, Nat.add_comm, inside_add] at h
      have hne : x ≠ adr := by
        rintro rfl
        rw [inside_eq_one (by omega) (by omega)] at h
        omega
      rw [putBytes, Function.update_of_ne hne]
      exact ih (adr + 1) (by omega)

/-- A write behind a cell leaves it as it is. -/
theorem putBytes_update (m : Medium σ) (c : Option (Piece σ)) (bs : Bytes) (h : x < adr) :
    putBytes (Function.update m x c) adr bs = Function.update (putBytes m adr bs) x c := by
  induction bs generalizing adr with
  | nil => rfl
  | cons b bs ih =>
      rw [putBytes, putBytes, ih (by omega)]
      exact Function.update_comm (by omega) _ _ _

theorem putBytes_append (m : Medium σ) (adr : Nat) (bs cs : Bytes) :
    putBytes (putBytes m adr bs) (adr + bs.length) cs = putBytes m adr (bs ++ cs) := by
  induction bs generalizing adr with
  | nil => rfl
  | cons b bs ih =>
      have hadr : adr + (b :: bs).length = adr + 1 + bs.length := by
        rw [List.length_cons]
        omega
      rw [List.cons_append, putBytes, putBytes, ← ih (adr + 1), hadr]
      exact putBytes_update _ _ cs (by omega)

/-- What is read depends on the cells that are read. -/
theorem getBytes_congr (h : ∀ x, inside adr n x ≠ 0 → m' x = m x) :
    getBytes m' adr n = getBytes m adr n := by
  induction n generalizing adr with
  | zero => rfl
  | succ n ih =>
      have hhere : m' adr = m adr := by
        refine h adr ?_
        rw [inside_eq_one (Nat.le_refl _) (by omega)]
        exact Nat.one_ne_zero
      have hrest : getBytes m' (adr + 1) n = getBytes m (adr + 1) n := by
        refine ih fun x hx => h x ?_
        rw [Nat.add_comm n 1, inside_add]
        omega
      rw [getBytes, getBytes, hhere, hrest]

/-- Bytes that were written are read. -/
theorem getBytes_put (m : Medium σ) (adr : Nat) (bs : Bytes) :
    getBytes (putBytes m adr bs) adr bs.length = some bs := by
  induction bs generalizing adr with
  | nil => rfl
  | cons b bs ih =>
      have hrest : getBytes (putBytes m adr (b :: bs)) (adr + 1) bs.length = some bs := by
        rw [← ih (adr + 1)]
        refine getBytes_congr fun x hx => Function.update_of_ne ?_ _ _
        rintro rfl
        exact hx (inside_of_le (by omega))
      rw [List.length_cons, getBytes, hrest]
      have hhere : putBytes m adr (b :: bs) adr = some (.byte b) := Function.update_self ..
      rw [hhere]
      rfl

/-! ## Records -/

theorem putRecord_outside (m : Medium σ) (r : σ) (h : inside adr len x = 0) :
    putRecord m adr len r x = m x := by
  refine if_neg fun hin => ?_
  rw [inside_eq_one hin.1 hin.2] at h
  exact Nat.one_ne_zero h

variable [DecidableEq σ]

theorem getRecord_congr (hlen : 0 < len) (h : ∀ x, inside adr len x ≠ 0 → m' x = m x) :
    getRecord m' adr len = getRecord m adr len := by
  have hall : ∀ i < len, m' (adr + i) = m (adr + i) := by
    intro i hi
    refine h _ ?_
    rw [inside_eq_one (by omega) (by omega)]
    exact Nat.one_ne_zero
  have hiff : ∀ r : σ, (∀ i < len, m' (adr + i) = some (.part r i)) ↔
      ∀ i < len, m (adr + i) = some (.part r i) := fun r =>
    forall₂_congr fun i hi => by rw [hall i hi]
  have hhere : m' adr = m adr := hall 0 hlen
  unfold getRecord
  rw [hhere]
  split
  · simp only [hiff]
  · rfl

/-- A record that was written is read. -/
theorem getRecord_put (m : Medium σ) (adr : Nat) (hlen : 0 < len) (r : σ) :
    getRecord (putRecord m adr len r) adr len = some r := by
  have hall : ∀ i < len, putRecord m adr len r (adr + i) = some (.part r i) := by
    intro i hi
    unfold putRecord
    rw [if_pos ⟨by omega, by omega⟩, Nat.add_sub_cancel_left]
  have hhere : putRecord m adr len r adr = some (.part r 0) := hall 0 hlen
  unfold getRecord
  rw [hhere]
  exact if_pos hall

end Nsdci.Lib
