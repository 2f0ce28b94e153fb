import Mathlib.Init

/-!
# Permits

A counter has the permits that are free. One who sees a free permit and takes it only later has
asked for it in between. `Sound` says that the counter is right and that all who have asked can take
one; `Sound.after_iff` says which moves keep this.
-/

namespace Nsdci.Lib

/-- The counter, how many permits are in use, and how many have asked for one. -/
structure Permits where
  avail : Int
  used : Int
  asked : Int

namespace Permits

/-- Some permits are given back, or are given back and one is asked for, or are lost without being
counted. One who has asked takes the permit, or does not. -/
inductive Move where
  | give (k : Nat)
  | ask (k : Nat)
  | lose (k : Nat)
  | take
  | refuse

variable (n : Int) (p : Permits)

def after : Move → Permits
  | .give k => { p with avail := p.avail + k, used := p.used - k }
  | .ask k => { avail := p.avail + k, used := p.used - k, asked := p.asked + 1 }
  | .lose k => { p with used := p.used - k }
  | .take => { avail := p.avail - 1, used := p.used + 1, asked := p.asked - 1 }
  | .refuse => { p with asked := p.asked - 1 }

/-- Only a permit that is free and that no other has asked for is asked for, and none is lost. -/
def Move.Fits (m : Move) : Prop :=
  match m with
  | .ask k => p.asked < p.avail + k
  | .lose k => k = 0
  | _ => True

/-- Of `n` permits, those not in use are free, and all who have asked can take one. -/
structure Sound : Prop where
  room : p.asked ≤ p.avail
  sum : p.avail + p.used = n

variable {n p}

/-- **The moves that fit are those that keep the counter right.** -/
theorem Sound.after_iff (h : Sound n p) (m : Move) : Sound n (p.after m) ↔ m.Fits p := by
  obtain ⟨hroom, hsum⟩ := h
  cases m with
  | give k => exact iff_of_true ⟨by simp only [after]; omega, by simp only [after]; omega⟩ trivial
  | ask k =>
      constructor
      · intro h
        have hroom := h.room
        simp only [after] at hroom
        exact Int.lt_of_add_one_le hroom
      · intro h
        exact ⟨Int.add_one_le_of_lt h, by simp only [after]; omega⟩
  | lose k =>
      constructor
      · intro h
        have hsum' := h.sum
        simp only [after] at hsum'
        show k = 0
        omega
      · rintro rfl
        exact ⟨hroom, by simp only [after]; omega⟩
  | take => exact iff_of_true ⟨by simp only [after]; omega, by simp only [after]; omega⟩ trivial
  | refuse => exact iff_of_true ⟨by simp only [after]; omega, hsum⟩ trivial

/-- Taking a permit does not change whether the counter is right. -/
theorem sound_take_iff : Sound n (p.after .take) ↔ Sound n p := by
  constructor
  · rintro ⟨hroom, hsum⟩
    simp only [after] at hroom hsum
    exact ⟨by omega, by omega⟩
  · intro h
    exact (h.after_iff .take).mpr trivial

/-- When nobody has asked, the counter is right if it is not negative. -/
theorem sound_iff_of_asked (h : p.asked = 0) : Sound n p ↔ 0 ≤ p.avail ∧ p.avail + p.used = n := by
  constructor
  · rintro ⟨hroom, hsum⟩
    exact ⟨h ▸ hroom, hsum⟩
  · rintro ⟨havail, hsum⟩
    exact ⟨h.symm ▸ havail, hsum⟩

end Permits

end Nsdci.Lib
