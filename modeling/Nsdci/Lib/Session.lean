import Mathlib.Data.List.Induction

/-!
# Words made of sessions

A letter opens a session, belongs into one, or closes one. `Sessions` are words in which every
session that is opened is closed before the next, and an `OpenSession` is such a word with one more
session that has not been closed. A scan of the word decides both.
-/

namespace Nsdci.Lib

variable {α : Type}

/-- What a letter is to a session. -/
inductive Part where
  | first | inner | last
  deriving DecidableEq, Repr

variable (part : α → Part)

/-- The letters are whole sessions one after the other: a first letter, inner ones, a last one. -/
inductive Sessions : List α → Prop where
  | none : Sessions []
  | append {w mid : List α} {a c : α} (hw : Sessions w) (ha : part a = .first)
      (hmid : ∀ b ∈ mid, part b = .inner) (hc : part c = .last) : Sessions (w ++ a :: mid ++ [c])

/-- Whole sessions and the begin of one. -/
def OpenSession (w : List α) : Prop :=
  ∃ done a mid, Sessions part done ∧ part a = .first ∧ (∀ b ∈ mid, part b = .inner) ∧
    w = done ++ a :: mid

/-- One letter more: whether a session is open behind it. -/
def scanLetter (inside : Bool) (a : α) : Option Bool :=
  match inside, part a with
  | false, .first => some true
  | true, .inner => some true
  | true, .last => some false
  | _, _ => none

/-- Whether a session is open at the end of a word, `none` when a letter is out of place. -/
def scan (w : List α) : Option Bool := w.foldlM (scanLetter part) false

variable {part}

theorem Sessions.first {w : List α} {a : α} (h : Sessions part w) (ha : part a = .first) :
    OpenSession part (w ++ [a]) :=
  ⟨w, a, [], h, ha, by simp, rfl⟩

theorem OpenSession.inner {w : List α} {a : α} (h : OpenSession part w) (ha : part a = .inner) :
    OpenSession part (w ++ [a]) := by
  obtain ⟨done, b, mid, hdone, hb, hmid, rfl⟩ := h
  refine ⟨done, b, mid ++ [a], hdone, hb, ?_, by simp⟩
  intro c hc
  rcases List.mem_append.mp hc with hc | hc
  · exact hmid c hc
  · obtain rfl : c = a := by simpa using hc
    exact ha

theorem OpenSession.last {w : List α} {a : α} (h : OpenSession part w) (ha : part a = .last) :
    Sessions part (w ++ [a]) := by
  obtain ⟨done, b, mid, hdone, hb, hmid, rfl⟩ := h
  exact .append hdone hb hmid ha

theorem scan_append (w : List α) (a : α) :
    scan part (w ++ [a]) = (scan part w).bind fun inside => scanLetter part inside a := by
  simp [scan, List.foldlM_append]

/-- Inner letters leave the session open. -/
theorem scan_inner {w mid : List α} (hw : scan part w = some true)
    (hmid : ∀ b ∈ mid, part b = .inner) : scan part (w ++ mid) = some true := by
  induction mid generalizing w with
  | nil => rwa [List.append_nil]
  | cons b mid ih =>
      have hb : part b = .inner := hmid b (by simp)
      have hnext : scan part (w ++ [b]) = some true := by
        simp [scan_append, hw, scanLetter, hb]
      rw [List.append_cons]
      exact ih hnext fun c hc => hmid c (by simp [hc])

theorem Sessions.scan {w : List α} (h : Sessions part w) : Lib.scan part w = some false := by
  induction h with
  | none => rfl
  | @append w mid a c hw ha hmid hc ih =>
      have hopen : Lib.scan part (w ++ [a]) = some true := by
        simp [scan_append, ih, scanLetter, ha]
      have hinner := scan_inner hopen hmid
      rw [List.append_assoc, List.singleton_append] at hinner
      rw [scan_append, hinner]
      simp [scanLetter, hc]

/-- **The scan finds the sessions.** -/
theorem scan_spec (w : List α) (inside : Bool) (h : scan part w = some inside) :
    if inside then OpenSession part w else Sessions part w := by
  induction w using List.reverseRecOn generalizing inside with
  | nil =>
      obtain rfl : false = inside := Option.some.inj h
      exact .none
  | append_singleton w a ih =>
      rw [scan_append] at h
      obtain ⟨before, hbefore, hletter⟩ := Option.bind_eq_some_iff.mp h
      have hw := ih before hbefore
      unfold scanLetter at hletter
      split at hletter
      · rename_i ha
        obtain rfl := Option.some.inj hletter
        exact Sessions.first (by simpa using hw) ha
      · rename_i ha
        obtain rfl := Option.some.inj hletter
        exact OpenSession.inner (by simpa using hw) ha
      · rename_i ha
        obtain rfl := Option.some.inj hletter
        exact OpenSession.last (by simpa using hw) ha
      · exact absurd hletter (by simp)

theorem OpenSession.scan {w : List α} (h : OpenSession part w) : Lib.scan part w = some true := by
  obtain ⟨done, a, mid, hdone, ha, hmid, rfl⟩ := h
  have hopen : Lib.scan part (done ++ [a]) = some true := by
    simp [scan_append, hdone.scan, scanLetter, ha]
  have hinner := scan_inner hopen hmid
  rwa [List.append_assoc, List.singleton_append] at hinner

theorem sessions_iff (w : List α) : Sessions part w ↔ scan part w = some false :=
  ⟨Sessions.scan, fun h => by simpa using scan_spec w false h⟩

theorem openSession_iff (w : List α) : OpenSession part w ↔ scan part w = some true :=
  ⟨OpenSession.scan, fun h => by simpa using scan_spec w true h⟩

instance (w : List α) : Decidable (Sessions part w) :=
  decidable_of_iff _ (sessions_iff w).symm

instance (w : List α) : Decidable (OpenSession part w) :=
  decidable_of_iff _ (openSession_iff w).symm

end Nsdci.Lib
