import Mathlib.Data.Set.Function

/-!
# Logs of overwrites

An overwrite gives some places of a map a value and leaves the others as they are. A primary
applies overwrites and puts each on a log; a replica takes a snapshot of the primary at some time
and applies what stands on the log after that. What was on the log at the time of the snapshot is
applied twice, once before the snapshot and once behind it, and that does no harm: a log whose
overwrites the primary has applied last changes nothing when it is applied again (`Settled`), so
that the replica is right behind the log (`CaughtUp`).
-/

namespace Nsdci.Lib

variable {K V : Type}

/-- The value each place gets, if any. -/
abbrev Overwrite (K V : Type) := K → Option V

/-- Apply an overwrite. -/
def Overwrite.run (u : Overwrite K V) (m : K → V) : K → V := fun k => (u k).getD (m k)

/-- Apply a log, the oldest overwrite first. -/
def replay (log : List (Overwrite K V)) (m : K → V) : K → V := log.foldl (fun m u => u.run m) m

variable {log us : List (Overwrite K V)} {m m' p r r' : K → V} {S : Set K} {k : K}

@[simp] theorem replay_nil (m : K → V) : replay [] m = m := rfl

@[simp] theorem replay_cons (u : Overwrite K V) (log : List (Overwrite K V)) (m : K → V) :
    replay (u :: log) m = replay log (u.run m) := rfl

@[simp] theorem replay_append (us log : List (Overwrite K V)) (m : K → V) :
    replay (us ++ log) m = replay log (replay us m) := List.foldl_append

/-- What a log leaves at a place depends on that place alone. -/
theorem replay_congr (log : List (Overwrite K V)) (h : m k = m' k) :
    replay log m k = replay log m' k := by
  induction log generalizing m m' with
  | nil => exact h
  | cons u log ih =>
      refine ih ?_
      show (u k).getD (m k) = (u k).getD (m' k)
      rw [h]

/-- A log gives a place a value, whatever was there, or leaves it. -/
theorem replay_const_or_self (log : List (Overwrite K V)) (k : K) :
    (∃ v, ∀ m, replay log m k = v) ∨ ∀ m, replay log m k = m k := by
  induction log with
  | nil => exact Or.inr fun _ => rfl
  | cons u log ih =>
      rcases ih with ⟨v, hv⟩ | hself
      · exact Or.inl ⟨v, fun m => hv (u.run m)⟩
      · cases hu : u k with
        | none =>
            refine Or.inr fun m => ?_
            rw [replay_cons, hself]
            show (u k).getD (m k) = m k
            rw [hu, Option.getD_none]
        | some v =>
            refine Or.inl ⟨v, fun m => ?_⟩
            rw [replay_cons, hself]
            show (u k).getD (m k) = v
            rw [hu, Option.getD_some]

/-! ## Snapshots -/

/-- On these places the log changes nothing any more. -/
def Settled (S : Set K) (log : List (Overwrite K V)) (p : K → V) : Prop :=
  Set.EqOn (replay log p) p S

theorem settled_nil (S : Set K) (p : K → V) : Settled S [] p := Set.eqOn_refl p S

/-- **The primary goes on**: what it applies goes on the log, and the log stays settled. -/
theorem Settled.push (h : Settled S log p) (us : List (Overwrite K V)) :
    Settled S (log ++ us) (replay us p) := by
  intro k hk
  rw [replay_append]
  rcases replay_const_or_self us k with ⟨v, hv⟩ | hself
  · rw [hv, hv]
  · rw [hself, hself, replay_congr log (hself p)]
    exact h hk

/-- What is taken off the log leaves it settled. -/
theorem Settled.drop (h : Settled S (us ++ log) p) : Settled S log p := by
  intro k hk
  have hboth := h hk
  rw [replay_append] at hboth
  rcases replay_const_or_self log k with ⟨v, hv⟩ | hself
  · rw [hv] at hboth ⊢
    exact hboth
  · exact hself p

/-- What happens at other places. -/
theorem Settled.congr (h : Settled S log p) {p' : K → V} (hp : Set.EqOn p p' S) :
    Settled S log p' := by
  intro k hk
  rw [replay_congr log (hp hk).symm, h hk, hp hk]

/-- On these places the replica has the map of the primary once it has applied the log. -/
def CaughtUp (S : Set K) (log : List (Overwrite K V)) (r p : K → V) : Prop :=
  Set.EqOn (replay log r) p S

/-- **A snapshot**: the replica is right behind the log, part of which it already has. -/
theorem Settled.caughtUp (h : Settled S log p) (hr : Set.EqOn r p S) : CaughtUp S log r p :=
  fun _ hk => (replay_congr log (hr hk)).trans (h hk)

theorem CaughtUp.push (h : CaughtUp S log r p) (us : List (Overwrite K V)) :
    CaughtUp S (log ++ us) r (replay us p) := by
  intro k hk
  rw [replay_append]
  exact replay_congr us (h hk)

/-- The replica applies what is taken off the log. -/
theorem CaughtUp.deliver (h : CaughtUp S (us ++ log) r p) (hr : Set.EqOn r' (replay us r) S) :
    CaughtUp S log r' p := by
  intro k hk
  rw [← h hk, replay_append]
  exact replay_congr log (hr hk)

/-- What the primary does at other places. -/
theorem CaughtUp.congr (h : CaughtUp S log r p) {p' : K → V} (hp : Set.EqOn p p' S) :
    CaughtUp S log r p' :=
  fun _ hk => (h hk).trans (hp hk)

end Nsdci.Lib
