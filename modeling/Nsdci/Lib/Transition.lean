import Mathlib.Data.Option.Basic

/-!
# Runs of a step function

A step function gives the state after an event, or `none` when the event cannot happen in that
state. `Along` says that every step of a run meets a condition on the state before it and the
event; `run_invariant` carries an invariant along such a run.
-/

namespace Nsdci.Lib

variable {σ ε : Type}

/-- The state after a list of events. -/
def run (step : σ → ε → Option σ) : σ → List ε → Option σ
  | s, [] => some s
  | s, e :: es => (step s e).bind fun s' => run step s' es

/-- Every step of a run meets the condition `ok`. -/
def Along (step : σ → ε → Option σ) (ok : σ → ε → Prop) : σ → List ε → Prop
  | _, [] => True
  | s, e :: es => ok s e ∧ ∀ s' ∈ step s e, Along step ok s' es

/-- A condition on steps that can be checked can be checked along a run. -/
instance decidableAlong (step : σ → ε → Option σ) (ok : σ → ε → Prop)
    [∀ s e, Decidable (ok s e)] : ∀ (s : σ) (es : List ε), Decidable (Along step ok s es)
  | _, [] => inferInstanceAs (Decidable True)
  | s, e :: es =>
      match hstep : step s e with
      | none => decidable_of_iff (ok s e) (by simp [Along, hstep])
      | some s' =>
          have := decidableAlong step ok s' es
          decidable_of_iff (ok s e ∧ Along step ok s' es) (by simp [Along, hstep])

variable {step : σ → ε → Option σ} {ok : σ → ε → Prop} {Inv : σ → Prop}

/-- A run and then another. -/
theorem run_append (s : σ) (es fs : List ε) :
    run step s (es ++ fs) = (run step s es).bind fun s' => run step s' fs := by
  induction es generalizing s with
  | nil => rfl
  | cons e es ih =>
      rw [List.cons_append, run, run, Option.bind_assoc]
      exact Option.bind_congr fun s' _ => ih s'

/-- A step that meets the condition before a run whose steps do. -/
theorem Along.cons {s s' : σ} {e : ε} {es : List ε} (hok : ok s e) (hstep : step s e = some s')
    (hrest : Along step ok s' es) : Along step ok s (e :: es) := by
  refine ⟨hok, fun t ht => ?_⟩
  obtain rfl : s' = t := Option.some.inj (hstep.symm.trans ht)
  exact hrest

/-- The condition is met along what is left of a run. -/
theorem Along.rest {s s' : σ} {es fs : List ε} (hok : Along step ok s (es ++ fs))
    (hrun : run step s es = some s') : Along step ok s' fs := by
  induction es generalizing s with
  | nil =>
      obtain rfl : s = s' := Option.some.inj hrun
      exact hok
  | cons e es ih =>
      obtain ⟨t, ht, hrest⟩ := Option.bind_eq_some_iff.mp hrun
      exact ih (hok.2 t ht) hrest

/-- **What every step that meets the condition preserves holds at the end of a run whose steps
all meet it.** -/
theorem run_invariant (hstep : ∀ s e s', Inv s → ok s e → step s e = some s' → Inv s')
    {s s' : σ} {es : List ε} (hs : Inv s) (hok : Along step ok s es)
    (hrun : run step s es = some s') : Inv s' := by
  induction es generalizing s with
  | nil =>
      obtain rfl : s = s' := by simpa [run] using hrun
      exact hs
  | cons e es ih =>
      obtain ⟨t, ht, hrest⟩ := Option.bind_eq_some_iff.mp hrun
      exact ih (hstep s e t hs hok.1 ht) (hok.2 t ht) hrest

/-- A weaker condition is met along the same run. -/
theorem Along.mono {ok' : σ → ε → Prop} {s : σ} {es : List ε} (h : Along step ok s es)
    (himp : ∀ s e, ok s e → ok' s e) : Along step ok' s es := by
  induction es generalizing s with
  | nil => trivial
  | cons e es ih => exact ⟨himp s e h.1, fun s' hs' => ih (h.2 s' hs')⟩

/-- A condition every step meets is met along every run. -/
theorem along_of_forall (hall : ∀ s e, ok s e) (s : σ) (es : List ε) : Along step ok s es := by
  induction es generalizing s with
  | nil => trivial
  | cons e es ih => exact ⟨hall s e, fun s' _ => ih s'⟩

/-- What every step preserves holds at the end of every run. -/
theorem run_invariant_all (hstep : ∀ s e s', Inv s → step s e = some s' → Inv s') {s s' : σ}
    {es : List ε} (hs : Inv s) (hrun : run step s es = some s') : Inv s' := by
  have halong : Along step (fun _ _ => True) s es := along_of_forall (fun _ _ => trivial) s es
  exact run_invariant (fun s e s' h _ => hstep s e s' h) hs halong hrun

/-- What a step cannot repair: when it holds after a run it held before. -/
theorem run_backward {P : σ → Prop} (hback : ∀ s e s', step s e = some s' → P s' → P s)
    {s s' : σ} {es : List ε} (hrun : run step s es = some s') (hs' : P s') : P s := by
  induction es generalizing s with
  | nil =>
      obtain rfl : s = s' := by simpa [run] using hrun
      exact hs'
  | cons e es ih =>
      obtain ⟨t, ht, hrest⟩ := Option.bind_eq_some_iff.mp hrun
      exact hback s e t ht (ih hrest)

/-- **A property that a step that misses the condition breaks for good, and that the invariant
gives, holds at the end of a run exactly if all steps meet the condition.** -/
theorem run_iff_along {P : σ → Prop}
    (hstep : ∀ s e s', Inv s → ok s e → step s e = some s' → Inv s')
    (hinv : ∀ s, Inv s → P s)
    (hbad : ∀ s e s', Inv s → ¬ ok s e → step s e = some s' → ¬ P s')
    (hback : ∀ s e s', step s e = some s' → P s' → P s)
    {s s' : σ} {es : List ε} (hs : Inv s) (hrun : run step s es = some s') :
    P s' ↔ Along step ok s es := by
  constructor
  · intro hs'
    induction es generalizing s with
    | nil => trivial
    | cons e es ih =>
        obtain ⟨t, ht, hrest⟩ := Option.bind_eq_some_iff.mp hrun
        have hok : ok s e := by
          by_contra hok
          exact hbad s e t hs hok ht (run_backward hback hrest hs')
        refine ⟨hok, fun u hu => ?_⟩
        obtain rfl : t = u := Option.some.inj (ht.symm.trans hu)
        exact ih (hstep s e t hs hok ht) hrest
  · intro hok
    exact hinv s' (run_invariant hstep hs hok hrun)

/-- Two conditions that say the same of every step from a state with the invariant are met along
the same runs. -/
theorem along_congr {ok' : σ → ε → Prop} (hiff : ∀ s e, Inv s → (ok s e ↔ ok' s e))
    (hstep : ∀ s e s', Inv s → ok s e → step s e = some s' → Inv s') {s : σ} (es : List ε)
    (hs : Inv s) : Along step ok s es ↔ Along step ok' s es := by
  induction es generalizing s with
  | nil => exact Iff.rfl
  | cons e es ih =>
      constructor
      · intro ⟨hok, hrest⟩
        refine ⟨(hiff s e hs).mp hok, fun s' hs' => ?_⟩
        exact (ih (hstep s e s' hs hok hs')).mp (hrest s' hs')
      · intro ⟨hok', hrest⟩
        have hok := (hiff s e hs).mpr hok'
        refine ⟨hok, fun s' hs' => ?_⟩
        exact (ih (hstep s e s' hs hok hs')).mpr (hrest s' hs')

/-- Two conditions are met along a run if both are. -/
theorem along_and {p q : σ → ε → Prop} {s : σ} {es : List ε} :
    Along step (fun s e => p s e ∧ q s e) s es ↔ Along step p s es ∧ Along step q s es := by
  induction es generalizing s with
  | nil => exact ⟨fun _ => ⟨trivial, trivial⟩, fun _ => trivial⟩
  | cons e es ih =>
      constructor
      · rintro ⟨⟨hp, hq⟩, hrest⟩
        exact ⟨⟨hp, fun s' hs' => (ih.mp (hrest s' hs')).1⟩,
          ⟨hq, fun s' hs' => (ih.mp (hrest s' hs')).2⟩⟩
      · rintro ⟨⟨hp, hprest⟩, hq, hqrest⟩
        exact ⟨⟨hp, hq⟩, fun s' hs' => ih.mpr ⟨hprest s' hs', hqrest s' hs'⟩⟩

/-- A property of every state a run reaches. -/
theorem reached_iff_along {P : σ → Prop} {s : σ} (es : List ε) (hs : P s) :
    (∀ pre, pre <+: es → ∀ s', run step s pre = some s' → P s') ↔
      Along step (fun s e => ∀ s' ∈ step s e, P s') s es := by
  induction es generalizing s with
  | nil =>
      refine ⟨fun _ => trivial, fun _ pre hpre s' hrun => ?_⟩
      obtain rfl := List.prefix_nil.mp hpre
      obtain rfl : s = s' := Option.some.inj hrun
      exact hs
  | cons e es ih =>
      constructor
      · intro hall
        have hfirst : ∀ s' ∈ step s e, P s' := by
          intro s' hs'
          refine hall [e] ⟨es, rfl⟩ s' ?_
          rw [run, hs', Option.bind_some, run]
        refine ⟨hfirst, fun s' hs' => (ih (hfirst s' hs')).mp fun pre hpre t ht => ?_⟩
        refine hall (e :: pre) (List.cons_prefix_cons.mpr ⟨rfl, hpre⟩) t ?_
        rw [run, hs', Option.bind_some]
        exact ht
      · intro ⟨hfirst, hrest⟩ pre hpre t ht
        cases pre with
        | nil =>
            obtain rfl : s = t := Option.some.inj ht
            exact hs
        | cons e' pre =>
            obtain ⟨rfl, hpre'⟩ := List.cons_prefix_cons.mp hpre
            obtain ⟨s', hs', ht'⟩ := Option.bind_eq_some_iff.mp ht
            exact (ih (hfirst s' hs')).mpr (hrest s' hs') pre hpre' t ht'

end Nsdci.Lib
