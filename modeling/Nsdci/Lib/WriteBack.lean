import Mathlib.Logic.Function.Basic

/-!
# A write-back cache

A cache in front of a store. A value is changed in the cache only, where it is marked as dirty, and
goes to the store when the cache is flushed or the entry is evicted. What the cache hides is one
map: `value` says what a key has, whether it is in the cache or not, and the rules say what each
operation does to that map. The store never fails.
-/

namespace Nsdci.Lib

open Function

variable {K V : Type}

/-- An entry of the cache. -/
structure Cached (V : Type) where
  value : V
  dirty : Bool

/-- A cache and the store behind it. -/
structure WriteBack (K V : Type) where
  cache : K → Option (Cached V)
  store : K → Option V

namespace WriteBack

/-- What a key has: the value in the cache, or in the store, or else the first one. -/
def value (w : WriteBack K V) (first : V) (k : K) : V :=
  (w.cache k).elim ((w.store k).getD first) Cached.value

/-- What an entry that is not dirty has, beside what the store has for its key. -/
def Clean (P : Option V → V → Prop) (w : WriteBack K V) : Prop :=
  ∀ k c, w.cache k = some c → c.dirty = false → P (w.store k) c.value

/-- Entries that are not dirty are in the store. -/
def Coherent (w : WriteBack K V) : Prop :=
  ∀ k c, w.cache k = some c → c.dirty = false → w.store k = some c.value

/-- Entries that are not dirty have the value of the store, or the first one when it has none. -/
def Agrees (w : WriteBack K V) (first : V) : Prop :=
  ∀ k c, w.cache k = some c → c.dirty = false → c.value = (w.store k).getD first

variable [DecidableEq K] (w : WriteBack K V)

/-- A value is loaded, if it is not in the cache, and changed there. -/
def modify (first : V) (k : K) (f : V → V) : WriteBack K V :=
  { w with cache := update w.cache k (some ⟨f (w.value first k), true⟩) }

/-- A value is loaded, if it is not in the cache, and not changed. -/
def load (first : V) (k : K) : WriteBack K V :=
  { w with cache := update w.cache k (some ((w.cache k).getD ⟨w.value first k, false⟩)) }

/-- An entry is stored. -/
def flushEntry (k : K) (c : Cached V) : WriteBack K V where
  cache := update w.cache k (some { c with dirty := false })
  store := update w.store k (some c.value)

/-- All dirty entries are stored. -/
def flush : WriteBack K V where
  cache := fun k => (w.cache k).map fun c => { c with dirty := false }
  store := fun k =>
    (w.cache k).elim (w.store k) fun c => if c.dirty then some c.value else w.store k

/-- An entry leaves the cache, and is stored before if it is dirty. -/
def evict (k : K) : WriteBack K V :=
  match w.cache k with
  | some c =>
      let w' := if c.dirty then w.flushEntry k c else w
      { w' with cache := update w'.cache k none }
  | none => w

/-- A key is removed from the cache and the store. -/
def delete (k : K) : WriteBack K V := ⟨update w.cache k none, update w.store k none⟩

variable {w} {first : V} {P : Option V → V → Prop}

@[simp] theorem cache_modify (k : K) (f : V → V) :
    (w.modify first k f).cache = update w.cache k (some ⟨f (w.value first k), true⟩) := rfl

@[simp] theorem cache_delete (k : K) : (w.delete k).cache = update w.cache k none := rfl

@[simp] theorem store_delete (k : K) : (w.delete k).store = update w.store k none := rfl

omit [DecidableEq K] in
/-- A value in the cache. -/
theorem value_of_some {k : K} {c : Cached V} (h : w.cache k = some c) :
    w.value first k = c.value := by
  rw [value, h]
  rfl

omit [DecidableEq K] in
/-- A value that is not in the cache. -/
theorem value_of_none {k : K} (h : w.cache k = none) :
    w.value first k = (w.store k).getD first := by
  rw [value, h]
  rfl

omit [DecidableEq K] in
/-- What a key has depends on its entries only. -/
theorem value_congr {w' : WriteBack K V} {k : K} (hcache : w'.cache k = w.cache k)
    (hstore : w'.store k = w.store k) : w'.value first k = w.value first k := by
  rw [value, hcache, hstore]
  rfl

/-- A map with another value for a key. -/
theorem value_eq_update {w' : WriteBack K V} {k : K} {v : V} (hself : w'.value first k = v)
    (hother : ∀ k' ≠ k, w'.value first k' = w.value first k') :
    w'.value first = update (w.value first) k v := by
  funext k'
  by_cases hk : k' = k
  · rw [hk, update_self, hself]
  · rw [update_of_ne hk, hother k' hk]

/-- **A change changes the value of its key.** -/
theorem value_modify (k : K) (f : V → V) :
    (w.modify first k f).value first = update (w.value first) k (f (w.value first k)) := by
  refine value_eq_update ?_ fun k' hk => value_congr (update_of_ne hk _ _) rfl
  have hcache : (w.modify first k f).cache k = some ⟨f (w.value first k), true⟩ := by
    rw [cache_modify, update_self]
  rw [value_of_some hcache]

omit [DecidableEq K] in
/-- **A flush changes no value.** -/
theorem value_flush : w.flush.value first = w.value first := by
  funext k
  cases hcache : w.cache k with
  | some c =>
      have hcache' : w.flush.cache k = some { c with dirty := false } := by
        show (w.cache k).map _ = _
        rw [hcache]
        rfl
      rw [value_of_some hcache, value_of_some hcache']
  | none =>
      have hcache' : w.flush.cache k = none := by
        show (w.cache k).map _ = none
        rw [hcache]
        rfl
      rw [value_of_none hcache, value_of_none hcache']
      show ((w.cache k).elim (w.store k) _).getD first = _
      rw [hcache]
      rfl

/-- **A load changes no value.** -/
theorem value_load (k : K) : (w.load first k).value first = w.value first := by
  have hload : (w.load first k).cache k =
      some ((w.cache k).getD ⟨w.value first k, false⟩) := update_self _ _ _
  have hself : (w.load first k).value first k = w.value first k := by
    rw [value_of_some hload]
    cases hcache : w.cache k with
    | some c => exact (value_of_some hcache).symm
    | none => rfl
  rw [value_eq_update hself fun k' hk => value_congr (update_of_ne hk _ _) rfl, update_eq_self]

omit [DecidableEq K] in
/-- An entry that is in the store has its value. -/
theorem Coherent.agrees (h : w.Coherent) : w.Agrees first := by
  intro k c hcache hdirty
  rw [h k c hcache hdirty]
  rfl

/-- An entry that is evicted leaves the cache only, and its value in the store. -/
theorem evict_spec (w : WriteBack K V) (first : V) (k : K) :
    (w.evict k).cache = update w.cache k none ∧
    (∀ k' ≠ k, (w.evict k).store k' = w.store k') ∧
    (w.Agrees first → ∀ c, w.cache k = some c → ((w.evict k).store k).getD first = c.value) := by
  cases hcache : w.cache k with
  | none =>
      simp only [evict, hcache]
      exact ⟨by rw [← hcache, update_eq_self], fun _ _ => trivial, fun _ c hc => nomatch hc⟩
  | some c =>
      cases hdirty : c.dirty with
      | true =>
          simp only [evict, hcache, hdirty, flushEntry, if_true, update_idem]
          refine ⟨trivial, fun k' hk => update_of_ne hk _ _, fun _ c' hc' => ?_⟩
          rw [update_self, ← Option.some.inj hc', Option.getD_some]
      | false =>
          simp only [evict, hcache, hdirty, Bool.false_eq_true, if_false]
          refine ⟨trivial, fun _ _ => trivial, fun hagrees c' hc' => ?_⟩
          rw [← Option.some.inj hc', hagrees k c hcache hdirty]

/-- An entry that is not there is not evicted. -/
theorem evict_of_none {k : K} (hcache : w.cache k = none) : w.evict k = w := by
  rw [evict, hcache]

/-- **An eviction changes no value.** -/
theorem value_evict_of_agrees (h : w.Agrees first) (k : K) :
    (w.evict k).value first = w.value first := by
  obtain ⟨hcache', hstore', hvalue⟩ := evict_spec w first k
  funext k'
  by_cases hk : k' = k
  · subst hk
    have hnone : (w.evict k').cache k' = none := by rw [hcache', update_self]
    cases hcache : w.cache k' with
    | none => rw [evict_of_none hcache]
    | some c => rw [value_of_none hnone, value_of_some hcache, hvalue h c hcache]
  · exact value_congr (by rw [hcache', update_of_ne hk]) (hstore' k' hk)

/-- An eviction changes no value when the entries that are not dirty are in the store. -/
theorem value_evict (h : w.Coherent) (k : K) : (w.evict k).value first = w.value first :=
  value_evict_of_agrees h.agrees k

/-- **A deleted key has the first value.** -/
theorem value_delete (k : K) : (w.delete k).value first = update (w.value first) k first := by
  refine value_eq_update ?_ fun k' hk =>
    value_congr (update_of_ne hk _ _) (update_of_ne hk _ _)
  have hnone : (w.delete k).cache k = none := by rw [cache_delete, update_self]
  rw [value_of_none hnone, store_delete, update_self]
  rfl

/-- A changed entry is dirty. -/
theorem Clean.modify (h : w.Clean P) (k : K) (f : V → V) : (w.modify first k f).Clean P := by
  intro k' c hcache hdirty
  by_cases hk : k' = k
  · rw [hk, cache_modify, update_self] at hcache
    rw [← Option.some.inj hcache] at hdirty
    exact nomatch hdirty
  · exact h k' c ((update_of_ne hk _ _).symm.trans hcache) hdirty

omit [DecidableEq K] in
/-- After a flush everything is in the store. -/
theorem Clean.flush (h : w.Clean P) (hstored : ∀ v, P (some v) v) : w.flush.Clean P := by
  intro k c hcache _
  obtain ⟨c', hcache', rfl⟩ := Option.map_eq_some_iff.mp hcache
  show P ((w.cache k).elim (w.store k) _) c'.value
  rw [hcache', Option.elim_some]
  cases hdirty : c'.dirty with
  | true => exact hstored c'.value
  | false => exact h k c' hcache' hdirty

/-- An eviction touches no other entry. -/
theorem Clean.evict (h : w.Clean P) (k : K) : (w.evict k).Clean P := by
  intro k' c hcache hdirty
  obtain ⟨hcache', hstore', -⟩ := evict_spec w c.value k
  rw [hcache'] at hcache
  by_cases hk : k' = k
  · rw [hk, update_self] at hcache
    exact nomatch hcache
  · rw [update_of_ne hk] at hcache
    rw [hstore' k' hk]
    exact h k' c hcache hdirty

/-- A deletion touches no other entry. -/
theorem Clean.delete (h : w.Clean P) (k : K) : (w.delete k).Clean P := by
  intro k' c hcache hdirty
  by_cases hk : k' = k
  · rw [hk, cache_delete, update_self] at hcache
    exact nomatch hcache
  · rw [cache_delete, update_of_ne hk] at hcache
    rw [store_delete, update_of_ne hk]
    exact h k' c hcache hdirty

/-! ### Entries that are in the store -/

omit [DecidableEq K] in
theorem Coherent.clean (h : w.Coherent) : w.Clean fun stored v => stored = some v := h

theorem Coherent.modify (h : w.Coherent) (k : K) (f : V → V) :
    (w.modify first k f).Coherent := h.clean.modify k f

omit [DecidableEq K] in
theorem Coherent.flush (h : w.Coherent) : w.flush.Coherent :=
  h.clean.flush fun _ => rfl

theorem Coherent.evict (h : w.Coherent) (k : K) : (w.evict k).Coherent := h.clean.evict k

theorem Coherent.delete (h : w.Coherent) (k : K) : (w.delete k).Coherent := h.clean.delete k

/-! ### Entries that agree with the store -/

omit [DecidableEq K] in
theorem Agrees.clean (h : w.Agrees first) : w.Clean fun stored v => v = stored.getD first := h

theorem Agrees.modify (h : w.Agrees first) (k : K) (f : V → V) :
    (w.modify first k f).Agrees first := h.clean.modify k f

omit [DecidableEq K] in
theorem Agrees.flush (h : w.Agrees first) : w.flush.Agrees first :=
  h.clean.flush fun _ => rfl

theorem Agrees.evict (h : w.Agrees first) (k : K) : (w.evict k).Agrees first := h.clean.evict k

theorem Agrees.delete (h : w.Agrees first) (k : K) : (w.delete k).Agrees first :=
  h.clean.delete k

/-- An entry that is loaded agrees with the store. -/
theorem Agrees.load (h : w.Agrees first) (k : K) : (w.load first k).Agrees first := by
  intro k' c hcache hdirty
  by_cases hk : k' = k
  · subst hk
    have hload : some ((w.cache k').getD ⟨w.value first k', false⟩) = some c :=
      (update_self k' _ w.cache).symm.trans hcache
    cases hcache' : w.cache k' with
    | some c' =>
        rw [hcache', Option.getD_some] at hload
        exact h k' c (hcache'.trans hload) hdirty
    | none =>
        rw [hcache', Option.getD_none, value_of_none hcache'] at hload
        rw [← Option.some.inj hload]
        rfl
  · exact h k' c ((update_of_ne hk _ _).symm.trans hcache) hdirty

end WriteBack

end Nsdci.Lib
