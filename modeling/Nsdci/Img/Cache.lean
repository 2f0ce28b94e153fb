import Nsdci.Lib.Transition
import Mathlib.Data.List.AList
import Mathlib.Logic.Function.Basic

/-!
# The image cache (`img.c`)

`ImgStat` keeps the type and the size of images in a cache that all threads share. A thread that
makes an entry, or finds it too old, gives the lock back to load the file, and takes it again to set
the value. A thread that meets an entry without a value looks it up again and again, with the lock.

What a thread does while it has the lock is one step, but for this loop. Entries leave the cache
when there are too many.
-/

namespace Nsdci.Img

open Lib

/-- The types of images. -/
inductive ImgType where
  | jpeg | gif | bmp | art
  deriving DecidableEq

/-- `Key`. -/
structure Key where
  dev : Nat
  ino : Nat
  deriving DecidableEq

/-- What is used of a `struct stat`. -/
structure FileStat where
  key : Key
  mtime : Int
  size : Nat
  deriving DecidableEq

/-- `Stat`. -/
structure Stat where
  mtime : Int
  size : Nat
  type : ImgType
  width : Int
  height : Int
  deriving DecidableEq

/-- Where a thread is in `ImgStat`: it is not, it has called `stat`, it has the lock and is in the
loop, it loads the file, or it has loaded it or failed to. -/
inductive Pc where
  | idle
  | stated (st : FileStat)
  | spinning (st : FileStat)
  | loading (st : FileStat)
  | loaded (key : Key) (stPtr : Option Stat)
  deriving DecidableEq

/-- The cache, with entries that may have no value, who has the lock between two steps, and the
threads. -/
structure State where
  cache : AList fun _ : Key => Option Stat
  lock : Option Nat
  pcs : Nat → Pc

/-- What can happen. `call` has what `stat` found, `load` what was loaded of the file, if it could
be opened and is an image. -/
inductive Event where
  | call (i : Nat) (st : FileStat)
  | enter (i : Nat)
  | spin (i : Nat)
  | load (i : Nat) (type : Option (ImgType × Int × Int))
  | publish (i : Nat)
  | evict (key : Key)

namespace State

variable (s : State)

/-- A thread goes on elsewhere. -/
def goto (i : Nat) (pc : Pc) : State := { s with pcs := Function.update s.pcs i pc }

@[simp] theorem goto_pcs (i : Nat) (pc : Pc) : (s.goto i pc).pcs = Function.update s.pcs i pc := rfl

/-- The loop of `ImgStat` with this entry, and what follows it up to the next unlock. -/
def loop (i : Nat) (st : FileStat) : Option (Option Stat) → State
  | none => { s.goto i (.loading st) with lock := none }
  -- `Ns_CacheFindEntry` comes next, and the lock is kept
  | some none => { s.goto i (.spinning st) with lock := some i }
  | some (some stPtr) =>
      if stPtr.mtime ≠ st.mtime ∨ stPtr.size ≠ st.size then
        { s.goto i (.loading st) with cache := s.cache.insert st.key none, lock := none }
      else { s.goto i .idle with lock := none }

/-- The first section of `ImgStat`. -/
def enter (i : Nat) (st : FileStat) : State :=
  match s.cache.lookup st.key with
  | none => { s.goto i (.loading st) with cache := s.cache.insert st.key none }
  | some value => s.loop i st (some value)

/-- The second section. -/
def publish (i : Nat) (key : Key) (stPtr : Option Stat) : State :=
  { s.goto i .idle with
    cache := match stPtr with
      | none => s.cache.erase key
      | some stPtr => s.cache.insert key (some stPtr) }

/-- One step. -/
def next : Event → Option State
  | .call i st =>
      match s.pcs i with
      | .idle => some (s.goto i (.stated st))
      | _ => none
  | .enter i =>
      match s.pcs i with
      | .stated st => if s.lock = none then some (s.enter i st) else none
      | _ => none
  | .spin i =>
      match s.pcs i with
      | .spinning st =>
          if s.lock = some i then some (s.loop i st (s.cache.lookup st.key)) else none
      | _ => none
  | .load i type =>
      match s.pcs i with
      | .loading st =>
          some (s.goto i (.loaded st.key
            (type.map fun (type, w, h) => ⟨st.mtime, st.size, type, w, h⟩)))
      | _ => none
  | .publish i =>
      match s.pcs i with
      | .loaded key stPtr => if s.lock = none then some (s.publish i key stPtr) else none
      | _ => none
  | .evict key => if s.lock = none then some { s with cache := s.cache.erase key } else none

end State

/-- No image and no call. -/
def State.empty : State := ⟨∅, none, fun _ => .idle⟩

/-- A thread repeats the loop, with the lock that is needed to set the value. -/
def Spins (s : State) (i : Nat) : Prop :=
  ∃ st, s.pcs i = .spinning st ∧ s.lock = some i ∧ s.cache.lookup st.key = some none

/-- No thread repeats the loop, and when there is no call every entry has a value. -/
structure Right (s : State) : Prop where
  noSpin : ∀ i, ¬Spins s i
  values : (∀ i, s.pcs i = .idle) → ∀ key, s.cache.lookup key ≠ some none

/-- No call takes the lock for a file whose entry has no value. -/
def Valued (s : State) : Event → Prop
  | .enter i => ∀ st, s.pcs i = .stated st → s.lock = none → s.cache.lookup st.key ≠ some none
  | _ => True

/-- Who loads a file, or has loaded it. -/
def Pc.loads (pc : Pc) (key : Key) : Prop :=
  (∃ st, pc = .loading st ∧ st.key = key) ∨ ∃ stPtr, pc = .loaded key stPtr

/-- There is a thread for every entry without a value, and none is in the loop. -/
structure Inv (s : State) : Prop where
  lock : s.lock = none
  pcs : ∀ i st, s.pcs i ≠ .spinning st
  loader : ∀ key, s.cache.lookup key = some none → ∃ i, (s.pcs i).loads key

/-! ## Steps -/

theorem inv_empty : Inv State.empty := ⟨rfl, fun _ _ h => (nomatch h), fun _ h => nomatch h⟩

/-- A thread that loads one file goes on: the entries without a value still have their threads when
the cache has no new one but for what the thread loads now. -/
theorem Inv.goto {s : State} (hinv : Inv s) {i : Nat} {pc : Pc}
    {cache : AList fun _ : Key => Option Stat} (hpc : ∀ st, pc ≠ .spinning st)
    (hcache : ∀ key, cache.lookup key = some none →
      pc.loads key ∨ s.cache.lookup key = some none ∧ ¬(s.pcs i).loads key) :
    Inv { s.goto i pc with cache := cache } := by
  refine ⟨hinv.lock, fun j st => ?_, fun key hkey => ?_⟩
  · by_cases hj : j = i
    · subst hj
      show Function.update s.pcs j pc j ≠ _
      rw [Function.update_self]
      exact hpc st
    · show Function.update s.pcs i pc j ≠ _
      rw [Function.update_of_ne hj]
      exact hinv.pcs j st
  · rcases hcache key hkey with hloads | ⟨hold, hnot⟩
    · refine ⟨i, ?_⟩
      show (Function.update s.pcs i pc i).loads key
      rw [Function.update_self]
      exact hloads
    · obtain ⟨j, hj⟩ := hinv.loader key hold
      have hne : j ≠ i := by
        rintro rfl
        exact hnot hj
      refine ⟨j, ?_⟩
      show (Function.update s.pcs i pc j).loads key
      rw [Function.update_of_ne hne]
      exact hj

theorem not_loads_idle (key : Key) : ¬Pc.idle.loads key := by
  rintro (⟨st, h, -⟩ | ⟨stPtr, h⟩)
  · exact nomatch h
  · exact nomatch h

theorem not_loads_stated (st : FileStat) (key : Key) : ¬(Pc.stated st).loads key := by
  rintro (⟨st', h, -⟩ | ⟨stPtr, h⟩)
  · exact nomatch h
  · exact nomatch h

theorem loads_loading {st : FileStat} {key : Key} : (Pc.loading st).loads key ↔ st.key = key := by
  constructor
  · rintro (⟨st', h, hkey⟩ | ⟨stPtr, h⟩)
    · obtain rfl := Pc.loading.inj h
      exact hkey
    · exact nomatch h
  · exact fun h => Or.inl ⟨st, rfl, h⟩

theorem loads_loaded {key' key : Key} {stPtr : Option Stat} :
    (Pc.loaded key' stPtr).loads key ↔ key' = key := by
  constructor
  · rintro (⟨st, h, -⟩ | ⟨stPtr', h⟩)
    · exact nomatch h
    · exact (Pc.loaded.inj h).1
  · rintro rfl
    exact Or.inr ⟨stPtr, rfl⟩

/-- A thread that makes the entry of a file, or takes its value away, loads the file. -/
theorem inv_unset {s : State} (hinv : Inv s) {i : Nat} {st : FileStat}
    (hpc : s.pcs i = .stated st) :
    Inv { s.goto i (.loading st) with cache := s.cache.insert st.key none } := by
  refine hinv.goto (fun _ h => nomatch h) fun key hkey => ?_
  by_cases hsame : key = st.key
  · exact Or.inl (loads_loading.mpr hsame.symm)
  · rw [AList.lookup_insert_ne hsame] at hkey
    rw [hpc]
    exact Or.inr ⟨hkey, not_loads_stated st key⟩

/-- **A step keeps the invariant when it meets no entry without a value.** -/
theorem inv_step {s s' : State} {e : Event} (hinv : Inv s) (hvalued : Valued s e)
    (h : s.next e = some s') : Inv s' := by
  cases e with
  | call i st =>
      rw [State.next] at h
      split at h
      · next hpc =>
          obtain rfl := Option.some.inj h
          refine hinv.goto (fun _ h => nomatch h) fun key hkey => Or.inr ⟨hkey, ?_⟩
          rw [hpc]
          exact not_loads_idle key
      · exact nomatch h
  | enter i =>
      rw [State.next] at h
      split at h
      · next st hpc =>
          split_ifs at h with hlock
          obtain rfl := Option.some.inj h
          rw [State.enter]
          split
          · exact inv_unset hinv hpc
          · next value hvalue =>
              cases value with
              | none => exact absurd hvalue (hvalued st hpc hlock)
              | some stPtr =>
                  rw [State.loop]
                  split_ifs
                  · rw [← hlock]
                    exact inv_unset hinv hpc
                  · rw [← hlock]
                    refine hinv.goto (fun _ h => nomatch h) fun key hkey => Or.inr ⟨hkey, ?_⟩
                    rw [hpc]
                    exact not_loads_stated st key
      · exact nomatch h
  | spin i =>
      rw [State.next] at h
      split at h
      · next st hpc => exact absurd hpc (hinv.pcs i st)
      · exact nomatch h
  | load i type =>
      rw [State.next] at h
      split at h
      · next st hpc =>
          obtain rfl := Option.some.inj h
          refine hinv.goto (fun _ h => nomatch h) fun key hkey => ?_
          rw [hpc, loads_loading, loads_loaded]
          exact (Classical.em (st.key = key)).imp_right fun hne => ⟨hkey, hne⟩
      · exact nomatch h
  | publish i =>
      rw [State.next] at h
      split at h
      · next key stPtr hpc =>
          split_ifs at h with hlock
          obtain rfl := Option.some.inj h
          refine hinv.goto (fun _ h => nomatch h) fun key' hkey' => Or.inr ?_
          have hne : key' ≠ key := by
            rintro rfl
            cases stPtr with
            | none => exact nomatch (AList.lookup_erase key' s.cache).symm.trans hkey'
            | some stPtr => exact nomatch (AList.lookup_insert s.cache).symm.trans hkey'
          have hold : s.cache.lookup key' = some none := by
            cases stPtr with
            | none => exact (AList.lookup_erase_ne hne).symm.trans hkey'
            | some stPtr => exact (AList.lookup_insert_ne hne).symm.trans hkey'
          rw [hpc, loads_loaded]
          exact ⟨hold, hne.symm⟩
      · exact nomatch h
  | evict key =>
      rw [State.next] at h
      split_ifs at h with hlock
      obtain rfl := Option.some.inj h
      refine ⟨hinv.lock, hinv.pcs, fun key' hkey' => hinv.loader key' ?_⟩
      by_cases hsame : key' = key
      · rw [hsame] at hkey'
        exact nomatch (AList.lookup_erase key s.cache).symm.trans hkey'
      · exact (AList.lookup_erase_ne hsame).symm.trans hkey'

/-- The invariant gives what is expected. -/
theorem Inv.right {s : State} (hinv : Inv s) : Right s := by
  refine ⟨fun i h => ?_, fun hidle key hkey => ?_⟩
  · obtain ⟨st, hpc, -, -⟩ := h
    exact hinv.pcs i st hpc
  · obtain ⟨i, hi⟩ := hinv.loader key hkey
    rw [hidle i] at hi
    exact not_loads_idle key hi

/-- A call that takes the lock for a file whose entry has no value repeats the loop. -/
theorem enter_spins {s : State} {i : Nat} {st : FileStat} (hpc : s.pcs i = .stated st)
    (hlock : s.lock = none) (hkey : s.cache.lookup st.key = some none) :
    ∃ s', s.next (.enter i) = some s' ∧ Spins s' i := by
  refine ⟨s.loop i st (some none), ?_, st, ?_, rfl, hkey⟩
  · rw [State.next, hpc]
    dsimp only
    rw [if_pos hlock, State.enter, hkey]
  · exact Function.update_self i _ s.pcs

/-- **It repeats it for good: no step of any thread sets the value, or takes the lock away.** -/
theorem spins_forever {s s' : State} {i : Nat} {e : Event} (hspins : Spins s i)
    (h : s.next e = some s') : Spins s' i := by
  obtain ⟨st, hpc, hlock, hkey⟩ := hspins
  have hne : s.lock ≠ none := by rw [hlock]; exact fun h => nomatch h
  -- the steps of other threads without the lock
  have hother : ∀ (j : Nat) (pc : Pc), s.pcs j ≠ .spinning st → Spins (s.goto j pc) i := by
    intro j pc hj
    have hij : i ≠ j := by
      rintro rfl
      exact hj hpc
    refine ⟨st, ?_, hlock, hkey⟩
    rw [State.goto_pcs, Function.update_of_ne hij, hpc]
  cases e with
  | call j st' =>
      rw [State.next] at h
      split at h
      · next hidle =>
          obtain rfl := Option.some.inj h
          exact hother j _ (by rw [hidle]; exact fun h => nomatch h)
      · exact nomatch h
  | enter j =>
      rw [State.next] at h
      split at h
      · rw [if_neg hne] at h
        exact nomatch h
      · exact nomatch h
  | spin j =>
      rw [State.next] at h
      split at h
      · next st' hspinning =>
          split_ifs at h with hholder
          obtain rfl := Option.some.inj (hlock.symm.trans hholder)
          obtain rfl := Pc.spinning.inj (hpc.symm.trans hspinning)
          rw [hkey] at h
          obtain rfl := Option.some.inj h
          exact ⟨st, Function.update_self i _ s.pcs, rfl, hkey⟩
      · exact nomatch h
  | load j type =>
      rw [State.next] at h
      split at h
      · next st' hloading =>
          obtain rfl := Option.some.inj h
          exact hother j _ (by rw [hloading]; exact fun h => nomatch h)
      · exact nomatch h
  | publish j =>
      rw [State.next] at h
      split at h
      · rw [if_neg hne] at h
        exact nomatch h
      · exact nomatch h
  | evict key =>
      rw [State.next, if_neg hne] at h
      exact nomatch h

/-- A step from a state with the invariant is right exactly if it meets no entry without a value. -/
theorem right_next_iff {s : State} (hinv : Inv s) (e : Event) :
    (∀ s' ∈ s.next e, Right s') ↔ Valued s e := by
  refine ⟨fun hright => ?_, fun hvalued s' h => (inv_step hinv hvalued h).right⟩
  cases e with
  | enter i =>
      intro st hpc hlock hkey
      obtain ⟨s', h, hspins⟩ := enter_spins hpc hlock hkey
      exact (hright s' h).noSpin i hspins
  | call i st => trivial
  | spin i => trivial
  | load i type => trivial
  | publish i => trivial
  | evict key => trivial

/-- **Every state a run reaches is right exactly if no call of the run takes the lock for a file
whose entry has no value.** -/
theorem imgStat_iff (es : List Event) :
    (∀ pre, pre <+: es → ∀ s, run State.next State.empty pre = some s → Right s) ↔
      Along State.next Valued State.empty es := by
  rw [reached_iff_along es inv_empty.right]
  refine along_congr (fun s e hinv => right_next_iff hinv e) (fun s e s' hinv hright h => ?_) es
    inv_empty
  exact inv_step hinv ((right_next_iff hinv e).mp hright) h

/-- Two calls for a new file, the second while the first loads it. -/
def twoCalls : List Event :=
  [.call 0 ⟨⟨1, 2⟩, 30, 40⟩, .call 1 ⟨⟨1, 2⟩, 30, 40⟩, .enter 0, .enter 1]

/-- **The second call repeats the loop, and goes on with it whatever happens.** -/
theorem imgStat_stuck : ∃ s, run State.next State.empty twoCalls = some s ∧ Spins s 1 ∧
    ∀ es s', run State.next s es = some s' → Spins s' 1 := by
  obtain ⟨s, hrun, hspins⟩ : ∃ s, run State.next State.empty twoCalls = some s ∧ Spins s 1 :=
    ⟨_, rfl, ⟨⟨1, 2⟩, 30, 40⟩, rfl, rfl, rfl⟩
  refine ⟨s, hrun, hspins, fun es s' hrun' => ?_⟩
  exact run_invariant_all (fun _ _ _ hspins h => spins_forever hspins h) hspins hrun'

end Nsdci.Img
