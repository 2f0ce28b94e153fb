import Nsdci.Http.Lifetime
import Nsdci.Lib.Transition

/-!
# Who has an HTTP request

A request is in the table of an interpreter, in the hands of one command, or freed. `Sound` is what
every safe step keeps: the places (`Placed`), what is known of each request (`Marked`), and whose
memory is whose (`Owned`). A wait that ends for its time, and a one-shot get that ends with an
error, leave a request in no place.
-/

namespace Nsdci.HttpLifetime

open Lib Function

/-! ## The places of requests -/

/-- Every request is somewhere, in one place. -/
structure Placed (lists : Place → List Nat) (n : Nat) : Prop where
  places : Places lists
  all : ∀ i, (∃ p, i ∈ lists p) ↔ i < n

namespace Placed

variable {lists : Place → List Nat} {n : Nat} {p q : Place} {rest l : List Nat} {i : Nat}

/-- A request is moved. -/
theorem move (h : Placed lists n) (hp : (lists p).Perm ([i] ++ rest))
    (hq : l.Perm ([i] ++ update lists p rest q)) :
    Placed (update (update lists p rest) q l) n :=
  ⟨h.places.move hp hq, fun j => (Places.exists_mem_move hp hq j).trans (h.all j)⟩

/-- A new request is put somewhere. -/
theorem add (h : Placed lists n) (hq : l.Perm ([n] ++ lists q)) :
    Placed (update lists q l) (n + 1) := by
  have hfresh : ∀ j ∈ [n], ∀ r, j ∉ lists r := by
    intro j hj r hr
    obtain rfl := List.mem_singleton.mp hj
    exact Nat.lt_irrefl j ((h.all j).mp ⟨r, hr⟩)
  refine ⟨h.places.add (List.nodup_singleton n) hfresh hq, fun j => ?_⟩
  rw [Places.exists_mem_add hq, List.mem_singleton, h.all]
  omega

/-- A request that is taken out is nowhere. -/
theorem not_mem_drop (h : Placed lists n) (hp : (lists p).Perm ([i] ++ rest)) :
    i < n ∧ ∀ r, i ∉ update lists p rest r :=
  ⟨(h.all i).mp ⟨p, hp.mem_iff.mpr (List.mem_append_left rest (List.mem_singleton_self i))⟩,
    h.places.not_mem_drop hp (List.mem_singleton_self i)⟩

end Placed

theorem lists_goto (s : State) (k : Nat) (pc : Pc) :
    (s.goto k pc).lists = update s.lists (.held k) pc.held := by
  funext p
  cases p with
  | freed => rw [update_of_ne (by simp)]; rfl
  | table j => rw [update_of_ne (by simp)]; rfl
  | held j =>
      show (update s.pcs k pc j).held = _
      by_cases hj : j = k
      · subst hj
        rw [update_self, update_self]
      · rw [update_of_ne hj, update_of_ne (fun h => hj (Place.held.inj h))]
        rfl

theorem lists_setNames (s : State) (k : Nat) (names : Names) :
    (s.setNames k names).lists = update s.lists (.table k) (values names) := by
  funext p
  cases p with
  | freed => rw [update_of_ne (by simp)]; rfl
  | held j => rw [update_of_ne (by simp)]; rfl
  | table j =>
      show values (update s.tables k names j) = _
      by_cases hj : j = k
      · subst hj
        rw [update_self, update_self]
      · rw [update_of_ne hj, update_of_ne (fun h => hj (Place.table.inj h))]
        rfl

theorem lists_httpFree (s : State) (i : Nat) (h : Http) :
    (httpFree s i h).lists = update s.lists .freed (i :: s.freed) := by
  funext p
  cases p with
  | freed => rw [update_self]; rfl
  | table j => rw [update_of_ne (by simp)]; rfl
  | held j => rw [update_of_ne (by simp)]; rfl

theorem lists_httpClose (s : State) (i : Nat) (h : Http) :
    (httpClose s i h).lists = update s.lists .freed (i :: s.freed) := lists_httpFree s i h

/-- A command that has nothing to hold goes on. -/
theorem lists_goto_of_held {s : State} {k : Nat} {pc : Pc} (h : pc.held = (s.pcs k).held) :
    (s.goto k pc).lists = s.lists := by
  rw [lists_goto, h]
  exact update_eq_self (Place.held k) s.lists

/-- The requests of a table without an entry. -/
theorem values_erase {names : Names} {name i : Nat} (h : names.lookup name = some i) :
    (values names).Perm ([i] ++ values (names.erase name)) :=
  (perm_erase h).map fun e : Sigma fun _ : Nat => Nat => e.2

/-- The requests of a table with a new entry. -/
theorem values_insert {names : Names} {name : Nat} (h : name ∉ names) (i : Nat) :
    values (names.insert name i) = [i] ++ values names := by
  rw [values, AList.entries_insert_of_notMem h]
  rfl

/-- The new name is not in the table. -/
theorem newName_notMem (names : Names) : newName names ∉ names := by
  rw [newName]
  cases hfind : (List.range' names.keys.length (names.keys.length + 1)).find?
      fun n => n ∉ names.keys with
  | some n =>
      have hn : n ∉ names.keys := by simpa using List.find?_some hfind
      exact hn
  | none =>
      -- there are more numbers than names
      have hall : List.range' names.keys.length (names.keys.length + 1) ⊆ names.keys := by
        intro n hn
        simpa using List.find?_eq_none.mp hfind n hn
      have hnodup := List.nodup_range' (s := names.keys.length) (n := names.keys.length + 1)
      have hle := hnodup.length_le_of_subset hall
      rw [List.length_range'] at hle
      omega

/-! ## The memory of requests -/

/-- The memory of a request that was not freed is its own. -/
structure Owned (https : List Http) (freed free : List Nat) (nblocks : Nat) : Prop where
  free_nodup : free.Nodup
  free_lt : ∀ block ∈ free, block < nblocks
  lt : ∀ i h, https[i]? = some h → i ∉ freed → h.block < nblocks
  notMem : ∀ i h, https[i]? = some h → i ∉ freed → h.block ∉ free
  eq : ∀ i h j h', https[i]? = some h → i ∉ freed → https[j]? = some h' → j ∉ freed →
    h'.block = h.block → j = i

/-- A request of a list with a changed one. -/
theorem get_set {https : List Http} {i j : Nat} {h h' x : Http} (hi : https[i]? = some h)
    (hx : (https.set i h')[j]? = some x) :
    j = i ∧ x = h' ∨ j ≠ i ∧ https[j]? = some x := by
  by_cases hj : j = i
  · subst hj
    have hlt : j < https.length := (List.getElem?_eq_some_iff.mp hi).1
    rw [List.getElem?_set_self hlt] at hx
    exact Or.inl ⟨rfl, (Option.some.inj hx).symm⟩
  · rw [List.getElem?_set_ne (Ne.symm hj)] at hx
    exact Or.inr ⟨hj, hx⟩

/-- A request of a list with a new one. -/
theorem get_append {https : List Http} {j : Nat} {h x : Http}
    (hx : (https ++ [h])[j]? = some x) :
    j = https.length ∧ x = h ∨ j < https.length ∧ https[j]? = some x := by
  rcases Nat.lt_trichotomy j https.length with hj | rfl | hj
  · rw [List.getElem?_append_left hj] at hx
    exact Or.inr ⟨hj, hx⟩
  · rw [List.getElem?_concat_length] at hx
    exact Or.inl ⟨rfl, (Option.some.inj hx).symm⟩
  · have hlt : j < (https ++ [h]).length := (List.getElem?_eq_some_iff.mp hx).1
    rw [List.length_append, List.length_singleton] at hlt
    omega

namespace Owned

variable {https : List Http} {freed free : List Nat} {nblocks i : Nat} {h h' : Http}

/-- A changed request keeps its memory. -/
theorem set (ho : Owned https freed free nblocks) (hi : https[i]? = some h)
    (hblock : h'.block = h.block) : Owned (https.set i h') freed free nblocks := by
  -- every request has the memory of one that was there
  have hold : ∀ (j : Nat) (x : Http), (https.set i h')[j]? = some x →
      ∃ y, https[j]? = some y ∧ x.block = y.block := by
    intro j x hx
    rcases get_set hi hx with ⟨rfl, rfl⟩ | ⟨-, hx⟩
    · exact ⟨h, hi, hblock⟩
    · exact ⟨x, hx, rfl⟩
  refine ⟨ho.free_nodup, ho.free_lt, fun j x hx hj => ?_, fun j x hx hj => ?_,
    fun j x k z hx hj hz hk heq => ?_⟩
  · obtain ⟨y, hy, hxy⟩ := hold j x hx
    exact hxy ▸ ho.lt j y hy hj
  · obtain ⟨y, hy, hxy⟩ := hold j x hx
    exact hxy ▸ ho.notMem j y hy hj
  · obtain ⟨y, hy, hxy⟩ := hold j x hx
    obtain ⟨w, hw, hzw⟩ := hold k z hz
    exact ho.eq j y k w hy hj hw hk (hzw.symm.trans (heq.trans hxy))

/-- A request is freed. -/
theorem free_cons (ho : Owned https freed free nblocks) (hi : https[i]? = some h)
    (hfreed : i ∉ freed) : Owned https (i :: freed) (h.block :: free) nblocks := by
  refine ⟨List.nodup_cons.mpr ⟨ho.notMem i h hi hfreed, ho.free_nodup⟩, ?_, ?_, ?_, ?_⟩
  · intro block hblock
    rcases List.mem_cons.mp hblock with rfl | hblock
    · exact ho.lt i h hi hfreed
    · exact ho.free_lt block hblock
  · exact fun j x hx hj => ho.lt j x hx fun hmem => hj (List.mem_cons_of_mem i hmem)
  · intro j x hx hj hmem
    have hj' : j ∉ freed := fun hmem' => hj (List.mem_cons_of_mem i hmem')
    rcases List.mem_cons.mp hmem with heq | hmem
    · -- no other request has this memory
      have hji : j = i := ho.eq i h j x hi hfreed hx hj' heq
      exact hj (hji ▸ List.mem_cons_self)
    · exact ho.notMem j x hx hj' hmem
  · exact fun j x k y hx hj hy hk => ho.eq j x k y hx (fun hmem => hj (List.mem_cons_of_mem i hmem))
      hy fun hmem => hk (List.mem_cons_of_mem i hmem)

/-- A request with memory that no other has. -/
theorem append {free' : List Nat} {nblocks' : Nat} (ho : Owned https freed free nblocks)
    (hnodup : free'.Nodup) (hsub : free' ⊆ free) (hle : nblocks ≤ nblocks')
    (hlt : h.block < nblocks') (hfree : h.block ∉ free')
    (hnew : ∀ i x, https[i]? = some x → i ∉ freed → x.block ≠ h.block) :
    Owned (https ++ [h]) freed free' nblocks' := by
  refine ⟨hnodup, fun b hb => (ho.free_lt b (hsub hb)).trans_le hle, ?_, ?_, ?_⟩
  · intro i x hx hi
    rcases get_append hx with ⟨rfl, rfl⟩ | ⟨-, hx⟩
    · exact hlt
    · exact (ho.lt i x hx hi).trans_le hle
  · intro i x hx hi
    rcases get_append hx with ⟨rfl, rfl⟩ | ⟨-, hx⟩
    · exact hfree
    · exact fun hmem => ho.notMem i x hx hi (hsub hmem)
  · intro i x j y hx hi hy hj heq
    rcases get_append hx with ⟨rfl, rfl⟩ | ⟨-, hx'⟩ <;>
      rcases get_append hy with ⟨rfl, rfl⟩ | ⟨-, hy'⟩
    · rfl
    · exact absurd heq (hnew j y hy' hj)
    · exact absurd heq.symm (hnew i x hx' hi)
    · exact ho.eq i x j y hx' hi hy' hj heq

end Owned

/-- The memory of a new request is no other's. -/
theorem owned_alloc {s : State} (ho : Owned s.https s.freed s.free s.nblocks) (opened : Bool) :
    Owned (httpAlloc s opened).https s.freed (httpAlloc s opened).free
      (httpAlloc s opened).nblocks := by
  obtain ⟨async, https, free, nblocks, tables, pcs, freed, closed⟩ := s
  cases free with
  | nil =>
      -- more memory
      refine ho.append List.nodup_nil (List.Subset.refl _) (Nat.le_succ nblocks) ?_ ?_ ?_
      · exact Nat.lt_succ_self nblocks
      · exact List.not_mem_nil
      · exact fun i x hx hi => (ho.lt i x hx hi).ne
  | cons block rest =>
      obtain ⟨hblock, hrest⟩ := List.nodup_cons.mp ho.free_nodup
      refine ho.append hrest (List.subset_cons_self block rest) (Nat.le_refl nblocks) ?_ hblock ?_
      · exact ho.free_lt block List.mem_cons_self
      · exact fun i x hx hi heq => ho.notMem i x hx hi (heq ▸ List.mem_cons_self)

/-! ## What is known of requests -/

/-- What was closed was opened and freed, and the other way round; a request that was handed over is
asynchronous, and is done when it is freed; one that was not freed was opened; and one that is about
to be queued was not handed over. -/
structure Marked (https : List Http) (freed closed : List Nat) (pcs : Nat → Pc) : Prop where
  closed_nodup : closed.Nodup
  closed_iff : ∀ i, i ∈ closed ↔ i ∈ freed ∧ ∃ h, https[i]? = some h ∧ h.opened = true
  enqueued : ∀ i h, https[i]? = some h → h.enqueued = true →
    h.async = true ∧ (i ∈ freed → h.done = true)
  opened : ∀ i h, https[i]? = some h → i ∉ freed → h.opened = true
  queuing : ∀ k i h, pcs k = .queuing i → https[i]? = some h → h.enqueued = false

namespace Marked

variable {https : List Http} {freed closed : List Nat} {pcs : Nat → Pc} {i k : Nat} {h h' : Http}
  {pc : Pc}

/-- A command goes on. -/
theorem goto (hm : Marked https freed closed pcs)
    (hpc : ∀ i h, pc = .queuing i → https[i]? = some h → h.enqueued = false) :
    Marked https freed closed (update pcs k pc) := by
  refine ⟨hm.closed_nodup, hm.closed_iff, hm.enqueued, hm.opened, fun j i h hj => ?_⟩
  by_cases hjk : j = k
  · rw [hjk, update_self] at hj
    exact hpc i h hj
  · rw [update_of_ne hjk] at hj
    exact hm.queuing j i h hj

/-- A request is changed. -/
theorem set (hm : Marked https freed closed pcs) (hi : https[i]? = some h)
    (hopened : h'.opened = h.opened)
    (henqueued : h'.enqueued = true → h'.async = true ∧ (i ∈ freed → h'.done = true))
    (hqueuing : ∀ k, pcs k = .queuing i → h'.enqueued = false) :
    Marked (https.set i h') freed closed pcs := by
  have hlt : i < https.length := (List.getElem?_eq_some_iff.mp hi).1
  refine ⟨hm.closed_nodup, fun j => ?_, fun j x hx => ?_, fun j x hx hj => ?_,
    fun k j x hk hx => ?_⟩
  · rw [hm.closed_iff j]
    refine and_congr_right fun _ => ?_
    by_cases hj : j = i
    · subst hj
      rw [List.getElem?_set_self hlt, hi]
      simp [hopened]
    · rw [List.getElem?_set_ne (Ne.symm hj)]
  · rcases get_set hi hx with ⟨rfl, rfl⟩ | ⟨-, hx⟩
    · exact henqueued
    · exact hm.enqueued j x hx
  · rcases get_set hi hx with ⟨rfl, rfl⟩ | ⟨-, hx⟩
    · exact hopened.trans (hm.opened j h hi hj)
    · exact hm.opened j x hx hj
  · rcases get_set hi hx with ⟨rfl, rfl⟩ | ⟨-, hx⟩
    · exact hqueuing k hk
    · exact hm.queuing k j x hk hx

/-- A request is closed. -/
theorem close (hm : Marked https freed closed pcs) (hi : https[i]? = some h) (hfreed : i ∉ freed)
    (hdone : h.enqueued = true → h.done = true) :
    Marked https (i :: freed) (i :: closed) pcs := by
  have hnotin : i ∉ closed := fun hmem => hfreed ((hm.closed_iff i).mp hmem).1
  refine ⟨List.nodup_cons.mpr ⟨hnotin, hm.closed_nodup⟩, fun j => ?_, fun j x hx henq => ?_,
    fun j x hx hj => hm.opened j x hx fun hmem => hj (List.mem_cons_of_mem i hmem), hm.queuing⟩
  · by_cases hj : j = i
    · subst hj
      exact iff_of_true List.mem_cons_self
        ⟨List.mem_cons_self, h, hi, hm.opened j h hi hfreed⟩
    · rw [List.mem_cons, List.mem_cons, or_iff_right hj, or_iff_right hj, hm.closed_iff]
  · refine ⟨(hm.enqueued j x hx henq).1, fun hmem => ?_⟩
    rcases List.mem_cons.mp hmem with rfl | hmem
    · obtain rfl : h = x := Option.some.inj (hi.symm.trans hx)
      exact hdone henq
    · exact (hm.enqueued j x hx henq).2 hmem

/-- A request is made, and freed if it was not opened. -/
theorem append (hm : Marked https freed closed pcs) (hfreed : ∀ i ∈ freed, i < https.length)
    (henqueued : h.enqueued = false) :
    Marked (https ++ [h]) (if h.opened then freed else https.length :: freed) closed pcs := by
  have hlength : https.length ∉ freed := fun hmem => Nat.lt_irrefl _ (hfreed _ hmem)
  have hmem : ∀ i, i < https.length →
      (i ∈ (if h.opened then freed else https.length :: freed) ↔ i ∈ freed) := by
    intro i hi
    split_ifs with ho
    · exact Iff.rfl
    · rw [List.mem_cons, or_iff_right hi.ne]
  refine ⟨hm.closed_nodup, fun j => ?_, fun j x hx henq => ?_, fun j x hx hj => ?_,
    fun k j x hk hx => ?_⟩
  · constructor
    · intro hj
      obtain ⟨hjf, x, hx, hopened⟩ := (hm.closed_iff j).mp hj
      have hlt := hfreed j hjf
      exact ⟨(hmem j hlt).mpr hjf, x, (List.getElem?_append_left hlt).trans hx, hopened⟩
    · rintro ⟨hjf, x, hx, hopened⟩
      rcases get_append hx with ⟨rfl, rfl⟩ | ⟨hlt, hx⟩
      · -- the new request was opened, and is not freed
        rw [if_pos hopened] at hjf
        exact absurd hjf hlength
      · exact (hm.closed_iff j).mpr ⟨(hmem j hlt).mp hjf, x, hx, hopened⟩
  · rcases get_append hx with ⟨rfl, rfl⟩ | ⟨hlt, hx⟩
    · rw [henqueued] at henq
      exact absurd henq Bool.false_ne_true
    · rw [hmem j hlt]
      exact hm.enqueued j x hx henq
  · rcases get_append hx with ⟨rfl, rfl⟩ | ⟨hlt, hx⟩
    · by_contra hopened
      rw [if_neg hopened] at hj
      exact hj List.mem_cons_self
    · exact hm.opened j x hx ((hmem j hlt).not.mp hj)
  · rcases get_append hx with ⟨rfl, rfl⟩ | ⟨-, hx⟩
    · exact henqueued
    · exact hm.queuing k j x hk hx

end Marked

/-! ## Every step -/

/-- What every step keeps: the places, the marks, and the memory. -/
structure Sound (s : State) : Prop where
  placed : Placed s.lists s.https.length
  marked : Marked s.https s.freed s.closed s.pcs
  owned : Owned s.https s.freed s.free s.nblocks

namespace Sound

variable {s : State} {i k name : Nat} {h h' : Http} {pc : Pc}

/-- A request that is somewhere else was not freed. -/
theorem notMem_freed (hs : Sound s) {p : Place} (hp : p ≠ .freed) (hi : i ∈ s.lists p) :
    i ∉ s.freed :=
  fun hmem => hp (hs.placed.places.eq_of_mem hi (q := .freed) hmem)

/-- A request that a command has was not freed. -/
theorem notMem_freed_of_held (hs : Sound s) (hheld : (s.pcs k).held = [i]) : i ∉ s.freed := by
  refine hs.notMem_freed (p := .held k) Place.noConfusion ?_
  show i ∈ (s.pcs k).held
  exact hheld ▸ List.mem_singleton_self i

/-- A request that two commands have is had by one. -/
theorem eq_of_held (hs : Sound s) {j : Nat} (hk : (s.pcs k).held = [i])
    (hj : (s.pcs j).held = [i]) : j = k := by
  have hmem : ∀ m, (s.pcs m).held = [i] → i ∈ s.lists (.held m) := by
    intro m hm
    show i ∈ (s.pcs m).held
    exact hm ▸ List.mem_singleton_self i
  exact Place.held.inj (hs.placed.places.eq_of_mem (hmem j hj) (hmem k hk))

/-- What holds. -/
theorem right (hs : Sound s) : Right s := by
  refine ⟨hs.placed.places, fun i hi => (hs.placed.all i).mpr hi,
    ⟨hs.marked.closed_nodup, hs.marked.closed_iff⟩, ?_, ?_⟩
  · rintro i h hi ⟨hdone, henqueued | ⟨k, hruns⟩⟩ hfreed
    · -- a request that was handed over is done when it is freed
      have hdone' := (hs.marked.enqueued i h hi henqueued).2 hfreed
      rw [hdone] at hdone'
      exact Bool.false_ne_true hdone'
    · refine hs.notMem_freed_of_held (k := k) ?_ hfreed
      rcases hruns with hpc | ⟨-, timed, hpc⟩
      · rw [hpc]; rfl
      · rw [hpc]; rfl
  · intro i h hi hfreed
    refine ⟨hs.owned.notMem i h hi hfreed, fun j h' hj hfreed' heq => ?_⟩
    exact hs.owned.eq i h j h' hi hfreed hj hfreed' heq

/-- A command that has the same goes on. -/
theorem goto (hs : Sound s) (hheld : pc.held = (s.pcs k).held) (hpc : ∀ i, pc ≠ .queuing i) :
    Sound (s.goto k pc) := by
  refine ⟨?_, hs.marked.goto fun i _ h => absurd h (hpc i), hs.owned⟩
  rw [lists_goto_of_held hheld]
  exact hs.placed

/-- A request is changed. -/
theorem setHttp (hs : Sound s) (hi : s.https[i]? = some h) (hblock : h'.block = h.block)
    (hopened : h'.opened = h.opened) (hasync : h'.async = h.async)
    (henqueued : h'.enqueued = h.enqueued) (hdone : h.done = true → h'.done = true) :
    Sound (s.setHttp i h') := by
  refine ⟨?_, hs.marked.set hi hopened ?_ ?_, hs.owned.set hi hblock⟩
  · show Placed s.lists (s.https.set i h').length
    rw [List.length_set]
    exact hs.placed
  · rw [henqueued, hasync]
    intro henq
    exact (hs.marked.enqueued i h hi henq).imp_right fun himp hfreed => hdone (himp hfreed)
  · rw [henqueued]
    exact fun k hk => hs.marked.queuing k i h hk hi

/-- A request that a command had is closed. -/
theorem close (hs : Sound s) (hheld : (s.pcs k).held = [i]) (hi : s.https[i]? = some h)
    (hdone : h.enqueued = true → h.done = true) (hpc : pc.held = [])
    (hq : ∀ i, pc ≠ .queuing i) : Sound ((httpClose s i h).goto k pc) := by
  have hfreed := hs.notMem_freed_of_held hheld
  have hperm : (s.lists (.held k)).Perm ([i] ++ []) := List.Perm.of_eq hheld
  refine ⟨?_, (hs.marked.close hi hfreed hdone).goto fun i _ h => absurd h (hq i),
    hs.owned.free_cons hi hfreed⟩
  rw [lists_goto, lists_httpClose, hpc, update_comm (by simp)]
  refine hs.placed.move hperm ?_
  rw [update_of_ne (by simp)]
  exact List.Perm.refl _

/-- A request of a table is closed. -/
theorem close_entry (hs : Sound s) (hname : (s.tables k).lookup name = some i)
    (hi : s.https[i]? = some h) (hdone : h.enqueued = true → h.done = true) :
    Sound ((httpClose s i h).setNames k ((s.tables k).erase name)) := by
  have hperm : (s.lists (.table k)).Perm ([i] ++ values ((s.tables k).erase name)) :=
    values_erase hname
  have hfreed : i ∉ s.freed := by
    refine hs.notMem_freed (p := .table k) Place.noConfusion ?_
    exact hperm.mem_iff.mpr (List.mem_append_left _ (List.mem_singleton_self i))
  refine ⟨?_, hs.marked.close hi hfreed hdone, hs.owned.free_cons hi hfreed⟩
  rw [lists_setNames, lists_httpClose, update_comm (by simp)]
  refine hs.placed.move hperm ?_
  rw [update_of_ne (by simp)]
  exact List.Perm.refl _

/-- A request is taken out of a table. -/
theorem take (hs : Sound s) (hidle : (s.pcs k).held = [])
    (hname : (s.tables k).lookup name = some i) (hpc : pc.held = [i])
    (hq : ∀ i, pc ≠ .queuing i) :
    Sound ((s.setNames k ((s.tables k).erase name)).goto k pc) := by
  refine ⟨?_, hs.marked.goto fun i _ h => absurd h (hq i), hs.owned⟩
  rw [lists_goto, lists_setNames, hpc]
  refine hs.placed.move (values_erase hname) ?_
  rw [update_of_ne (by simp)]
  show List.Perm [i] ([i] ++ (s.pcs k).held)
  rw [hidle]
  exact List.Perm.refl _

/-- A request is entered in a table. -/
theorem insert (hs : Sound s) (hheld : (s.pcs k).held = [i]) :
    Sound ((s.setNames k ((s.tables k).insert (newName (s.tables k)) i)).goto k .idle) := by
  have hperm : (s.lists (.held k)).Perm ([i] ++ []) := List.Perm.of_eq hheld
  refine ⟨?_, hs.marked.goto fun i _ h => Pc.noConfusion h, hs.owned⟩
  rw [lists_goto, lists_setNames, update_comm (by simp)]
  refine hs.placed.move hperm ?_
  rw [update_of_ne (by simp), values_insert (newName_notMem _)]
  exact List.Perm.refl _

/-- A request is handed over. -/
theorem enqueue (hs : Sound s) (hpc : s.pcs k = .queuing i) (hi : s.https[i]? = some h)
    (hasync : h.async = true) :
    Sound ((s.setHttp i { h with enqueued := true }).goto k (.inserting i)) := by
  have hheld : (s.pcs k).held = [i] := by rw [hpc]; rfl
  have hgoto : Sound (s.goto k (.inserting i)) := hs.goto hheld.symm fun _ => Pc.noConfusion
  refine ⟨?_, hgoto.marked.set hi rfl (fun _ => ⟨hasync, fun hmem => ?_⟩) (fun j hj => ?_),
    hs.owned.set hi rfl⟩
  · show Placed (s.goto k (.inserting i)).lists (s.https.set i _).length
    rw [List.length_set]
    exact hgoto.placed
  · exact absurd hmem (hs.notMem_freed_of_held hheld)
  · -- no other command is about to queue it
    change update s.pcs k (.inserting i) j = .queuing i at hj
    by_cases hjk : j = k
    · rw [hjk, update_self] at hj
      exact Pc.noConfusion hj
    · rw [update_of_ne hjk] at hj
      exact absurd (hs.eq_of_held hheld (by rw [hj]; rfl)) hjk

/-- A request is opened. -/
theorem openReq (hs : Sound s) (hidle : (s.pcs k).held = [])
    (hpc : pc.held = [s.https.length]) : Sound ((httpAlloc s true).goto k pc) := by
  have hfreed : ∀ i ∈ s.freed, i < s.https.length := fun i hi => (hs.placed.all i).mp ⟨.freed, hi⟩
  refine ⟨?_, (hs.marked.append (h := newHttp s true) hfreed rfl).goto ?_,
    owned_alloc hs.owned true⟩
  · rw [lists_goto, hpc]
    show Placed _ (s.https ++ [newHttp s true]).length
    rw [List.length_append, List.length_singleton]
    refine hs.placed.add ?_
    show List.Perm _ ([s.https.length] ++ (s.pcs k).held)
    rw [hidle]
    exact List.Perm.refl _
  · -- a new request was not handed over
    rintro i x rfl hx
    obtain rfl : s.https.length = i := List.singleton_inj.mp hpc.symm
    rcases get_append hx with ⟨-, rfl⟩ | ⟨hlt, -⟩
    · rfl
    · exact absurd hlt (Nat.lt_irrefl _)

/-- A request is made and freed. -/
theorem openFailed (hs : Sound s) : Sound (httpOpenFailed s) := by
  have hfreed : ∀ i ∈ s.freed, i < s.https.length := fun i hi => (hs.placed.all i).mp ⟨.freed, hi⟩
  have hget : (httpAlloc s false).https[s.https.length]? = some (newHttp s false) :=
    List.getElem?_concat_length
  refine ⟨?_, hs.marked.append (h := newHttp s false) hfreed rfl,
    (owned_alloc hs.owned false).free_cons hget fun hmem => Nat.lt_irrefl _ (hfreed _ hmem)⟩
  rw [httpOpenFailed, lists_httpFree]
  show Placed _ (s.https ++ [newHttp s false]).length
  rw [List.length_append, List.length_singleton]
  exact hs.placed.add (List.Perm.refl _)

/-- A request calls back. -/
theorem httpProc (hs : Sound s) (hi : s.https[i]? = some h) (why : Why) :
    Sound (s.setHttp i (httpProc h why)) := by
  refine hs.setHttp hi ?_ ?_ ?_ ?_ ?_
  all_goals
    unfold HttpLifetime.httpProc
    split
  all_goals first | rfl | exact id | exact fun _ => rfl

/-- A request is cancelled. -/
theorem cancel (hs : Sound s) (hi : s.https[i]? = some h) : Sound (s.setHttp i h.cancel) :=
  hs.setHttp hi rfl rfl rfl rfl id

/-- A request is cancelled if it is asynchronous. -/
theorem httpCancel (hs : Sound s) (hi : s.https[i]? = some h) :
    Sound (s.setHttp i (httpCancel h)) := by
  unfold HttpLifetime.httpCancel
  split_ifs
  · exact hs.cancel hi
  · exact hs.setHttp hi rfl rfl rfl rfl id

/-- A task calls back. -/
theorem callback (hs : Sound s) (hi : s.https[i]? = some h) {why : Why} {s' : State}
    (hstep : callback s i h why = some s') : Sound s' := by
  have hcases : s' = s.setHttp i (HttpLifetime.httpProc h why) := by
    unfold HttpLifetime.callback at hstep
    split at hstep <;> split_ifs at hstep
    all_goals exact (Option.some.inj hstep).symm
  exact hcases ▸ hs.httpProc hi why

end Sound

/-- **Every step that is safe keeps it.** -/
theorem sound_step {s s' : State} {e : Event} (hs : Sound s) (hsafe : Safe s e)
    (h : step s e = some s') : Sound s' := by
  cases e with
  | async value =>
      obtain rfl := Option.some.inj h
      exact ⟨hs.placed, hs.marked, hs.owned⟩
  | openReq k queue result =>
      simp only [step] at h
      split at h
      · exact Option.some.inj h ▸ hs
      · exact Option.some.inj h ▸ hs.openFailed
      · rename_i hpc
        obtain rfl := Option.some.inj h
        refine hs.openReq (by rw [hpc]; rfl) ?_
        split_ifs <;> rfl
      · exact absurd h (by simp)
  | enqueue k ok =>
      simp only [step] at h
      split at h
      · rename_i i hpc
        have hheld : (s.pcs k).held = [i] := by rw [hpc]; rfl
        obtain ⟨x, hx, rfl⟩ := Option.map_eq_some_iff.mp h
        split_ifs with hasync hok
        · exact hs.enqueue hpc hx hasync
        · refine hs.close hheld hx (fun henq => ?_) rfl fun _ => Pc.noConfusion
          rw [hs.marked.queuing k i x hpc hx] at henq
          exact absurd henq Bool.false_ne_true
        · exact hs.goto hheld.symm fun _ => Pc.noConfusion
      · exact absurd h (by simp)
  | insert k =>
      simp only [step] at h
      split at h
      · rename_i i hpc
        obtain rfl := Option.some.inj h
        exact hs.insert (by rw [hpc]; rfl)
      · exact absurd h (by simp)
  | wait k name timed =>
      simp only [step] at h
      split at h
      · exact Option.some.inj h ▸ hs
      · rename_i i hpc hname
        obtain rfl := Option.some.inj h
        exact hs.take (by rw [hpc]; rfl) hname rfl fun _ => Pc.noConfusion
      · exact absurd h (by simp)
  | waited k =>
      simp only [step] at h
      split at h
      · rename_i i timed hpc
        obtain ⟨x, hx, h⟩ := Option.bind_eq_some_iff.mp h
        split_ifs at h with hdone
        obtain rfl := Option.some.inj h
        exact hs.close (by rw [hpc]; rfl) hx (fun _ => hdone) rfl fun _ => Pc.noConfusion
      · exact absurd h (by simp)
  | timeout k =>
      simp only [step] at h
      split at h
      · rename_i i hpc
        obtain ⟨x, hx, h⟩ := Option.bind_eq_some_iff.mp h
        rw [hsafe i x hpc hx] at h
        exact absurd h (by simp)
      · exact absurd h (by simp)
  | cancel k name ok =>
      simp only [step] at h
      split at h
      · exact Option.some.inj h ▸ hs
      · obtain ⟨x, hx, rfl⟩ := Option.map_eq_some_iff.mp h
        split_ifs
        · exact hs.cancel hx
        · exact hs
      · exact absurd h (by simp)
  | abort k name =>
      simp only [step] at h
      split at h
      · exact Option.some.inj h ▸ hs
      · rename_i i hpc hname
        obtain ⟨x, hx, rfl⟩ := Option.map_eq_some_iff.mp h
        refine (hs.httpCancel hx).take ?_ hname rfl fun _ => Pc.noConfusion
        show (s.pcs k).held = []
        rw [hpc]; rfl
      · exact absurd h (by simp)
  | aborted k =>
      simp only [step] at h
      split at h
      · rename_i i hpc
        obtain ⟨x, hx, h⟩ := Option.bind_eq_some_iff.mp h
        split_ifs at h with hwaited
        obtain rfl := Option.some.inj h
        have hdone : x.enqueued = true → x.done = true := fun henq =>
          hwaited (hs.marked.enqueued i x hx henq).1 henq
        exact hs.close (by rw [hpc]; rfl) hx hdone rfl fun _ => Pc.noConfusion
      · exact absurd h (by simp)
  | cleanup k =>
      simp only [step] at h
      split at h
      · rename_i hpc
        obtain rfl := Option.some.inj h
        exact hs.goto (by rw [hpc]; rfl) fun _ => Pc.noConfusion
      · exact absurd h (by simp)
  | clean k =>
      simp only [step] at h
      split at h
      · rename_i hpc
        obtain rfl := Option.some.inj h
        exact hs.goto (by rw [hpc]; rfl) fun _ => Pc.noConfusion
      · rename_i name names hpc
        obtain ⟨i, -, h⟩ := Option.bind_eq_some_iff.mp h
        obtain ⟨x, hx, rfl⟩ := Option.map_eq_some_iff.mp h
        refine (hs.httpCancel hx).goto ?_ fun _ => Pc.noConfusion
        show [] = (s.pcs k).held
        rw [hpc]; rfl
      · exact absurd h (by simp)
  | cleaned k =>
      simp only [step] at h
      split at h
      · rename_i name names hpc
        obtain ⟨i, hname, h⟩ := Option.bind_eq_some_iff.mp h
        obtain ⟨x, hx, h⟩ := Option.bind_eq_some_iff.mp h
        split_ifs at h with hwaited
        obtain rfl := Option.some.inj h
        have hdone : x.enqueued = true → x.done = true := fun henq =>
          hwaited (hs.marked.enqueued i x hx henq).1 henq
        refine (hs.close_entry hname hx hdone).goto ?_ fun _ => Pc.noConfusion
        show [] = (s.pcs k).held
        rw [hpc]; rfl
      · exact absurd h (by simp)
  | got k =>
      simp only [step] at h
      split at h
      · rename_i i hpc
        obtain ⟨x, hx, h⟩ := Option.bind_eq_some_iff.mp h
        split_ifs at h with hdone herror
        · rw [hsafe i x hpc hx hdone] at herror
          exact absurd herror (by simp)
        · obtain rfl := Option.some.inj h
          exact hs.close (by rw [hpc]; rfl) hx (fun _ => hdone) rfl fun _ => Pc.noConfusion
      · exact absurd h (by simp)
  | task i why =>
      obtain ⟨x, hx, h⟩ := Option.bind_eq_some_iff.mp h
      split_ifs at h
      exact hs.callback hx h
  | run k why =>
      simp only [step] at h
      split at h
      · obtain ⟨x, hx, h⟩ := Option.bind_eq_some_iff.mp h
        exact hs.callback hx h
      · obtain ⟨x, hx, h⟩ := Option.bind_eq_some_iff.mp h
        split_ifs at h
        exact hs.callback hx h
      · exact absurd h (by simp)

/-! ## Requests that are lost -/

/-- A request that its command leaves is nowhere. -/
theorem not_right_goto {s : State} {k i : Nat} {pc : Pc} (hs : Sound s)
    (hheld : (s.pcs k).held = [i]) (hpc : pc.held = []) : ¬ Right (s.goto k pc) := by
  intro hright
  have hperm : (s.lists (.held k)).Perm ([i] ++ []) := List.Perm.of_eq hheld
  obtain ⟨hlt, hnone⟩ := hs.placed.not_mem_drop hperm
  obtain ⟨p, hp⟩ := hright.all i hlt
  rw [lists_goto, hpc] at hp
  exact hnone p hp

/-- A step after which it holds is safe. -/
theorem safe_of_right {s : State} {e : Event} (hs : Sound s)
    (hright : ∀ s' ∈ step s e, Right s') : Safe s e := by
  cases e with
  | timeout k =>
      intro i h hpc hi
      by_contra hasync
      have hstep : step s (.timeout k) = some (s.goto k .idle) := by
        simp [step, hpc, hi, Bool.eq_true_of_not_eq_false hasync]
      exact not_right_goto hs (by rw [hpc]; rfl) rfl (hright _ hstep)
  | got k =>
      intro i h hpc hi hdone
      by_contra herror
      have hstep : step s (.got k) = some (s.goto k .idle) := by
        simp [step, hpc, hi, hdone, Option.isSome_iff_ne_none.mpr herror]
      exact not_right_goto hs (by rw [hpc]; rfl) rfl (hright _ hstep)
  | async _ | openReq _ _ _ | enqueue _ _ | insert _ | wait _ _ _ | waited _ | cancel _ _ _
  | abort _ _ | aborted _ | cleanup _ | clean _ | cleaned _ | task _ _ | run _ _ => trivial

/-- Nothing was opened. -/
theorem sound_init : Sound State.init := by
  have hnone : ∀ p, State.init.lists p = [] := by
    intro p
    cases p <;> rfl
  refine ⟨⟨⟨fun p => ?_, fun {p q i} hp => ?_⟩, fun i => ?_⟩, ?_, ?_⟩
  · rw [hnone]
    exact List.nodup_nil
  · rw [hnone] at hp
    exact absurd hp List.not_mem_nil
  · show (∃ p, i ∈ State.init.lists p) ↔ i < 0
    refine iff_of_false ?_ (Nat.not_lt_zero i)
    rintro ⟨p, hp⟩
    rw [hnone] at hp
    exact List.not_mem_nil hp
  · exact ⟨List.nodup_nil, by simp [State.init], by simp [State.init], by simp [State.init],
      by simp [State.init]⟩
  · exact ⟨List.nodup_nil, by simp [State.init], by simp [State.init], by simp [State.init],
      by simp [State.init]⟩

/-- **In all states of a run every request was freed once or is in one place, and no task calls back
for one that was freed, exactly if no wait for a request that was handed over ends for its time and
no one-shot get ends with an error.** -/
theorem lifetime_iff (es : List Event) :
    (∀ pre, pre <+: es → ∀ s, run step State.init pre = some s → Right s) ↔
      Along step Safe State.init es := by
  rw [reached_iff_along es sound_init.right]
  have hiff : ∀ s e, Sound s → ((∀ s' ∈ step s e, Right s') ↔ Safe s e) := fun s e hs =>
    ⟨safe_of_right hs, fun hsafe s' h => (sound_step hs hsafe h).right⟩
  refine along_congr hiff (fun s e s' hs hright h => ?_) es sound_init
  exact sound_step hs (safe_of_right hs hright) h

/-- A request is queued, and its answer does not come in the time of the wait. -/
theorem timeout_lost : ¬ ∀ s, run step State.init
    [.openReq 0 true .ok, .enqueue 0 true, .insert 0, .wait 0 0 true, .timeout 0] = some s →
      Right s := by
  intro hright
  have hsafe : Along step Safe State.init
      [.openReq 0 true .ok, .enqueue 0 true, .insert 0, .wait 0 0 true] :=
    ⟨trivial, fun _ _ => ⟨trivial, fun _ _ => ⟨trivial, fun _ _ => ⟨trivial, fun _ _ => trivial⟩⟩⟩⟩
  have hsound := run_invariant (fun _ _ _ => sound_step) sound_init hsafe rfl
  have hlost : ¬ Right (State.goto _ 0 .idle) := not_right_goto hsound rfl rfl
  exact hlost (hright _ rfl)

end Nsdci.HttpLifetime
