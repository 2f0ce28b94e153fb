import Nsdci.AvCache
import Mathlib.Algebra.Order.Group.Multiset

/-!
# How long a file stays mapped

A file is mapped exactly while the cache has it or an interpreter is attached to it, and counts
both (`Kept`). That holds in every run in which a file whose `stat` succeeded is opened and mapped
and its header found (`Loads`). When it is not, `AvGet` unlocks the cache without having its lock,
and the thread that has it goes on beside another.
-/

namespace Nsdci.AvCache

open Lib

/-- The cache has the file. -/
def State.cached (s : State) (id : Nat) : Bool := (pairs s.cache).any fun e => e.2 = some id

/-- The interpreter is attached to the file. -/
def Interp.attached (x : Interp) (id : Nat) : Bool := (pairs x.avTable).any fun e => e.2 = id

/-- The references to a file: one for the cache while it has it, and one for each interpreter
attached to it. -/
def State.refs (s : State) (id : Nat) : Nat :=
  (if s.cached id then 1 else 0) + s.interps.countP (·.attached id)

/-- The count of every file is that of its references, it is mapped exactly while there are some,
every interpreter is attached to mapped files only, and nothing was done to one that is not. -/
structure Kept (s : State) : Prop where
  count : ∀ id, s.heap.refcnt id = s.refs id
  mapped : ∀ id, (s.heap.val id).isSome ↔ 0 < s.refs id
  pointing : ∀ x ∈ s.interps, ∀ list id, x.avTable.lookup list = some id → (s.heap.val id).isSome
  fault : s.heap.fault = false

/-- A file whose `stat` succeeded is opened and mapped, and its header found. -/
def Loads (_ : State) : Event → Prop
  | .load _ ok => ok = true
  | _ => True

/-- The condition can be checked. -/
instance decidableLoads (s : State) : ∀ e, Decidable (Loads s e)
  | .load _ ok => inferInstanceAs (Decidable (ok = true))
  | .create | .get .. | .enter _ | .attach _ | .publish _ | .fail _ | .release _ | .evict _
  | .autoload .. | .deleteCommand .. => inferInstanceAs (Decidable True)

/-! ## Counting references -/

/-- The entries of the cache that have a file. -/
def cacheRefs (cache : AList fun _ : Bytes => Option Nat) (id : Nat) : Nat :=
  entrySum (fun _ v => if v = some id then 1 else 0) cache

/-- The entries of a table that have a file. -/
def tableRefs (table : AList fun _ : Bytes => Nat) (id : Nat) : Nat :=
  entrySum (fun _ id' => if id' = id then 1 else 0) table

/-- The entries of all tables that have a file. -/
def interpRefs (interps : List Interp) (id : Nat) : Nat :=
  sumOf (fun x => tableRefs x.avTable id) interps

/-- The file is mapped and has this name. -/
def Named (heap : Heap Av) (name : Bytes) (id : Nat) : Prop :=
  (heap.val id).map Av.name = some name

/-- What holds of a thread: the file it is getting is not in its table yet, and one it has found is
in the cache while it has the lock. -/
def Thread (lock : Option Nat) (cache : AList fun _ : Bytes => Option Nat) (i : Nat) (x : Interp) :
    Prop :=
  match x.pc with
  | .idle => True
  | .stated list _ | .loading list _ | .mapped list _ => x.avTable.lookup list = none
  | .found list id =>
      x.avTable.lookup list = none ∧ lock = some i ∧ cache.lookup list = some (some id)
  | .failed _ => False

/-- What holds in every state of a run in which files load. -/
structure Inv (s : State) (H : Multiset Nat) : Prop where
  counted : s.heap.Counted H
  count : ∀ id, H.count id = cacheRefs s.cache id + interpRefs s.interps id
  cacheNames : ∀ name id, s.cache.lookup name = some (some id) → Named s.heap name id
  tableNames : ∀ x ∈ s.interps, ∀ name id, x.avTable.lookup name = some id → Named s.heap name id
  threads : ∀ i x, s.interps[i]? = some x → Thread s.lock s.cache i x

/-- A file has one name. -/
theorem Named.eq {heap : Heap Av} {name name' : Bytes} {id : Nat} (h : Named heap name id)
    (h' : Named heap name' id) : name = name' :=
  Option.some.inj (h.symm.trans h')

/-- **The references are the entries counted.** -/
theorem Inv.refs_eq {s : State} {H : Multiset Nat} (h : Inv s H) (id : Nat) :
    s.refs id = cacheRefs s.cache id + interpRefs s.interps id := by
  obtain ⟨name, hname⟩ : ∃ name, ∀ name', Named s.heap name' id → name' = name := by
    by_cases hsome : ∃ name, Named s.heap name id
    · obtain ⟨name, hname⟩ := hsome
      exact ⟨name, fun name' h' => h'.eq hname⟩
    · exact ⟨[], fun name' h' => absurd ⟨name', h'⟩ hsome⟩
  have hcache := entrySum_test s.cache (fun v => v = some id) name fun name' v hv hp =>
    hname name' (h.cacheNames name' id (by rw [hv, of_decide_eq_true hp]))
  have htable : ∀ x ∈ s.interps, tableRefs x.avTable id = if x.attached id then 1 else 0 := by
    intro x hx
    have htest := entrySum_test x.avTable (fun id' => id' = id) name fun name' v hv hp =>
      hname name' (h.tableNames x hx name' id (by rw [hv, of_decide_eq_true hp]))
    simp only [decide_eq_true_eq] at htest
    exact htest
  unfold State.refs interpRefs cacheRefs
  rw [sumOf_congr htable, sumOf_eq_countP]
  simp only [decide_eq_true_eq] at hcache
  rw [hcache]
  rfl

/-- **What the invariant says of the files.** -/
theorem Inv.kept {s : State} {H : Multiset Nat} (h : Inv s H) : Kept s := by
  have hrefs : ∀ id, s.refs id = H.count id := fun id => (h.refs_eq id).trans (h.count id).symm
  refine ⟨fun id => ?_, fun id => ?_, fun x hx list id hid => ?_, h.counted.fault⟩
  · rw [hrefs, h.counted.count]
  · rw [hrefs, h.counted.val_isSome_iff, Multiset.count_pos]
  · have hnamed := h.tableNames x hx list id hid
    unfold Named at hnamed
    cases hval : s.heap.val id with
    | some av => rfl
    | none =>
        rw [hval] at hnamed
        exact absurd hnamed (by simp)

/-! ## Steps -/

variable {s : State} {H : Multiset Nat} {i : Nat} {x : Interp}

/-- The references of one interpreter in place of those of another. -/
theorem interpRefs_set (hx : s.interps[i]? = some x) (y : Interp) (id : Nat) :
    interpRefs (s.interps.set i y) id + tableRefs x.avTable id =
      interpRefs s.interps id + tableRefs y.avTable id :=
  sumOf_set (fun x : Interp => tableRefs x.avTable id) hx y

/-- The references to a file of a cache with an entry in place of another. -/
theorem cacheRefs_insert (cache : AList fun _ : Bytes => Option Nat) (list : Bytes)
    (v : Option Nat) (id : Nat) :
    cacheRefs (cache.insert list v) id + (if (cache.lookup list).join = some id then 1 else 0) =
      cacheRefs cache id + (if v = some id then 1 else 0) := by
  unfold cacheRefs
  rw [entrySum_insert, entrySum_erase _ cache list]
  cases cache.lookup list with
  | none =>
      have hno : ¬ (none : Option Nat) = some id := by simp
      rw [Option.elim_none, Option.join_none, if_neg hno]
      omega
  | some v' =>
      rw [Option.elim_some, Option.join_some]
      omega

/-- And without an entry. -/
theorem cacheRefs_erase (cache : AList fun _ : Bytes => Option Nat) (list : Bytes) (id : Nat) :
    cacheRefs (cache.erase list) id + (if (cache.lookup list).join = some id then 1 else 0) =
      cacheRefs cache id := by
  unfold cacheRefs
  rw [entrySum_erase _ cache list]
  cases cache.lookup list with
  | none =>
      have hno : ¬ (none : Option Nat) = some id := by simp
      rw [Option.elim_none, Option.join_none, if_neg hno]
      omega
  | some v' =>
      rw [Option.elim_some, Option.join_some]
      omega

/-- The references of a table that had no entry of the name. -/
theorem tableRefs_insert {table : AList fun _ : Bytes => Nat} {list : Bytes}
    (hnone : table.lookup list = none) (id id' : Nat) :
    tableRefs (table.insert list id) id' = tableRefs table id' + (if id = id' then 1 else 0) := by
  unfold tableRefs
  rw [entrySum_insert, erase_eq_self hnone]
  omega

/-- A file in the cache is referred to. -/
theorem cacheRefs_pos {cache : AList fun _ : Bytes => Option Nat} {name : Bytes} {id : Nat}
    (h : cache.lookup name = some (some id)) : 0 < cacheRefs cache id := by
  unfold cacheRefs
  rw [entrySum_erase _ cache name, h, Option.elim_some, if_pos rfl]
  omega

/-- A file in a table is referred to. -/
theorem tableRefs_pos {table : AList fun _ : Bytes => Nat} {name : Bytes} {id : Nat}
    (h : table.lookup name = some id) : 0 < tableRefs table id := by
  unfold tableRefs
  rw [entrySum_erase _ table name, h, Option.elim_some, if_pos rfl]
  omega

/-- What a thread is at depends on the lock and the cache only when it has the lock. -/
theorem Thread.free {lock lock' : Option Nat} {cache cache' : AList fun _ : Bytes => Option Nat}
    (h : Thread lock cache i x) (hlock : lock ≠ some i) : Thread lock' cache' i x := by
  unfold Thread at h ⊢
  cases hpc : x.pc with
  | found list id =>
      rw [hpc] at h
      exact absurd h.2.1 hlock
  | idle | stated | loading | mapped | failed =>
      rw [hpc] at h
      exact h

/-- The threads after a step of one of them. -/
theorem threads_set {lock lock' : Option Nat} {cache cache' : AList fun _ : Bytes => Option Nat}
    {interps : List Interp} {y : Interp} (h : ∀ j z, interps[j]? = some z → Thread lock cache j z)
    (hy : Thread lock' cache' i y)
    (hother : ∀ j z, j ≠ i → Thread lock cache j z → Thread lock' cache' j z) :
    ∀ j z, (interps.set i y)[j]? = some z → Thread lock' cache' j z := by
  intro j z hz
  by_cases hj : j = i
  · subst hj
    have hlt : j < interps.length := by
      have hlt := (List.getElem?_eq_some_iff.mp hz).1
      rwa [List.length_set] at hlt
    rw [List.getElem?_set_self hlt] at hz
    obtain rfl := Option.some.inj hz
    exact hy
  · rw [List.getElem?_set_ne (Ne.symm hj)] at hz
    exact hother j z hj (h j z hz)

/-- **What is still referred to keeps its name, and what is new has its own.** -/
theorem Inv.change {heap : Heap Av} {cache : AList fun _ : Bytes => Option Nat}
    {lock : Option Nat} {interps : List Interp} {H' : Multiset Nat} (h : Inv s H)
    (hcounted : heap.Counted H')
    (hcount : ∀ id, H'.count id = cacheRefs cache id + interpRefs interps id)
    (hnamed : ∀ id ∈ H', ∀ name, Named s.heap name id → Named heap name id)
    (hcache : ∀ name id, cache.lookup name = some (some id) →
      s.cache.lookup name = some (some id) ∨ Named heap name id)
    (htable : ∀ z ∈ interps, ∀ name id, z.avTable.lookup name = some id →
      (∃ z' ∈ s.interps, z'.avTable.lookup name = some id) ∨ Named heap name id)
    (hthreads : ∀ j z, interps[j]? = some z → Thread lock cache j z) :
    Inv ⟨heap, cache, lock, interps⟩ H' := by
  have hold : ∀ id name, 0 < cacheRefs cache id + interpRefs interps id →
      Named s.heap name id → Named heap name id := by
    intro id name hpos hname
    refine hnamed id (Multiset.count_pos.mp ?_) name hname
    rw [hcount id]
    exact hpos
  refine ⟨hcounted, hcount, fun name id hid => ?_, fun z hz name id hid => ?_, hthreads⟩
  · have hpos : 0 < cacheRefs cache id := cacheRefs_pos hid
    cases hcache name id hid with
    | inl hid' => exact hold id name (by omega) (h.cacheNames name id hid')
    | inr hname => exact hname
  · have hpos := tableRefs_pos hid
    have hle : tableRefs z.avTable id ≤ interpRefs interps id :=
      le_sumOf (fun x : Interp => tableRefs x.avTable id) hz
    cases htable z hz name id hid with
    | inl hid' =>
        obtain ⟨z', hz', hid'⟩ := hid'
        exact hold id name (by omega) (h.tableNames z' hz' name id hid')
    | inr hname => exact hname

/-- **A thread takes a step.** -/
theorem Inv.set {heap : Heap Av} {cache : AList fun _ : Bytes => Option Nat} {lock : Option Nat}
    {H' : Multiset Nat} {y : Interp} (h : Inv s H) (hx : s.interps[i]? = some x)
    (hcounted : heap.Counted H')
    (hcount : ∀ id, H'.count id + tableRefs x.avTable id =
      cacheRefs cache id + interpRefs s.interps id + tableRefs y.avTable id)
    (hnamed : ∀ id ∈ H', ∀ name, Named s.heap name id → Named heap name id)
    (hcache : ∀ name id, cache.lookup name = some (some id) →
      s.cache.lookup name = some (some id) ∨ Named heap name id)
    (htable : ∀ name id, y.avTable.lookup name = some id →
      x.avTable.lookup name = some id ∨ Named heap name id)
    (hy : Thread lock cache i y)
    (hother : ∀ j z, j ≠ i → Thread s.lock s.cache j z → Thread lock cache j z) :
    Inv ⟨heap, cache, lock, s.interps.set i y⟩ H' := by
  refine h.change hcounted (fun id => ?_) hnamed hcache (fun z hz name id hid => ?_)
    (threads_set h.threads hy hother)
  · have hset := interpRefs_set hx y id
    have hold := hcount id
    omega
  · cases List.mem_or_eq_of_mem_set hz with
    | inl hz' => exact Or.inl ⟨z, hz', hid⟩
    | inr heq =>
        subst heq
        exact (htable name id hid).imp_left fun hid' => ⟨x, List.mem_of_getElem? hx, hid'⟩

/-- A step that only the thread itself sees. -/
theorem Inv.local (h : Inv s H) (hx : s.interps[i]? = some x) {y : Interp}
    (htable : y.avTable = x.avTable) (hy : Thread s.lock s.cache i y) :
    Inv (s.setInterp i y) H := by
  refine h.set hx h.counted (fun id => ?_) (fun _ _ _ hname => hname) (fun _ _ hid => Or.inl hid)
    (fun name id hid => Or.inl (htable ▸ hid)) hy fun _ _ _ hz => hz
  rw [htable, h.count]

/-- A value is unset, of a file that was referred to once more. -/
theorem unsetValue_counted {heap : Heap Av} {v : Option Nat}
    (hc : heap.Counted ((v.elim 0 fun id => {id}) + H)) :
    (unsetValue heap v).Counted H ∧
      ∀ id ∈ H, ∀ name, Named heap name id → Named (unsetValue heap v) name id := by
  cases v with
  | none =>
      rw [Option.elim_none, zero_add] at hc
      exact ⟨hc, fun _ _ _ hname => hname⟩
  | some id =>
      rw [Option.elim_some, Multiset.singleton_add] at hc
      refine ⟨hc.decr, fun id' hid' name hname => ?_⟩
      unfold Named at hname ⊢
      rw [← hname]
      exact congrArg (Option.map Av.name) (Heap.val_decr hc hid')

/-- The reference of an entry of the cache, and the others. -/
theorem Inv.split (h : Inv s H) (list : Bytes) :
    ∃ H', H = ((s.cache.lookup list).join.elim 0 fun id => {id}) + H' ∧
      ∀ id, H'.count id + (if (s.cache.lookup list).join = some id then 1 else 0) =
        cacheRefs s.cache id + interpRefs s.interps id := by
  cases hv : (s.cache.lookup list).join with
  | none =>
      refine ⟨H, (zero_add H).symm, fun id => ?_⟩
      have hno : ¬ (none : Option Nat) = some id := by simp
      rw [if_neg hno, h.count, Nat.add_zero]
  | some id =>
      have hlookup : s.cache.lookup list = some (some id) := Option.join_eq_some_iff.mp hv
      have hmem : id ∈ H := by
        have hpos := cacheRefs_pos hlookup
        rw [← Multiset.count_pos, h.count]
        omega
      obtain ⟨H', rfl⟩ := Multiset.exists_cons_of_mem hmem
      refine ⟨H', (Multiset.singleton_add id H').symm, fun id' => ?_⟩
      rw [← h.count, Multiset.count_cons]
      simp only [Option.some.injEq, eq_comm]

/-- A lookup after an entry was set to a file that is given. -/
theorem lookup_insert_some {β : Type} {table : AList fun _ : Bytes => β} {list name : Bytes}
    {v v' : β} (h : (table.insert list v).lookup name = some v') :
    table.lookup name = some v' ∨ name = list ∧ v = v' := by
  by_cases hname : name = list
  · subst hname
    rw [AList.lookup_insert] at h
    exact Or.inr ⟨rfl, Option.some.inj h⟩
  · rw [AList.lookup_insert_ne hname] at h
    exact Or.inl h

/-- `AvGet` takes the lock and looks the file up. -/
theorem Inv.enter (h : Inv s H) (hx : s.interps[i]? = some x) {list : Bytes} {st : Stat}
    (hpc : x.pc = .stated list st) (hlock : s.lock = none) :
    ∃ H', Inv (s.enter i x list st) H' := by
  have hthread := h.threads i x hx
  unfold Thread at hthread
  rw [hpc] at hthread
  have hfree : ∀ j z, j ≠ i → Thread s.lock s.cache j z →
      ∀ lock cache, Thread lock cache j z := by
    intro j z _ hz lock cache
    exact hz.free (by rw [hlock]; simp)
  have hnone : ∀ name id, (s.cache.insert list none).lookup name = some (some id) →
      s.cache.lookup name = some (some id) := by
    intro name id hid
    cases lookup_insert_some hid with
    | inl hid => exact hid
    | inr heq => exact absurd heq.2 (by simp)
  unfold State.enter
  split
  next hlookup =>
    refine ⟨H, h.set hx h.counted (fun id => ?_) (fun _ _ _ hname => hname)
      (fun name id hid => Or.inl (hnone name id hid)) (fun _ _ hid => Or.inl hid) hthread
      fun j z hj hz => hfree j z hj hz _ _⟩
    have hinsert := cacheRefs_insert s.cache list none id
    have hcount := h.count id
    rw [hlookup, Option.join_none] at hinsert
    dsimp only
    omega
  next => exact ⟨H, h⟩
  next id hlookup =>
    have hname := h.cacheNames list id hlookup
    unfold Named at hname
    split
    next hval =>
      rw [hval] at hname
      exact absurd hname (by simp)
    next av hval =>
      split
      next =>
        refine ⟨H, h.set hx h.counted (fun id => ?_) (fun _ _ _ hname => hname)
          (fun _ _ hid => Or.inl hid) (fun _ _ hid => Or.inl hid) ⟨hthread, rfl, hlookup⟩
          fun j z hj hz => hfree j z hj hz _ _⟩
        rw [h.count]
        rfl
      next =>
        obtain ⟨H', rfl, hcount⟩ := h.split list
        have hjoin : (s.cache.lookup list).join = some id := by rw [hlookup]; rfl
        obtain ⟨hcounted, hnamed⟩ := unsetValue_counted h.counted
        rw [hjoin] at hcounted hnamed
        refine ⟨H', h.set hx hcounted (fun id' => ?_) hnamed
          (fun name id hid => Or.inl (hnone name id hid)) (fun _ _ hid => Or.inl hid) hthread
          fun j z hj hz => hfree j z hj hz _ _⟩
        have hinsert := cacheRefs_insert s.cache list none id'
        have hcount' := hcount id'
        rw [if_neg (by simp : ¬ (none : Option Nat) = some id')] at hinsert
        dsimp only
        omega

/-- `AvGet` attaches an interpreter to the file it has found. -/
theorem Inv.attach (h : Inv s H) (hx : s.interps[i]? = some x) {list : Bytes} {id : Nat}
    (hpc : x.pc = .found list id) :
    Inv { s.attach i x list id with heap := s.heap.incr id, lock := none } (id ::ₘ H) := by
  have hthread := h.threads i x hx
  unfold Thread at hthread
  rw [hpc] at hthread
  obtain ⟨hnone, hlock, hlookup⟩ := hthread
  have hmem : id ∈ H := by
    have hpos := cacheRefs_pos hlookup
    rw [← Multiset.count_pos, h.count]
    omega
  have hname : ∀ name id', Named s.heap name id' → Named (s.heap.incr id) name id' := by
    intro name id' hname
    unfold Named at hname ⊢
    rwa [Heap.val_incr]
  refine h.set hx (h.counted.incr hmem) (fun id' => ?_) (fun id' _ name => hname name id')
    (fun _ _ hid => Or.inl hid) (fun name id' hid => ?_) trivial fun j z hj hz => hz.free ?_
  · have hinsert := tableRefs_insert hnone id id'
    rw [Multiset.count_cons, h.count]
    simp only [eq_comm (a := id')]
    show cacheRefs s.cache id' + _ + _ + _ =
      cacheRefs s.cache id' + _ + tableRefs (x.avTable.insert list id) id'
    omega
  · cases lookup_insert_some hid with
    | inl hid => exact Or.inl hid
    | inr heq =>
        obtain ⟨rfl, rfl⟩ := heq
        exact Or.inr (hname _ _ (h.cacheNames _ _ hlookup))
  · rw [hlock]
    exact fun heq => hj (Option.some.inj heq).symm

/-- `AvGet` puts a file it has mapped into the cache, in place of another mapping of it, and
attaches the interpreter. -/
theorem Inv.publish (h : Inv s H) (hx : s.interps[i]? = some x) {list : Bytes} {st : Stat}
    (hpc : x.pc = .mapped list st) (hlock : s.lock = none) :
    ∃ H', Inv (s.publish i x list st) H' := by
  have hnone := h.threads i x hx
  unfold Thread at hnone
  rw [hpc] at hnone
  obtain ⟨H', rfl, hcount⟩ := h.split list
  -- the mapping with the reference of the cache, then without the old one, then attached
  have halloc := h.counted.alloc ⟨list, st⟩
  have hnew := Heap.val_alloc_self s.heap ⟨list, st⟩
  have holdval : ∀ id ∈ H', (s.heap.alloc ⟨list, st⟩).1.val id = s.heap.val id :=
    fun id hid => Heap.val_alloc h.counted _ (Multiset.mem_add.mpr (Or.inr hid))
  unfold State.publish
  dsimp only
  generalize hr : s.heap.alloc ⟨list, st⟩ = r at halloc hnew holdval ⊢
  have hid : r.2 = s.heap.next := by rw [← hr]; rfl
  have halloc' : r.1.Counted
      (((s.cache.lookup list).join.elim 0 fun id => {id}) + (r.2 ::ₘ H')) := by
    rwa [Multiset.add_cons]
  obtain ⟨hunset, hnamed⟩ := unsetValue_counted halloc'
  generalize unsetValue r.1 (s.cache.lookup list).join = heap at hunset hnamed ⊢
  have hmem : r.2 ∈ r.2 ::ₘ H' := Multiset.mem_cons_self r.2 H'
  have hnameNew : Named (heap.incr r.2) list r.2 := by
    have hname := hnamed r.2 hmem list (by rw [Named, hnew]; rfl)
    unfold Named at hname ⊢
    rwa [Heap.val_incr]
  refine ⟨r.2 ::ₘ r.2 ::ₘ H', h.set hx (hunset.incr hmem) (fun id => ?_)
    (fun id hid' name hname => ?_) (fun name id hid' => ?_) (fun name id hid' => ?_) trivial
    fun j z hj hz => hz.free (by rw [hlock]; simp)⟩
  · have hinsert := cacheRefs_insert s.cache list (some r.2) id
    have htable := tableRefs_insert hnone r.2 id
    have hcount' := hcount id
    rw [Multiset.count_cons, Multiset.count_cons]
    simp only [eq_comm (a := id)]
    simp only [Option.some.injEq] at hinsert
    omega
  · by_cases heq : id = r.2
    · -- nothing was mapped there
      unfold Named at hname
      rw [heq, hid, Heap.val, h.counted.fresh _ le_rfl] at hname
      exact absurd hname (by simp)
    · have hidmem : id ∈ H' := by
        rcases Multiset.mem_cons.mp hid' with h1 | h1
        · exact absurd h1 heq
        · exact (Multiset.mem_cons.mp h1).resolve_left heq
      have hname' := hnamed id (Multiset.mem_cons_of_mem hidmem) name
        (by unfold Named at hname ⊢; rwa [holdval id hidmem])
      unfold Named at hname' ⊢
      rwa [Heap.val_incr]
  · cases lookup_insert_some hid' with
    | inl hid' => exact Or.inl hid'
    | inr heq =>
        obtain ⟨rfl, heq⟩ := heq
        obtain rfl := Option.some.inj heq
        exact Or.inr hnameNew
  · cases lookup_insert_some hid' with
    | inl hid' => exact Or.inl hid'
    | inr heq =>
        obtain ⟨rfl, rfl⟩ := heq
        exact Or.inr hnameNew

/-- The references of a table are its files, each as often as it is there. -/
theorem tableRefs_eq_count (table : AList fun _ : Bytes => Nat) (id : Nat) :
    tableRefs table id = ((pairs table).map Prod.snd).count id := by
  have hcountP := sumOf_eq_countP (fun e : Bytes × Nat => e.2 == id) (pairs table)
  simp only [beq_iff_eq] at hcountP
  unfold tableRefs
  rw [← sumOf_pairs, hcountP, List.count, List.countP_map]
  rfl

/-- A thread detaches its interpreter from all files. -/
theorem Inv.release (h : Inv s H) (hx : s.interps[i]? = some x) (hpc : x.pc = .idle) :
    ∃ H', Inv (s.release i x) H' := by
  have hcountIds := tableRefs_eq_count x.avTable
  unfold State.release
  generalize (pairs x.avTable).map Prod.snd = ids at hcountIds ⊢
  -- the references of the table are among those held
  have hle : (ids : Multiset Nat) ≤ H := by
    refine Multiset.le_iff_count.mpr fun id => ?_
    have hmem := le_sumOf (fun x : Interp => tableRefs x.avTable id) (List.mem_of_getElem? hx)
    rw [Multiset.coe_count, ← hcountIds, h.count]
    exact hmem.trans (Nat.le_add_left _ _)
  obtain ⟨H', rfl⟩ := Multiset.le_iff_exists_add.mp hle
  have hcounted : (ids.foldl avFree s.heap).Counted H' := h.counted.decrs
  refine ⟨H', h.set hx hcounted (fun id => ?_) (fun id hid name hname => ?_)
    (fun _ _ hid => Or.inl hid) (fun _ _ hid => ?_) ?_ fun _ _ _ hz => hz⟩
  · have hcount := h.count id
    rw [Multiset.count_add, Multiset.coe_count, ← hcountIds] at hcount
    show _ = cacheRefs s.cache id + _ + 0
    omega
  · have hlt := h.counted.lt_next (Multiset.mem_add.mpr (Or.inr hid))
    have hval := (Heap.extends_decrs ids s.heap).val_of_mem hcounted hid hlt
    unfold Named at hname ⊢
    rw [← hname]
    exact congrArg (Option.map Av.name) hval
  · rw [AList.lookup_empty] at hid
    exact absurd hid (by simp)
  · unfold Thread
    dsimp only
    rw [hpc]
    trivial

/-- An entry leaves the cache. -/
theorem Inv.evict (h : Inv s H) (hlock : s.lock = none) {list : Bytes} {v : Option Nat}
    (hlookup : s.cache.lookup list = some v) :
    ∃ H', Inv { s with heap := unsetValue s.heap v, cache := s.cache.erase list } H' := by
  obtain ⟨H', rfl, hcount⟩ := h.split list
  have hjoin : (s.cache.lookup list).join = v := by rw [hlookup]; rfl
  obtain ⟨hcounted, hnamed⟩ := unsetValue_counted h.counted
  rw [hjoin] at hcounted hnamed
  refine ⟨H', h.change hcounted (fun id => ?_) hnamed (fun name id hid => Or.inl ?_)
    (fun z hz _ _ hid => Or.inl ⟨z, hz, hid⟩) fun j z hz => ?_⟩
  · have herase := cacheRefs_erase s.cache list id
    have hcount' := hcount id
    omega
  · by_cases hname : name = list
    · subst hname
      rw [AList.lookup_erase] at hid
      exact absurd hid (by simp)
    · rwa [AList.lookup_erase_ne hname] at hid
  · exact (h.threads j z hz).free (by rw [hlock]; simp)

/-- A new interpreter. -/
theorem Inv.create (h : Inv s H) :
    Inv { s with interps := s.interps ++ [⟨.idle, ∅, []⟩] } H := by
  refine h.change h.counted (fun id => ?_) (fun _ _ _ hname => hname) (fun _ _ hid => Or.inl hid)
    (fun z hz name id hid => ?_) fun j z hz => ?_
  · rw [h.count, interpRefs, interpRefs, sumOf_append]
    rfl
  · cases List.mem_append.mp hz with
    | inl hz => exact Or.inl ⟨z, hz, hid⟩
    | inr hz =>
        obtain rfl := List.mem_singleton.mp hz
        rw [AList.lookup_empty] at hid
        exact absurd hid (by simp)
  · by_cases hj : j < s.interps.length
    · rw [List.getElem?_append_left hj] at hz
      exact h.threads j z hz
    · rw [List.getElem?_append_right (by omega), List.getElem?_singleton] at hz
      split at hz
      next =>
        obtain rfl := Option.some.inj hz
        trivial
      next => exact absurd hz (by simp)

/-- **One step of a thread.** -/
theorem Inv.thread {s' : State} {e : Event} (h : Inv s H) (hloads : Loads s e)
    (hx : s.interps[i]? = some x) (hnext : s.thread i x e = some s') : ∃ H', Inv s' H' := by
  have hthread := h.threads i x hx
  unfold State.thread at hnext
  split at hnext
  next list st hpc =>
    obtain rfl := Option.some.inj hnext
    unfold State.get
    split
    next st hnone => exact ⟨H, h.local hx rfl hnone⟩
    next => exact ⟨H, h⟩
  next list st hpc =>
    obtain ⟨hlock, hs'⟩ := Option.ite_none_right_eq_some.mp hnext
    obtain rfl := Option.some.inj hs'
    exact h.enter hx hpc hlock
  next list id hpc =>
    obtain rfl := Option.some.inj hnext
    exact ⟨id ::ₘ H, h.attach hx hpc⟩
  next ok list st hpc =>
    -- the file is opened and mapped
    obtain rfl := Option.some.inj hnext
    obtain rfl : ok = true := hloads
    unfold Thread at hthread
    rw [hpc] at hthread
    exact ⟨H, h.local hx rfl hthread⟩
  next list st hpc =>
    obtain ⟨hlock, hs'⟩ := Option.ite_none_right_eq_some.mp hnext
    obtain rfl := Option.some.inj hs'
    exact h.publish hx hpc hlock
  next list hpc =>
    -- no thread has failed
    unfold Thread at hthread
    rw [hpc] at hthread
    exact hthread.elim
  next hpc =>
    obtain ⟨-, hs'⟩ := Option.ite_none_right_eq_some.mp hnext
    obtain rfl := Option.some.inj hs'
    exact h.release hx hpc
  next cmd hpc =>
    obtain rfl := Option.some.inj hnext
    refine ⟨H, h.local hx rfl ?_⟩
    unfold Thread at hthread ⊢
    exact hthread
  next pidx hpc =>
    obtain ⟨-, hs'⟩ := Option.ite_none_right_eq_some.mp hnext
    obtain rfl := Option.some.inj hs'
    refine ⟨H, h.local hx rfl ?_⟩
    unfold Thread at hthread ⊢
    exact hthread
  next => exact absurd hnext (by simp)

/-- **One step.** -/
theorem inv_next {s' : State} {e : Event} (h : ∃ H, Inv s H) (hloads : Loads s e)
    (hnext : s.next e = some s') : ∃ H, Inv s' H := by
  obtain ⟨H, h⟩ := h
  cases e with
  | create =>
      obtain rfl := Option.some.inj hnext
      exact ⟨H, h.create⟩
  | evict list =>
      obtain ⟨hlock, hmap⟩ := Option.ite_none_right_eq_some.mp hnext
      obtain ⟨v, hlookup, rfl⟩ := Option.map_eq_some_iff.mp hmap
      exact h.evict hlock hlookup
  | get i | enter i | attach i | load i | publish i | fail i | release i | autoload i
  | deleteCommand i =>
      obtain ⟨x, hx, hthread⟩ := Option.bind_eq_some_iff.mp hnext
      exact h.thread hloads hx hthread

/-- **The lifetime of a mapped file.** In every run in which files load, however the threads
interleave, the count of a file is that of its references, it is mapped while there are some, and
no interpreter is attached to a file that is not mapped. -/
theorem files_kept {es : List Event} {s : State} (hrun : run State.next State.empty es = some s)
    (hloads : Along State.next Loads State.empty es) : Kept s := by
  have hempty : Inv State.empty 0 :=
    ⟨Heap.counted_empty, fun _ => rfl, fun _ _ hid => absurd hid (by simp [State.empty]),
      fun _ hx => absurd hx (List.not_mem_nil), fun _ _ hx => absurd hx (by simp [State.empty])⟩
  obtain ⟨H, h⟩ := run_invariant (fun _ _ _ hs hok hnext => inv_next hs hok hnext) ⟨0, hempty⟩
    hloads hrun
  exact h.kept

/-- Two interpreters are attached to a file, which leaves the cache before the last of them. -/
def twoInterps : List Event :=
  [.create, .create, .get 0 [110] (some ⟨64, 1⟩), .enter 0, .load 0 true, .publish 0,
    .get 1 [110] (some ⟨64, 1⟩), .enter 1, .attach 1, .release 0, .evict [110]]

/-- The file is kept for the second. -/
theorem files_kept_twoInterps :
    ∃ s, run State.next State.empty twoInterps = some s ∧ s.heap.refcnt 0 = 1 ∧ Kept s := by
  obtain ⟨s, hs⟩ := Option.isSome_iff_exists.mp
    (by decide +kernel : (run State.next State.empty twoInterps).isSome)
  have hkept := files_kept hs (by decide +kernel)
  have hcount : (run State.next State.empty twoInterps).map (·.heap.refcnt 0) = some 1 := by
    decide +kernel
  rw [hs] at hcount
  exact ⟨s, hs, Option.some.inj hcount, hkept⟩

/-- The third interpreter has mapped a file and detached itself. The first cannot map another file,
and unlocks the cache while the second has its lock and has found the file of the third. The third
finds that file changed. -/
def unlocked : List Event :=
  [.create, .create, .create, .get 2 [110] (some ⟨64, 1⟩), .enter 2, .load 2 true, .publish 2,
    .release 2, .get 0 [109] (some ⟨64, 1⟩), .enter 0, .load 0 false,
    .get 1 [110] (some ⟨64, 1⟩), .enter 1, .fail 0, .get 2 [110] (some ⟨80, 2⟩), .enter 2,
    .attach 1]

/-- The second interpreter is attached to a file that is not mapped. -/
theorem attached_unmapped :
    ∃ s, run State.next State.empty unlocked = some s ∧
      (∃ x ∈ s.interps, x.avTable.lookup [110] = some 0 ∧ s.heap.val 0 = none) ∧ ¬ Kept s := by
  refine ⟨_, rfl, ⟨_, List.mem_cons_of_mem _ List.mem_cons_self, rfl, rfl⟩, fun h => ?_⟩
  exact absurd h.fault (by decide +kernel)

end Nsdci.AvCache
