import Nsdci.QueFile.Insert

/-!
# Runs of inserts in a queue

Whatever the order of the steps, the minor numbers under a major are counted up from 1 in the order
of the links (`Inv`). So the names are in that order, as long as there are no more than 999.
-/

namespace Nsdci.Qf

open Lib

/-! ## The invariant -/

/-- The inserts are in the directory beside what was there, the minor numbers of a major are 1, 2, …
in the order of the inserts, and a call has passed over taken numbers only. -/
structure Inv (foreign : Foreign) (s : State) : Prop where
  dir : s.dir = foreign.entries ++ s.log.map Insert.entry
  minors : ∀ major, (s.ofMajor major).map (fun e => e.number.minor) =
    (List.range' 1 (s.ofMajor major).length).map fun n : Nat => (n : Int)
  trying : ∀ id tFile x, s.calls id = some (.linking tFile x) →
    1 ≤ x.minor ∧ x.minor ≤ (s.ofMajor x.major).length + 1

/-- What a step does: it makes no link, and a call that tries a number starts, has tried it, or has
found the number before taken; or it links a temporary file to a free name. -/
theorem step_cases {s s' : State} {e : Event} (h : step s e = some s') :
    (s'.dir = s.dir ∧ s'.log = s.log ∧ ∀ id tFile x, s'.calls id = some (.linking tFile x) →
      s.calls id = some (.linking tFile x) ∨ x.minor = 1 ∨
        ∃ y : Number, y.name ∈ s.names ∧ x.major = y.major ∧ x.minor = y.minor + 1) ∨
    ∃ id tFile x file, e = .link id false ∧ s.calls id = some (.linking tFile x) ∧
      s.temps tFile = some file ∧ x.name ∉ s.names ∧
      s' = (s.linked ⟨x, file⟩).setCall id (some (.unlinking tFile)) := by
  -- a call that is set to something else leaves the others
  have hset : ∀ (s : State) (id : Nat) (call : Option Call) (id' : Nat) (tFile : Bytes)
      (x : Number), (s.setCall id call).calls id' = some (.linking tFile x) →
        s.calls id' = some (.linking tFile x) ∨ call = some (.linking tFile x) := by
    intro s id call id' tFile x hcall
    by_cases hid : id' = id
    · right
      rw [hid] at hcall
      rwa [setCall_calls, Function.update_self] at hcall
    · left
      rwa [setCall_calls, Function.update_of_ne hid] at hcall
  have hnone : ∀ (s : State) (id : Nat) (id' : Nat) (tFile : Bytes) (x : Number),
      (s.setCall id none).calls id' = some (.linking tFile x) →
        s.calls id' = some (.linking tFile x) := by
    intro s id id' tFile x hcall
    exact (hset s id none id' tFile x hcall).resolve_right (fun h => nomatch h)
  cases e with
  | create path file =>
      obtain rfl := Option.some.inj h
      exact Or.inl ⟨rfl, rfl, fun id tFile x hcall => Or.inl hcall⟩
  | start id tFile major hmajor =>
      rw [step] at h
      split at h
      · obtain rfl := Option.some.inj h
        refine Or.inl ⟨rfl, rfl, fun id' tFile' x hcall => ?_⟩
        refine (hset s id _ id' tFile' x hcall).imp_right fun hfirst => Or.inl ?_
        obtain ⟨rfl, rfl⟩ := Call.linking.inj (Option.some.inj hfirst)
        rfl
      · exact nomatch h
  | unlink id =>
      rw [step] at h
      split at h
      · obtain rfl := Option.some.inj h
        exact Or.inl ⟨rfl, rfl, fun id' tFile' x hcall => Or.inl (hnone _ id id' tFile' x hcall)⟩
      · exact nomatch h
  | link id fails =>
      rw [step] at h
      split at h
      · next tFile x hcalls =>
          split at h
          · obtain rfl := Option.some.inj h
            exact Or.inl ⟨rfl, rfl,
              fun id' tFile' x' hcall => Or.inl (hnone _ id id' tFile' x' hcall)⟩
          · next file htemp =>
              split_ifs at h with hfails htaken
              · obtain rfl := Option.some.inj h
                exact Or.inl ⟨rfl, rfl,
                  fun id' tFile' x' hcall => Or.inl (hnone _ id id' tFile' x' hcall)⟩
              · obtain ⟨next, hnext, rfl⟩ := Option.map_eq_some_iff.mp h
                refine Or.inl ⟨rfl, rfl, fun id' tFile' x' hcall => ?_⟩
                refine (hset s id _ id' tFile' x' hcall).imp_right fun heq => Or.inr ?_
                obtain ⟨rfl, rfl⟩ := Call.linking.inj (Option.some.inj heq)
                rw [Number.next] at hnext
                split_ifs at hnext
                obtain rfl := Option.some.inj hnext
                exact ⟨x, htaken, rfl, rfl⟩
              · obtain rfl := Option.some.inj h
                have hno : fails = false := by simpa using hfails
                exact Or.inr ⟨id, tFile, x, file, by rw [hno], hcalls, htemp, htaken, rfl⟩
      · exact nomatch h

theorem mem_ofMajor {s : State} {major : Nat} {e : Insert} :
    e ∈ s.ofMajor major ↔ e ∈ s.log ∧ e.number.major = major := by
  rw [State.ofMajor, List.mem_filter, decide_eq_true_eq]

/-- The minor numbers of a major that are taken are the first ones. -/
theorem Inv.minor_iff {foreign : Foreign} {s : State} (hinv : Inv foreign s) (major : Nat)
    (n : Int) : (∃ e ∈ s.log, e.number.major = major ∧ e.number.minor = n) ↔
      1 ≤ n ∧ n ≤ (s.ofMajor major).length := by
  have hmem : n ∈ (s.ofMajor major).map (fun e => e.number.minor) ↔
      1 ≤ n ∧ n ≤ (s.ofMajor major).length := by
    rw [hinv.minors major, List.mem_map]
    constructor
    · rintro ⟨i, hi, rfl⟩
      obtain ⟨hlo, hhi⟩ := List.mem_range'_1.mp hi
      omega
    · intro ⟨hlo, hhi⟩
      exact ⟨n.toNat, List.mem_range'_1.mpr (by omega), by omega⟩
  rw [← hmem, List.mem_map]
  constructor
  · intro ⟨e, he, hmajor, hminor⟩
    exact ⟨e, mem_ofMajor.mpr ⟨he, hmajor⟩, hminor⟩
  · intro ⟨e, he, hminor⟩
    exact ⟨e, (mem_ofMajor.mp he).1, (mem_ofMajor.mp he).2, hminor⟩

theorem Inv.names_eq {foreign : Foreign} {s : State} (hinv : Inv foreign s) :
    s.names = foreign.entries.map Prod.fst ++ s.log.map fun e => e.number.name := by
  rw [State.names, hinv.dir, List.map_append, List.map_map]
  rfl

/-- An entry that was there before does not have the name of a file. -/
theorem Foreign.name_ne {foreign : Foreign} {name : Bytes}
    (h : name ∈ foreign.entries.map Prod.fst) : name[0]? ≠ some 113 := by
  obtain ⟨p, hp, rfl⟩ := List.mem_map.mp h
  exact foreign.noQueue p hp

/-- **A name is taken exactly if the minor number is one of the first.** -/
theorem Inv.taken_iff {foreign : Foreign} {s : State} (hinv : Inv foreign s) (x : Number) :
    x.name ∈ s.names ↔ 1 ≤ x.minor ∧ x.minor ≤ (s.ofMajor x.major).length := by
  rw [← hinv.minor_iff, hinv.names_eq, List.mem_append]
  constructor
  · rintro (hforeign | hlog)
    · exact absurd rfl (Foreign.name_ne hforeign)
    · obtain ⟨e, he, hname⟩ := List.mem_map.mp hlog
      exact ⟨e, he, name_inj hname⟩
  · intro ⟨e, he, hmajor, hminor⟩
    refine Or.inr (List.mem_map.mpr ⟨e, he, ?_⟩)
    show qfFormat e.number.major e.number.minor = qfFormat x.major x.minor
    rw [hmajor, hminor]

theorem inv_init (foreign : Foreign) (temps : Bytes → Option Nat) :
    Inv foreign (init foreign temps) where
  dir := (List.append_nil foreign.entries).symm
  minors _ := rfl
  trying _ _ _ h := nomatch h

/-- The inserts of a major after one more. -/
theorem ofMajor_linked (s : State) (e : Insert) (id : Nat) (call : Option Call) (major : Nat) :
    ((s.linked e).setCall id call).ofMajor major =
      s.ofMajor major ++ if e.number.major = major then [e] else [] := by
  show (s.log ++ [e]).filter _ = _
  rw [List.filter_append]
  congr 1
  by_cases h : e.number.major = major
  · simp [h]
  · simp [h]

/-- Every step keeps the invariant. -/
theorem inv_step {foreign : Foreign} {s s' : State} {e : Event} (hinv : Inv foreign s)
    (hstep : step s e = some s') : Inv foreign s' := by
  rcases step_cases hstep with ⟨hdir, hlog, hcalls⟩ | ⟨id, tFile, x, file, -, hcall, -, hfree, rfl⟩
  · have hof : ∀ major, s'.ofMajor major = s.ofMajor major := by
      intro major
      rw [State.ofMajor, hlog]
      rfl
    refine ⟨by rw [hdir, hlog, hinv.dir], fun major => by rw [hof]; exact hinv.minors major, ?_⟩
    intro id tFile x hcall
    rw [hof]
    rcases hcalls id tFile x hcall with hsame | hone | ⟨y, hy, hmajor, hminor⟩
    · exact hinv.trying id tFile x hsame
    · omega
    · have := (hinv.taken_iff y).mp hy
      rw [hmajor]
      omega
  · have htry := hinv.trying id tFile x hcall
    have hminor : x.minor = (s.ofMajor x.major).length + 1 := by
      by_contra hne
      exact hfree ((hinv.taken_iff x).mpr (by omega))
    refine ⟨?_, fun major => ?_, fun id' tFile' x' hcall' => ?_⟩
    · show s.dir ++ [_] = _ ++ (s.log ++ [_]).map _
      rw [hinv.dir, List.map_append, List.append_assoc]
      rfl
    · rw [ofMajor_linked]
      split_ifs with hmajor
      · subst hmajor
        rw [List.map_append, hinv.minors, List.length_append, List.length_singleton,
          List.range'_concat, List.map_append]
        refine congrArg _ (congrArg (· :: []) ?_)
        show x.minor = ((1 + 1 * (s.ofMajor x.major).length : Nat) : Int)
        omega
      · rw [List.append_nil]
        exact hinv.minors major
    · have hother : s.calls id' = some (.linking tFile' x') := by
        by_cases hid : id' = id
        · subst hid
          have hself := Function.update_self id' (some (Call.unlinking tFile)) s.calls
          exact nomatch hself.symm.trans hcall'
        · exact (Function.update_of_ne hid _ s.calls).symm.trans hcall'
      have hle := hinv.trying id' tFile' x' hother
      rw [ofMajor_linked, List.length_append]
      omega

/-! ## What the invariant gives -/

/-- Under one major a later insert has a larger number. -/
theorem Inv.minor_lt {foreign : Foreign} {s : State} (hinv : Inv foreign s) {a b : Insert}
    (h : [a, b].Sublist s.log) (hmajor : a.number.major = b.number.major) :
    a.number.minor < b.number.minor := by
  have hsub : [a, b].Sublist (s.ofMajor a.number.major) := by
    have hboth : [a, b].filter (fun e => decide (e.number.major = a.number.major)) = [a, b] := by
      simp [hmajor]
    rw [← hboth]
    exact h.filter _
  have hlt : ((s.ofMajor a.number.major).map fun e => e.number.minor).Pairwise (· < ·) := by
    rw [hinv.minors, List.pairwise_map]
    exact (List.pairwise_lt_range' 1).imp fun hij => by omega
  have hpair := hlt.sublist (hsub.map fun e => e.number.minor)
  exact List.rel_of_pairwise_cons hpair (List.mem_cons_self)

/-- Two elements of a list stand in it in one order or the other. -/
theorem sublist_pair {α : Type} {a b : α} {l : List α} (ha : a ∈ l) (hb : b ∈ l) (hne : a ≠ b) :
    [a, b].Sublist l ∨ [b, a].Sublist l := by
  obtain ⟨s, t, rfl⟩ := List.append_of_mem ha
  rcases List.mem_append.mp hb with hs | ht
  · right
    show ([b] ++ [a]).Sublist _
    exact (List.singleton_sublist.mpr hs).append (List.singleton_sublist.mpr List.mem_cons_self)
  · left
    rcases List.mem_cons.mp ht with rfl | ht
    · exact absurd rfl hne
    · exact ((List.singleton_sublist.mpr ht).cons_cons a).trans (List.sublist_append_right s _)

theorem Inv.log_nodup {foreign : Foreign} {s : State} (hinv : Inv foreign s) :
    (s.log.map fun e => e.number.name).Nodup := by
  rw [List.Nodup, List.pairwise_map, List.pairwise_iff_forall_sublist]
  intro a b hsub hname
  obtain ⟨hmajor, hminor⟩ := name_inj hname
  have := hinv.minor_lt hsub hmajor
  omega

/-- No two names are the same. -/
theorem Inv.names_nodup {foreign : Foreign} {s : State} (hinv : Inv foreign s) : s.names.Nodup := by
  rw [hinv.names_eq]
  refine foreign.distinct.append hinv.log_nodup fun name hforeign hlog => ?_
  obtain ⟨e, -, rfl⟩ := List.mem_map.mp hlog
  exact Foreign.name_ne hforeign rfl

/-- A filter that takes no other entries takes the names of some inserts. -/
theorem Inv.filter_names {foreign : Foreign} {s : State} (hinv : Inv foreign s) {p : Bytes → Bool}
    (hp : ∀ name, p name = true → qfFileOk name = true) :
    s.names.filter p = (s.log.filter fun e => p e.number.name).map fun e => e.number.name := by
  have hnone : (foreign.entries.map Prod.fst).filter p = [] := by
    refine List.filter_eq_nil_iff.mpr fun name hname hpname => Foreign.name_ne hname ?_
    have hok := hp name hpname
    simp only [qfFileOk, Bool.and_eq_true, decide_eq_true_eq] at hok
    exact hok.1.1
  rw [hinv.names_eq, List.filter_append, hnone, List.nil_append, List.filter_map]
  rfl

/-- What `Dci_QfGetAllCmd` takes. -/
theorem qfTaken_name (x : Number) (start stop : Option Int) :
    qfTaken start stop x.name = true ↔ (0 ≤ x.minor ∧ x.minor < 1000) ∧
      start.getD 0 ≤ x.major ∧ x.major ≤ stop.getD intMax := by
  have hmajor := x.major_lt
  rw [qfTaken, strtol_name, int32_of_range (by omega) (by omega), Bool.and_eq_true, qfFileOk_name,
    Bool.and_eq_true, decide_eq_true_eq, decide_eq_true_eq]

/-- No major has more files than there are minor numbers of three digits. -/
def Small (s : State) : Prop := ∀ major, (s.ofMajor major).length ≤ 999

theorem Inv.minor_range {foreign : Foreign} {s : State} (hinv : Inv foreign s) {e : Insert}
    (he : e ∈ s.log) : 1 ≤ e.number.minor ∧ e.number.minor ≤ (s.ofMajor e.number.major).length :=
  (hinv.minor_iff e.number.major e.number.minor).mp ⟨e, he, rfl, rfl⟩

theorem Inv.minor_fits {foreign : Foreign} {s : State} (hinv : Inv foreign s) (hsmall : Small s)
    {e : Insert} (he : e ∈ s.log) : 0 ≤ e.number.minor ∧ e.number.minor < 1000 := by
  have hrange := hinv.minor_range he
  have hle := hsmall e.number.major
  omega

/-- Names in order are those of files in order. -/
theorem Inv.before {foreign : Foreign} {s : State} (hinv : Inv foreign s) (hsmall : Small s)
    {a b : Insert} (ha : a ∈ s.log) (hb : b ∈ s.log) (hne : a ≠ b)
    (hle : strcmp a.number.name b.number.name ≤ 0) : Before s.log a b := by
  have hnames : a.number.name ≠ b.number.name := fun h => hne (by
    have hnodup := hinv.log_nodup
    exact List.inj_on_of_nodup_map hnodup ha hb h)
  have hlt : strcmp a.number.name b.number.name < 0 := by
    have : strcmp a.number.name b.number.name ≠ 0 := fun h => hnames ((strcmp_eq_zero_iff _ _).mp h)
    omega
  rcases (strcmp_name (hinv.minor_fits hsmall ha) (hinv.minor_fits hsmall hb)).mp hlt with
    hmajor | ⟨hmajor, hminor⟩
  · exact Or.inl hmajor
  · refine Or.inr ⟨hmajor, (sublist_pair ha hb hne).resolve_right fun hsub => ?_⟩
    have := hinv.minor_lt hsub hmajor.symm
    omega

/-- The listing of a range. -/
theorem Inv.getAll {foreign : Foreign} {s : State} (hinv : Inv foreign s) (hsmall : Small s)
    (qsort : QSort Bytes strcmp) (ents : List Bytes) (start stop : Option Int)
    (hents : ents.Perm s.names) : ∃ files : List Insert,
      qfGetAllCmd qsort ents start stop = files.map (fun e => e.number.name) ∧
      files.Perm (s.log.filter fun e => e.within start stop) ∧ files.Pairwise (Before s.log) := by
  have hsorted := qsort.sorted (ents.filter (qfTaken start stop))
  have hperm := qsort.perm (ents.filter (qfTaken start stop))
  have hwithin : (s.log.filter fun e => qfTaken start stop e.number.name) =
      s.log.filter fun e => e.within start stop := by
    refine List.filter_congr fun e he => Bool.eq_iff_iff.mpr ?_
    rw [qfTaken_name, decide_eq_true_eq, and_iff_right (hinv.minor_fits hsmall he)]
    rfl
  have hok : ∀ name, qfTaken start stop name = true → qfFileOk name = true :=
    fun name h => (Bool.and_eq_true _ _ ▸ h).1
  have hnames := (hents.filter (qfTaken start stop)).trans
    (List.Perm.of_eq (hinv.filter_names hok))
  rw [hwithin] at hnames
  -- what is listed are the names of some files
  obtain ⟨files, hfiles, hfilesPerm⟩ : Relation.Comp (· = List.map (fun e => e.number.name) ·)
      List.Perm (qsort.sort (ents.filter (qfTaken start stop)))
      (s.log.filter fun e => e.within start stop) := by
    rw [List.eq_map_comp_perm]
    exact hperm.trans hnames
  refine ⟨files, hfiles, hfilesPerm, ?_⟩
  have hlog : ∀ e ∈ files, e ∈ s.log :=
    fun e he => (List.mem_filter.mp (hfilesPerm.mem_iff.mp he)).1
  have hnodup : files.Nodup :=
    hfilesPerm.nodup_iff.mpr (hinv.log_nodup.of_map _ |>.filter _)
  rw [hfiles, List.pairwise_map] at hsorted
  refine (hsorted.and hnodup).imp_of_mem fun {a b} ha hb hab => ?_
  exact hinv.before hsmall (hlog a ha) (hlog b hb) hab.2 hab.1

/-- The first major. -/
theorem Inv.getFirst {foreign : Foreign} {s : State} (hinv : Inv foreign s) (hsmall : Small s)
    (ents : List Bytes) (hents : ents.Perm s.names) :
    (s.log = [] → qfGetFirstCmd ents = -1) ∧
    (s.log ≠ [] → (∃ e ∈ s.log, qfGetFirstCmd ents = e.number.major) ∧
      ∀ e ∈ s.log, qfGetFirstCmd ents ≤ e.number.major) := by
  obtain ⟨hcount, hle, hall, hsome⟩ := firstLoop_spec ents intMax 0
  have hnames := (hents.filter qfFileOk).trans
    (List.Perm.of_eq (hinv.filter_names fun _ h => h))
  have hlog : (s.log.filter fun e => qfFileOk e.number.name) = s.log :=
    List.filter_eq_self.mpr fun e he => (qfFileOk_name e.number).mpr (hinv.minor_fits hsmall he)
  rw [hlog] at hnames
  have hlen : (firstLoop intMax 0 ents).2 = s.log.length := by
    rw [hcount, hnames.length_eq, List.length_map, Nat.zero_add]
  have hfiles : ∀ e ∈ s.log, (firstLoop intMax 0 ents).1 ≤ e.number.major := by
    intro e he
    have hmem := hnames.mem_iff.mpr (List.mem_map_of_mem he)
    exact le_of_le_of_eq (hall _ hmem) (strtol_name e.number)
  constructor
  · intro hnil
    exact if_neg fun h => h (by rw [hlen, hnil, List.length_nil])
  · intro hne
    have hfirst : qfGetFirstCmd ents = (firstLoop intMax 0 ents).1 :=
      if_pos fun h => hne (List.length_eq_zero_iff.mp (hlen.symm.trans h))
    rw [hfirst]
    refine ⟨?_, hfiles⟩
    rcases hsome with hmax | ⟨name, hname, heq⟩
    · -- all majors are the largest
      obtain ⟨e, he⟩ := List.exists_mem_of_ne_nil s.log hne
      have hlow := hfiles e he
      have hhigh := e.number.major_lt
      have hval : intMax = 2147483647 := rfl
      exact ⟨e, he, by omega⟩
    · obtain ⟨e, he, rfl⟩ := List.mem_map.mp (hnames.mem_iff.mp hname)
      exact ⟨e, he, by rw [heq, strtol_name]⟩

/-- Sorting by insertion, for names. -/
def insertionSort : QSort Bytes strcmp :=
  QSort.insertion (fun _ _ => strcmp_total _ _) fun _ _ _ => strcmp_trans

/-- **A queue is right exactly if its minor numbers have three digits.** -/
theorem Inv.right_iff {foreign : Foreign} {s : State} (hinv : Inv foreign s) :
    Right s ↔ Small s := by
  constructor
  · intro hright major
    by_contra hlarge
    -- the file of the thousandth number is not listed
    obtain ⟨e, he, -, hminor⟩ := (hinv.minor_iff major 1000).mpr (by omega)
    obtain ⟨files, hfiles, hperm, -⟩ :=
      hright.all insertionSort s.names none none (List.Perm.refl _)
    have hwithin : e.within none none := by
      have := e.number.major_lt
      show (0 : Int) ≤ e.number.major ∧ (e.number.major : Int) ≤ 2147483647
      omega
    have hmem : e.number.name ∈ qfGetAllCmd insertionSort s.names none none := by
      rw [hfiles]
      refine List.mem_map_of_mem (hperm.mem_iff.mpr ?_)
      exact List.mem_filter.mpr ⟨he, decide_eq_true hwithin⟩
    have htaken := (List.mem_filter.mp ((insertionSort.perm _).mem_iff.mp hmem)).2
    have := (qfTaken_name e.number none none).mp htaken
    omega
  · intro hsmall
    refine ⟨⟨hinv.names_nodup, hinv.log_nodup⟩, fun e he => ?_, hinv.getAll hsmall,
      hinv.getFirst hsmall⟩
    rw [hinv.dir]
    exact List.mem_append_right _ (List.mem_map_of_mem he)

/-! ## Runs -/

/-- A step makes at most one more file, and only under the major that has room. -/
theorem small_step {s s' : State} {e : Event} (hsmall : Small s) (hroom : Room s e)
    (hstep : step s e = some s') : Small s' := by
  intro major
  rcases step_cases hstep with ⟨-, hlog, -⟩ | ⟨id, tFile, x, file, rfl, hcall, htemp, hfree, rfl⟩
  · rw [State.ofMajor, hlog]
    exact hsmall major
  · have hlt := hroom tFile x file hcall htemp rfl hfree
    rw [ofMajor_linked, List.length_append]
    split_ifs with hmajor
    · show _ + 1 ≤ 999
      have : x.major = major := hmajor
      rw [← this]
      omega
    · exact hsmall major

theorem small_of_step {s s' : State} {e : Event} (hstep : step s e = some s') (h : Small s') :
    Small s := by
  intro major
  have hle := h major
  rcases step_cases hstep with ⟨-, hlog, -⟩ | ⟨id, tFile, x, file, -, -, -, -, rfl⟩
  · rw [State.ofMajor, hlog] at hle
    exact hle
  · rw [ofMajor_linked, List.length_append] at hle
    omega

/-- A link without room makes a file too many. -/
theorem not_small_step {s s' : State} {e : Event} (hroom : ¬Room s e)
    (hstep : step s e = some s') : ¬Small s' := by
  cases e with
  | create path file => exact absurd trivial hroom
  | start id tFile major h => exact absurd trivial hroom
  | unlink id => exact absurd trivial hroom
  | link id fails =>
      simp only [Room, not_forall, not_lt] at hroom
      obtain ⟨tFile, x, file, hcall, htemp, rfl, hfree, hfull⟩ := hroom
      have hlinked : s' = (s.linked ⟨x, file⟩).setCall id (some (.unlinking tFile)) := by
        simp only [step, hcall, htemp, hfree, Bool.false_eq_true, if_false] at hstep
        exact (Option.some.inj hstep).symm
      intro hsmall
      have hle := hsmall x.major
      rw [hlinked, ofMajor_linked, if_pos rfl, List.length_append, List.length_singleton] at hle
      omega

/-- **After any steps of any calls the queue is right exactly if every link that was made found
fewer than 999 files of its major.** -/
theorem qfInsertCmd_iff (foreign : Foreign) (temps : Bytes → Option Nat) (es : List Event)
    (s : State) (hrun : run step (init foreign temps) es = some s) :
    Right s ↔ Along step Room (init foreign temps) es := by
  have hinv : Inv foreign s :=
    run_invariant_all (fun _ _ _ h hstep => inv_step h hstep) (inv_init foreign temps) hrun
  have hinit : Small (init foreign temps) := fun _ => Nat.zero_le 999
  rw [hinv.right_iff]
  exact run_iff_along (fun _ _ _ h hroom hstep => small_step h hroom hstep) (fun _ h => h)
    (fun _ _ _ _ hroom hstep => not_small_step hroom hstep)
    (fun _ _ _ hstep h => small_of_step hstep h) hinit hrun

/-! ## Inserts one after the other -/

/-- An insert that finds so many numbers taken. -/
def insertAfter (taken major : Nat) (h : major < 2 ^ 31) : List Event :=
  [.create (ascii "tmp") taken, .start 0 (ascii "tmp") major h] ++
    (List.replicate taken (.link 0 false) ++ [.link 0 false, .unlink 0])

/-- So many inserts under a major. -/
def inserts (major : Nat) (h : major < 2 ^ 31) : Nat → List Event
  | 0 => []
  | n + 1 => inserts major h n ++ insertAfter n major h

theorem Number.exists_next (x : Number) (h : x.minor + 1 < 2 ^ 31) :
    ∃ y, x.next = some y ∧ y.major = x.major ∧ y.minor = x.minor + 1 :=
  ⟨_, dif_pos h, rfl, rfl⟩

/-- A call passes over the numbers that are taken. -/
theorem run_taken {foreign : Foreign} (k : Nat) {s : State} (hinv : Inv foreign s) {tFile : Bytes}
    {x : Number} {file : Nat} (hcall : s.calls 0 = some (.linking tFile x))
    (htemp : s.temps tFile = some file) (hlo : 1 ≤ x.minor)
    (hk : x.minor + k = (s.ofMajor x.major).length + 1)
    (hfits : (s.ofMajor x.major).length + 1 < 2 ^ 31) :
    ∃ y : Number, y.major = x.major ∧ y.minor = (s.ofMajor x.major).length + 1 ∧
      run step s (List.replicate k (.link 0 false)) =
        some (s.setCall 0 (some (.linking tFile y))) := by
  induction k generalizing s x with
  | zero =>
      refine ⟨x, rfl, by omega, ?_⟩
      show some s = _
      rw [State.setCall, ← hcall, Function.update_eq_self]
  | succ k ih =>
      have htaken : x.name ∈ s.names := (hinv.taken_iff x).mpr (by omega)
      obtain ⟨y, hnext, hmajor, hminor⟩ := x.exists_next (by omega)
      have hstep : step s (.link 0 false) = some (s.setCall 0 (some (.linking tFile y))) := by
        simp only [step, hcall, htemp, htaken, hnext, Bool.false_eq_true, if_false, if_true,
          Option.map_some]
      have hset : (s.setCall 0 (some (.linking tFile y))).calls 0 = some (.linking tFile y) :=
        Function.update_self 0 _ s.calls
      have hsame : (s.setCall 0 (some (.linking tFile y))).ofMajor y.major = s.ofMajor x.major := by
        rw [hmajor]
        rfl
      obtain ⟨z, hzmajor, hzminor, hrun⟩ := ih (inv_step hinv hstep) hset htemp (by omega)
        (by rw [hsame]; omega) (by rw [hsame]; exact hfits)
      refine ⟨z, hzmajor.trans hmajor, by rw [hzminor, hsame], ?_⟩
      rw [List.replicate_succ, run, hstep, Option.bind_some, hrun, State.setCall, State.setCall,
        State.setCall, Function.update_idem]

/-- An insert on its own succeeds. -/
theorem run_insertAfter {foreign : Foreign} {s : State} (hinv : Inv foreign s)
    (hcalls : s.calls = fun _ => none) {major : Nat} (h : major < 2 ^ 31)
    (hfits : (s.ofMajor major).length + 1 < 2 ^ 31) :
    ∃ s', run step s (insertAfter (s.ofMajor major).length major h) = some s' ∧
      s'.calls = (fun _ => none) ∧ (s'.ofMajor major).length = (s.ofMajor major).length + 1 ∧
      s'.log.length = s.log.length + 1 := by
  obtain ⟨k, hk⟩ : ∃ k, (s.ofMajor major).length = k := ⟨_, rfl⟩
  rw [hk] at hfits ⊢
  -- the call has started
  obtain ⟨t, ht⟩ : ∃ t, t = ({ s with temps := Function.update s.temps (ascii "tmp") (some k) } :
      State).setCall 0 (some (.linking (ascii "tmp") (.first major h))) := ⟨_, rfl⟩
  have hstart : run step s [.create (ascii "tmp") k, .start 0 (ascii "tmp") major h] = some t := by
    simp only [run, step, hcalls, ht, Option.bind_some]
  have htinv : Inv foreign t :=
    run_invariant_all (fun _ _ _ h hstep => inv_step h hstep) hinv hstart
  have htcall : t.calls 0 = some (.linking (ascii "tmp") (.first major h)) := by
    rw [ht]
    exact Function.update_self 0 _ s.calls
  have httemp : t.temps (ascii "tmp") = some k := by
    rw [ht]
    exact Function.update_self (ascii "tmp") _ s.temps
  have htlen : (t.ofMajor major).length = k := by
    rw [ht]
    exact hk
  obtain ⟨y, hmajor, hminor, htaken⟩ := run_taken k htinv htcall httemp (le_refl 1)
    (by show 1 + (k : Int) = (t.ofMajor major).length + 1; omega)
    (by show (t.ofMajor major).length + 1 < 2 ^ 31; omega)
  have hmajor' : y.major = major := hmajor
  have hminor' : y.minor = k + 1 := by
    rw [hminor, ← htlen]
    rfl
  -- and has passed over the taken numbers
  obtain ⟨u, hu⟩ : ∃ u, u = t.setCall 0 (some (.linking (ascii "tmp") y)) := ⟨_, rfl⟩
  rw [← hu] at htaken
  have huinv : Inv foreign u :=
    run_invariant_all (fun _ _ _ h hstep => inv_step h hstep) htinv htaken
  have hucall : u.calls 0 = some (.linking (ascii "tmp") y) := by
    rw [hu]
    exact Function.update_self 0 _ t.calls
  have hulen : (u.ofMajor y.major).length = k := by
    rw [hu, hmajor']
    exact htlen
  have hutemp : u.temps (ascii "tmp") = some k := by
    rw [hu]
    exact httemp
  have hfree : y.name ∉ u.names := by
    intro hmem
    have := (huinv.taken_iff y).mp hmem
    omega
  have hlink : step u (.link 0 false) =
      some ((u.linked ⟨y, k⟩).setCall 0 (some (.unlinking (ascii "tmp")))) := by
    simp only [step, hucall, hutemp, hfree, Bool.false_eq_true, if_false]
  have hcall' : ((u.linked ⟨y, k⟩).setCall 0 (some (.unlinking (ascii "tmp")))).calls 0 =
      some (.unlinking (ascii "tmp")) := Function.update_self 0 _ u.calls
  obtain ⟨v, hunlink, hvcalls, hvlog⟩ : ∃ v,
      step ((u.linked ⟨y, k⟩).setCall 0 (some (.unlinking (ascii "tmp")))) (.unlink 0) = some v ∧
        v.calls = Function.update u.calls 0 none ∧ v.log = u.log ++ [⟨y, k⟩] := by
    simp only [step, hcall', Option.some.injEq]
    refine ⟨_, rfl, ?_, rfl⟩
    simp only [setCall_calls, Function.update_idem]
    rfl
  refine ⟨v, ?_, ?_, ?_, ?_⟩
  · rw [insertAfter, run_append, hstart, Option.bind_some, run_append, htaken, Option.bind_some,
      run, hlink, Option.bind_some, run, hunlink]
    rfl
  · rw [hvcalls, hu, ht, setCall_calls, setCall_calls, Function.update_idem, Function.update_idem]
    show Function.update s.calls 0 none = _
    rw [hcalls]
    exact Function.update_eq_self 0 _
  · have hof : v.ofMajor major = ((u.linked ⟨y, k⟩).setCall 0 none).ofMajor major := by
      rw [State.ofMajor, hvlog]
      rfl
    rw [hof, ofMajor_linked, if_pos hmajor', ← hmajor', List.length_append, hulen]
    rfl
  · rw [hvlog, hu, ht, List.length_append]
    rfl

/-- So do many. -/
theorem run_inserts (foreign : Foreign) (temps : Bytes → Option Nat) (major : Nat)
    (h : major < 2 ^ 31) (n : Nat) (hn : n < 2 ^ 31) :
    ∃ s, run step (init foreign temps) (inserts major h n) = some s ∧ s.calls = (fun _ => none) ∧
      (s.ofMajor major).length = n ∧ s.log.length = n := by
  induction n with
  | zero => exact ⟨_, rfl, rfl, rfl, rfl⟩
  | succ n ih =>
      obtain ⟨s, hrun, hcalls, hlen, hlog⟩ := ih (by omega)
      have hinv : Inv foreign s :=
        run_invariant_all (fun _ _ _ h hstep => inv_step h hstep) (inv_init foreign temps) hrun
      obtain ⟨s', hrun', hcalls', hlen', hlog'⟩ := run_insertAfter hinv hcalls h (by omega)
      rw [hlen] at hrun' hlen'
      refine ⟨s', ?_, hcalls', hlen', by rw [hlog', hlog]⟩
      rw [inserts, run_append, hrun, Option.bind_some, hrun']

/-- A directory with no entries of others. -/
def noForeign : Foreign := ⟨[], List.nodup_nil, fun _ h => absurd h List.not_mem_nil⟩

/-- **The thousandth file of a major is not listed.** -/
theorem qfInsertCmd_thousand : ∃ s, run step (init noForeign fun _ => none)
    (inserts 0 (by decide) 1000) = some s ∧ ¬Right s := by
  obtain ⟨s, hrun, -, hlen, -⟩ :=
    run_inserts noForeign (fun _ => none) 0 (by decide) 1000 (by decide)
  have hinv : Inv noForeign s :=
    run_invariant_all (fun _ _ _ h hstep => inv_step h hstep) (inv_init noForeign _) hrun
  refine ⟨s, hrun, fun hright => ?_⟩
  have hle := hinv.right_iff.mp hright 0
  omega

/-- With three files there was room for each. -/
theorem qfInsertCmd_three : ∃ s, run step (init noForeign fun _ => none)
    (inserts 7 (by decide) 3) = some s ∧ Right s ∧
      Along step Room (init noForeign fun _ => none) (inserts 7 (by decide) 3) := by
  obtain ⟨s, hrun, -, -, hlog⟩ := run_inserts noForeign (fun _ => none) 7 (by decide) 3 (by decide)
  have hinv : Inv noForeign s :=
    run_invariant_all (fun _ _ _ h hstep => inv_step h hstep) (inv_init noForeign _) hrun
  have hright : Right s := by
    refine hinv.right_iff.mpr fun major => ?_
    have hle : (s.ofMajor major).length ≤ s.log.length := List.length_filter_le _ _
    omega
  exact ⟨s, hrun, hright, (qfInsertCmd_iff noForeign _ _ s hrun).mp hright⟩

end Nsdci.Qf
