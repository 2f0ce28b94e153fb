import Nsdci.Unix.Rm

/-!
# What `Rm` removes

While entries are removed every path `Rm` has in its buffer goes on to stand for the same entry, or
for none. So each of its calls removes entries below the first one only (`rm_spec`), and the last
`rmdir` succeeds only when they are all gone.
-/

namespace Nsdci.Unix

open Lib FileTree

/-- Only entries at a place or below it have been removed. -/
structure Below (t : FileTree) (loc : Loc) (t' : FileTree) : Prop where
  within : t'.Within t
  kept : ∀ e ∈ t.entries, ¬loc <+: e.1 → e ∈ t'.entries

theorem Below.refl (t : FileTree) (loc : Loc) : Below t loc t := ⟨Within.refl t, fun _ he _ => he⟩

theorem Below.trans {t₁ t₂ t₃ : FileTree} {loc : Loc} (h : Below t₁ loc t₂) (h' : Below t₂ loc t₃) :
    Below t₁ loc t₃ :=
  ⟨h'.within.trans h.within, fun e he hloc => h'.kept e (h.kept e he hloc) hloc⟩

theorem Below.of_append {t t' : FileTree} {loc : Loc} {name : Bytes}
    (h : Below t (loc ++ [name]) t') : Below t loc t' :=
  ⟨h.within, fun e he hloc => h.kept e he fun hpre =>
    hloc ((List.prefix_append loc [name]).trans hpre)⟩

theorem below_erase (t : FileTree) (loc : Loc) (h : t.Childless loc) :
    Below t loc (t.erase loc h) := by
  refine ⟨t.erase_within loc h, fun e he hloc => List.mem_filter.mpr ⟨he, ?_⟩⟩
  exact decide_eq_true fun heq => hloc (heq ▸ List.prefix_rfl)

/-- Below an entry without entries in it there is nothing but itself. -/
theorem eq_of_childless {t : FileTree} {loc : Loc} (hleaf : t.Childless loc) (rest : Loc) (k : Kind)
    (he : (loc ++ rest, k) ∈ t.entries) : rest = [] := by
  induction rest using List.reverseRecOn generalizing k with
  | nil => rfl
  | append_singleton rest name ih =>
      have hdrop : (loc ++ (rest ++ [name])).dropLast = loc ++ rest := by
        rw [← List.append_assoc, List.dropLast_concat]
      have hrest : rest ≠ [] := by
        rintro rfl
        exact hleaf _ he (hdrop.trans (List.append_nil loc))
      rcases t.parents _ he with hroot | hdir
      · exact absurd (List.append_eq_nil_iff.mp (hdrop.symm.trans hroot)).2 hrest
      · rw [hdrop] at hdir
        exact absurd (ih .dir hdir) hrest

/-- When it is erased nothing is left at the place or below it. -/
theorem erase_none {t : FileTree} {loc : Loc} (h : t.Childless loc) :
    ∀ e ∈ (t.erase loc h).entries, ¬loc <+: e.1 := by
  rintro ⟨_, k⟩ he ⟨rest, rfl⟩
  obtain ⟨hmem, hne⟩ := List.mem_filter.mp he
  obtain rfl := eq_of_childless h rest k hmem
  exact of_decide_eq_true hne (List.append_nil loc)

/-! ## The calls -/

variable {os : Os} {cwd : Loc} {ctx : RmCtx}

theorem of_query_ok {α : Type} {s s' : State} {result : Except Errno α} {a : α}
    (h : s.query os result = (s', .ok a)) : s'.tree = s.tree ∧ result = .ok a := by
  rw [State.query] at h
  split_ifs at h with hfails
  · exact nomatch (Prod.mk.inj h).2
  · obtain ⟨rfl, rfl⟩ := Prod.mk.inj h
    exact ⟨rfl, rfl⟩

theorem of_change_ok {s s' : State} {result : Except Errno FileTree}
    (h : s.change os result = (s', .ok ())) : result = .ok s'.tree := by
  unfold State.change at h
  split_ifs at h
  · exact nomatch (Prod.mk.inj h).2
  · split at h
    · exact nomatch (Prod.mk.inj h).2
    · obtain ⟨rfl, -⟩ := Prod.mk.inj h
      rfl

theorem of_change_error {s s' : State} {result : Except Errno FileTree} {e : Errno}
    (h : s.change os result = (s', .error e)) :
    s'.tree = s.tree ∧ (e = .other ∨ result = .error e) := by
  unfold State.change at h
  split_ifs at h
  · obtain ⟨rfl, he⟩ := Prod.mk.inj h
    exact ⟨rfl, Or.inl (Except.error.inj he).symm⟩
  · split at h
    · obtain ⟨rfl, he⟩ := Prod.mk.inj h
      exact ⟨rfl, Or.inr (congrArg _ (Except.error.inj he))⟩
    · exact nomatch (Prod.mk.inj h).2

/-- `lstat` finds what the path stands for. -/
theorem lstat_ok {s s' : State} {path : Bytes} {k : Kind} (h : lstat os cwd s path = (s', .ok k)) :
    s'.tree = s.tree ∧ ∃ loc, s.tree.resolve os.links cwd false path = .ok loc ∧
      s.tree.kind loc = some k := by
  obtain ⟨htree, hresult⟩ := of_query_ok h
  refine ⟨htree, ?_⟩
  split at hresult
  · exact nomatch hresult
  · next loc hres =>
      refine ⟨loc, hres, ?_⟩
      cases hkind : s.tree.kind loc with
      | none =>
          rw [hkind] at hresult
          exact nomatch hresult
      | some k' =>
          rw [hkind] at hresult
          exact congrArg some (Except.ok.inj hresult)

/-- What `readdir` gives beside `.` and `..` are the names of entries in the directory. -/
theorem opendir_ok {s s' : State} {path : Bytes} {loc : Loc} {ents : List Bytes}
    (h : opendir os cwd s path = (s', .ok ents))
    (hres : s.tree.resolve os.links cwd false path = .ok loc) (hkind : s.tree.kind loc = some .dir)
    {d_name : Bytes} (hd : d_name ∈ ents) (hdot : dotDir d_name = false) :
    IsName d_name ∧ ∃ k, s.tree.kind (loc ++ [d_name]) = some k := by
  have hents := (of_query_ok h).2
  cases hlist : s.tree.list os.links cwd path with
  | error e =>
      rw [hlist] at hents
      exact nomatch hents
  | ok names =>
      rw [hlist] at hents
      obtain rfl : os.readdir s.calls names = ents := Except.ok.inj hents
      have hd' := List.Subperm.subset (os.readdir_subperm s.calls names) hd
      simp only [dotDir, Bool.or_eq_false_iff, decide_eq_false_iff_not] at hdot
      exact mem_list hlist (resolve_follow hres hkind) hd' hdot.1 hdot.2

/-- The call has ended, has removed entries at a place or below it only, and has not refused the
pathname. -/
def Ended (t : FileTree) (loc : Loc) (result : Result) : Prop :=
  ∃ s' r, result = some (s', r) ∧ Below t loc s'.tree ∧ ∀ p, r ≠ .error (.invalidPathname p)

/-- And nothing is left there when it has succeeded. -/
def Removed (loc : Loc) (result : Result) : Prop :=
  ∀ s', result = some (s', .ok ()) → ∀ e ∈ s'.tree.entries, ¬loc <+: e.1

variable {t : FileTree} {loc : Loc} {path : Bytes} {s : State}

/-- A path stands for the same place in what is left of the tree. -/
theorem resolve_eq {t' : FileTree} {loc' : Loc} {follow : Bool}
    (hres : t.resolve os.links cwd follow path = .ok loc) (hs : t'.Within t)
    (hres' : t'.resolve os.links cwd follow path = .ok loc') : loc' = loc :=
  (Except.ok.inj (hres.symm.trans (resolve_mono hs hres'))).symm

theorem removeDir_spec (hres : t.resolve os.links cwd false path = .ok loc)
    (hs : s.tree.Within t) :
    Ended s.tree loc (removeDir os cwd path s) ∧ Removed loc (removeDir os cwd path s) := by
  obtain ⟨⟨s', r⟩, hrmdir⟩ : ∃ x, rmdir os cwd s path = x := ⟨_, rfl⟩
  rw [removeDir, hrmdir]
  cases r with
  | error e =>
      have htree := (of_change_error hrmdir).1
      refine ⟨⟨s', _, rfl, ?_, fun p h => nomatch h⟩, fun s'' h => nomatch h⟩
      rw [htree]
      exact Below.refl _ _
  | ok u =>
      obtain ⟨loc', hres', hleaf, htree⟩ := rmdir_ok (of_change_ok hrmdir)
      obtain rfl := resolve_eq hres hs hres'
      refine ⟨⟨s', _, rfl, ?_, fun p h => nomatch h⟩, fun s'' h => ?_⟩
      · rw [htree]
        exact below_erase _ _ hleaf
      · obtain ⟨rfl, -⟩ := Prod.mk.inj (Option.some.inj h)
        rw [htree]
        exact erase_none hleaf

/-- What is there is not missing. -/
theorem unlink_ne_enoent (hsome : s.tree.resolve os.links cwd false path = .ok loc) {k : Kind}
    (hkind : s.tree.kind loc = some k) : s.tree.unlink os.links cwd path ≠ .error .enoent := by
  rw [FileTree.unlink, hsome]
  dsimp only
  split
  · next hnone =>
      rw [hkind] at hnone
      simp at hnone
  · simp
  · simp
  · simp

theorem removeFile_spec (hsome : s.tree.resolve os.links cwd false path = .ok loc) {k : Kind}
    (hkind : s.tree.kind loc = some k) :
    Ended s.tree loc (removeFile os cwd ctx path s) ∧
      Removed loc (removeFile os cwd ctx path s) := by
  obtain ⟨⟨s', r⟩, hunlink⟩ : ∃ x, unlink os cwd s path = x := ⟨_, rfl⟩
  rw [removeFile, hunlink]
  cases r with
  | error e =>
      obtain ⟨htree, he⟩ := of_change_error hunlink
      have hne : e ≠ .enoent := by
        rintro rfl
        exact unlink_ne_enoent hsome hkind (he.resolve_left (fun h => nomatch h))
      dsimp only
      rw [if_pos (by simp [hne])]
      refine ⟨⟨s', _, rfl, ?_, fun p h => nomatch h⟩, fun s'' h => nomatch h⟩
      rw [htree]
      exact Below.refl _ _
  | ok u =>
      obtain ⟨loc', hres', hleaf, htree⟩ := unlink_ok (of_change_ok hunlink)
      obtain rfl := resolve_eq hsome (Within.refl _) hres'
      refine ⟨⟨s', _, rfl, ?_, fun p h => nomatch h⟩, fun s'' h => ?_⟩
      · rw [htree]
        exact below_erase _ _ hleaf
      · obtain ⟨rfl, -⟩ := Prod.mk.inj (Option.some.inj h)
        rw [htree]
        exact erase_none hleaf

/-- Whatever the loop is over, it ends, and it removes entries below the directory only. -/
theorem rmEntries_spec {rm : State → Bytes → Result} {ents : List Bytes}
    (hrm : ∀ (s : State), ∀ d_name ∈ ents, s.tree.Within t → dotDir d_name = false →
      Ended s.tree loc (rm s (path ++ 47 :: d_name)))
    (hs : s.tree.Within t) : Ended s.tree loc (rmEntries rm path s ents) := by
  induction ents generalizing s with
  | nil => exact ⟨s, .ok (), rfl, Below.refl _ _, fun p h => nomatch h⟩
  | cons d_name ents ih =>
      have hrest : ∀ (s : State), ∀ name ∈ ents, s.tree.Within t → dotDir name = false →
          Ended s.tree loc (rm s (path ++ 47 :: name)) :=
        fun s name hname => hrm s name (List.mem_cons_of_mem _ hname)
      rw [rmEntries]
      split_ifs with hdot
      · exact ih hrest hs
      · obtain ⟨s', r, heq, hbelow, hr⟩ := hrm s d_name List.mem_cons_self hs (by simpa using hdot)
        rw [heq]
        cases r with
        | error e => exact ⟨s', .error e, rfl, hbelow, hr⟩
        | ok u =>
            obtain ⟨s'', r, heq', hbelow', hr'⟩ := ih hrest (hbelow.within.trans hs)
            exact ⟨s'', r, heq', hbelow.trans hbelow', hr'⟩

/-- **`Rm` ends, removes nothing but what its path stands for and what is below, and succeeds only
when all of it is gone.** -/
theorem rm_spec {n levels : Nat} (hdepth : ∀ e ∈ t.entries, e.1.length ≤ n)
    (hlevels : n + 1 ≤ levels + loc.length) (hpos : 1 ≤ levels) (hpath : path.getLast? ≠ some 47)
    (hres : t.resolve os.links cwd false path = .ok loc) (hs : s.tree.Within t) :
    Ended s.tree loc (rm os cwd ctx levels s path) ∧
      Removed loc (rm os cwd ctx levels s path) := by
  induction levels generalizing path t loc s with
  | zero => omega
  | succ levels ih =>
      obtain ⟨⟨s₁, r⟩, hlstat⟩ : ∃ x, lstat os cwd s path = x := ⟨_, rfl⟩
      have htree₁ : s₁.tree = s.tree := congrArg (fun x => x.1.tree) hlstat.symm
      rw [rm, hlstat]
      cases r with
      | error e =>
          refine ⟨⟨s₁, _, rfl, ?_, fun p h => nomatch h⟩, fun s' h => nomatch h⟩
          rw [htree₁]
          exact Below.refl _ _
      | ok k =>
          obtain ⟨-, loc', hres', hkind⟩ := lstat_ok hlstat
          obtain rfl := resolve_eq hres hs hres'
          rw [← htree₁] at hs hres' hkind ⊢
          cases k with
          | file => exact removeFile_spec hres' hkind
          | link target => exact removeFile_spec hres' hkind
          | dir =>
              dsimp only
              split_ifs with hrec
              · obtain ⟨⟨s₂, r⟩, hopen⟩ : ∃ x, opendir os cwd s₁ path = x := ⟨_, rfl⟩
                have htree₂ : s₂.tree = s₁.tree := congrArg (fun x => x.1.tree) hopen.symm
                rw [hopen]
                cases r with
                | error e =>
                    refine ⟨⟨s₂, _, rfl, ?_, fun p h => nomatch h⟩, fun s' h => nomatch h⟩
                    rw [htree₂]
                    exact Below.refl _ _
                | ok ents =>
                    -- the path of an entry stands for the entry
                    have hloop : Ended s₂.tree loc'
                        (rmEntries (rm os cwd ctx levels) path s₂ ents) := by
                      refine rmEntries_spec (fun s' d_name hd hs' hdot => ?_)
                        (htree₂ ▸ Within.refl _ : s₂.tree.Within s₁.tree)
                      obtain ⟨hname, k, hk⟩ := opendir_ok hopen hres' hkind hd hdot
                      have hentry : (loc' ++ [d_name], k) ∈ s₁.tree.entries :=
                        (kind_eq_some_iff (by simp)).mp hk
                      have hlen := hdepth _ (hs _ hentry)
                      rw [List.length_append, List.length_singleton] at hlen
                      obtain ⟨⟨s'', r, heq, hbelow, hr⟩, -⟩ :=
                        ih (fun e he => hdepth e (hs e he))
                        (by rw [List.length_append, List.length_singleton]; omega) (by omega)
                        (getLast?_append_name path hname)
                        (resolve_append hres' hpath hkind hname hk) hs'
                      exact ⟨s'', r, heq, hbelow.of_append, hr⟩
                    obtain ⟨s₃, r, heq, hbelow, hr⟩ := hloop
                    dsimp only
                    rw [heq]
                    rw [htree₂] at hbelow
                    cases r with
                    | error e => exact ⟨⟨s₃, _, rfl, hbelow, hr⟩, fun s' h => nomatch h⟩
                    | ok u =>
                        obtain ⟨⟨s₄, r, heq', hbelow', hr'⟩, hremoved⟩ :=
                          removeDir_spec hres (hbelow.within.trans hs)
                        exact ⟨⟨s₄, r, heq', hbelow.trans hbelow', hr'⟩, hremoved⟩
              · exact removeDir_spec hres hs

/-! ## More levels -/

theorem rmEntries_mono {rm rm' : State → Bytes → Result} {path : Bytes} {ents : List Bytes}
    {s : State} {x : State × Except Error Unit}
    (hrm : ∀ s path x, rm s path = some x → rm' s path = some x)
    (h : rmEntries rm path s ents = some x) : rmEntries rm' path s ents = some x := by
  induction ents generalizing s with
  | nil => exact h
  | cons d_name ents ih =>
      rw [rmEntries] at h ⊢
      by_cases hdot : dotDir d_name = true
      · rw [if_pos hdot] at h ⊢
        exact ih h
      · rw [if_neg hdot] at h ⊢
        cases hcall : rm s (path ++ 47 :: d_name) with
        | none =>
            rw [hcall] at h
            exact nomatch h
        | some y =>
            rw [hcall] at h
            rw [hrm _ _ _ hcall]
            obtain ⟨s', r⟩ := y
            cases r with
            | error e => exact h
            | ok u => exact ih h

/-- A result stays the same when the recursion may go deeper. -/
theorem rm_mono_succ {levels : Nat} {x : State × Except Error Unit}
    (h : rm os cwd ctx levels s path = some x) : rm os cwd ctx (levels + 1) s path = some x := by
  induction levels generalizing s path x with
  | zero => exact nomatch h
  | succ levels ih =>
      rw [rm] at h ⊢
      obtain ⟨⟨s₁, r⟩, hlstat⟩ : ∃ y, lstat os cwd s path = y := ⟨_, rfl⟩
      rw [hlstat] at h ⊢
      cases r with
      | error e => exact h
      | ok k =>
          cases k with
          | file => exact h
          | link target => exact h
          | dir =>
              dsimp only at h ⊢
              by_cases hrec : ctx.recursive = true
              · rw [if_pos hrec] at h ⊢
                obtain ⟨⟨s₂, r⟩, hopen⟩ : ∃ y, opendir os cwd s₁ path = y := ⟨_, rfl⟩
                rw [hopen] at h ⊢
                cases r with
                | error e => exact h
                | ok ents =>
                    dsimp only at h ⊢
                    cases hloop : rmEntries (rm os cwd ctx levels) path s₂ ents with
                    | none =>
                        rw [hloop] at h
                        exact nomatch h
                    | some y =>
                        rw [hloop] at h
                        rw [rmEntries_mono (fun _ _ _ h => ih h) hloop]
                        exact h
              · rw [if_neg hrec] at h ⊢
                exact h

theorem rm_mono {levels levels' : Nat} (hle : levels ≤ levels') {x : State × Except Error Unit}
    (h : rm os cwd ctx levels s path = some x) : rm os cwd ctx levels' s path = some x := by
  induction hle with
  | refl => exact h
  | step _ ih => exact rm_mono_succ ih

/-! ## The command -/

theorem exists_depth (t : FileTree) : ∃ n, ∀ e ∈ t.entries, e.1.length ≤ n := by
  induction t.entries with
  | nil => exact ⟨0, fun _ h => absurd h List.not_mem_nil⟩
  | cons e entries ih =>
      obtain ⟨n, hn⟩ := ih
      refine ⟨max e.1.length n, fun e' he' => ?_⟩
      rcases List.mem_cons.mp he' with rfl | hrest
      · exact le_max_left _ _
      · exact le_max_of_le_right (hn e' hrest)

/-- The last component of a pathname, without slashes behind it. -/
def lastComponent (pathname : Bytes) : Bytes := (stripped pathname).rtakeWhile (· ≠ 47)

theorem stripped_getLast? (pathname : Bytes) : (stripped pathname).getLast? ≠ some 47 := by
  intro h
  have hne : stripped pathname ≠ [] := by
    intro hnil
    rw [hnil] at h
    exact nomatch h
  rw [List.getLast?_eq_some_getLast hne] at h
  exact List.rdropWhile_last_not _ _ hne (decide_eq_true (Option.some.inj h))

/-- `Rm` with enough levels has a result, whatever its path. -/
theorem exists_rm (os : Os) (cwd : Loc) (ctx : RmCtx) (s : State) {path : Bytes}
    (hpath : path.getLast? ≠ some 47) :
    ∃ n s' r, (∀ levels, n ≤ levels → rm os cwd ctx levels s path = some (s', r)) ∧
      s'.tree.Within s.tree ∧ (∀ p, r ≠ .error (.invalidPathname p)) ∧
      (∀ e ∈ s.tree.entries, e ∉ s'.tree.entries →
        ∃ loc, s.tree.resolve os.links cwd false path = .ok loc ∧ loc <+: e.1) ∧
      (r = .ok () → ∃ loc, s.tree.resolve os.links cwd false path = .ok loc ∧
        ∀ e ∈ s.tree.entries, e ∈ s'.tree.entries ↔ ¬loc <+: e.1) := by
  cases hres : s.tree.resolve os.links cwd false path with
  | error e =>
      -- then `lstat` fails
      obtain ⟨⟨s₁, r⟩, hlstat⟩ : ∃ y, lstat os cwd s path = y := ⟨_, rfl⟩
      have htree : s₁.tree = s.tree := congrArg (fun y => y.1.tree) hlstat.symm
      cases r with
      | ok k =>
          obtain ⟨-, loc, hloc, -⟩ := lstat_ok hlstat
          exact nomatch hres.symm.trans hloc
      | error e' =>
          refine ⟨1, s₁, .error (.lstat path e'), fun levels hle => ?_, ?_, fun p h => ?_,
            fun e he hne => ?_, fun h => ?_⟩
          · obtain ⟨levels, rfl⟩ := Nat.exists_eq_add_of_le' hle
            rw [rm, hlstat]
          · rw [htree]
            exact Within.refl _
          · exact nomatch h
          · rw [htree] at hne
            exact absurd he hne
          · exact nomatch h
  | ok loc =>
      obtain ⟨n, hn⟩ := exists_depth s.tree
      have hspec : Ended s.tree loc (rm os cwd ctx (n + 1) s path) ∧
          Removed loc (rm os cwd ctx (n + 1) s path) :=
        rm_spec hn (by omega) (by omega) hpath hres (Within.refl s.tree)
      obtain ⟨⟨s', r, heq, hbelow, hr⟩, hremoved⟩ := hspec
      refine ⟨n + 1, s', r, fun levels hle => rm_mono hle heq, hbelow.within, hr,
        fun e he hne => ⟨loc, rfl, ?_⟩, fun hok => ⟨loc, rfl, fun e he => ?_⟩⟩
      · by_contra hloc
        exact hne (hbelow.kept e he hloc)
      · subst hok
        exact ⟨hremoved s' heq e, hbelow.kept e he⟩

/-- The arguments are flags and a pathname. -/
structure Arguments (args : List Bytes) (ctx : RmCtx) (pathname : Bytes) : Prop where
  length : args.length ≤ 3
  last : args.getLast? = some pathname
  flags : flags args.dropLast ⟨false, false⟩ = .ok ctx

/-- What is expected of the command: it ends, it refuses `.` and `..` as the last component of the
pathname, and otherwise it removes nothing but the entry and what is below it, all of it when it
succeeds. -/
def Right (os : Os) (cwd : Loc) (s : State) (args : List Bytes) (pathname : Bytes) : Prop :=
  ∃ n s' r, (∀ levels, n ≤ levels → rmCmd os cwd levels s args = some (s', r)) ∧
    (dotDir (lastComponent pathname) = true →
      s'.tree = s.tree ∧ ∃ path, r = .error (.invalidPathname path)) ∧
    (dotDir (lastComponent pathname) = false →
      s'.tree.Within s.tree ∧
      (∀ e ∈ s.tree.entries, e ∉ s'.tree.entries →
        ∃ loc, s.tree.resolve os.links cwd false (stripped pathname) = .ok loc ∧ loc <+: e.1) ∧
      (r = .ok () →
        ∃ loc, s.tree.resolve os.links cwd false (stripped pathname) = .ok loc ∧
          ∀ e ∈ s.tree.entries, e ∈ s'.tree.entries ↔ ¬loc <+: e.1))

theorem rmCmd_eq {os : Os} {cwd : Loc} {levels : Nat} {s : State} {args : List Bytes} {ctx : RmCtx}
    {pathname : Bytes} (hargs : Arguments args ctx pathname) :
    rmCmd os cwd levels s args =
      if (afterSlash (stripped pathname)).any dotDir then
        some (s, .error (.invalidPathname (stripped pathname)))
      else rm os cwd ctx levels s (stripped pathname) := by
  have hlen := hargs.length
  rw [rmCmd, hargs.last]
  dsimp only
  rw [if_neg (by omega), hargs.flags]

/-- The test of the command sees the last component only behind a slash. -/
theorem refused_iff (pathname : Bytes) : (afterSlash (stripped pathname)).any dotDir = true ↔
    dotDir (lastComponent pathname) = true ∧ dotDir (stripped pathname) = false := by
  rw [afterSlash, lastComponent]
  by_cases hslash : (47 : UInt8) ∈ stripped pathname
  · have hno : dotDir (stripped pathname) = false := by
      refine Bool.eq_false_iff.mpr fun hdot => ?_
      simp only [dotDir, Bool.or_eq_true, decide_eq_true_eq] at hdot
      rcases hdot with heq | heq
      · rw [heq] at hslash
        exact absurd hslash (by decide)
      · rw [heq] at hslash
        exact absurd hslash (by decide)
    rw [if_pos hslash, hno, Option.any_some]
    exact ⟨fun h => ⟨h, rfl⟩, fun h => h.1⟩
  · have hself : (stripped pathname).rtakeWhile (· ≠ 47) = stripped pathname := by
      refine List.rtakeWhile_eq_self_iff.mpr fun c hc => decide_eq_true fun heq => ?_
      exact hslash (heq ▸ hc)
    rw [if_neg hslash, hself, Option.any_none]
    exact ⟨fun h => Bool.noConfusion h, fun h => absurd (h.1.symm.trans h.2) (by decide)⟩

/-- **The command does what is expected of it for every pathname but `.` and `..`, with or without
slashes behind them.** -/
theorem rmCmd_iff (os : Os) (cwd : Loc) (s : State) (args : List Bytes) (ctx : RmCtx)
    (pathname : Bytes) (hargs : Arguments args ctx pathname) :
    Right os cwd s args pathname ↔ stripped pathname ≠ [46] ∧ stripped pathname ≠ [46, 46] := by
  have hdots : dotDir (stripped pathname) = false ↔
      stripped pathname ≠ [46] ∧ stripped pathname ≠ [46, 46] := by
    simp only [dotDir, Bool.or_eq_false_iff, decide_eq_false_iff_not, ne_eq]
  rw [← hdots]
  obtain ⟨n, s', r, hrm, hwithin, hr, hbelow, hok⟩ :=
    exists_rm os cwd ctx s (stripped_getLast? pathname)
  constructor
  · rintro ⟨n', s'', r'', hcmd, hrefuse, -⟩
    by_contra hdot
    have hdot' : dotDir (stripped pathname) = true := by simpa using hdot
    have hlast : dotDir (lastComponent pathname) = true := by
      rw [lastComponent]
      simp only [dotDir, Bool.or_eq_true, decide_eq_true_eq] at hdot'
      rcases hdot' with heq | heq
      · rw [heq]
        rfl
      · rw [heq]
        rfl
    have hnot : (afterSlash (stripped pathname)).any dotDir ≠ true := by
      rw [Ne, refused_iff]
      exact fun h => hdot h.2
    obtain ⟨-, path, rfl⟩ := hrefuse hlast
    have hleft := hcmd (max n n') (le_max_right n n')
    rw [rmCmd_eq hargs, if_neg hnot, hrm _ (le_max_left n n')] at hleft
    exact hr path (Prod.mk.inj (Option.some.inj hleft)).2
  · intro hdot
    by_cases hrefused : (afterSlash (stripped pathname)).any dotDir = true
    · have hlast := ((refused_iff pathname).mp hrefused).1
      refine ⟨0, s, .error (.invalidPathname (stripped pathname)), fun levels _ => ?_,
        fun _ => ⟨rfl, _, rfl⟩, fun h => absurd (h.symm.trans hlast) (by decide)⟩
      rw [rmCmd_eq hargs, if_pos hrefused]
    · have hlast : dotDir (lastComponent pathname) = false := by
        refine Bool.eq_false_iff.mpr fun h => hrefused ((refused_iff pathname).mpr ⟨h, hdot⟩)
      refine ⟨n, s', r, fun levels hle => ?_, fun h => absurd (h.symm.trans hlast) (by decide),
        fun _ => ⟨hwithin, hbelow, hok⟩⟩
      rw [rmCmd_eq hargs, if_neg hrefused]
      exact hrm levels hle

/-- A system in which nothing fails. -/
def reliable : Os :=
  ⟨40, fun _ => false, fun _ names => names, fun _ names => List.Subperm.refl names⟩

/-- A directory `d` with one file `a` in it. -/
def oneFile : FileTree where
  entries := [([[100]], .dir), ([[100], [97]], .file)]
  distinct := by decide
  names := by decide
  parents := by decide

/-- **In the directory, `.` is not refused, and the file is removed.** -/
theorem rmCmd_dot : (rmCmd reliable [[100]] 3 ⟨oneFile, 0⟩ [ascii "-recursive", ascii "."]).map
      (fun x => x.1.tree.entries) = some [([[100]], .dir)] ∧
    ¬Right reliable [[100]] ⟨oneFile, 0⟩ [ascii "-recursive", ascii "."] (ascii ".") := by
  have hgone : (rmCmd reliable [[100]] 3 ⟨oneFile, 0⟩ [ascii "-recursive", ascii "."]).map
      (fun x => x.1.tree.entries) = some [([[100]], .dir)] := by decide
  refine ⟨hgone, ?_⟩
  rintro ⟨n, s', r, hcmd, hrefuse, -⟩
  obtain ⟨x, hx, hentries⟩ := Option.map_eq_some_iff.mp hgone
  have hargs : Arguments [ascii "-recursive", ascii "."] ⟨false, true⟩ (ascii ".") :=
    ⟨by decide, rfl, rfl⟩
  have hmore : rmCmd reliable [[100]] (max n 3) ⟨oneFile, 0⟩ [ascii "-recursive", ascii "."] =
      some x := by
    rw [rmCmd_eq hargs] at hx ⊢
    exact rm_mono (le_max_right n 3) hx
  obtain rfl := Option.some.inj (hmore.symm.trans (hcmd _ (le_max_left n 3)))
  rw [(hrefuse rfl).1] at hentries
  exact absurd hentries (by decide)

/-- The pathname of the directory is fine, with slashes behind it. -/
theorem rmCmd_slash : Right reliable [] ⟨oneFile, 0⟩
    [ascii "-recursive", ascii "-nocomplain", ascii "d//"] (ascii "d//") :=
  (rmCmd_iff reliable [] ⟨oneFile, 0⟩ _ ⟨true, true⟩ (ascii "d//") ⟨by decide, rfl, rfl⟩).mpr
    (by decide)

end Nsdci.Unix
