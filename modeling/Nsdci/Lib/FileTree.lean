import Nsdci.Lib.CString
import Mathlib.Data.List.Basic
import Mathlib.Data.List.Nodup

/-!
# Trees of files

A file system as the entries of its directories, with symbolic links, and the resolution of
pathnames in it. A pathname is walked from the root or from a working directory. Links on the way
are followed, a bounded number of times; one at the end only if this is asked for.

Taking entries away does not lead a pathname elsewhere (`resolve_mono`), and a name behind the path
of a directory is the entry of that name in it (`resolve_append`).
-/

namespace Nsdci.Lib

/-- Where an entry is: the names on the way from the root. -/
abbrev Loc := List Bytes

/-- What an entry is. -/
inductive Kind where
  | file
  | link (target : Bytes)
  | dir
  deriving DecidableEq

/-- The names an entry may have. -/
structure IsName (name : Bytes) : Prop where
  nonempty : name ≠ []
  notDot : name ≠ [46]
  notDotDot : name ≠ [46, 46]
  noSlash : (47 : UInt8) ∉ name

instance (name : Bytes) : Decidable (IsName name) :=
  decidable_of_iff (name ≠ [] ∧ name ≠ [46] ∧ name ≠ [46, 46] ∧ (47 : UInt8) ∉ name)
    ⟨fun h => ⟨h.1, h.2.1, h.2.2.1, h.2.2.2⟩, fun h => ⟨h.1, h.2, h.3, h.4⟩⟩

/-- The entries of the directories from the root down, each in a directory. -/
structure FileTree where
  entries : List (Loc × Kind)
  distinct : (entries.map Prod.fst).Nodup
  names : ∀ e ∈ entries, e.1 ≠ [] ∧ ∀ name ∈ e.1, IsName name
  parents : ∀ e ∈ entries, e.1.dropLast = [] ∨ (e.1.dropLast, Kind.dir) ∈ entries

/-- Why a system call failed. -/
inductive Errno where
  | enoent | enotdir | eloop | eisdir | einval | enotempty | other
  deriving DecidableEq

namespace FileTree

/-- What is there. The root is a directory. -/
def kind (t : FileTree) (loc : Loc) : Option Kind :=
  if loc = [] then some .dir else (t.entries.find? fun e => e.1 = loc).map Prod.snd

theorem kind_eq_some_iff {t : FileTree} {loc : Loc} (hloc : loc ≠ []) {k : Kind} :
    t.kind loc = some k ↔ (loc, k) ∈ t.entries := by
  rw [kind, if_neg hloc, Option.map_eq_some_iff]
  constructor
  · rintro ⟨e, hfind, rfl⟩
    obtain rfl : e.1 = loc := by simpa using List.find?_some hfind
    exact List.mem_of_find?_eq_some hfind
  · intro hmem
    cases hfind : t.entries.find? fun e => e.1 = loc with
    | none => exact absurd (decide_eq_true rfl) (List.find?_eq_none.mp hfind _ hmem)
    | some e =>
        have heq : e.1 = loc := by simpa using List.find?_some hfind
        have he := List.mem_of_find?_eq_some hfind
        exact ⟨e, rfl, congrArg Prod.snd (List.inj_on_of_nodup_map t.distinct he hmem heq)⟩

/-- No entry is in the directory. -/
def Childless (t : FileTree) (loc : Loc) : Prop := ∀ e ∈ t.entries, e.1.dropLast ≠ loc

instance (t : FileTree) (loc : Loc) : Decidable (t.Childless loc) :=
  inferInstanceAs (Decidable (∀ e ∈ t.entries, e.1.dropLast ≠ loc))

/-- The tree without an entry that has none below it. -/
def erase (t : FileTree) (loc : Loc) (h : t.Childless loc) : FileTree where
  entries := t.entries.filter fun e => e.1 ≠ loc
  distinct := t.distinct.sublist (List.filter_sublist.map Prod.fst)
  names e he := t.names e (List.mem_filter.mp he).1
  parents e he := by
    have hmem := (List.mem_filter.mp he).1
    refine (t.parents e hmem).imp_right fun hdir => List.mem_filter.mpr ⟨hdir, ?_⟩
    exact decide_eq_true (h e hmem)

/-- What is no directory has no entries. -/
theorem childless_of_kind {t : FileTree} {loc : Loc} {k : Kind} (hkind : t.kind loc = some k)
    (hdir : k ≠ .dir) : t.Childless loc := by
  have hloc : loc ≠ [] := by
    rintro rfl
    exact hdir (Option.some.inj hkind).symm
  intro e he hparent
  rcases t.parents e he with hroot | hmem
  · exact hloc (hparent.symm.trans hroot)
  · rw [hparent, ← kind_eq_some_iff hloc, hkind] at hmem
    exact hdir (Option.some.inj hmem)

/-- One tree has no other entries than the other. -/
def Within (t' t : FileTree) : Prop := ∀ e ∈ t'.entries, e ∈ t.entries

theorem Within.refl (t : FileTree) : t.Within t := fun _ he => he

theorem Within.trans {t₁ t₂ t₃ : FileTree} (h : t₁.Within t₂) (h' : t₂.Within t₃) : t₁.Within t₃ :=
  fun e he => h' e (h e he)

theorem erase_within (t : FileTree) (loc : Loc) (h : t.Childless loc) : (t.erase loc h).Within t :=
  fun _ he => (List.mem_filter.mp he).1

theorem kind_mono {t' t : FileTree} (h : t'.Within t) {loc : Loc} {k : Kind}
    (hkind : t'.kind loc = some k) : t.kind loc = some k := by
  by_cases hloc : loc = []
  · rw [kind, if_pos hloc] at hkind ⊢
    exact hkind
  · exact (kind_eq_some_iff hloc).mpr (h _ ((kind_eq_some_iff hloc).mp hkind))

/-! ## Pathnames -/

/-- The components of a pathname, where some bytes of the first have been read. -/
def split (read : Bytes) : Bytes → List Bytes
  | [] => if read = [] then [] else [read]
  | c :: path =>
      if c = 47 then (if read = [] then [] else [read]) ++ split [] path
      else split (read ++ [c]) path

/-- The components of a pathname. A slash at the end asks for a directory, as `.` does. -/
def comps (path : Bytes) : List Bytes :=
  split [] path ++ if path.getLast? = some 47 then [[46]] else []

theorem split_append (read path name : Bytes) :
    split read (path ++ 47 :: name) = split read path ++ split [] name := by
  induction path generalizing read with
  | nil => exact if_pos rfl
  | cons c path ih =>
      rw [List.cons_append, split, split]
      split_ifs <;> simp [ih]

theorem split_name (read : Bytes) {name : Bytes} (h : (47 : UInt8) ∉ name) (hne : name ≠ []) :
    split read name = [read ++ name] := by
  induction name generalizing read with
  | nil => exact absurd rfl hne
  | cons c name ih =>
      have hc : c ≠ 47 := fun heq => h (heq ▸ List.mem_cons_self)
      rw [split, if_neg hc]
      by_cases hname : name = []
      · rw [hname, split, if_neg (by simp)]
      · rw [ih (read ++ [c]) (fun hmem => h (List.mem_cons_of_mem c hmem)) hname,
          List.append_assoc]
        rfl

/-- A path with a name at its end does not end in a slash. -/
theorem getLast?_append_name (path : Bytes) {name : Bytes} (hname : IsName name) :
    (path ++ 47 :: name).getLast? ≠ some 47 := by
  intro h
  obtain ⟨last, hlast⟩ : ∃ c, name.getLast? = some c := by
    rw [← Option.isSome_iff_exists, List.getLast?_isSome]
    exact hname.nonempty
  have hsame : (path ++ 47 :: name).getLast? = some last := by
    rw [List.getLast?_append, List.getLast?_cons, hlast]
    rfl
  obtain rfl : 47 = last := Option.some.inj (h.symm.trans hsame)
  exact hname.noSlash (List.mem_of_getLast? hlast)

/-- A name behind a path is one more component. -/
theorem comps_append {path name : Bytes} (hpath : path.getLast? ≠ some 47) (hname : IsName name) :
    comps (path ++ 47 :: name) = comps path ++ [name] := by
  rw [comps, comps, if_neg (getLast?_append_name path hname), if_neg hpath, List.append_nil,
    List.append_nil, split_append, split_name [] hname.noSlash hname.nonempty]
  rfl

/-- Where a walk stops: at its end, or at a link to follow, with the components behind it. -/
inductive Stop where
  | done (loc : Loc)
  | link (cur : Loc) (target : Bytes) (rest : List Bytes)

/-- Walk along components up to the first link. -/
def along (t : FileTree) (follow : Bool) (cur : Loc) : List Bytes → Except Errno Stop
  | [] => .ok (.done cur)
  | c :: cs =>
      if c = [46] then along t follow cur cs
      else if c = [46, 46] then along t follow cur.dropLast cs
      else match t.kind (cur ++ [c]) with
        | none => .error .enoent
        | some .dir => along t follow (cur ++ [c]) cs
        | some .file => if cs = [] then .ok (.done (cur ++ [c])) else .error .enotdir
        | some (.link target) =>
            if cs = [] ∧ follow = false then .ok (.done (cur ++ [c]))
            else .ok (.link cur target cs)

/-- Where a path begins. -/
def start (cur : Loc) (path : Bytes) : Loc := if path.head? = some 47 then [] else cur

/-- Walk along components, following at most so many links. -/
def walk (t : FileTree) (follow : Bool) : Nat → Loc → List Bytes → Except Errno Loc
  | links, cur, cs =>
      match along t follow cur cs with
      | .error e => .error e
      | .ok (.done loc) => .ok loc
      | .ok (.link cur target rest) =>
          match links with
          | 0 => .error .eloop
          | links + 1 =>
              if target = [] then .error .enoent
              else walk t follow links (start cur target) (comps target ++ rest)

/-- What a pathname stands for. -/
def resolve (t : FileTree) (links : Nat) (cwd : Loc) (follow : Bool) (path : Bytes) :
    Except Errno Loc :=
  if path = [] then .error .enoent else walk t follow links (start cwd path) (comps path)

/-! ## Fewer entries -/

theorem along_mono {t' t : FileTree} (h : t'.Within t) {follow : Bool} {cur : Loc}
    {cs : List Bytes} {stop : Stop} (halong : along t' follow cur cs = .ok stop) :
    along t follow cur cs = .ok stop := by
  induction cs generalizing cur with
  | nil => exact halong
  | cons c cs ih =>
      rw [along] at halong ⊢
      by_cases hdot : c = [46]
      · rw [if_pos hdot] at halong ⊢
        exact ih halong
      · by_cases hdotdot : c = [46, 46]
        · rw [if_neg hdot, if_pos hdotdot] at halong ⊢
          exact ih halong
        rw [if_neg hdot, if_neg hdotdot] at halong ⊢
        cases hkind : t'.kind (cur ++ [c]) with
        | none =>
            rw [hkind] at halong
            exact nomatch halong
        | some k =>
            rw [hkind] at halong
            rw [kind_mono h hkind]
            cases k with
            | dir => exact ih halong
            | file => exact halong
            | link target => exact halong

theorem walk_mono {t' t : FileTree} (h : t'.Within t) {follow : Bool} {links : Nat} {cur loc : Loc}
    {cs : List Bytes} (hwalk : walk t' follow links cur cs = .ok loc) :
    walk t follow links cur cs = .ok loc := by
  induction links generalizing cur cs with
  | zero =>
      rw [walk] at hwalk ⊢
      cases halong : along t' follow cur cs with
      | error e =>
          rw [halong] at hwalk
          exact nomatch hwalk
      | ok stop =>
          rw [halong] at hwalk
          rw [along_mono h halong]
          exact hwalk
  | succ links ih =>
      rw [walk] at hwalk ⊢
      cases halong : along t' follow cur cs with
      | error e =>
          rw [halong] at hwalk
          exact nomatch hwalk
      | ok stop =>
          rw [halong] at hwalk
          rw [along_mono h halong]
          cases stop with
          | done => exact hwalk
          | link cur' target rest =>
              dsimp only at hwalk ⊢
              split_ifs at hwalk ⊢
              exact ih hwalk

/-- **When entries are taken away a pathname stands for the same place or for none.** -/
theorem resolve_mono {t' t : FileTree} (h : t'.Within t) {links : Nat} {cwd loc : Loc}
    {follow : Bool} {path : Bytes} (hres : t'.resolve links cwd follow path = .ok loc) :
    t.resolve links cwd follow path = .ok loc := by
  rw [resolve] at hres ⊢
  split_ifs at hres ⊢
  exact walk_mono h hres

/-! ## Paths of directories -/

/-- One more component behind a walk that has stopped. -/
def further (t : FileTree) (name : Bytes) : Stop → Except Errno Stop
  | .done loc => along t false loc [name]
  | .link cur target rest => .ok (.link cur target (rest ++ [name]))

/-- What a walk to a directory does with one more component, up to the first link. -/
theorem along_append {t : FileTree} {cur : Loc} {cs : List Bytes} {stop : Stop} (name : Bytes)
    (halong : along t false cur cs = .ok stop)
    (hdir : ∀ loc, stop = .done loc → t.kind loc = some .dir) :
    along t false cur (cs ++ [name]) = further t name stop := by
  induction cs generalizing cur with
  | nil =>
      obtain rfl : .done cur = stop := Except.ok.inj halong
      rfl
  | cons c cs ih =>
      rw [along] at halong
      rw [List.cons_append, along]
      by_cases hdot : c = [46]
      · rw [if_pos hdot] at halong ⊢
        exact ih halong
      · by_cases hdotdot : c = [46, 46]
        · rw [if_neg hdot, if_pos hdotdot] at halong ⊢
          exact ih halong
        rw [if_neg hdot, if_neg hdotdot] at halong ⊢
        cases hkind : t.kind (cur ++ [c]) with
        | none =>
            rw [hkind] at halong
            exact nomatch halong
        | some k =>
            rw [hkind] at halong
            cases k with
            | dir => exact ih halong
            | file =>
                dsimp only at halong
                split_ifs at halong
                obtain rfl := Except.ok.inj halong
                -- a file is no directory
                exact nomatch hkind.symm.trans (hdir _ rfl)
            | link target =>
                dsimp only at halong
                split_ifs at halong
                · obtain rfl := Except.ok.inj halong
                  exact nomatch hkind.symm.trans (hdir _ rfl)
                · obtain rfl := Except.ok.inj halong
                  exact if_neg (by simp)

theorem walk_append {t : FileTree} {links : Nat} {cur loc : Loc} {cs : List Bytes} {name : Bytes}
    (hwalk : walk t false links cur cs = .ok loc) (hdir : t.kind loc = some .dir)
    (hname : along t false loc [name] = .ok (.done (loc ++ [name]))) :
    walk t false links cur (cs ++ [name]) = .ok (loc ++ [name]) := by
  induction links generalizing cur cs with
  | zero =>
      rw [walk] at hwalk ⊢
      cases halong : along t false cur cs with
      | error e =>
          rw [halong] at hwalk
          exact nomatch hwalk
      | ok stop =>
          rw [halong] at hwalk
          cases stop with
          | link cur' target rest => exact nomatch hwalk
          | done loc' =>
              obtain rfl : loc' = loc := Except.ok.inj hwalk
              have happend := along_append name halong (by rintro _ ⟨rfl⟩; exact hdir)
              rw [happend, further, hname]
  | succ links ih =>
      rw [walk] at hwalk ⊢
      cases halong : along t false cur cs with
      | error e =>
          rw [halong] at hwalk
          exact nomatch hwalk
      | ok stop =>
          rw [halong] at hwalk
          cases stop with
          | done loc' =>
              obtain rfl : loc' = loc := Except.ok.inj hwalk
              have happend := along_append name halong (by rintro _ ⟨rfl⟩; exact hdir)
              rw [happend, further, hname]
          | link cur' target rest =>
              have happend := along_append name halong (fun _ h => nomatch h)
              rw [happend, further]
              dsimp only at hwalk ⊢
              split_ifs at hwalk ⊢
              rw [← List.append_assoc]
              exact ih hwalk

/-- An entry in a directory is found there. -/
theorem along_name {t : FileTree} {loc : Loc} {name : Bytes} (hname : IsName name) {k : Kind}
    (hkind : t.kind (loc ++ [name]) = some k) :
    along t false loc [name] = .ok (.done (loc ++ [name])) := by
  rw [along, if_neg hname.notDot, if_neg hname.notDotDot, hkind]
  cases k with
  | dir => rfl
  | file => rfl
  | link target => rfl

/-- At the end of a walk to a directory there is no link to follow. -/
theorem along_follow {t : FileTree} {cur : Loc} {cs : List Bytes} {stop : Stop}
    (halong : along t false cur cs = .ok stop)
    (hdir : ∀ loc, stop = .done loc → t.kind loc = some .dir) :
    along t true cur cs = .ok stop := by
  induction cs generalizing cur with
  | nil => exact halong
  | cons c cs ih =>
      rw [along] at halong ⊢
      by_cases hdot : c = [46]
      · rw [if_pos hdot] at halong ⊢
        exact ih halong
      · by_cases hdotdot : c = [46, 46]
        · rw [if_neg hdot, if_pos hdotdot] at halong ⊢
          exact ih halong
        rw [if_neg hdot, if_neg hdotdot] at halong ⊢
        cases hkind : t.kind (cur ++ [c]) with
        | none =>
            rw [hkind] at halong
            exact nomatch halong
        | some k =>
            rw [hkind] at halong
            cases k with
            | dir => exact ih halong
            | file => exact halong
            | link target =>
                dsimp only at halong
                split_ifs at halong
                · obtain rfl := Except.ok.inj halong
                  exact nomatch hkind.symm.trans (hdir _ rfl)
                · rw [← halong]
                  exact if_neg (fun h => Bool.noConfusion h.2)

theorem walk_follow {t : FileTree} {links : Nat} {cur loc : Loc} {cs : List Bytes}
    (hwalk : walk t false links cur cs = .ok loc) (hdir : t.kind loc = some .dir) :
    walk t true links cur cs = .ok loc := by
  induction links generalizing cur cs with
  | zero =>
      rw [walk] at hwalk ⊢
      cases halong : along t false cur cs with
      | error e =>
          rw [halong] at hwalk
          exact nomatch hwalk
      | ok stop =>
          rw [halong] at hwalk
          cases stop with
          | link cur' target rest => exact nomatch hwalk
          | done loc' =>
              obtain rfl : loc' = loc := Except.ok.inj hwalk
              rw [along_follow halong (by rintro _ ⟨rfl⟩; exact hdir)]
  | succ links ih =>
      rw [walk] at hwalk ⊢
      cases halong : along t false cur cs with
      | error e =>
          rw [halong] at hwalk
          exact nomatch hwalk
      | ok stop =>
          rw [halong] at hwalk
          cases stop with
          | done loc' =>
              obtain rfl : loc' = loc := Except.ok.inj hwalk
              rw [along_follow halong (by rintro _ ⟨rfl⟩; exact hdir)]
          | link cur' target rest =>
              rw [along_follow halong (fun _ h => nomatch h)]
              dsimp only at hwalk ⊢
              split_ifs at hwalk ⊢
              exact ih hwalk

/-- A path of a directory stands for it also when links are followed. -/
theorem resolve_follow {t : FileTree} {links : Nat} {cwd loc : Loc} {path : Bytes}
    (hres : t.resolve links cwd false path = .ok loc) (hdir : t.kind loc = some .dir) :
    t.resolve links cwd true path = .ok loc := by
  rw [resolve] at hres ⊢
  split_ifs at hres ⊢
  exact walk_follow hres hdir

/-- **A name behind the path of a directory stands for the entry of that name.** -/
theorem resolve_append {t : FileTree} {links : Nat} {cwd loc : Loc} {path name : Bytes}
    (hres : t.resolve links cwd false path = .ok loc) (hpath : path.getLast? ≠ some 47)
    (hdir : t.kind loc = some .dir) (hname : IsName name) {k : Kind}
    (hkind : t.kind (loc ++ [name]) = some k) :
    t.resolve links cwd false (path ++ 47 :: name) = .ok (loc ++ [name]) := by
  rw [resolve] at hres ⊢
  split_ifs at hres with hnil
  have hstart : start cwd (path ++ 47 :: name) = start cwd path := by
    obtain ⟨c, rest, rfl⟩ := List.exists_cons_of_ne_nil hnil
    rfl
  rw [if_neg (by simp), hstart, comps_append hpath hname]
  exact walk_append hres hdir (along_name hname hkind)

/-! ## Taking entries away -/

/-- `unlink`. -/
def unlink (t : FileTree) (links : Nat) (cwd : Loc) (path : Bytes) : Except Errno FileTree :=
  match t.resolve links cwd false path with
  | .error e => .error e
  | .ok loc =>
      match h : t.kind loc with
      | none => .error .enoent
      | some .dir => .error .eisdir
      | some .file => .ok (t.erase loc (childless_of_kind h (by simp)))
      | some (.link _) => .ok (t.erase loc (childless_of_kind h (by simp)))

/-- `rmdir`. -/
def rmdir (t : FileTree) (links : Nat) (cwd : Loc) (path : Bytes) : Except Errno FileTree :=
  if (comps path).getLast? = some [46] then .error .einval
  else if (comps path).getLast? = some [46, 46] then .error .enotempty
  else match t.resolve links cwd false path with
    | .error e => .error e
    | .ok loc =>
        if loc = [] then .error .other
        else if t.kind loc ≠ some .dir then .error .enotdir
        else if h : t.Childless loc then .ok (t.erase loc h) else .error .enotempty

/-- The names `opendir` and `readdir` give. -/
def list (t : FileTree) (links : Nat) (cwd : Loc) (path : Bytes) : Except Errno (List Bytes) :=
  match t.resolve links cwd true path with
  | .error e => .error e
  | .ok loc =>
      match t.kind loc with
      | none => .error .enoent
      | some .dir => .ok ([46] :: [46, 46] ::
          t.entries.filterMap fun e => if e.1.dropLast = loc then e.1.getLast? else none)
      | some _ => .error .enotdir

/-- What is removed is an entry without others below it. -/
theorem unlink_ok {t t' : FileTree} {links : Nat} {cwd : Loc} {path : Bytes}
    (h : t.unlink links cwd path = .ok t') :
    ∃ loc, t.resolve links cwd false path = .ok loc ∧
      ∃ hleaf : t.Childless loc, t' = t.erase loc hleaf := by
  rw [unlink] at h
  split at h
  · exact nomatch h
  · next loc hres =>
      split at h
      · exact nomatch h
      · exact nomatch h
      · exact ⟨loc, hres, _, (Except.ok.inj h).symm⟩
      · exact ⟨loc, hres, _, (Except.ok.inj h).symm⟩

theorem rmdir_ok {t t' : FileTree} {links : Nat} {cwd : Loc} {path : Bytes}
    (h : t.rmdir links cwd path = .ok t') :
    ∃ loc, t.resolve links cwd false path = .ok loc ∧
      ∃ hleaf : t.Childless loc, t' = t.erase loc hleaf := by
  rw [rmdir] at h
  split_ifs at h
  split at h
  · exact nomatch h
  · next loc hres =>
      split_ifs at h with hroot hdir hleaf
      exact ⟨loc, hres, hleaf, (Except.ok.inj h).symm⟩

/-- What is listed beside `.` and `..` are the names of the entries. -/
theorem mem_list {t : FileTree} {links : Nat} {cwd loc : Loc} {path : Bytes} {names : List Bytes}
    (hlist : t.list links cwd path = .ok names) (hres : t.resolve links cwd true path = .ok loc)
    {name : Bytes} (hname : name ∈ names) (hdot : name ≠ [46]) (hdotdot : name ≠ [46, 46]) :
    IsName name ∧ ∃ k, t.kind (loc ++ [name]) = some k := by
  rw [list, hres] at hlist
  dsimp only at hlist
  split at hlist
  · exact nomatch hlist
  · obtain rfl := Except.ok.inj hlist
    have hrest := (List.mem_cons.mp hname).resolve_left hdot
    have hmem := (List.mem_cons.mp hrest).resolve_left hdotdot
    obtain ⟨e, he, hlast⟩ := List.mem_filterMap.mp hmem
    split_ifs at hlast with hparent
    have hne := (t.names e he).1
    have hloc : loc ++ [name] = e.1 := by
      rw [← hparent]
      exact List.dropLast_append_getLast? name hlast
    refine ⟨(t.names e he).2 name (List.mem_of_getLast? hlast), e.2, ?_⟩
    rw [hloc]
    exact (kind_eq_some_iff hne).mpr he
  · exact nomatch hlist

end FileTree

end Nsdci.Lib
