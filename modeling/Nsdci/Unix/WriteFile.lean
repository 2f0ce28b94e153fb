import Nsdci.Lib.CString
import Nsdci.Lib.Word
import Mathlib.Logic.Function.Basic

/-!
# Writing files (`unix.c`)

`WriteFileCmd` writes a string and a newline to a temporary file beside the file a path denotes, and
renames it. `ReadFileCmd` reads such a file. Each system call may fail, and `writev` may write less
than it is given.

The temporary file is removed when `rename` fails, but not when the write is short. When `lstat`
fails for a symbolic link, the link itself is replaced.
-/

namespace Nsdci.Unix.WriteFile

open Lib

/-- What has a name in a directory. -/
inductive Node where
  | file (content : Bytes)
  | link (target : Bytes)
  | dir
  deriving DecidableEq

/-- A directory, and a name in it. -/
abbrev Place := Nat × Bytes

/-- What the names stand for. -/
abbrev Fs := Place → Option Node

/-- Where pathnames lead. A path gives a directory and the name at its end (`none` when there is no
directory, or no name), `target` makes a path of the target of a link, and `path` is the path
without links that `realpath` gives. -/
structure Paths where
  place : Bytes → Option Place
  target : Place → Bytes → Bytes
  path : Place → Bytes
  links : Nat
  place_path : ∀ p x, place p = some x → place (path x) = some x

/-- Which system calls fail for reasons of their own, and how much is written if any. -/
structure Outcome where
  lstat : Bool
  realpath : Bool
  stat : Bool
  open_ : Bool
  writev : Option Nat
  rename : Bool

/-- `MAXPATHLEN`. -/
def maxPathLen : Nat := 4096

variable (paths : Paths)

/-- Where links lead from a place. -/
def follow (fs : Fs) : Nat → Place → Option Place
  | links, x =>
      match fs x with
      | some (.link t) =>
          match links with
          | 0 => none
          | links + 1 => (paths.place (paths.target x t)).bind (follow fs links)
      | _ => some x

/-- The place a path denotes. -/
def denotes (fs : Fs) (path : Bytes) : Option Place :=
  (paths.place path).bind (follow paths fs paths.links)

variable (o : Outcome)

def lstat (fs : Fs) (path : Bytes) : Option Node :=
  if o.lstat then none else (paths.place path).bind fs

def stat (fs : Fs) (path : Bytes) : Option Node :=
  if o.stat then none else (denotes paths fs path).bind fs

def realpath (fs : Fs) (path : Bytes) : Option Bytes :=
  if o.realpath then none
  else match denotes paths fs path with
    | none => none
    | some x =>
        if (fs x).isSome ∧ (paths.path x).length < maxPathLen then some (paths.path x) else none

/-- `open` for writing, which makes the file when there is none. -/
def openFile (append : Bool) (fs : Fs) (path : Bytes) : Option (Fs × Place) :=
  if o.open_ then none
  else match denotes paths fs path with
    | none => none
    | some x =>
        match fs x with
        | none => some (Function.update fs x (some (.file [])), x)
        | some (.file content) =>
            some (Function.update fs x (some (.file (if append then content else []))), x)
        | some _ => none

/-- `writev`: as many bytes as are written. -/
def writev (fs : Fs) (x : Place) (bytes : Bytes) : Fs × Int :=
  match o.writev with
  | none => (fs, -1)
  | some count =>
      match fs x with
      | some (.file content) =>
          (Function.update fs x (some (.file (content ++ bytes.take count))),
            int32 (min count bytes.length : Nat))
      | _ => (fs, -1)

def rename (fs : Fs) (old new : Bytes) : Option Fs :=
  if o.rename then none
  else match paths.place old, paths.place new with
    | some a, some b =>
        match fs a, fs b with
        | none, _ => none
        | some _, some .dir => none
        | some node, _ => some (Function.update (Function.update fs a none) b (some node))
    | _, _ => none

def unlink (fs : Fs) (path : Bytes) : Fs :=
  match paths.place path with
  | some x => Function.update fs x none
  | none => fs

/-- The messages of the command. -/
inductive Error where
  | realpath | stat | tooLong | couldntOpen | write | rename | notOrdinary
  deriving DecidableEq

/-- `targetFile`: the path, or what the link stands for. `none` when it does not fit in the buffer.
-/
def targetFile (fs : Fs) (path : Bytes) : Option (Except Error Bytes) :=
  match lstat paths o fs path with
  | some (.link _) =>
      match realpath paths o fs path with
      | none => some (.error .realpath)
      | some file =>
          match stat paths o fs file with
          | none => some (.error .stat)
          | some _ => some (.ok file)
  | _ => if path.length < maxPathLen then some (.ok path) else none

/-- The rest of `WriteFileCmd`. The count is compared as a `size_t`. -/
def writeTo (append : Bool) (fs : Fs) (file target string : Bytes) : Fs × Except Error Int :=
  if maxPathLen < file.length then (fs, .error .tooLong)
  else match openFile paths o append fs file with
    | none => (fs, .error .couldntOpen)
    | some (fs, x) =>
        let (fs, nwrote) := writev o fs x (string ++ [10])
        if nwrote % 2 ^ 64 ≠ ((string.length + 1 : Nat) : Int) % 2 ^ 64 then (fs, .error .write)
        else if append then (fs, .ok nwrote)
        else match rename paths o fs file target with
          | none => (unlink paths fs file, .error .rename)
          | some fs => (fs, .ok nwrote)

/-- `WriteFileCmd`, where `Dci_GetUuid` gives `uuid`. `none` when a name leaves its buffer. -/
def writeFileCmd (append : Bool) (fs : Fs) (path string uuid : Bytes) :
    Option (Fs × Except Error Int) :=
  match targetFile paths o fs path with
  | none => none
  | some (.error e) => some (fs, .error e)
  | some (.ok target) =>
      if append then some (writeTo paths o append fs target target string)
      else if target.length + 1 + uuid.length < maxPathLen then
        some (writeTo paths o append fs (target ++ 46 :: uuid) target string)
      else none

/-- `ReadFileCmd`, when its system calls succeed. -/
def readFileCmd (fs : Fs) (path : Bytes) : Except Error Bytes :=
  match (denotes paths fs path).bind fs with
  | some (.file content) => .ok (if content.getLast? = some 10 then content.dropLast else content)
  | some _ => .error .notOrdinary
  | none => .error .stat

/-- What is expected of `WriteFileCmd`: when it succeeds the file has the string and a newline,
links are still links, nothing else has changed, and `ReadFileCmd` gives the string. When it fails
nothing has changed. -/
def Right (fs : Fs) (path string uuid : Bytes) : Prop :=
  ∃ fs' r, writeFileCmd paths o false fs path string uuid = some (fs', r) ∧
    match r with
    | .ok _ => (∃ x, denotes paths fs' path = some x ∧ fs' x = some (.file (string ++ [10])) ∧
          ∀ y, y ≠ x → fs' y = fs y) ∧
        (∀ x t, paths.place path = some x → fs x = some (.link t) → fs' x = some (.link t)) ∧
        readFileCmd paths fs' path = .ok string
    | .error _ => fs' = fs

/-- The string and the newline are written completely, and `nwrote` can say so. -/
def Written (string : Bytes) : Prop :=
  (∃ count, o.writev = some count ∧ string.length + 1 ≤ count) ∧ string.length + 1 < 2 ^ 31

/-- The names fit, a temporary file that is opened is written completely, and `lstat` does not fail
for a symbolic link that `rename` would replace. -/
def Holds (fs : Fs) (path string uuid : Bytes) : Prop :=
  ∃ r, targetFile paths o fs path = some r ∧ ∀ target, r = .ok target →
    target.length + 1 + uuid.length < maxPathLen ∧
    ((openFile paths o false fs (target ++ 46 :: uuid)).isSome = true → Written o string ∧
      ∀ x t, paths.place path = some x → fs x = some (.link t) → o.lstat = true → o.rename = true)

/-! ## Links -/

variable {paths} {o}

/-- Links lead to something else, or to nothing. -/
theorem follow_spec {fs : Fs} {links : Nat} {x y : Place} (h : follow paths fs links x = some y) :
    (∀ t, fs y ≠ some (.link t)) ∧ (y = x ∨ ∃ p, paths.place p = some y) := by
  induction links generalizing x with
  | zero =>
      rw [follow] at h
      split at h
      · exact nomatch h
      · next hlink =>
          obtain rfl := Option.some.inj h
          exact ⟨hlink, Or.inl rfl⟩
  | succ links ih =>
      rw [follow] at h
      split at h
      · obtain ⟨z, hz, hy⟩ := Option.bind_eq_some_iff.mp h
        obtain ⟨hlink, heq | hplace⟩ := ih hy
        · exact ⟨hlink, Or.inr ⟨_, heq ▸ hz⟩⟩
        · exact ⟨hlink, Or.inr hplace⟩
      · next hlink =>
          obtain rfl := Option.some.inj h
          exact ⟨hlink, Or.inl rfl⟩

theorem follow_of_not_link {fs : Fs} {x : Place} (h : ∀ t, fs x ≠ some (.link t)) (links : Nat) :
    follow paths fs links x = some x := by
  cases links with
  | zero =>
      rw [follow]
      split
      · next t hlink => exact absurd hlink (h t)
      · rfl
  | succ links =>
      rw [follow]
      split
      · next t hlink => exact absurd hlink (h t)
      · rfl

theorem denotes_of_not_link {fs : Fs} {path : Bytes} {x : Place}
    (hplace : paths.place path = some x) (h : ∀ t, fs x ≠ some (.link t)) :
    denotes paths fs path = some x := by
  rw [denotes, hplace, Option.bind_some]
  exact follow_of_not_link h _

/-- What is put at a place without a link does not change where links lead. -/
theorem follow_update {fs : Fs} {x : Place} {node : Option Node} (hx : ∀ t, fs x ≠ some (.link t))
    (hnode : ∀ t, node ≠ some (.link t)) (links : Nat) (y : Place) :
    follow paths (Function.update fs x node) links y = follow paths fs links y := by
  induction links generalizing y with
  | zero =>
      by_cases hy : y = x
      · subst hy
        rw [follow_of_not_link hx, follow_of_not_link]
        rw [Function.update_self]
        exact hnode
      · rw [follow, follow, Function.update_of_ne hy]
  | succ links ih =>
      by_cases hy : y = x
      · subst hy
        rw [follow_of_not_link hx, follow_of_not_link]
        rw [Function.update_self]
        exact hnode
      · rw [follow, follow, Function.update_of_ne hy]
        split
        · exact Option.bind_congr fun z _ => ih z
        · rfl

theorem denotes_update {fs : Fs} {x : Place} {node : Option Node} (hx : ∀ t, fs x ≠ some (.link t))
    (hnode : ∀ t, node ≠ some (.link t)) (path : Bytes) :
    denotes paths (Function.update fs x node) path = denotes paths fs path :=
  Option.bind_congr fun y _ => follow_update hx hnode _ y

/-! ## The system calls -/

/-- The count is right exactly if all is written. -/
theorem count_iff {c L : Nat} (hc : c ≤ L) (hL : L < 2 ^ 63) :
    int32 c % 2 ^ 64 = (L : Int) % 2 ^ 64 ↔ c = L ∧ L < 2 ^ 31 := by
  have hrange := int32_range c
  have hsmall : c < 2 ^ 31 → int32 c = c := fun h => int32_of_range (by omega) (by omega)
  generalize int32 (c : Int) = v at *
  omega

/-- A temporary file is new. -/
theorem open_some {fs fs₁ : Fs} {file : Bytes} {x : Place}
    (hfresh : ∀ y, paths.place file = some y → fs y = none)
    (h : openFile paths o false fs file = some (fs₁, x)) :
    paths.place file = some x ∧ fs x = none ∧ fs₁ = Function.update fs x (some (.file [])) := by
  unfold openFile at h
  by_cases hopen : o.open_ = true
  · rw [if_pos hopen] at h
    exact nomatch h
  rw [if_neg hopen] at h
  split at h
  · exact nomatch h
  · next y hy =>
      obtain ⟨z, hz, hfollow⟩ := Option.bind_eq_some_iff.mp hy
      have hnone := hfresh z hz
      rw [follow_of_not_link (by rw [hnone]; simp)] at hfollow
      obtain rfl := Option.some.inj hfollow
      rw [hnone] at h
      obtain ⟨rfl, rfl⟩ := Prod.mk.inj (Option.some.inj h)
      exact ⟨hz, hnone, rfl⟩

/-- What `writev` does to a new file. -/
theorem writev_spec {fs : Fs} {x : Place} (hx : fs x = some (.file [])) (string : Bytes)
    (hlen : string.length + 1 < 2 ^ 63) :
    ∃ content n, writev o fs x (string ++ [10]) =
        (Function.update fs x (some (.file content)), n) ∧
      (n % 2 ^ 64 = ((string.length + 1 : Nat) : Int) % 2 ^ 64 ↔ Written o string) ∧
      (Written o string → content = string ++ [10]) := by
  have hL : (string ++ [10]).length = string.length + 1 := List.length_append
  cases hw : o.writev with
  | none =>
      have hno : ¬Written o string := by
        rintro ⟨⟨count, hcount, -⟩, -⟩
        exact nomatch hw.symm.trans hcount
      refine ⟨[], -1, ?_, iff_of_false ?_ hno, fun h => absurd h hno⟩
      · rw [writev, hw, ← hx, Function.update_eq_self]
      · omega
  | some count =>
      refine ⟨(string ++ [10]).take count, int32 (min count (string ++ [10]).length : Nat), ?_, ?_,
        fun h => ?_⟩
      · rw [writev, hw]
        dsimp only
        rw [hx]
        rfl
      · rw [count_iff (by rw [hL]; exact min_le_right _ _) hlen, hL, Written]
        constructor
        · intro ⟨hmin, hlt⟩
          exact ⟨⟨count, hw, by omega⟩, hlt⟩
        · rintro ⟨⟨count', hcount, hle⟩, hlt⟩
          obtain rfl := Option.some.inj (hw.symm.trans hcount)
          exact ⟨by omega, hlt⟩
      · obtain ⟨⟨count', hcount, hle⟩, -⟩ := h
        obtain rfl := Option.some.inj (hw.symm.trans hcount)
        exact List.take_of_length_le (by omega)

/-- What `rename` does with a temporary file. -/
theorem rename_some {fs fs' : Fs} {file target : Bytes} {x : Place} {node : Node}
    (hplace : paths.place file = some x) (hx : fs x = some node)
    (h : rename paths o fs file target = some fs') :
    o.rename = false ∧ ∃ y, paths.place target = some y ∧ fs y ≠ some .dir ∧
      fs' = Function.update (Function.update fs x none) y (some node) := by
  unfold rename at h
  by_cases hrename : o.rename = true
  · rw [if_pos hrename] at h
    exact nomatch h
  rw [if_neg hrename, hplace] at h
  cases htarget : paths.place target with
  | none =>
      rw [htarget] at h
      exact nomatch h
  | some y =>
      rw [htarget] at h
      dsimp only at h
      rw [hx] at h
      refine ⟨by simpa using hrename, y, rfl, ?_⟩
      cases hy : fs y with
      | none =>
          rw [hy] at h
          exact ⟨by simp, (Option.some.inj h).symm⟩
      | some other =>
          rw [hy] at h
          cases other with
          | dir => exact nomatch h
          | file content => exact ⟨by simp, (Option.some.inj h).symm⟩
          | link t => exact ⟨by simp, (Option.some.inj h).symm⟩

/-- `rename` fails for reasons of its own, or because the target is a directory or in none. -/
theorem rename_none {fs : Fs} {file target : Bytes} {x y : Place} {node : Node}
    (hplace : paths.place file = some x) (hx : fs x = some node)
    (htarget : paths.place target = some y) (hdir : fs y ≠ some .dir)
    (h : rename paths o fs file target = none) : o.rename = true := by
  by_contra hrename
  unfold rename at h
  rw [if_neg hrename, hplace, htarget] at h
  dsimp only at h
  rw [hx] at h
  cases hy : fs y with
  | none =>
      rw [hy] at h
      exact nomatch h
  | some other =>
      rw [hy] at h
      cases other with
      | dir => exact hdir hy
      | file content => exact nomatch h
      | link t => exact nomatch h

/-! ## The command -/

/-- Writing to a new temporary file and renaming it: the file is not opened, the write is short and
the file is left, `rename` fails and the file is removed, or the target has what was written. -/
theorem writeTo_spec (o : Outcome) {fs : Fs} {file : Bytes} (target : Bytes) {string : Bytes}
    (hfresh : ∀ y, paths.place file = some y → fs y = none) (hfits : file.length < maxPathLen)
    (hlen : string.length + 1 < 2 ^ 63) :
    (openFile paths o false fs file = none ∧
      writeTo paths o false fs file target string = (fs, .error .couldntOpen)) ∨
    ((openFile paths o false fs file).isSome = true ∧ ∃ x, paths.place file = some x ∧ fs x = none ∧
      ((¬Written o string ∧ ∃ content, writeTo paths o false fs file target string =
          (Function.update fs x (some (.file content)), .error .write)) ∨
        (Written o string ∧ (
          (writeTo paths o false fs file target string = (fs, .error .rename) ∧
            ∀ y t, paths.place target = some y → fs y = some (.link t) → o.rename = true) ∨
          ∃ y n, o.rename = false ∧ paths.place target = some y ∧
            Function.update fs x (some (.file (string ++ [10]))) y ≠ some .dir ∧
            writeTo paths o false fs file target string =
              (Function.update fs y (some (.file (string ++ [10]))), .ok n))))) := by
  rw [writeTo, if_neg (by omega)]
  cases hopen : openFile paths o false fs file with
  | none => exact Or.inl ⟨rfl, rfl⟩
  | some opened =>
      obtain ⟨fs₁, x⟩ := opened
      obtain ⟨hplace, hnone, rfl⟩ := open_some hfresh hopen
      refine Or.inr ⟨rfl, x, hplace, hnone, ?_⟩
      obtain ⟨content, n, hwritev, hcount, hcontent⟩ :=
        writev_spec (o := o) (Function.update_self x (some (Node.file [])) fs) string hlen
      rw [Function.update_idem] at hwritev
      dsimp only
      rw [hwritev]
      dsimp only
      by_cases hwritten : Written o string
      · refine Or.inr ⟨hwritten, ?_⟩
        obtain rfl := hcontent hwritten
        rw [if_neg (not_not.mpr (hcount.mpr hwritten))]
        -- without the temporary file everything is as before
        have hback : Function.update fs x none = fs := by
          rw [← hnone]
          exact Function.update_eq_self x fs
        cases hrename : rename paths o (Function.update fs x (some (.file (string ++ [10])))) file
            target with
        | none =>
            refine Or.inl ⟨?_, fun y t hy hlink => ?_⟩
            · show (unlink paths _ file, _) = _
              rw [unlink, hplace]
              dsimp only
              rw [Function.update_idem, hback]
            · have hne : y ≠ x := by
                rintro rfl
                exact nomatch hnone.symm.trans hlink
              refine rename_none hplace (Function.update_self x _ fs) hy ?_ hrename
              rw [Function.update_of_ne hne, hlink]
              exact fun h => nomatch h
        | some fs' =>
            right
            obtain ⟨hok, y, hy, hdir, rfl⟩ :=
              rename_some hplace (Function.update_self x _ fs) hrename
            refine ⟨y, n, hok, hy, hdir, ?_⟩
            show (_, _) = _
            rw [Function.update_idem, hback]
      · refine Or.inl ⟨hwritten, content, ?_⟩
        rw [if_pos (fun h => hwritten (hcount.mp h))]

/-- For a symbolic link the target is what it stands for. -/
theorem target_of_link {fs : Fs} {path target t : Bytes}
    (hlstat : lstat paths o fs path = some (.link t))
    (h : targetFile paths o fs path = some (.ok target)) :
    ∃ y, denotes paths fs path = some y ∧ paths.place target = some y ∧
      ∀ t, fs y ≠ some (.link t) := by
  rw [targetFile, hlstat] at h
  dsimp only at h
  cases hreal : realpath paths o fs path with
  | none =>
      rw [hreal] at h
      exact nomatch h
  | some file =>
      rw [hreal] at h
      dsimp only at h
      split at h
      · exact nomatch h
      · obtain rfl := Except.ok.inj (Option.some.inj h)
        unfold realpath at hreal
        by_cases hfails : o.realpath = true
        · rw [if_pos hfails] at hreal
          exact nomatch hreal
        rw [if_neg hfails] at hreal
        cases hdenotes : denotes paths fs path with
        | none =>
            rw [hdenotes] at hreal
            exact nomatch hreal
        | some y =>
            rw [hdenotes] at hreal
            dsimp only at hreal
            split_ifs at hreal
            obtain rfl := Option.some.inj hreal
            obtain ⟨z, hz, hfollow⟩ := Option.bind_eq_some_iff.mp hdenotes
            obtain ⟨hlink, rfl | ⟨p, hp⟩⟩ := follow_spec hfollow
            · exact ⟨_, rfl, paths.place_path path _ hz, hlink⟩
            · exact ⟨_, rfl, paths.place_path p _ hp, hlink⟩

/-- Otherwise it is the path. -/
theorem target_of_not_link {fs : Fs} {path target : Bytes}
    (hlstat : ∀ t, lstat paths o fs path ≠ some (.link t))
    (h : targetFile paths o fs path = some (.ok target)) : target = path := by
  unfold targetFile at h
  split at h
  · next t hlink => exact absurd hlink (hlstat t)
  · split_ifs at h
    exact (Except.ok.inj (Option.some.inj h)).symm

/-- A place that the temporary file was renamed to has no link when the condition holds. -/
theorem target_spec {fs : Fs} {path target : Bytes} {y : Place}
    (htarget : targetFile paths o fs path = some (.ok target))
    (hlink : ∀ x t, paths.place path = some x → fs x = some (.link t) → o.lstat = true →
      o.rename = true) (hrename : o.rename = false) (hy : paths.place target = some y) :
    denotes paths fs path = some y ∧ ∀ t, fs y ≠ some (.link t) := by
  by_cases hlstat : ∃ t, lstat paths o fs path = some (.link t)
  · obtain ⟨t, hlstat⟩ := hlstat
    obtain ⟨z, hdenotes, hz, hno⟩ := target_of_link hlstat htarget
    obtain rfl := Option.some.inj (hz.symm.trans hy)
    exact ⟨hdenotes, hno⟩
  · obtain rfl := target_of_not_link (fun t h => hlstat ⟨t, h⟩) htarget
    have hno : ∀ t, fs y ≠ some (.link t) := by
      intro t ht
      by_cases hfails : o.lstat = true
      · exact Bool.false_ne_true (hrename.symm.trans (hlink y t hy ht hfails))
      · refine hlstat ⟨t, ?_⟩
        rw [lstat, if_neg hfails, hy, Option.bind_some, ht]
    exact ⟨denotes_of_not_link hy hno, hno⟩

/-- **The command does what is expected of it exactly if the names fit, a temporary file that is
opened is written completely, and `lstat` does not miss a symbolic link.** -/
theorem writeFileCmd_iff (paths : Paths) (o : Outcome) (fs : Fs) (path string uuid : Bytes)
    (hfresh : ∀ p y, paths.place (p ++ 46 :: uuid) = some y → fs y = none)
    (hlen : string.length + 1 < 2 ^ 63) :
    Right paths o fs path string uuid ↔ Holds paths o fs path string uuid := by
  constructor
  · rintro ⟨fs', r, hcmd, hr⟩
    unfold writeFileCmd at hcmd
    cases htarget : targetFile paths o fs path with
    | none =>
        rw [htarget] at hcmd
        exact nomatch hcmd
    | some result =>
        refine ⟨result, htarget, ?_⟩
        rintro target rfl
        rw [htarget] at hcmd
        dsimp only at hcmd
        rw [if_neg Bool.false_ne_true] at hcmd
        by_cases hfits : target.length + 1 + uuid.length < maxPathLen
        · rw [if_pos hfits] at hcmd
          refine ⟨hfits, fun hopen => ?_⟩
          have hlength : (target ++ 46 :: uuid).length < maxPathLen := by
            rw [List.length_append, List.length_cons]
            omega
          rcases writeTo_spec o target (hfresh target) hlength hlen with
            ⟨hnone, -⟩ | ⟨-, x, -, hx, ⟨-, content, heq⟩ | ⟨hwritten, heq⟩⟩
          · rw [hnone] at hopen
            exact absurd hopen (by simp)
          · -- the temporary file is left
            obtain ⟨rfl, rfl⟩ := Prod.mk.inj (Option.some.inj (hcmd.symm.trans (congrArg some heq)))
            have hleft := congrFun hr x
            rw [Function.update_self, hx] at hleft
            exact nomatch hleft
          · refine ⟨hwritten, fun z t hz hlink hlstat => ?_⟩
            have hpath : target = path := by
              refine target_of_not_link (fun t' h => ?_) htarget
              rw [lstat, if_pos hlstat] at h
              exact nomatch h
            rcases heq with ⟨-, hrename⟩ | ⟨y, n, -, hy, -, heq⟩
            · exact hrename z t (hpath ▸ hz) hlink
            · -- the link is replaced
              obtain ⟨rfl, rfl⟩ :=
                Prod.mk.inj (Option.some.inj (hcmd.symm.trans (congrArg some heq)))
              rw [hpath, hz] at hy
              obtain rfl := Option.some.inj hy
              have hkept := hr.2.1 z t hz hlink
              rw [Function.update_self] at hkept
              exact nomatch hkept
        · rw [if_neg hfits] at hcmd
          exact nomatch hcmd
  · rintro ⟨result, htarget, hholds⟩
    unfold Right writeFileCmd
    rw [htarget]
    cases result with
    | error e => exact ⟨fs, .error e, rfl, rfl⟩
    | ok target =>
        obtain ⟨hfits, hopened⟩ := hholds target rfl
        have hlength : (target ++ 46 :: uuid).length < maxPathLen := by
          rw [List.length_append, List.length_cons]
          omega
        dsimp only
        rw [if_neg Bool.false_ne_true, if_pos hfits]
        rcases writeTo_spec o target (hfresh target) hlength hlen with
          ⟨-, heq⟩ | ⟨hopen, x, hplace, hx, hrest⟩
        · exact ⟨fs, _, congrArg some heq, rfl⟩
        · obtain ⟨hwritten, hlink⟩ := hopened hopen
          rcases hrest with ⟨hno, -⟩ | ⟨-, ⟨heq, -⟩ | ⟨y, n, hrename, hy, -, heq⟩⟩
          · exact absurd hwritten hno
          · exact ⟨fs, _, congrArg some heq, rfl⟩
          · obtain ⟨hdenotes, hno⟩ := target_spec htarget hlink hrename hy
            have hdenotes' : denotes paths (Function.update fs y (some (.file (string ++ [10]))))
                path = some y := by
              rw [denotes_update hno (fun t => by simp), hdenotes]
            refine ⟨_, _, congrArg some heq, ⟨y, hdenotes', Function.update_self _ _ _,
              fun z hz => Function.update_of_ne hz _ _⟩, fun z t _ hz => ?_, ?_⟩
            · have hne : z ≠ y := by
                rintro rfl
                exact hno t hz
              rw [Function.update_of_ne hne, hz]
            · rw [readFileCmd, hdenotes', Option.bind_some, Function.update_self]
              dsimp only
              rw [List.getLast?_concat, if_pos rfl, List.dropLast_concat]

/-- One directory, where every path is a name. -/
def flat : Paths where
  place p := some (0, p)
  target _ t := t
  path x := x.2
  links := 8
  place_path := by
    rintro p x hx
    obtain rfl := Option.some.inj hx
    rfl

/-- A file `f`, and a link `l` to it. -/
def fileAndLink : Fs := fun x =>
  if x.2 = [102] then some (.file [111]) else if x.2 = [108] then some (.link [102]) else none

theorem fileAndLink_fresh (p : Bytes) (y : Place) (h : flat.place (p ++ 46 :: [117]) = some y) :
    fileAndLink y = none := by
  obtain rfl := Option.some.inj h
  have hne : ∀ c : UInt8, p ++ [46, 117] ≠ [c] := by
    intro c heq
    have hlen := congrArg List.length heq
    rw [List.length_append, List.length_singleton] at hlen
    simp only [List.length_cons] at hlen
    omega
  rw [fileAndLink, if_neg (hne 102), if_neg (hne 108)]

/-- Through the link the file is written. -/
theorem writeFileCmd_link : Right flat ⟨false, false, false, false, some 4, false⟩ fileAndLink [108]
    (ascii "new") [117] := by
  refine (writeFileCmd_iff flat _ fileAndLink [108] (ascii "new") [117] fileAndLink_fresh
    (by decide)).mpr ⟨.ok [102], rfl, ?_⟩
  rintro target htarget
  obtain rfl := Except.ok.inj htarget
  have hthree : (ascii "new").length = 3 := rfl
  have hint : (ascii "new").length + 1 < 2 ^ 31 := by omega
  refine ⟨by decide, fun _ => ⟨⟨⟨4, rfl, le_refl 4⟩, hint⟩, fun _ _ _ _ hlstat => ?_⟩⟩
  exact Bool.noConfusion hlstat

/-- **When only two bytes are written the temporary file is left.** -/
theorem writeFileCmd_short :
    (writeFileCmd flat ⟨false, false, false, false, some 2, false⟩ false fileAndLink [102]
        (ascii "new") [117]).map (fun result => (result.1 (0, [102, 46, 117]), result.2)) =
      some (some (.file (ascii "ne")), .error .write) ∧
    fileAndLink (0, [102, 46, 117]) = none ∧
    ¬Right flat ⟨false, false, false, false, some 2, false⟩ fileAndLink [102] (ascii "new")
      [117] := by
  have hleft : (writeFileCmd flat ⟨false, false, false, false, some 2, false⟩ false fileAndLink
      [102] (ascii "new") [117]).map (fun result => (result.1 (0, [102, 46, 117]), result.2)) =
      some (some (.file (ascii "ne")), .error .write) := rfl
  refine ⟨hleft, rfl, ?_⟩
  rintro ⟨fs', r, heq, hr⟩
  rw [heq] at hleft
  obtain ⟨hfile, rfl⟩ := Prod.mk.inj (Option.some.inj hleft)
  rw [show fs' = fileAndLink from hr] at hfile
  exact nomatch hfile

end Nsdci.Unix.WriteFile
