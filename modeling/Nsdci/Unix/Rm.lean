import Nsdci.Lib.FileTree
import Mathlib.Data.List.DropRight
import Mathlib.Data.List.Perm.Subperm

/-!
# Removing files (`unix.c`)

`Rm` removes a file, or a directory with what is in it, and `RmCmd` calls it for a pathname without
the slashes at its end. Any system call may fail.

A pathname that ends in `/.` or `/..` is refused. The test looks behind the last slash, so `.` and
`..` alone get through, and what is in the directory is removed.
-/

namespace Nsdci.Unix

open Lib

/-- What the operating system decides: how many links it follows, which system calls fail for
reasons of their own, and in which order `readdir` gives the entries (not all, when it fails). -/
structure Os where
  links : Nat
  fails : Nat → Bool
  readdir : Nat → List Bytes → List Bytes
  readdir_subperm : ∀ call names, (readdir call names).Subperm names

/-- The files, and the number of system calls so far. -/
structure State where
  tree : FileTree
  calls : Nat

/-- A system call that finds something out, unless it fails. -/
def State.query {α : Type} (s : State) (os : Os) (result : Except Errno α) :
    State × Except Errno α :=
  (⟨s.tree, s.calls + 1⟩, if os.fails s.calls then .error .other else result)

/-- A system call that changes the files, unless it fails. -/
def State.change (s : State) (os : Os) (result : Except Errno FileTree) :
    State × Except Errno Unit :=
  if os.fails s.calls then (⟨s.tree, s.calls + 1⟩, .error .other)
  else match result with
    | .error e => (⟨s.tree, s.calls + 1⟩, .error e)
    | .ok tree => (⟨tree, s.calls + 1⟩, .ok ())

def lstat (os : Os) (cwd : Loc) (s : State) (path : Bytes) : State × Except Errno Kind :=
  s.query os <|
    match s.tree.resolve os.links cwd false path with
    | .error e => .error e
    | .ok loc => (s.tree.kind loc).elim (.error .enoent) .ok

def opendir (os : Os) (cwd : Loc) (s : State) (path : Bytes) : State × Except Errno (List Bytes) :=
  s.query os ((s.tree.list os.links cwd path).map (os.readdir s.calls))

def unlink (os : Os) (cwd : Loc) (s : State) (path : Bytes) : State × Except Errno Unit :=
  s.change os (s.tree.unlink os.links cwd path)

def rmdir (os : Os) (cwd : Loc) (s : State) (path : Bytes) : State × Except Errno Unit :=
  s.change os (s.tree.rmdir os.links cwd path)

/-- `DOTDIR`. -/
def dotDir (d : Bytes) : Bool := d = [46] || d = [46, 46]

/-- The messages of the command. -/
inductive Error where
  | wrongArgs
  | unknownFlag (flag : Bytes)
  | invalidPathname (path : Bytes)
  | lstat (path : Bytes) (e : Errno)
  | opendir (path : Bytes) (e : Errno)
  | unlink (path : Bytes) (e : Errno)
  | rmdir (path : Bytes) (e : Errno)

/-- The flags of an `RmCtx`. -/
structure RmCtx where
  nocomplain : Bool
  recursive : Bool

/-- The result of a command, if it has ended. -/
abbrev Result := Option (State × Except Error Unit)

/-- The loop of `Rm` over the entries of a directory. The buffer has the directory's path again
after each. -/
def rmEntries (rm : State → Bytes → Result) (path : Bytes) : State → List Bytes → Result
  | s, [] => some (s, .ok ())
  | s, d_name :: ents =>
      if dotDir d_name then rmEntries rm path s ents
      else match rm s (path ++ 47 :: d_name) with
        | some (s', .ok ()) => rmEntries rm path s' ents
        | other => other

/-- The end of `Rm` for a directory. -/
def removeDir (os : Os) (cwd : Loc) (path : Bytes) (s : State) : Result :=
  match rmdir os cwd s path with
  | (s, .error e) => some (s, .error (.rmdir path e))
  | (s, .ok ()) => some (s, .ok ())

/-- The end of `Rm` for anything else. -/
def removeFile (os : Os) (cwd : Loc) (ctx : RmCtx) (path : Bytes) (s : State) : Result :=
  match unlink os cwd s path with
  | (s, .error e) =>
      if !ctx.nocomplain || e ≠ .enoent then some (s, .error (.unlink path e)) else some (s, .ok ())
  | (s, .ok ()) => some (s, .ok ())

/-- `Rm`, so many levels deep at most. -/
def rm (os : Os) (cwd : Loc) (ctx : RmCtx) : Nat → State → Bytes → Result
  | 0, _, _ => none
  | levels + 1, s, path =>
      match lstat os cwd s path with
      | (s, .error e) => some (s, .error (.lstat path e))
      | (s, .ok .dir) =>
          if ctx.recursive then
            match opendir os cwd s path with
            | (s, .error e) => some (s, .error (.opendir path e))
            | (s, .ok ents) =>
                match rmEntries (rm os cwd ctx levels) path s ents with
                | some (s, .ok ()) => removeDir os cwd path s
                | other => other
          else removeDir os cwd path s
      | (s, .ok _) => removeFile os cwd ctx path s

/-- The flags of `RmCmd`. -/
def flags : List Bytes → RmCtx → Except Error RmCtx
  | [], ctx => .ok ctx
  | arg :: args, ctx =>
      if arg = ascii "-nocomplain" then flags args { ctx with nocomplain := true }
      else if arg = ascii "-recursive" then flags args { ctx with recursive := true }
      else .error (.unknownFlag arg)

/-- The pathname without the slashes at its end. -/
def stripped (pathname : Bytes) : Bytes := pathname.rdropWhile (· = 47)

/-- What `strrchr` finds a slash before. -/
def afterSlash (path : Bytes) : Option Bytes :=
  if (47 : UInt8) ∈ path then some (path.rtakeWhile (· ≠ 47)) else none

/-- `RmCmd`, with its arguments. -/
def rmCmd (os : Os) (cwd : Loc) (levels : Nat) (s : State) (args : List Bytes) : Result :=
  match args.getLast? with
  | none => some (s, .error .wrongArgs)
  | some pathname =>
      if 3 < args.length then some (s, .error .wrongArgs)
      else match flags args.dropLast ⟨false, false⟩ with
        | .error e => some (s, .error e)
        | .ok ctx =>
            let path := stripped pathname
            if (afterSlash path).any dotDir then some (s, .error (.invalidPathname path))
            else rm os cwd ctx levels s path

end Nsdci.Unix
