import Nsdci.Lib.Decimal
import Nsdci.Nv.InitMsg
import Nsdci.TclList

/-!
# The commands of `nv.c`

The Tcl commands on arrays, with their results. A command that changes an array holds the lock of
the array all the time: `SetVar` and `UnsetVar` make an update message of a single change
themselves, and `nv.flush` and `nv.load` make one message of all their changes.
-/

namespace Nsdci.Nv

open Lib

/-- What a command leaves in the interpreter: a text with `TCL_OK` or with `TCL_ERROR`. -/
abbrev Result := Except Bytes Bytes

/-- What the commands use of Tcl: its lists, with the text left for one that cannot be split,
`Tcl_AppendElement`, `Tcl_GetInt`, `Tcl_StringMatch` (text, pattern) and `Tcl_SetVar` (variable,
value). -/
structure Tcl where
  list : TclList
  splitError : Bytes → Bytes
  appendElement : Bytes → Bytes → Bytes
  getInt : Bytes → Except Bytes Int
  stringMatch : Bytes → Bytes → Bool
  setVar : Bytes → Bytes → Except Bytes Unit

/-- The text of a call with the wrong number of arguments. -/
def wrongArgs (argv : List Bytes) (usage : String) : Bytes :=
  ascii "wrong # args: should be: \"" ++ argv.headD [] ++ ascii usage ++ ascii "\""

/-- White space for `isspace`. -/
def isspace (c : UInt8) : Bool := isListSpace c

/-- `Ns_StrTrim`. -/
def strTrim (s : Bytes) : Bytes := ((s.dropWhile isspace).reverse.dropWhile isspace).reverse

/-- The keys and values of a list of key, value and so on. -/
def keyValues : List Bytes → List (Bytes × Bytes)
  | key :: value :: rest => (key, value) :: keyValues rest
  | _ => []

variable {α κ : Type} [DecidableEq α]

/-- Take the lock of an array, change the array, and give the lock back. -/
def World.locked (w : World α κ) (name : α) (f : Array κ → Array κ × List (κ × Bytes)) :
    World α κ := (w.change name f).unlock name

/-- The arrays of a process by their names. -/
abbrev Names (α : Type) := Bytes → Option α

/-- `GetArray`, and what a command does with the array. -/
def getArray (find : Names α) (array : Bytes) (w : World α κ)
    (cmd : α → World α κ × Result) : World α κ × Result :=
  match find array with
  | none => (w, .error (ascii "no such nv array: " ++ array))
  | some name => cmd name

/-- The commands `NvGetCmd` is registered for: `nv.get`, `nv.cget`, `nv.tget` and `nv.exists`. -/
inductive Get where
  | get
  | cget
  | tget
  | exists_
  deriving DecidableEq, Repr

/-- What `NvGetCmd` makes of what it found. -/
def getResult (tcl : Tcl) (cmd : Get) (key var : Bytes) : Option Bytes → Result
  | none =>
      match cmd with
      | .get => .error (ascii "no such key: " ++ key)
      | .tget => .ok []
      | .cget | .exists_ => .ok (ascii "0")
  | some value =>
      match cmd with
      | .get => .ok value
      | .tget => .ok (strTrim value)
      | .exists_ => .ok (ascii "1")
      | .cget => (tcl.setVar var value).map fun _ => ascii "1"

/-- `NvGetCmd`. -/
def nvGetCmd (tcl : Tcl) (find : Names α) (cmd : Get) (argv : List Bytes) (w : World α κ) :
    World α κ × Result :=
  let get (array key var : Bytes) := getArray find array w fun name =>
    (w.unlock name, getResult tcl cmd key var ((w.arrays name).vars.lookup key))
  match cmd, argv with
  | .cget, [_, array, key, var] => get array key var
  | .cget, argv => (w, .error (wrongArgs argv " array key varName"))
  | _, [_, array, key] => get array key []
  | _, argv => (w, .error (wrongArgs argv " array key"))

/-- `NvSetCmd`, for `nv.set` and `nv.cset`. -/
def nvSetCmd (find : Names α) (cset : Bool) (argv : List Bytes) (w : World α κ) :
    World α κ × Result :=
  match argv with
  | [_, array, key, value] => getArray find array w fun name =>
      let new := ((w.arrays name).vars.lookup key).isNone
      (w.locked name (setVar key value cset true),
        .ok (if cset then (if new then ascii "1" else ascii "0") else value))
  | argv => (w, .error (wrongArgs argv " array key value"))

/-- `NvAppendCmd`, for `nv.append` and `nv.lappend`. -/
def nvAppendCmd (tcl : Tcl) (find : Names α) (lappend : Bool) (argv : List Bytes)
    (w : World α κ) : World α κ × Result :=
  match argv with
  | _ :: array :: key :: string :: strings => getArray find array w fun name =>
      let result := (string :: strings).foldl
        (if lappend then tcl.appendElement else fun result s => result ++ s)
        (((w.arrays name).vars.lookup key).getD [])
      (w.locked name (setVar key (cstr result) false true), .ok result)
  | argv => (w, .error (wrongArgs argv " array key string ?string ...?"))

/-- `NvUnsetCmd`. -/
def nvUnsetCmd (find : Names α) (argv : List Bytes) (w : World α κ) : World α κ × Result :=
  match argv with
  | [_, array, key] => getArray find array w fun name =>
      (w.locked name (unsetVar key key true), .ok [])
  | argv => (w, .error (wrongArgs argv " array key"))

/-- `NvDumpCmd`, for `nv.names` and `nv.dump`. -/
def nvDumpCmd (tcl : Tcl) (order : HashOrder) (find : Names α) (dump : Bool) (argv : List Bytes)
    (w : World α κ) : World α κ × Result :=
  let list (array : Bytes) (pattern : Option Bytes) := getArray find array w fun name =>
    let found := (order.search (entries (w.arrays name).vars)).filter fun e =>
      pattern.all fun pattern => tcl.stringMatch e.1 pattern
    (w.unlock name,
      .ok ((found.flatMap fun e => if dump then [e.1, e.2] else [e.1]).foldl tcl.appendElement []))
  match argv with
  | [_, array] => list array none
  | [_, array, pattern] => list array (some pattern)
  | argv => (w, .error (wrongArgs argv " array ?pattern?"))

/-- Unset some keys of an array. `UnsetVar` gets the key that stands in the entry it frees, and
`freed` is what is found there after that. -/
def unsetKeys (freed : Bytes → Bytes) (name : α) (keys : List Bytes) (w : World α κ) : World α κ :=
  keys.foldl (fun w key => w.change name (unsetVar key (cstr (freed key)) false)) w

/-- `NvFlushCmd`. -/
def nvFlushCmd (tcl : Tcl) (order : HashOrder) (find : Names α) (freed : Bytes → Bytes)
    (argv : List Bytes) (w : World α κ) : World α κ × Result :=
  match argv with
  | [_, array] => getArray find array w fun name =>
      ((w.change name (flushArray false)).locked name broadcastUpdates, .ok [])
  | [_, array, pattern] => getArray find array w fun name =>
      let keys := ((order.search (entries (w.arrays name).vars)).map Prod.fst).filter fun key =>
        tcl.stringMatch key pattern
      ((unsetKeys freed name keys w).locked name broadcastUpdates, .ok [])
  | argv => (w, .error (wrongArgs argv " array ?pattern?"))

/-- Add to the value of a key. The sum is an `int`. -/
def incrKey (tcl : Tcl) (key : Bytes) (count : Int) (w : World α κ) (name : α) :
    World α κ × Result :=
  match (w.arrays name).vars.lookup key with
  | none => (w.unlock name, .error (ascii "no such key: " ++ key))
  | some value =>
      match tcl.getInt value with
      | .error text => (w.unlock name, .error text)
      | .ok current =>
          let buf := decimal (int32 (current + count))
          (w.locked name (setVar key buf false true), .ok buf)

/-- `NvIncrCmd`. -/
def nvIncrCmd (tcl : Tcl) (find : Names α) (argv : List Bytes) (w : World α κ) :
    World α κ × Result :=
  match argv with
  | [_, array, key] => getArray find array w (incrKey tcl key 1 w)
  | [_, array, key, count] =>
      match tcl.getInt count with
      | .error text => (w, .error text)
      | .ok count => getArray find array w (incrKey tcl key count w)
  | argv => (w, .error (wrongArgs argv " array key ?count?"))

/-- Set some keys of an array, without a message. -/
def setKeys (name : α) (pairs : List (Bytes × Bytes)) (w : World α κ) : World α κ :=
  pairs.foldl (fun w e => w.change name (setVar e.1 e.2 false false)) w

/-- Set the keys of a list, after a flush if `flush` is set. The elements are C strings. -/
def loadList (tcl : Tcl) (flush : Bool) (list : Bytes) (w : World α κ) (name : α) :
    World α κ × Result :=
  match tcl.list.splitList list with
  | none => (w, .error (tcl.splitError list))
  | some largv =>
      if largv.length % 2 = 1 then
        (w, .error (ascii "invalid nv list: odd # elements: " ++ list))
      else
        let w := if flush then w.change name (flushArray false) else w
        ((setKeys name (keyValues (largv.map cstr)) w).locked name broadcastUpdates, .ok [])

/-- `NvLoadCmd`. -/
def nvLoadCmd (tcl : Tcl) (find : Names α) (argv : List Bytes) (w : World α κ) :
    World α κ × Result :=
  match argv with
  | [_, array, list] => getArray find array w (loadList tcl true list w)
  | [_, flag, array, list] =>
      if flag = ascii "-noflush" then getArray find array w (loadList tcl false list w)
      else (w, .error (wrongArgs argv " ?-noflush? array list"))
  | argv => (w, .error (wrongArgs argv " ?-noflush? array list"))

/-- The commands `DciNvTclInit` registers that take the lock of an array, `nv.stats` apart. -/
inductive Command where
  | get (cmd : Get)
  | set (cset : Bool)
  | append (lappend : Bool)
  | unset
  | dump (values : Bool)
  | flush
  | incr
  | load
  deriving DecidableEq, Repr

/-- Call a command. -/
def Command.proc (tcl : Tcl) (order : HashOrder) (find : Names α) (freed : Bytes → Bytes) :
    Command → List Bytes → World α κ → World α κ × Result
  | .get cmd => nvGetCmd tcl find cmd
  | .set cset => nvSetCmd find cset
  | .append lappend => nvAppendCmd tcl find lappend
  | .unset => nvUnsetCmd find
  | .dump values => nvDumpCmd tcl order find values
  | .flush => nvFlushCmd tcl order find freed
  | .incr => nvIncrCmd tcl find
  | .load => nvLoadCmd tcl find

/-! ## Runs -/

/-- The array `CreateArray` makes, with what its file held, if any. -/
def createArray (pairs : List (Bytes × Bytes)) : Array κ :=
  { pairs.foldl (fun a e => (setVar e.1 e.2 false false a).1) {} with flush := false, init := true }

/-- What the configuration says of the arrays: what is in their files, and their servers and
network names. -/
structure Setup (α κ : Type) where
  pairs : α → List (CStr × CStr)
  server : α → Option (κ × CStr)

/-- Give an array the server and the network name the configuration has for it. -/
def serve (server : Option (κ × CStr)) (a : Array κ) : Array κ :=
  match server with
  | none => a
  | some (servPtr, netname) => { a with servPtr := some servPtr, netname := netname.1 }

/-- The arrays after `DciNvModInit`. -/
def Setup.world (setup : Setup α κ) : World α κ where
  arrays name := serve (setup.server name)
    (createArray ((setup.pairs name).map fun e => (e.1.1, e.2.1)))

/-- What a process has for its commands and its servers: Tcl, the order of its hash tables, the
names of its arrays and the arrays of each server. -/
structure Env (α κ : Type) where
  tcl : Tcl
  order : HashOrder
  find : Names α
  served : κ → List α

/-- What can happen to arrays: a command, a message for a client with its map from network names,
`nv.stats`, a client that has logged in to a server, and the flusher at an array. -/
inductive Event (α κ : Type) where
  | command (cmd : Command) (argv : List CStr) (freed : Bytes → Bytes)
  | recv (mapping : Bytes → Option α) (ds : Bytes)
  | stats (name : α)
  | clientInit (servPtr : κ)
  | flusher (name : α)

/-- What `ClientInitMsg` does to the arrays of a server. All of them are locked until the end. -/
def World.clientInit (w : World α κ) (served : List α) : World α κ :=
  served.foldl World.unlock { w with arrays := clearInit w.arrays served }

/-- What `FlusherThread` does to an array while it holds its lock. -/
def takeFlush (a : Array κ) : Array κ × List (κ × Bytes) := ({ a with flush := false }, [])

/-- One event. A message that is read past its end has no next state. -/
def step (env : Env α κ) (w : World α κ) : Event α κ → Option (World α κ)
  | .command cmd argv freed =>
      some (cmd.proc env.tcl env.order env.find freed (argv.map Subtype.val) w).1
  | .recv mapping ds => (recvUpdate mapping ds w).map Prod.fst
  | .stats name => some (w.unlock name)
  | .clientInit servPtr => some (w.clientInit (env.served servPtr))
  | .flusher name => some (w.locked name takeFlush)

theorem perm_id (es : List (Bytes × Bytes)) : (id es).Perm es := List.Perm.refl es

/-- The order of the list of entries. -/
def listOrder : HashOrder := ⟨id, perm_id⟩

/-- A process with one array, with Tcl reduced to what plain arguments need. -/
def plainEnv : Env Unit Unit where
  tcl :=
    { list := TclList.simple
      splitError := fun _ => ascii "unmatched open brace in list"
      appendElement := TclList.simple.appendElement
      getInt := fun s =>
        match parseDecimal s with
        | some x => .ok x
        | none => .error (ascii "expected integer but got \"" ++ s ++ ascii "\"")
      stringMatch := fun s pattern => s = pattern
      setVar := fun _ _ => .ok () }
  order := listOrder
  find := fun _ => some ()
  served := fun _ => [()]

end Nsdci.Nv
