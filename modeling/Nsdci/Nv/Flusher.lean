import Nsdci.Lib.Transition
import Nsdci.Nv.InitSize

/-!
# Persistent arrays (`FlusherThread`)

The flusher writes every persistent array that is marked `NV_FLUSH` to a file, from which
`CreateArray` makes the array again. It marks the array clean while it takes the contents, and
writes them when the lock is free again, so that the array may change meanwhile; the mark then
says that it has to come back. A write that fails leaves the mark as it is, and a stop during a
pass ends the thread behind that pass.

A `State` is the arrays with their files and the place where the thread is. Lock sections of the
commands and of `RecvUpdate` are lists of changes of one array.
-/

namespace Nsdci.Nv.Flusher

open Lib

/-! ## Files -/

/-- The contents `FlusherThread` writes: a list of keys and values, and a newline. -/
def fileText (tcl : TclList) (order : HashOrder) (t : Table) : Bytes :=
  ((order.search (entries t)).flatMap fun e => [e.1, e.2]).foldl tcl.appendElement [] ++ [10]

/-- What `CreateArray` reads from a file. `none` when the contents are no list of pairs. -/
def fileList (tcl : TclList) (file : Bytes) : Option (List (Bytes × Bytes)) :=
  if file = [] then some []
  else
    let text := if file.getLast? = some 10 then file.dropLast else file
    match tcl.splitList (cstr text) with
    | none => none
    | some largv =>
        if largv.length % 2 = 1 then none else some (keyValues (largv.map cstr))

/-- The results of `open`, `fstat` and `read` in `CreateArray`. -/
inductive LoadIo where
  | ok
  | openFailed
  | statFailed
  | notRegular
  | readFailed
  deriving DecidableEq, Repr

/-- `CreateArray` for a persistent array. A file that does not exist is made, and an empty one is
not read. -/
def loadArray {κ : Type} (tcl : TclList) (io : LoadIo) (file : Option Bytes) : Option (Array κ) :=
  match io with
  | .ok => (fileList tcl (file.getD [])).map createArray
  | .readFailed => if file.getD [] = [] then some (createArray []) else none
  | _ => none

/-- The flags of `open` and of arrays. -/
def oWronly : Nat := 1
def oCreat : Nat := 64
def oExcl : Nat := 128
def nvFsync : Nat := 2

/-- The results of the system calls of a flush. -/
structure FlushIo where
  mktemp : Bool
  opened : Bool
  written : Nat
  fsync : Bool
  renamed : Bool

/-- A flush gets as far as the new file. The variable `flags` holds the flags for `open` when it
is asked for `NV_FSYNC`. -/
def flushDone (io : FlushIo) (ds : Bytes) : Bool :=
  let flags := oCreat ||| oWronly ||| oExcl
  if !io.mktemp then false
  else if !io.opened then false
  else if io.written ≠ ds.length then false
  else if flags &&& nvFsync ≠ 0 && !io.fsync then false
  else io.renamed

/-! ## The thread -/

variable {α κ : Type}

/-- A call of one of the functions that change an array. -/
inductive Change where
  | set (key value : CStr) (cset bcast : Bool)
  | unset (key : Bytes) (logged : CStr) (bcast : Bool)
  | flush (bcast : Bool)
  | broadcast

/-- Make the call. -/
def Change.run (a : Array κ) : Change → Array κ
  | .set key value cset bcast => (setVar key.1 value.1 cset bcast a).1
  | .unset key logged bcast => (unsetVar key logged.1 bcast a).1
  | .flush bcast => (flushArray bcast a).1
  | .broadcast => (broadcastUpdates a).1

/-- The persistent arrays in the order of the flusher, and their files. -/
structure Config (α : Type) where
  tcl : TclList
  order : HashOrder
  firstPtr : List α
  getFile : α → Bytes

/-- Where the thread is: before it starts, at the wait, on a pass, with contents to write, or at
its end. -/
inductive Pc (α : Type) where
  | startup
  | wait
  | pass (todo : List α)
  | write (name : α) (ds : Bytes) (todo : List α)
  | ended
  deriving DecidableEq

/-- The arrays, the files and the thread. `failed` says of which arrays the last flush failed. -/
structure State (α κ : Type) where
  arrays : α → Array κ
  disk : Bytes → Option Bytes
  stop : Bool := false
  pc : Pc α := .startup
  failed : α → Bool := fun _ => false

/-- What can happen: a lock section that changes an array, and the steps of the thread and of
`StopFlusher`. -/
inductive Event (α : Type) where
  | update (name : α) (changes : List Change)
  | startup (ok : Bool)
  | wake
  | visit
  | write (io : FlushIo)
  | endPass
  | stop

variable [DecidableEq α]

/-- Take the contents of an array that is marked, and mark it clean. -/
def visit (cfg : Config α) (s : State α κ) (name : α) (todo : List α) : State α κ :=
  let a := s.arrays name
  if a.flush then
    { s with
      arrays := Function.update s.arrays name { a with flush := false }
      pc := .write name (fileText cfg.tcl cfg.order a.vars) todo }
  else { s with pc := .pass todo }

/-- Write the contents taken from an array. Only a finished file gets the name. -/
def write (cfg : Config α) (s : State α κ) (name : α) (ds : Bytes) (todo : List α)
    (io : FlushIo) : State α κ :=
  if flushDone io ds then
    { s with
      disk := Function.update s.disk (cfg.getFile name) (some ds)
      failed := Function.update s.failed name false
      pc := .pass todo }
  else { s with failed := Function.update s.failed name true, pc := .pass todo }

/-- One step. -/
def step (cfg : Config α) (s : State α κ) : Event α → Option (State α κ)
  | .update name changes =>
      let a := changes.foldl Change.run (s.arrays name)
      some { s with arrays := Function.update s.arrays name a }
  | .startup ok =>
      match s.pc with
      | .startup => some { s with pc := if ok then .wait else .ended }
      | _ => none
  | .wake =>
      match s.pc with
      | .wait => some { s with pc := .pass cfg.firstPtr }
      | _ => none
  | .visit =>
      match s.pc with
      | .pass (name :: todo) => some (visit cfg s name todo)
      | _ => none
  | .write io =>
      match s.pc with
      | .write name ds todo => some (write cfg s name ds todo io)
      | _ => none
  | .endPass =>
      match s.pc with
      | .pass [] => some { s with pc := if s.stop then .ended else .wait }
      | _ => none
  | .stop => some { s with stop := true }

/-- The arrays as `CreateArray` has made them, those in `firstPtr` from their files. -/
structure Start (cfg : Config α) (s : State α κ) : Prop where
  loaded : ∀ name ∈ cfg.firstPtr, ∃ server a,
    loadArray cfg.tcl .ok (s.disk (cfg.getFile name)) = some a ∧ s.arrays name = serve server a
  fresh : ∀ name, name ∉ cfg.firstPtr → ∃ server, s.arrays name = serve server (createArray [])
  stop : s.stop = false
  pc : s.pc = .startup
  failed : s.failed = fun _ => false

/-! ## What is wanted -/

/-- The array made from a file has the entries of the array. -/
def Holds (tcl : TclList) (file : Option Bytes) (a : Array κ) : Prop :=
  ∃ b : Array κ, loadArray tcl .ok file = some b ∧
    ∀ key, b.vars.lookup key = a.vars.lookup key

/-- The flusher is between passes. -/
def Pc.Between : Pc α → Prop
  | .startup => True
  | .wait => True
  | _ => False

/-- Between passes the file of an array that is not marked holds its contents, and an array whose
last flush failed is marked for the next pass; and at the end the files of all arrays whose last
flush did not fail hold their contents. -/
structure Persisted (cfg : Config α) (s : State α κ) : Prop where
  clean : s.pc.Between → ∀ name ∈ cfg.firstPtr, (s.arrays name).flush = false →
    Holds cfg.tcl (s.disk (cfg.getFile name)) (s.arrays name)
  retried : s.pc.Between → ∀ name ∈ cfg.firstPtr, s.failed name = true →
    (s.arrays name).flush = true
  ended : s.pc = .ended → ∀ name ∈ cfg.firstPtr, s.failed name = false →
    Holds cfg.tcl (s.disk (cfg.getFile name)) (s.arrays name)

/-- Every array marked for a flush is one whose last flush failed. -/
def AllFlushed (cfg : Config α) (s : State α κ) : Prop :=
  ∀ name ∈ cfg.firstPtr, (s.arrays name).flush = true → s.failed name = true

/-- The condition on a step: a flush fails only when its array has changed again since its
contents were taken, and succeeds only on a file of its own; the thread ends only when there is
nothing left to flush; and no persistent array changes after that. -/
def Safe (cfg : Config α) (s : State α κ) : Event α → Prop
  | .update name _ => s.pc = .ended → name ∉ cfg.firstPtr
  | .startup ok => ok = false → AllFlushed cfg s
  | .write io =>
      match s.pc with
      | .write name ds _ =>
          if flushDone io ds then
            ∀ n ∈ cfg.firstPtr, cfg.getFile n = cfg.getFile name → n = name
          else (s.arrays name).flush = true
      | _ => True
  | .endPass => s.stop = true → AllFlushed cfg s
  | _ => True

/-! ## Files are read back -/

theorem keyValues_flatMap (es : List (Bytes × Bytes)) :
    keyValues (es.flatMap fun e => [e.1, e.2]) = es := by
  induction es with
  | nil => rfl
  | cons e es ih => simp [keyValues, ih]

theorem length_flatMap_pairs (es : List (Bytes × Bytes)) :
    (es.flatMap fun e => [e.1, e.2]).length % 2 = 0 := by
  induction es with
  | nil => rfl
  | cons e es ih =>
      simp only [List.flatMap_cons, List.length_append, List.length_cons, List.length_nil]
      omega

/-- **The list in a file is read back**, for strings without NUL. -/
theorem fileList_fileText (tcl : TclList) (order : HashOrder) {t : Table}
    (ht : ∀ e ∈ pairs t, NulFree e.1 ∧ NulFree e.2) :
    fileList tcl (fileText tcl order t) = some (order.search (entries t)) := by
  have hes : ∀ s ∈ (order.search (entries t)).flatMap fun e => [e.1, e.2], NulFree s := by
    intro s hs
    obtain ⟨e, he, hs⟩ := List.mem_flatMap.mp hs
    obtain ⟨hkey, hvalue⟩ := ht e ((order.perm _).mem_iff.mp he)
    rcases List.mem_pair.mp hs with rfl | rfl
    · exact hkey
    · exact hvalue
  have hsplit := tcl.splitList_foldl hes TclList.white_nil
  rw [List.append_nil] at hsplit
  have hmap : ((order.search (entries t)).flatMap fun e => [e.1, e.2]).map cstr =
      (order.search (entries t)).flatMap fun e => [e.1, e.2] := by
    conv_rhs => rw [← List.map_id ((order.search (entries t)).flatMap fun e => [e.1, e.2])]
    exact List.map_congr_left fun s hs => cstr_eq_self (hes s hs)
  have heven := length_flatMap_pairs (order.search (entries t))
  simp only [fileList, fileText, List.append_eq_nil_iff, List.cons_ne_nil, and_false, if_false,
    List.getLast?_append, List.getLast?_singleton, Option.some_or, if_true, List.dropLast_concat,
    cstr_eq_self (tcl.foldl_free hes), hsplit, heven, Nat.zero_ne_one, hmap, keyValues_flatMap]

/-- A freshly made array has the entries it was made of. -/
theorem createArray_vars (es : List (Bytes × Bytes)) :
    (createArray es : Array κ).vars = load es ∅ := by
  have hsets : ∀ (es : List (Bytes × Bytes)) (a : Array κ),
      (es.foldl (fun a e => (setVar e.1 e.2 false false a).1) a).vars = load es a.vars := by
    intro es
    induction es with
    | nil => exact fun _ => rfl
    | cons e es ih =>
        intro a
        rw [List.foldl_cons, ih, setVar_vars]
        rfl
  exact hsets es {}

@[simp] theorem serve_vars (server : Option (κ × CStr)) (a : Array κ) :
    (serve server a).vars = a.vars := by
  unfold serve
  split <;> rfl

/-- **The array made from its file has the entries it had when the contents were taken.** -/
theorem holds_fileText (tcl : TclList) (order : HashOrder) {t : Table} {a : Array κ}
    (ht : ∀ e ∈ pairs t, NulFree e.1 ∧ NulFree e.2)
    (hsame : ∀ key, t.lookup key = a.vars.lookup key) :
    Holds tcl (some (fileText tcl order t)) a := by
  refine ⟨createArray (order.search (entries t)), ?_, fun key => ?_⟩
  · rw [loadArray, Option.getD_some, fileList_fileText tcl order ht]
    rfl
  · rw [createArray_vars, lookup_load_pairs (order.perm (entries t)), hsame]

/-! ## Changes mark the array -/

@[simp] theorem broadcastUpdates_flush (a : Array κ) :
    (broadcastUpdates a).1.flush = a.flush := by
  unfold broadcastUpdates
  split <;> rfl

@[simp] theorem logUpdate_flush (cmd : Cmd) (bcast : Bool) (a : Array κ) :
    (logUpdate cmd bcast a).1.flush = a.flush := by
  simp only [logUpdate]
  split_ifs <;> simp

/-- What changes have done to an array: it is marked, or it is as it was. -/
def Marked (a a' : Array κ) : Prop :=
  a'.flush = true ∨ (a'.vars = a.vars ∧ a'.flush = a.flush)

/-- A single call marks the array or leaves it. -/
theorem marked_run (a : Array κ) (c : Change) : Marked a (c.run a) := by
  cases c with
  | set key value cset bcast =>
      simp only [Change.run, setVar]
      split
      · exact Or.inl (by simp)
      · split_ifs
        · exact Or.inr ⟨rfl, rfl⟩
        · exact Or.inl (by simp)
  | unset key logged bcast =>
      simp only [Change.run, unsetVar]
      split
      · exact Or.inr ⟨rfl, rfl⟩
      · exact Or.inl (by simp)
  | flush bcast => exact Or.inl (by simp [Change.run, flushArray])
  | broadcast => exact Or.inr ⟨broadcastUpdates_vars a, broadcastUpdates_flush a⟩

theorem Marked.trans {a b c : Array κ} (h : Marked a b) (h' : Marked b c) : Marked a c := by
  rcases h' with hflush | ⟨hvars, hflush⟩
  · exact Or.inl hflush
  · rcases h with hmarked | ⟨hvars', hflush'⟩
    · exact Or.inl (hflush.trans hmarked)
    · exact Or.inr ⟨hvars.trans hvars', hflush.trans hflush'⟩

/-- **A lock section marks the array or leaves it as it was.** -/
theorem marked_changes (a : Array κ) (changes : List Change) :
    Marked a (changes.foldl Change.run a) := by
  induction changes generalizing a with
  | nil => exact Or.inr ⟨rfl, rfl⟩
  | cons c changes ih => exact (marked_run a c).trans (ih (c.run a))

/-- A lock section keeps the counters and the strings of an array. -/
theorem sized_changes {a : Array κ} (h : Sized a) (changes : List Change) :
    Sized (changes.foldl Change.run a) := by
  induction changes generalizing a with
  | nil => exact h
  | cons c changes ih =>
      refine ih ?_
      cases c with
      | set key value cset bcast => exact sized_set key.1 value.1 cset bcast h key.2 value.2
      | unset key logged bcast => exact sized_unset key logged.1 bcast h
      | flush bcast => exact sized_kept.flush a bcast h
      | broadcast => exact sized_broadcast h

/-! ## The invariant -/

/-- The array whose contents are about to be written. -/
def Pc.writing : Pc α → Option α
  | .write name _ _ => some name
  | _ => none

/-- An array is marked or its file holds its contents, and it is marked if its last flush failed. -/
structure Settled (cfg : Config α) (s : State α κ) (name : α) : Prop where
  holds : (s.arrays name).flush = true ∨
    Holds cfg.tcl (s.disk (cfg.getFile name)) (s.arrays name)
  failed : s.failed name = true → (s.arrays name).flush = true

/-- The contents taken from an array are those of a table of C strings, and the array is marked or
still has them. -/
def Taken (cfg : Config α) (s : State α κ) (name : α) (ds : Bytes) : Prop :=
  ∃ t : Table, ds = fileText cfg.tcl cfg.order t ∧
    (∀ e ∈ pairs t, NulFree e.1 ∧ NulFree e.2) ∧
    ((s.arrays name).flush = true ∨ ∀ key, t.lookup key = (s.arrays name).vars.lookup key)

/-- What holds of arrays, files and thread after every step. -/
structure Inv (cfg : Config α) (s : State α κ) : Prop where
  sized : ∀ n, Sized (s.arrays n)
  settled : ∀ name ∈ cfg.firstPtr, s.pc.writing ≠ some name → Settled cfg s name
  taken : ∀ name ds todo, s.pc = .write name ds todo → Taken cfg s name ds
  ended : s.pc = .ended → AllFlushed cfg s

variable {cfg : Config α} {s s' : State α κ}

/-- A file holds an array as long as the entries stay. -/
theorem Holds.congr {tcl : TclList} {file : Option Bytes} {a a' : Array κ} (h : Holds tcl file a)
    (hvars : a'.vars = a.vars) : Holds tcl file a' := by
  obtain ⟨b, hload, hsame⟩ := h
  exact ⟨b, hload, fun key => by rw [hsame, hvars]⟩

/-- A lock section of an array. -/
theorem Inv.update (h : Inv cfg s) (name : α) (changes : List Change)
    (hsafe : s.pc = .ended → name ∉ cfg.firstPtr) :
    Inv cfg { s with
      arrays := Function.update s.arrays name (changes.foldl Change.run (s.arrays name)) } := by
  have hmarked := marked_changes (s.arrays name) changes
  refine ⟨fun n => ?_, fun n hn hw => ?_, fun n ds todo hpc => ?_, fun hpc n hn hflush => ?_⟩
  · by_cases hname : n = name
    · subst hname
      simp only [Function.update_self]
      exact sized_changes (h.sized n) changes
    · simp only [Function.update_of_ne hname]
      exact h.sized n
  · obtain ⟨hholds, hfailed⟩ := h.settled n hn hw
    by_cases hname : n = name
    · subst hname
      refine ⟨?_, fun hf => ?_⟩
      · simp only [Function.update_self]
        rcases hmarked with hflush | ⟨hvars, hflush⟩
        · exact Or.inl hflush
        · rw [hflush]
          exact hholds.imp_right fun hh => hh.congr hvars
      · simp only [Function.update_self]
        rcases hmarked with hflush | ⟨-, hflush⟩
        · exact hflush
        · exact hflush.trans (hfailed hf)
    · refine ⟨?_, ?_⟩
      · simp only [Function.update_of_ne hname]
        exact hholds
      · simp only [Function.update_of_ne hname]
        exact hfailed
  · obtain ⟨t, hds, hfree, hsame⟩ := h.taken n ds todo hpc
    refine ⟨t, hds, hfree, ?_⟩
    by_cases hname : n = name
    · subst hname
      simp only [Function.update_self]
      rcases hmarked with hflush | ⟨hvars, hflush⟩
      · exact Or.inl hflush
      · rw [hflush, hvars]
        exact hsame
    · simp only [Function.update_of_ne hname]
      exact hsame
  · have hname : n ≠ name := fun heq => hsafe hpc (heq ▸ hn)
    simp only [Function.update_of_ne hname] at hflush
    exact h.ended hpc n hn hflush

omit [DecidableEq α] in
/-- The thread moves on without arrays or files. -/
theorem Inv.move (h : Inv cfg s) {pc : Pc α} (hnow : s.pc.writing = none)
    (hthen : pc.writing = none) (hended : pc = .ended → AllFlushed cfg s) :
    Inv cfg { s with pc := pc } := by
  refine ⟨h.sized, fun n hn _ => ?_, fun n ds todo hpc => ?_, hended⟩
  · obtain ⟨hholds, hfailed⟩ := h.settled n hn (by simp [hnow])
    exact ⟨hholds, hfailed⟩
  · obtain rfl : pc = .write n ds todo := hpc
    exact absurd hthen (by simp [Pc.writing])

/-- A visit takes the contents of a marked array. -/
theorem Inv.visit (h : Inv cfg s) {name : α} {todo : List α}
    (hpc : s.pc = .pass (name :: todo)) : Inv cfg (visit cfg s name todo) := by
  have hnow : s.pc.writing = none := by rw [hpc]; rfl
  simp only [Flusher.visit]
  split
  · refine ⟨fun n => ?_, fun n hn hw => ?_, fun n ds rest hwrite => ?_, fun hend => ?_⟩
    · by_cases hname : n = name
      · subst hname
        simp only [Function.update_self]
        have hsized := h.sized n
        exact ⟨hsized.keys, hsized.values, hsized.free, hsized.netname⟩
      · simp only [Function.update_of_ne hname]
        exact h.sized n
    · have hname : n ≠ name := fun heq => hw (by rw [heq]; rfl)
      obtain ⟨hholds, hfailed⟩ := h.settled n hn (by simp [hnow])
      refine ⟨?_, ?_⟩
      · simp only [Function.update_of_ne hname]
        exact hholds
      · simp only [Function.update_of_ne hname]
        exact hfailed
    · obtain ⟨rfl, rfl, -⟩ : name = n ∧ fileText cfg.tcl cfg.order (s.arrays name).vars = ds ∧
          todo = rest := by simpa using hwrite
      refine ⟨(s.arrays name).vars, rfl, (h.sized name).free, Or.inr fun key => ?_⟩
      simp only [Function.update_self]
    · exact absurd hend (by simp)
  · exact h.move hnow rfl fun hend => absurd hend (by simp)

/-- A write leaves its array settled: it failed on an array that has changed again, or it made the
file of the contents taken. -/
theorem Inv.write (h : Inv cfg s) {name : α} {ds : Bytes} {todo : List α} {io : FlushIo}
    (hpc : s.pc = .write name ds todo) (hsafe : Safe cfg s (.write io)) :
    Inv cfg (write cfg s name ds todo io) := by
  obtain ⟨t, hds, hfree, hsame⟩ := h.taken name ds todo hpc
  simp only [Safe, hpc] at hsafe
  have hother : ∀ n ∈ cfg.firstPtr, n ≠ name → Settled cfg s n := by
    intro n hn hname
    refine h.settled n hn fun hw => hname ?_
    rw [hpc] at hw
    exact (Option.some.inj hw).symm
  unfold Flusher.write
  split
  · rename_i hdone
    rw [if_pos hdone] at hsafe
    refine ⟨h.sized, fun n hn _ => ?_, fun n ds' rest hwrite => ?_, fun hend => ?_⟩
    · by_cases hname : n = name
      · subst hname
        refine ⟨?_, fun hf => ?_⟩
        · simp only [Function.update_self]
          exact hsame.imp_right fun hh => hds ▸ holds_fileText cfg.tcl cfg.order hfree hh
        · simp only [Function.update_self] at hf
          exact absurd hf (by simp)
      · obtain ⟨hholds, hfailed⟩ := hother n hn hname
        have hfile : cfg.getFile n ≠ cfg.getFile name := fun heq => hname (hsafe n hn heq)
        refine ⟨?_, ?_⟩
        · simp only [Function.update_of_ne hfile]
          exact hholds
        · simp only [Function.update_of_ne hname]
          exact hfailed
    · exact absurd hwrite (by simp)
    · exact absurd hend (by simp)
  · rename_i hdone
    rw [if_neg hdone] at hsafe
    refine ⟨h.sized, fun n hn _ => ?_, fun n ds' rest hwrite => ?_, fun hend => ?_⟩
    · by_cases hname : n = name
      · subst hname
        exact ⟨Or.inl hsafe, fun _ => hsafe⟩
      · obtain ⟨hholds, hfailed⟩ := hother n hn hname
        refine ⟨hholds, ?_⟩
        simp only [Function.update_of_ne hname]
        exact hfailed
    · exact absurd hwrite (by simp)
    · exact absurd hend (by simp)

/-- **Every step that meets the condition preserves the invariant.** -/
theorem Inv.step {e : Event α} (h : Inv cfg s) (hsafe : Safe cfg s e)
    (hstep : step cfg s e = some s') : Inv cfg s' := by
  cases e with
  | update name changes =>
      obtain rfl := Option.some.inj hstep
      exact h.update name changes hsafe
  | startup ok =>
      cases hpc : s.pc with
      | startup =>
          simp only [Flusher.step, hpc, Option.some.injEq] at hstep
          subst hstep
          have hnow : s.pc.writing = none := by rw [hpc]; rfl
          cases ok with
          | true => exact h.move hnow rfl fun hend => absurd hend (by simp)
          | false => exact h.move hnow rfl fun _ => hsafe rfl
      | wait | pass | write | ended => simp [Flusher.step, hpc] at hstep
  | wake =>
      cases hpc : s.pc with
      | wait =>
          simp only [Flusher.step, hpc, Option.some.injEq] at hstep
          subst hstep
          have hnow : s.pc.writing = none := by rw [hpc]; rfl
          exact h.move hnow rfl fun hend => absurd hend (by simp)
      | startup | pass | write | ended => simp [Flusher.step, hpc] at hstep
  | visit =>
      cases hpc : s.pc with
      | pass todo =>
          cases todo with
          | nil => simp [Flusher.step, hpc] at hstep
          | cons name todo =>
              simp only [Flusher.step, hpc, Option.some.injEq] at hstep
              subst hstep
              exact h.visit hpc
      | startup | wait | write | ended => simp [Flusher.step, hpc] at hstep
  | write io =>
      cases hpc : s.pc with
      | write name ds todo =>
          simp only [Flusher.step, hpc, Option.some.injEq] at hstep
          subst hstep
          exact h.write hpc hsafe
      | startup | wait | pass | ended => simp [Flusher.step, hpc] at hstep
  | endPass =>
      cases hpc : s.pc with
      | pass todo =>
          cases todo with
          | nil =>
              have hnow : s.pc.writing = none := by rw [hpc]; rfl
              simp only [Flusher.step, hpc, Option.some.injEq] at hstep
              cases hstop : s.stop with
              | true =>
                  have hend : (if s.stop then Pc.ended else Pc.wait) = (.ended : Pc α) :=
                    if_pos hstop
                  rw [← hstep, hend]
                  exact h.move hnow rfl fun _ => hsafe hstop
              | false =>
                  have hwait : (if s.stop then Pc.ended else Pc.wait) = (.wait : Pc α) := by
                    simp [hstop]
                  rw [← hstep, hwait]
                  exact h.move hnow rfl fun hend => absurd hend (by simp)
          | cons name todo => simp [Flusher.step, hpc] at hstep
      | startup | wait | write | ended => simp [Flusher.step, hpc] at hstep
  | stop =>
      obtain rfl := Option.some.inj hstep
      exact ⟨h.sized, fun n hn hw =>
        ⟨(h.settled n hn hw).holds, (h.settled n hn hw).failed⟩, h.taken, h.ended⟩

/-- The list in a file has strings without NUL. -/
theorem fileList_free {tcl : TclList} {file : Bytes} {es : List (Bytes × Bytes)}
    (h : fileList tcl file = some es) : ∀ e ∈ es, NulFree e.1 ∧ NulFree e.2 := by
  unfold fileList at h
  split at h
  · obtain rfl := Option.some.inj h
    exact fun e he => absurd he List.not_mem_nil
  · simp only at h
    split at h
    · exact absurd h (by simp)
    · split at h
      · exact absurd h (by simp)
      · obtain rfl := Option.some.inj h
        intro e he
        obtain ⟨hkey, hvalue⟩ := mem_of_mem_keyValues he
        obtain ⟨_, -, hkey⟩ := List.mem_map.mp hkey
        obtain ⟨_, -, hvalue⟩ := List.mem_map.mp hvalue
        exact ⟨hkey ▸ nulFree_cstr _, hvalue ▸ nulFree_cstr _⟩

/-- The arrays start with the contents of their files. -/
theorem Start.inv (h : Start cfg s) : Inv cfg s := by
  refine ⟨fun n => ?_, fun n hn _ => ?_, fun n ds todo hpc => ?_, fun hpc => ?_⟩
  · by_cases hn : n ∈ cfg.firstPtr
    · obtain ⟨server, a, hload, harray⟩ := h.loaded n hn
      obtain ⟨es, hes, rfl⟩ := Option.map_eq_some_iff.mp hload
      rw [harray]
      exact sized_serve server (sized_createArray (fileList_free hes))
    · obtain ⟨server, harray⟩ := h.fresh n hn
      rw [harray]
      exact sized_serve server (sized_createArray fun e he => absurd he List.not_mem_nil)
  · obtain ⟨server, a, hload, harray⟩ := h.loaded n hn
    refine ⟨Or.inr ⟨a, hload, fun key => by rw [harray, serve_vars]⟩, fun hf => ?_⟩
    rw [h.failed] at hf
    exact absurd hf (by simp)
  · rw [h.pc] at hpc
    exact absurd hpc (by simp)
  · rw [h.pc] at hpc
    exact absurd hpc (by simp)

omit [DecidableEq α] in
/-- The invariant gives what is wanted. -/
theorem Inv.persisted (h : Inv cfg s) : Persisted cfg s := by
  have hbetween : s.pc.Between → s.pc.writing = none := by
    cases s.pc <;> simp [Pc.Between, Pc.writing]
  refine ⟨fun hpc n hn hflush => ?_, fun hpc n hn hf => ?_, fun hpc n hn hf => ?_⟩
  · have hsettled := h.settled n hn (by simp [hbetween hpc])
    rcases hsettled.holds with hmarked | hholds
    · rw [hflush] at hmarked
      exact absurd hmarked (by simp)
    · exact hholds
  · exact (h.settled n hn (by simp [hbetween hpc])).failed hf
  · have hsettled := h.settled n hn (by simp [hpc, Pc.writing])
    rcases hsettled.holds with hmarked | hholds
    · have hfailed := h.ended hpc n hn hmarked
      rw [hf] at hfailed
      exact absurd hfailed (by simp)
    · exact hholds

/-- **Persistence.** In every run whose steps meet the condition, between passes the file of every
array that is not marked holds its contents and every array whose last flush failed is marked, and
at the end the file of every array whose last flush did not fail holds its contents. -/
theorem persisted_of_safe {es : List (Event α)} (hstart : Start cfg s)
    (hsafe : Along (step cfg) (Safe cfg) s es) (hrun : run (step cfg) s es = some s') :
    Persisted cfg s' := by
  have hstep : ∀ (t : State α κ) e t', Inv cfg t → Safe cfg t e → step cfg t e = some t' →
      Inv cfg t' := fun t e t' h hsafe hstep => h.step hsafe hstep
  exact (run_invariant hstep hstart.inv hsafe hrun).persisted

/-! ## Lock sections are changes -/

section Sections

variable {w w' : World α κ} {name : α}

/-- The arrays differ by changes of one of them. -/
def ByChanges (w w' : World α κ) : Prop :=
  w'.arrays = w.arrays ∨ ∃ (name : α) (changes : List Change),
    w'.arrays = Function.update w.arrays name (changes.foldl Change.run (w.arrays name))

theorem change_arrays (w : World α κ) (name : α) (f : Array κ → Array κ × List (κ × Bytes)) :
    (w.change name f).arrays = Function.update w.arrays name (f (w.arrays name)).1 := by
  funext n
  by_cases hn : n = name
  · subst hn
    rw [World.change_arrays_self, Function.update_self]
  · rw [World.change_arrays_ne w hn, Function.update_of_ne hn]

theorem byChanges_of_change (w : World α κ) (name : α) (c : Change)
    {f : Array κ → Array κ × List (κ × Bytes)} (hf : ∀ a, (f a).1 = c.run a) :
    ByChanges w (w.change name f) := by
  refine Or.inr ⟨name, [c], ?_⟩
  rw [change_arrays, hf]
  rfl

/-- One more change of the same array. -/
theorem snoc_changes {changes : List Change} (c : Change)
    {f : Array κ → Array κ × List (κ × Bytes)} (hf : ∀ a, (f a).1 = c.run a)
    (h : w'.arrays = Function.update w.arrays name (changes.foldl Change.run (w.arrays name))) :
    (w'.change name f).arrays =
      Function.update w.arrays name ((changes ++ [c]).foldl Change.run (w.arrays name)) := by
  rw [change_arrays, h, Function.update_self, Function.update_idem, hf, List.foldl_append]
  rfl

theorem changed_changes (h : Changed name w w') : ∃ changes : List Change,
    w'.arrays = Function.update w.arrays name (changes.foldl Change.run (w.arrays name)) := by
  induction h with
  | start => exact ⟨[], (Function.update_eq_self name w.arrays).symm⟩
  | set w' key value _ hkey hvalue ih =>
      obtain ⟨changes, h⟩ := ih
      exact ⟨_, snoc_changes (.set ⟨key, hkey⟩ ⟨value, hvalue⟩ false false) (fun _ => rfl) h⟩
  | unset w' key logged _ hlogged ih =>
      obtain ⟨changes, h⟩ := ih
      exact ⟨_, snoc_changes (.unset key ⟨logged, hlogged⟩ false) (fun _ => rfl) h⟩
  | flush w' _ ih =>
      obtain ⟨changes, h⟩ := ih
      exact ⟨_, snoc_changes (.flush false) (fun _ => rfl) h⟩

/-- **A command is one lock section of changes.** -/
theorem section_changes (h : Section w w') : ByChanges w w' := by
  cases h with
  | idle => exact Or.inl rfl
  | look name => exact Or.inl rfl
  | set name key value cset hkey hvalue =>
      exact byChanges_of_change w name (.set ⟨key, hkey⟩ ⟨value, hvalue⟩ cset true) fun _ => rfl
  | unset name key hkey =>
      exact byChanges_of_change w name (.unset key ⟨key, hkey⟩ true) fun _ => rfl
  | changes name w'' h =>
      obtain ⟨changes, h⟩ := changed_changes h
      exact Or.inr ⟨name, _, snoc_changes .broadcast (fun _ => rfl) h⟩

/-- A turn of the loop of `RecvUpdate` changes one array. -/
theorem recvCmd_changes {mapping : Bytes → Option α} {p p' : Bytes} {ptr ptr' : Option α}
    (h : recvCmd mapping p ptr w = some (p', ptr', w')) : ByChanges w w' := by
  cases p with
  | nil => simp [recvCmd] at h
  | cons cmd p =>
      simp only [recvCmd] at h
      split at h
      · obtain ⟨⟨netname, rest⟩, -, h⟩ := Option.map_eq_some_iff.mp h
        cases hmap : mapping netname with
        | none =>
            simp only [hmap, Prod.mk.injEq] at h
            exact Or.inl (by rw [h.2.2])
        | some name =>
            simp only [hmap, Prod.mk.injEq] at h
            obtain ⟨-, -, rfl⟩ := h
            cases ptr with
            | none => exact Or.inl rfl
            | some last => exact byChanges_of_change w last .broadcast fun _ => rfl
      · cases ptr with
        | none =>
            simp only [Option.some.injEq, Prod.mk.injEq] at h
            exact Or.inl (by rw [h.2.2])
        | some name =>
            simp only at h
            split_ifs at h
            · simp only [Option.some.injEq, Prod.mk.injEq] at h
              obtain ⟨-, -, rfl⟩ := h
              exact byChanges_of_change w name (.flush false) fun _ => rfl
            · obtain ⟨⟨key, rest⟩, hread, h⟩ := Option.map_eq_some_iff.mp h
              obtain ⟨-, -, rfl⟩ := by simpa only [Prod.mk.injEq] using h
              have hkey := (nulFree_of_readCStr hread).1
              exact byChanges_of_change w name (.unset key ⟨key, hkey⟩ false) fun _ => rfl
            · obtain ⟨⟨key, rest⟩, hread, h⟩ := Option.bind_eq_some_iff.mp h
              obtain ⟨⟨value, rest'⟩, hread', h⟩ := Option.map_eq_some_iff.mp h
              obtain ⟨-, -, rfl⟩ := by simpa only [Prod.mk.injEq] using h
              have hkey := (nulFree_of_readCStr hread).1
              have hvalue := (nulFree_of_readCStr hread').1
              exact byChanges_of_change w name (.set ⟨key, hkey⟩ ⟨value, hvalue⟩ false false)
                fun _ => rfl
            · simp only [Option.some.injEq, Prod.mk.injEq] at h
              exact Or.inl (by rw [← h.2.2]; rfl)

end Sections

/-! ## Two runs -/

instance (s : State α κ) : Decidable (AllFlushed cfg s) :=
  inferInstanceAs (Decidable (∀ name ∈ cfg.firstPtr,
    (s.arrays name).flush = true → s.failed name = true))

instance decidableSafe (s : State α κ) (e : Event α) : Decidable (Safe cfg s e) :=
  match e with
  | .update name _ => inferInstanceAs (Decidable (s.pc = .ended → name ∉ cfg.firstPtr))
  | .startup ok => inferInstanceAs (Decidable (ok = false → AllFlushed cfg s))
  | .write io =>
      match hpc : s.pc with
      | .write name ds _ => decidable_of_iff
          (if flushDone io ds then ∀ n ∈ cfg.firstPtr, cfg.getFile n = cfg.getFile name → n = name
            else (s.arrays name).flush = true) (by simp [Safe, hpc])
      | .startup => isTrue (by simp [Safe, hpc])
      | .wait => isTrue (by simp [Safe, hpc])
      | .pass _ => isTrue (by simp [Safe, hpc])
      | .ended => isTrue (by simp [Safe, hpc])
  | .endPass => inferInstanceAs (Decidable (s.stop = true → AllFlushed cfg s))
  | .wake => inferInstanceAs (Decidable True)
  | .visit => inferInstanceAs (Decidable True)
  | .stop => inferInstanceAs (Decidable True)

/-- One persistent array. -/
def oneArray : Config Unit where
  tcl := TclList.simple
  order := listOrder
  firstPtr := [()]
  getFile _ := ascii "nv/a"

/-- It starts empty, without a file. -/
def noFile : State Unit Unit where
  arrays _ := createArray []
  disk _ := none

theorem noFile_start : Start oneArray noFile := by
  refine ⟨fun name _ => ⟨none, createArray [], rfl, rfl⟩, fun name h => ?_, rfl, rfl, rfl⟩
  exact absurd (List.mem_singleton.mpr rfl) h

/-- A flush in which all goes well, for a file of four bytes. -/
def goodIo : FlushIo := ⟨true, true, 4, true, true⟩

/-- The key `k` is set to 1. -/
def setK : List Change := [.set (toCStr [107]) (toCStr [49]) false true]

/-- A set that is flushed, a stop, and the last pass. -/
def flushedRun : List (Event Unit) :=
  [.startup true, .update () setK, .wake, .visit, .write goodIo, .endPass, .stop, .wake, .visit,
    .endPass]

theorem persisted_flushedRun :
    ∃ s, run (step oneArray) noFile flushedRun = some s ∧ Persisted oneArray s :=
  ⟨_, rfl, persisted_of_safe noFile_start (by decide : Along (step oneArray) (Safe oneArray)
    noFile flushedRun) rfl⟩

/-- A set whose flush fails. -/
def failedRun : List (Event Unit) :=
  [.startup true, .update () setK, .wake, .visit, .write { goodIo with renamed := false }, .endPass]

/-- A set behind the visit of a pass, during which the thread is told to stop. -/
def stoppedRun : List (Event Unit) :=
  [.startup true, .wake, .visit, .stop, .update () setK, .endPass]

/-- An array whose only flush failed is not marked between the passes, and the file is not there;
and an array set after the visit of the last pass is not flushed. -/
theorem flush_not_retried :
    ((run (step oneArray) noFile failedRun).map fun s =>
      ((s.arrays ()).flush, (s.arrays ()).vars.lookup [107], s.disk (ascii "nv/a"))) =
        some (false, some [49], none) ∧
    (∃ s, run (step oneArray) noFile failedRun = some s ∧ ¬ Persisted oneArray s) ∧
    ∃ s, run (step oneArray) noFile stoppedRun = some s ∧ ¬ Persisted oneArray s := by
  refine ⟨by decide, ⟨_, rfl, fun h => ?_⟩, ⟨_, rfl, fun h => ?_⟩⟩
  · have hmarked := h.retried trivial () (List.mem_singleton.mpr rfl) rfl
    exact absurd hmarked (by decide)
  · obtain ⟨b, hload, hsame⟩ := h.ended rfl () (List.mem_singleton.mpr rfl) rfl
    obtain rfl : createArray [] = b := Option.some.inj hload
    exact absurd (hsame [107]) (by decide)

end Nsdci.Nv.Flusher
