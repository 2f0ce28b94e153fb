import Nsdci.Nv.Cmds
import Nsdci.Nv.Update

/-!
# Lock sections

What a command does to the arrays while it holds a lock: `Changed` is a run of changes without a
message, and `Section` is the whole section, with the message at its end. Every command is one
such section (`Command.section`), so that a fact about arrays that the three functions that change
an array preserve is preserved by every event (`step_all`).
-/

namespace Nsdci.Nv

open Lib

variable {α κ : Type} [DecidableEq α]

/-- Changes of one array that make no message. -/
inductive Changed (name : α) (w : World α κ) : World α κ → Prop where
  | start : Changed name w w
  | set (w' : World α κ) (key value : Bytes) (h : Changed name w w') (hkey : NulFree key)
      (hvalue : NulFree value) : Changed name w (w'.change name (setVar key value false false))
  | unset (w' : World α κ) (key logged : Bytes) (h : Changed name w w')
      (hlogged : NulFree logged) : Changed name w (w'.change name (unsetVar key logged false))
  | flush (w' : World α κ) (h : Changed name w w') :
      Changed name w (w'.change name (flushArray false))

/-- What a command does to the arrays: nothing, a look at an array, a single change with its
message, or changes with one message behind them. -/
inductive Section (w : World α κ) : World α κ → Prop where
  | idle : Section w w
  | look (name : α) : Section w (w.unlock name)
  | set (name : α) (key value : Bytes) (cset : Bool) (hkey : NulFree key)
      (hvalue : NulFree value) : Section w (w.locked name (setVar key value cset true))
  | unset (name : α) (key : Bytes) (hkey : NulFree key) :
      Section w (w.locked name (unsetVar key key true))
  | changes (name : α) (w' : World α κ) (h : Changed name w w') :
      Section w (w'.locked name broadcastUpdates)

variable {w : World α κ} {tcl : Tcl} {order : HashOrder} {find : Names α} {name : α}

/-- A command that looks for its array. -/
theorem getArray_section {array : Bytes} {cmd : α → World α κ × Result}
    (h : ∀ name, Section w (cmd name).1) : Section w (getArray find array w cmd).1 := by
  unfold getArray
  split
  · exact .idle
  · exact h _

theorem unsetKeys_changed (freed : Bytes → Bytes) (keys : List Bytes) {w' : World α κ}
    (h : Changed name w w') : Changed name w (unsetKeys freed name keys w') := by
  induction keys generalizing w' with
  | nil => exact h
  | cons key keys ih => exact ih (.unset w' key (cstr (freed key)) h (nulFree_cstr _))

theorem setKeys_changed {pairs : List (Bytes × Bytes)}
    (hpairs : ∀ e ∈ pairs, NulFree e.1 ∧ NulFree e.2) {w' : World α κ}
    (h : Changed name w w') : Changed name w (setKeys name pairs w') := by
  induction pairs generalizing w' with
  | nil => exact h
  | cons e pairs ih =>
      obtain ⟨hkey, hvalue⟩ := hpairs e (by simp)
      exact ih (fun e he => hpairs e (List.mem_cons_of_mem _ he)) (.set w' e.1 e.2 h hkey hvalue)

/-- Keys and values are elements of the list. -/
theorem mem_of_mem_keyValues {list : List Bytes} {e : Bytes × Bytes} (h : e ∈ keyValues list) :
    e.1 ∈ list ∧ e.2 ∈ list := by
  fun_induction keyValues list with
  | case1 key value rest ih =>
      rcases List.mem_cons.mp h with rfl | h
      · simp
      · obtain ⟨hkey, hvalue⟩ := ih h
        simp [hkey, hvalue]
  | case2 => exact absurd h List.not_mem_nil

/-- A number is written without NUL. -/
theorem nulFree_decimal (x : Int) : NulFree (decimal x) := by
  have hdigits : NulFree (digits x.natAbs) := by
    intro h
    have hdigit := isDigit_of_mem_digits h
    exact absurd hdigit.1 (by decide)
  unfold decimal
  split_ifs
  · simpa [NulFree] using hdigits
  · exact hdigits

section Commands

variable {argv : List Bytes}

theorem nvGetCmd_section (cmd : Get) : Section w (nvGetCmd tcl find cmd argv w).1 := by
  unfold nvGetCmd
  split
  · exact getArray_section fun name => .look name
  · exact .idle
  · exact getArray_section fun name => .look name
  · exact .idle

theorem nvSetCmd_section (cset : Bool) (hargv : ∀ s ∈ argv, NulFree s) :
    Section w (nvSetCmd find cset argv w).1 := by
  unfold nvSetCmd
  split
  · exact getArray_section fun name =>
      .set name _ _ cset (hargv _ (by simp)) (hargv _ (by simp))
  · exact .idle

theorem nvAppendCmd_section (lappend : Bool) (hargv : ∀ s ∈ argv, NulFree s) :
    Section w (nvAppendCmd tcl find lappend argv w).1 := by
  unfold nvAppendCmd
  split
  · exact getArray_section fun name =>
      .set name _ _ false (hargv _ (by simp)) (nulFree_cstr _)
  · exact .idle

theorem nvUnsetCmd_section (hargv : ∀ s ∈ argv, NulFree s) :
    Section w (nvUnsetCmd find argv w).1 := by
  unfold nvUnsetCmd
  split
  · exact getArray_section fun name => .unset name _ (hargv _ (by simp))
  · exact .idle

theorem nvDumpCmd_section (dump : Bool) : Section w (nvDumpCmd tcl order find dump argv w).1 := by
  simp only [nvDumpCmd]
  split
  · exact getArray_section (fun name => Section.look name)
  · exact getArray_section (fun name => Section.look name)
  · exact .idle

theorem nvFlushCmd_section (freed : Bytes → Bytes) :
    Section w (nvFlushCmd tcl order find freed argv w).1 := by
  unfold nvFlushCmd
  split
  · exact getArray_section fun name => .changes name _ (.flush w .start)
  · exact getArray_section fun name => .changes name _ (unsetKeys_changed freed _ .start)
  · exact .idle

theorem incrKey_section {key : Bytes} (count : Int) (hkey : NulFree key) (name : α) :
    Section w (incrKey tcl key count w name).1 := by
  unfold incrKey
  split
  · exact .look name
  · split
    · exact .look name
    · exact .set name key _ false hkey (nulFree_decimal _)

theorem nvIncrCmd_section (hargv : ∀ s ∈ argv, NulFree s) :
    Section w (nvIncrCmd tcl find argv w).1 := by
  unfold nvIncrCmd
  split
  · exact getArray_section (incrKey_section 1 (hargv _ (by simp)))
  · split
    · exact .idle
    · exact getArray_section (incrKey_section _ (hargv _ (by simp)))
  · exact .idle

theorem loadList_section (flush : Bool) (list : Bytes) (name : α) :
    Section w (loadList tcl flush list w name).1 := by
  unfold loadList
  split
  · exact .idle
  · rename_i largv _
    split
    · exact .idle
    · have hflush : Changed name w (if flush then w.change name (flushArray false) else w) := by
        cases flush
        · exact .start
        · exact .flush w .start
      have hpairs : ∀ e ∈ keyValues (largv.map cstr), NulFree e.1 ∧ NulFree e.2 := by
        intro e he
        obtain ⟨hkey, hvalue⟩ := mem_of_mem_keyValues he
        obtain ⟨_, -, hkey⟩ := List.mem_map.mp hkey
        obtain ⟨_, -, hvalue⟩ := List.mem_map.mp hvalue
        exact ⟨hkey ▸ nulFree_cstr _, hvalue ▸ nulFree_cstr _⟩
      exact .changes name _ (setKeys_changed hpairs hflush)

theorem nvLoadCmd_section : Section w (nvLoadCmd tcl find argv w).1 := by
  unfold nvLoadCmd
  split
  · exact getArray_section (loadList_section true _)
  · split_ifs
    · exact getArray_section (loadList_section false _)
    · exact .idle
  · exact .idle

/-- **Every command is a lock section.** -/
theorem Command.section (cmd : Command) (freed : Bytes → Bytes) (hargv : ∀ s ∈ argv, NulFree s) :
    Section w (cmd.proc tcl order find freed argv w).1 := by
  cases cmd with
  | get cmd => exact nvGetCmd_section cmd
  | set cset => exact nvSetCmd_section cset hargv
  | append lappend => exact nvAppendCmd_section lappend hargv
  | unset => exact nvUnsetCmd_section hargv
  | dump values => exact nvDumpCmd_section values
  | flush => exact nvFlushCmd_section freed
  | incr => exact nvIncrCmd_section hargv
  | load => exact nvLoadCmd_section

end Commands

/-! ## Facts about single arrays -/

/-- What the functions that change an array preserve. -/
structure Kept (P : Array κ → Prop) : Prop where
  set : ∀ a key value cset broadcast, P a → NulFree key → NulFree value →
    P (setVar key value cset broadcast a).1
  unset : ∀ a key logged broadcast, P a → NulFree logged → P (unsetVar key logged broadcast a).1
  flush : ∀ a broadcast, P a → P (flushArray broadcast a).1
  broadcast : ∀ a, P a → P (broadcastUpdates a).1
  clear : ∀ a, P a → P { a with init := false }

/-- A fact about every array. -/
def World.All (P : Array κ → Prop) (w : World α κ) : Prop := ∀ n, P (w.arrays n)

variable {P : Array κ → Prop}

theorem World.All.change {f : Array κ → Array κ × List (κ × Bytes)} (h : w.All P) (name : α)
    (hf : ∀ a, P a → P (f a).1) : (w.change name f).All P := by
  intro n
  by_cases hn : n = name
  · subst hn
    rw [World.change_arrays_self]
    exact hf _ (h n)
  · rw [World.change_arrays_ne w hn]
    exact h n

theorem World.All.locked {f : Array κ → Array κ × List (κ × Bytes)} (h : w.All P) (name : α)
    (hf : ∀ a, P a → P (f a).1) : (w.locked name f).All P := h.change name hf

theorem Changed.all (hP : Kept P) {w' : World α κ} (h : Changed name w w') (hw : w.All P) :
    w'.All P := by
  induction h with
  | start => exact hw
  | set w' key value _ hkey hvalue ih =>
      exact ih.change name fun a ha => hP.set a key value false false ha hkey hvalue
  | unset w' key logged _ hlogged ih =>
      exact ih.change name fun a ha => hP.unset a key logged false ha hlogged
  | flush w' _ ih => exact ih.change name fun a ha => hP.flush a false ha

theorem Section.all (hP : Kept P) {w' : World α κ} (h : Section w w') (hw : w.All P) :
    w'.All P := by
  cases h with
  | idle => exact hw
  | look name => exact hw
  | set name key value cset hkey hvalue =>
      exact hw.locked name fun a ha => hP.set a key value cset true ha hkey hvalue
  | unset name key hkey => exact hw.locked name fun a ha => hP.unset a key key true ha hkey
  | changes name w'' h => exact (h.all hP hw).locked name hP.broadcast

/-- One turn of the loop of `RecvUpdate`. -/
theorem recvCmd_all (hP : Kept P) {mapping : Bytes → Option α} {p p' : Bytes}
    {ptr ptr' : Option α} {w' : World α κ} (h : recvCmd mapping p ptr w = some (p', ptr', w'))
    (hw : w.All P) : w'.All P := by
  unfold recvCmd at h
  split at h
  · exact absurd h (by simp)
  · rename_i cmd p
    split at h
    · obtain ⟨⟨netname, rest⟩, -, h⟩ := Option.map_eq_some_iff.mp h
      split at h
      · obtain ⟨-, -, rfl⟩ : _ ∧ _ ∧ w = w' := by simpa using h
        exact hw
      · obtain ⟨-, -, rfl⟩ := by simpa using h
        split
        · exact hw
        · exact hw.locked _ hP.broadcast
    · split at h
      · obtain ⟨-, -, rfl⟩ : _ ∧ _ ∧ w = w' := by simpa using h
        exact hw
      · rename_i name
        split_ifs at h
        · obtain ⟨-, -, rfl⟩ : _ ∧ _ ∧ w.apply name .flush = w' := by simpa using h
          exact hw.change name fun a ha => hP.flush a false ha
        · obtain ⟨⟨key, rest⟩, hread, h⟩ := Option.map_eq_some_iff.mp h
          obtain ⟨-, -, rfl⟩ : _ ∧ _ ∧ w.apply name (.unset key) = w' := by simpa using h
          have hkey := (nulFree_of_readCStr hread).1
          exact hw.change name fun a ha => hP.unset a key key false ha hkey
        · obtain ⟨⟨key, rest⟩, hread, h⟩ := Option.bind_eq_some_iff.mp h
          obtain ⟨⟨value, rest'⟩, hread', h⟩ := Option.map_eq_some_iff.mp h
          obtain ⟨-, -, rfl⟩ : _ ∧ _ ∧ w.apply name (.set key value) = w' := by simpa using h
          have hkey := (nulFree_of_readCStr hread).1
          have hvalue := (nulFree_of_readCStr hread').1
          exact hw.change name fun a ha => hP.set a key value false false ha hkey hvalue
        · obtain ⟨-, -, rfl⟩ : _ ∧ _ ∧ w.unlock name = w' := by simpa using h
          exact hw

theorem recvWhile_all (hP : Kept P) {mapping : Bytes → Option α} {fuel : Nat} {p : Bytes}
    {ptr ptr' : Option α} {w' : World α κ}
    (h : recvWhile mapping fuel (p, ptr, w) = some (ptr', w')) (hw : w.All P) : w'.All P := by
  induction fuel generalizing p ptr w with
  | zero =>
      unfold recvWhile at h
      split_ifs at h
      obtain ⟨-, rfl⟩ : _ ∧ w = w' := by simpa using h
      exact hw
  | succ fuel ih =>
      unfold recvWhile at h
      split_ifs at h
      · obtain ⟨⟨p₁, ptr₁, w₁⟩, hcmd, hrest⟩ := Option.bind_eq_some_iff.mp h
        exact ih hrest (recvCmd_all hP hcmd hw)
      · obtain ⟨-, rfl⟩ : _ ∧ w = w' := by simpa using h
        exact hw

theorem recvUpdate_all (hP : Kept P) {mapping : Bytes → Option α} {ds : Bytes} {w' : World α κ}
    {st : Status} (h : recvUpdate mapping ds w = some (w', st)) (hw : w.All P) : w'.All P := by
  unfold recvUpdate at h
  obtain ⟨⟨ptr, w₂⟩, hloop, h⟩ := Option.map_eq_some_iff.mp h
  obtain ⟨⟨p₁, ptr₁, w₁⟩, hcmd, hrest⟩ := Option.bind_eq_some_iff.mp hloop
  have hw₂ := recvWhile_all hP hrest (recvCmd_all hP hcmd hw)
  cases ptr with
  | none =>
      obtain ⟨rfl, -⟩ : w₂ = w' ∧ _ := by simpa using h
      exact hw₂
  | some name =>
      obtain ⟨rfl, -⟩ : (w₂.change name broadcastUpdates).unlock name = w' ∧ _ := by simpa using h
      exact hw₂.locked name hP.broadcast

omit [DecidableEq α] in
/-- Locks given back leave the arrays as they are. -/
theorem foldl_unlock_arrays (names : List α) (w : World α κ) :
    (names.foldl World.unlock w).arrays = w.arrays := by
  induction names generalizing w with
  | nil => rfl
  | cons name names ih => exact ih (w.unlock name)

/-- The arguments of a command are C strings. -/
theorem argv_free (argv : List CStr) : ∀ s ∈ argv.map Subtype.val, NulFree s := by
  intro s hs
  obtain ⟨t, -, rfl⟩ := List.mem_map.mp hs
  exact t.2

/-- **What the functions that change an array preserve, every event preserves**, if the flusher
does. -/
theorem step_all (hP : Kept P) (hflush : ∀ a, P a → P { a with flush := false }) {env : Env α κ}
    {e : Event α κ} {w' : World α κ} (hstep : step env w e = some w') (hw : w.All P) :
    w'.All P := by
  cases e with
  | command cmd argv freed =>
      obtain rfl := Option.some.inj hstep
      exact (cmd.section freed (argv_free argv)).all hP hw
  | recv mapping ds =>
      obtain ⟨⟨w'', st⟩, hrecv, rfl⟩ := Option.map_eq_some_iff.mp hstep
      exact recvUpdate_all hP hrecv hw
  | stats name =>
      obtain rfl := Option.some.inj hstep
      exact hw
  | clientInit servPtr =>
      obtain rfl := Option.some.inj hstep
      intro n
      rw [World.clientInit, foldl_unlock_arrays]
      show P (clearInit w.arrays _ n)
      unfold clearInit
      split_ifs
      · exact hP.clear _ (hw n)
      · exact hw n
  | flusher name =>
      obtain rfl := Option.some.inj hstep
      exact hw.locked name hflush

end Nsdci.Nv
