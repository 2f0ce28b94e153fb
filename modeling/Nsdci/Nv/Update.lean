import Nsdci.Lib.Table
import Nsdci.Nv

/-!
# Update messages

An update message is a sequence of blocks: `A` with a network name, then the commands for that
array. Each command is meant for the array its client maps the name of its block to, and for none
when the name is not mapped (`addressed`). `recvUpdate` calls `SetVar`, `UnsetVar` and `FlushArray`
as `made` says: an unmapped name leaves the current array as it was, so that the commands under it
go to the array of the block before, and when there was none yet the rest of the message is
dropped.
-/

namespace Nsdci.Nv

open Lib

variable {α κ : Type}

/-- The strings of a command have no NUL inside. -/
def Cmd.NulFree : Cmd → Prop
  | .set key value => Lib.NulFree key ∧ Lib.NulFree value
  | .unset key => Lib.NulFree key
  | .flush => True

/-- A block of an update message. -/
structure Block where
  netname : Bytes
  cmds : List Cmd
  netname_free : NulFree netname
  cmds_free : ∀ cmd ∈ cmds, cmd.NulFree

/-- A block as it stands in a message. -/
def Block.bytes (b : Block) : Bytes := 65 :: (asciz b.netname ++ b.cmds.flatMap Cmd.bytes)

/-- An update message. -/
def message (blocks : List Block) : Bytes := blocks.flatMap Block.bytes

/-- The commands each array of a client should get, in order. -/
def addressed (mapping : Bytes → Option α) (blocks : List Block) : List (α × Cmd) :=
  blocks.flatMap fun b =>
    match mapping b.netname with
    | none => []
    | some name => b.cmds.map (name, ·)

theorem addressed_cons (mapping : Bytes → Option α) (b : Block) (blocks : List Block) :
    addressed mapping (b :: blocks) =
      (match mapping b.netname with
        | none => []
        | some name => b.cmds.map (name, ·)) ++ addressed mapping blocks := rfl

/-- The commands `RecvUpdate` applies, and the array it ends with. -/
def made (mapping : Bytes → Option α) : Option α → List Block → List (α × Cmd) × Option α
  | arrayPtr, [] => ([], arrayPtr)
  | arrayPtr, b :: blocks =>
      match (mapping b.netname).or arrayPtr with
      | none => ([], none)
      | some name =>
          (b.cmds.map (name, ·) ++ (made mapping (some name) blocks).1,
            (made mapping (some name) blocks).2)

/-- What a command does to a table. -/
def Cmd.run : Cmd → Table → Table
  | .set key value, t => t.insert key value
  | .unset key, t => t.erase key
  | .flush, _ => ∅

/-- What a list of commands for several arrays does to the table of one. -/
def runFor [DecidableEq α] (name : α) (cmds : List (α × Cmd)) (t : Table) : Table :=
  cmds.foldl (fun t c => if c.1 = name then c.2.run t else t) t

theorem runFor_append [DecidableEq α] (name : α) (cmds cmds' : List (α × Cmd)) (t : Table) :
    runFor name (cmds ++ cmds') t = runFor name cmds' (runFor name cmds t) := by
  simp [runFor]

/-! ## Addressing -/

/-- The commands of a message are addressed right: the first name is mapped and there is no command
under a name that is not, or it is not mapped and there is no command under a name that is. -/
def Addressable (mapping : Bytes → Option α) : List Block → Prop
  | [] => True
  | b :: blocks =>
      if (mapping b.netname).isSome then
        ∀ c ∈ blocks, mapping c.netname = none → c.cmds = []
      else ∀ c ∈ blocks, (mapping c.netname).isSome → c.cmds = []

/-- Once there is a current array, all commands of a message are applied. -/
theorem length_made (mapping : Bytes → Option α) (name : α) (blocks : List Block) :
    (made mapping (some name) blocks).1.length = (blocks.map fun b => b.cmds.length).sum := by
  induction blocks generalizing name with
  | nil => rfl
  | cons b blocks ih =>
      have hsome : (mapping b.netname).or (some name) = some ((mapping b.netname).getD name) := by
        cases mapping b.netname <;> rfl
      simp [made, hsome, ih]

/-- No more commands are addressed than a message has. -/
theorem length_addressed_le (mapping : Bytes → Option α) (blocks : List Block) :
    (addressed mapping blocks).length ≤ (blocks.map fun b => b.cmds.length).sum := by
  induction blocks with
  | nil => simp [addressed]
  | cons b blocks ih =>
      rw [addressed_cons, List.length_append, List.map_cons, List.sum_cons]
      cases mapping b.netname with
      | none => exact Nat.add_le_add (Nat.zero_le _) ih
      | some name => exact Nat.add_le_add (by simp) ih

/-- With a current array, the calls are the addressed ones exactly if no command stands under a
name that is not mapped. -/
theorem made_some_eq_iff (mapping : Bytes → Option α) (name : α) (blocks : List Block) :
    (made mapping (some name) blocks).1 = addressed mapping blocks ↔
      ∀ c ∈ blocks, mapping c.netname = none → c.cmds = [] := by
  induction blocks generalizing name with
  | nil => simp [made, addressed]
  | cons b blocks ih =>
      cases hmap : mapping b.netname with
      | some name' => simp [made, addressed_cons, hmap, ih name']
      | none =>
          constructor
          · intro heq
            have hlen := congrArg List.length heq
            have hle := length_addressed_le mapping blocks
            have hall := length_made mapping name blocks
            simp only [made, hmap, Option.none_or, List.length_append, List.length_map,
              addressed_cons, List.length_nil, Nat.zero_add] at hlen
            have hnil : b.cmds = [] := List.eq_nil_of_length_eq_zero (by omega)
            have hrest : (made mapping (some name) blocks).1 = addressed mapping blocks := by
              simpa [made, addressed_cons, hmap, hnil] using heq
            simpa [hmap, hnil] using (ih name).mp hrest
          · intro hall
            have hnil : b.cmds = [] := hall b (by simp) hmap
            have hrest := (ih name).mpr fun c hc => hall c (by simp [hc])
            simpa [made, addressed_cons, hmap, hnil] using hrest

/-- The calls `RecvUpdate` makes are the addressed ones exactly for an addressable message. -/
theorem made_eq_iff (mapping : Bytes → Option α) (b : Block) (blocks : List Block) :
    (made mapping none (b :: blocks)).1 = addressed mapping (b :: blocks) ↔
      Addressable mapping (b :: blocks) := by
  cases hmap : mapping b.netname with
  | some name =>
      simp [made, addressed_cons, Addressable, hmap, made_some_eq_iff mapping name blocks]
  | none =>
      have hmade : (made mapping none (b :: blocks)).1 = [] := by simp [made, hmap]
      have haddressed : addressed mapping (b :: blocks) = addressed mapping blocks := by
        simp [addressed_cons, hmap]
      rw [hmade, haddressed, eq_comm, addressed, List.flatMap_eq_nil_iff]
      simp only [Addressable, hmap, Option.isSome_none, Bool.false_eq_true, if_false]
      refine forall₂_congr fun c _ => ?_
      cases mapping c.netname <;> simp

/-! ## Commands -/

@[simp] theorem broadcastUpdates_vars (a : Array κ) : (broadcastUpdates a).1.vars = a.vars := by
  unfold broadcastUpdates
  split <;> rfl

@[simp] theorem logUpdate_vars (cmd : Cmd) (broadcast : Bool) (a : Array κ) :
    (logUpdate cmd broadcast a).1.vars = a.vars := by
  simp only [logUpdate]
  split_ifs <;> simp

theorem setVar_vars (key value : Bytes) (broadcast : Bool) (a : Array κ) :
    (setVar key value false broadcast a).1.vars = a.vars.insert key value := by
  unfold setVar
  split <;> simp

theorem unsetVar_vars (key logged : Bytes) (broadcast : Bool) (a : Array κ) :
    (unsetVar key logged broadcast a).1.vars = a.vars.erase key := by
  unfold unsetVar
  split
  · rename_i h
    exact (erase_eq_self h).symm
  · simp

theorem flushArray_vars (broadcast : Bool) (a : Array κ) :
    (flushArray broadcast a).1.vars = ∅ := by
  simp [flushArray]

@[simp] theorem World.unlock_calls (w : World α κ) (name : α) :
    (w.unlock name).calls = w.calls := rfl

/-- The table of an array. -/
def World.table (w : World α κ) (name : α) : Table := (w.arrays name).vars

@[simp] theorem World.unlock_table (w : World α κ) (name n : α) :
    (w.unlock name).table n = w.table n := rfl

variable [DecidableEq α]

@[simp] theorem World.change_calls (w : World α κ) (name : α)
    (f : Array κ → Array κ × List (κ × Bytes)) : (w.change name f).calls = w.calls := rfl

@[simp] theorem World.change_arrays_self (w : World α κ) (name : α)
    (f : Array κ → Array κ × List (κ × Bytes)) :
    (w.change name f).arrays name = (f (w.arrays name)).1 := if_pos rfl

theorem World.change_arrays_ne (w : World α κ) {name n : α} (h : n ≠ name)
    (f : Array κ → Array κ × List (κ × Bytes)) : (w.change name f).arrays n = w.arrays n :=
  if_neg h

@[simp] theorem World.broadcast_table (w : World α κ) (name n : α) :
    (w.change name broadcastUpdates).table n = w.table n := by
  by_cases h : n = name
  · subst h
    simp [table]
  · simp [table, change_arrays_ne w h]

/-- What one turn of the loop leaves: the calls made, and the tables changed by those calls
alone. -/
structure Did (w w' : World α κ) (cmds : List (α × Cmd)) : Prop where
  calls : w'.calls = w.calls ++ cmds
  tables : ∀ name, w'.table name = runFor name cmds (w.table name)

theorem Did.refl (w : World α κ) : Did w w [] := ⟨by simp, fun _ => rfl⟩

theorem Did.trans {w w' w'' : World α κ} {cmds cmds' : List (α × Cmd)} (h : Did w w' cmds)
    (h' : Did w' w'' cmds') : Did w w'' (cmds ++ cmds') :=
  ⟨by rw [h'.calls, h.calls, List.append_assoc],
    fun name => by rw [h'.tables, h.tables, runFor_append]⟩

/-- One command applied. -/
theorem World.apply_did (w : World α κ) (name : α) (cmd : Cmd) :
    Did w (w.apply name cmd) [(name, cmd)] := by
  refine ⟨by cases cmd <;> rfl, fun n => ?_⟩
  by_cases hn : n = name
  · subst hn
    cases cmd <;>
      simp [apply, runFor, Cmd.run, setVar_vars, unsetVar_vars, flushArray_vars, table]
  · have hn' : ¬ name = n := fun h => hn h.symm
    cases cmd <;> simp [apply, change_arrays_ne _ hn, runFor, hn', table]

/-! ## Turns of the loop -/

variable {mapping : Bytes → Option α}

/-- A command under a current array. -/
theorem recvCmd_cmd {cmd : Cmd} (hcmd : cmd.NulFree) (rest : Bytes) (name : α) (w : World α κ) :
    recvCmd mapping (cmd.bytes ++ rest) (some name) w =
      some (rest, some name, w.apply name cmd) := by
  cases cmd with
  | set key value =>
      simp [recvCmd, Cmd.bytes, readCStr_asciz hcmd.1, readCStr_asciz hcmd.2]
  | unset key =>
      have hkey : NulFree key := hcmd
      simp [recvCmd, Cmd.bytes, readCStr_asciz hkey]
  | flush => simp [recvCmd, Cmd.bytes]

/-- The header of a block: the current array becomes the one its name is mapped to, if it is. -/
theorem recvCmd_header (mapping : Bytes → Option α) {netname : Bytes} (hfree : NulFree netname)
    (rest : Bytes) (arrayPtr : Option α) (w : World α κ) :
    ∃ w', recvCmd mapping (65 :: (asciz netname ++ rest)) arrayPtr w =
        some (rest, (mapping netname).or arrayPtr, w') ∧ Did w w' [] := by
  cases hmap : mapping netname with
  | none =>
      exact ⟨w, by simp [recvCmd, readCStr_asciz hfree, hmap], Did.refl w⟩
  | some name =>
      cases arrayPtr with
      | none => exact ⟨w, by simp [recvCmd, readCStr_asciz hfree, hmap], Did.refl w⟩
      | some last =>
          refine ⟨(w.change last broadcastUpdates).unlock last, ?_, by simp, fun n => by
            simp [runFor]⟩
          simp [recvCmd, readCStr_asciz hfree, hmap]

theorem length_cmd_bytes_pos (cmd : Cmd) : 0 < cmd.bytes.length := by
  cases cmd <;> simp [Cmd.bytes]

/-- The loop over the commands of a block. -/
theorem recvWhile_cmds (mapping : Bytes → Option α) {cmds : List Cmd}
    (hcmds : ∀ cmd ∈ cmds, cmd.NulFree) (rest : Bytes) (hrest : rest ≠ []) (name : α)
    (w : World α κ) (fuel : Nat) :
    ∃ w', recvWhile mapping (fuel + cmds.length) (cmds.flatMap Cmd.bytes ++ rest, some name, w) =
        recvWhile mapping fuel (rest, some name, w') ∧ Did w w' (cmds.map (name, ·)) := by
  induction cmds generalizing w with
  | nil => exact ⟨w, rfl, Did.refl w⟩
  | cons cmd cmds ih =>
      obtain ⟨w', hloop, hdid⟩ := ih (fun c hc => hcmds c (by simp [hc])) (w.apply name cmd)
      refine ⟨w', ?_, (w.apply_did name cmd).trans hdid⟩
      have hlong : 1 < ((cmd :: cmds).flatMap Cmd.bytes ++ rest).length := by
        have := length_cmd_bytes_pos cmd
        have := List.length_pos_of_ne_nil hrest
        simp only [List.flatMap_cons, List.length_append]
        omega
      rw [show fuel + (cmd :: cmds).length = fuel + cmds.length + 1 by simp; omega, recvWhile,
        if_pos ⟨hlong, rfl⟩]
      simp only [List.flatMap_cons, List.append_assoc]
      rw [recvCmd_cmd (hcmds cmd (by simp)), Option.bind_some, hloop]

/-- The number of turns the loop takes for these blocks. -/
def turns (blocks : List Block) : Nat := (blocks.map fun b => b.cmds.length + 1).sum

/-- The loop stops when there is no current array. -/
theorem recvWhile_none (p : Bytes) (w : World α κ) (fuel : Nat) :
    recvWhile mapping fuel (p, none, w) = some (none, w) := by
  unfold recvWhile
  simp

/-- **The loop over whole blocks makes the calls `made` says.** -/
theorem recvWhile_blocks (mapping : Bytes → Option α) (blocks : List Block)
    (arrayPtr : Option α) (w : World α κ) (fuel : Nat)
    (hfuel : turns blocks ≤ fuel) :
    ∃ w', recvWhile mapping fuel (message blocks ++ [0], arrayPtr, w) =
        some ((if arrayPtr.isSome then (made mapping arrayPtr blocks).2 else none), w') ∧
      Did w w' (if arrayPtr.isSome then (made mapping arrayPtr blocks).1 else []) := by
  cases arrayPtr with
  | none => exact ⟨w, by simp [recvWhile_none], by simpa using Did.refl w⟩
  | some name =>
      induction blocks generalizing name w fuel with
      | nil =>
          refine ⟨w, ?_, by simpa [made] using Did.refl w⟩
          unfold recvWhile
          simp [message, made]
      | cons b blocks ih =>
          simp only [turns, List.map_cons, List.sum_cons] at hfuel
          obtain ⟨f, rfl⟩ := Nat.exists_eq_add_of_le hfuel
          obtain ⟨w₁, hheader, hdid₁⟩ := recvCmd_header mapping b.netname_free
            (b.cmds.flatMap Cmd.bytes ++ (message blocks ++ [0])) (some name) w
          have hsome : (mapping b.netname).or (some name) =
              some ((mapping b.netname).getD name) := by
            cases mapping b.netname <;> rfl
          rw [hsome] at hheader
          obtain ⟨w₂, hcmds, hdid₂⟩ := recvWhile_cmds mapping b.cmds_free
            (message blocks ++ [0]) (by simp) ((mapping b.netname).getD name) w₁
            (turns blocks + f)
          obtain ⟨w₃, hrest, hdid₃⟩ := ih w₂ (turns blocks + f) (by omega)
            ((mapping b.netname).getD name)
          refine ⟨w₃, ?_, ?_⟩
          · have hlong : 1 < (message (b :: blocks) ++ [0]).length := by
              simp [message, Block.bytes, asciz]
            rw [show b.cmds.length + 1 + (List.map (fun b => b.cmds.length + 1) blocks).sum + f =
              turns blocks + f + b.cmds.length + 1 by simp only [turns]; omega, recvWhile,
              if_pos ⟨hlong, rfl⟩]
            have hbytes : message (b :: blocks) ++ [0] = 65 :: (asciz b.netname ++
                (b.cmds.flatMap Cmd.bytes ++ (message blocks ++ [0]))) := by
              simp [message, Block.bytes]
            simp only [hbytes, hheader, Option.bind_some]
            rw [hcmds, hrest]
            simp [made, hsome]
          · simpa [made, hsome] using (hdid₁.trans hdid₂).trans hdid₃

/-- The loop takes no more turns than the message has bytes. -/
theorem turns_le (blocks : List Block) : turns blocks ≤ (message blocks).length := by
  induction blocks with
  | nil => simp [turns]
  | cons b blocks ih =>
      have hcmds : b.cmds.length ≤ (b.cmds.flatMap Cmd.bytes).length := by
        induction b.cmds with
        | nil => simp
        | cons cmd cmds ih =>
            have := length_cmd_bytes_pos cmd
            simp only [List.flatMap_cons, List.length_append, List.length_cons]
            omega
      simp only [turns, List.map_cons, List.sum_cons] at ih ⊢
      simp only [message, List.flatMap_cons, List.length_append, Block.bytes, List.length_cons]
        at ih ⊢
      omega

/-- **`RecvUpdate` on a whole message makes the calls `made` says, and changes the tables by
those calls alone.** -/
theorem recvUpdate_made (mapping : Bytes → Option α) (b : Block) (blocks : List Block)
    (w : World α κ) :
    ∃ w' st, recvUpdate mapping (message (b :: blocks)) w = some (w', st) ∧
      Did w w' (made mapping none (b :: blocks)).1 := by
  obtain ⟨w₁, hheader, hdid₁⟩ := recvCmd_header mapping b.netname_free
    (b.cmds.flatMap Cmd.bytes ++ (message blocks ++ [0])) none w
  have hbytes : message (b :: blocks) ++ [0] = 65 :: (asciz b.netname ++
      (b.cmds.flatMap Cmd.bytes ++ (message blocks ++ [0]))) := by
    simp [message, Block.bytes]
  rw [Option.or_none] at hheader
  cases hmap : mapping b.netname with
  | none =>
      refine ⟨w₁, .error, ?_, by simpa [made, hmap] using hdid₁⟩
      rw [recvUpdate, hbytes, hheader, hmap, Option.bind_some, recvWhile_none]
      rfl
  | some name =>
      have hfuel := turns_le (b :: blocks)
      simp only [turns, List.map_cons, List.sum_cons] at hfuel
      obtain ⟨f, hf⟩ := Nat.exists_eq_add_of_le (show turns blocks + b.cmds.length ≤
        (message (b :: blocks)).length by simp only [turns]; omega)
      obtain ⟨w₂, hcmds, hdid₂⟩ := recvWhile_cmds mapping b.cmds_free
        (message blocks ++ [0]) (by simp) name w₁ (turns blocks + f)
      obtain ⟨w₃, hrest, hdid₃⟩ := recvWhile_blocks mapping blocks (some name) w₂
        (turns blocks + f) (by omega)
      have hloop : (recvCmd mapping (message (b :: blocks) ++ [0]) none w).bind
          (recvWhile mapping (message (b :: blocks)).length) =
            some ((made mapping (some name) blocks).2, w₃) := by
        rw [hbytes, hheader, hmap, Option.bind_some, hf,
          show turns blocks + b.cmds.length + f = turns blocks + f + b.cmds.length by omega, hcmds,
          hrest]
        rfl
      have hdid : Did w w₃ (made mapping none (b :: blocks)).1 := by
        simpa [made, hmap] using (hdid₁.trans hdid₂).trans hdid₃
      cases hlast : (made mapping (some name) blocks).2 with
      | none => exact ⟨w₃, .error, by rw [recvUpdate, hloop, hlast]; rfl, hdid⟩
      | some last =>
          refine ⟨(w₃.change last broadcastUpdates).unlock last, .ok, ?_,
            ⟨hdid.calls, fun n => ?_⟩⟩
          · rw [recvUpdate, hloop, hlast]
            rfl
          · rw [World.unlock_table, World.broadcast_table]
            exact hdid.tables n

/-! ## Whole messages -/

/-- A message was applied right: each command to the array its block's name is mapped to, and
nothing else. -/
structure AppliedRight (mapping : Bytes → Option α) (blocks : List Block) (w w' : World α κ) :
    Prop where
  calls : w'.calls = w.calls ++ addressed mapping blocks
  tables : ∀ name, w'.table name = runFor name (addressed mapping blocks) (w.table name)

/-- **Update addressing.** `RecvUpdate` applies each command of a message to the array its name is
mapped to, and no other, exactly if the message is addressable. -/
theorem recv_update_addressing_iff (mapping : Bytes → Option α) (b : Block) (blocks : List Block)
    (w : World α κ) :
    (∃ w' st, recvUpdate mapping (message (b :: blocks)) w = some (w', st) ∧
        AppliedRight mapping (b :: blocks) w w') ↔ Addressable mapping (b :: blocks) := by
  obtain ⟨w', st, hrun, hdid⟩ := recvUpdate_made mapping b blocks w
  rw [← made_eq_iff]
  constructor
  · rintro ⟨w'', st', hrun', hright⟩
    obtain ⟨rfl, rfl⟩ : w' = w'' ∧ st = st' := by simpa [hrun] using hrun'
    exact List.append_cancel_left (hdid.calls.symm.trans hright.calls)
  · intro heq
    exact ⟨w', st, hrun, ⟨heq ▸ hdid.calls, heq ▸ hdid.tables⟩⟩

/-- A client that maps the name `x` and not `y`. -/
def mapsX (netname : Bytes) : Option Unit := if netname = [120] then some () else none

/-- A message that sets `k` under `x` and unsets it under `y`. -/
def setThenUnset : List Block :=
  [⟨[120], [.set [107] [49]], by decide, by simp [Cmd.NulFree]; decide⟩,
    ⟨[121], [.unset [107]], by decide, by simp [Cmd.NulFree]; decide⟩]

/-- The unset under the name the client does not map removes `k` from the array of `x`. -/
theorem recv_update_unmapped_changes :
    (recvUpdate mapsX (message setThenUnset) ({ arrays := fun _ => {} } : World Unit Unit)).map
        (fun r => (r.1.calls, (r.1.table ()).lookup [107])) =
      some ([((), .set [107] [49]), ((), .unset [107])], none) ∧
    addressed mapsX setThenUnset = [((), .set [107] [49])] ∧
    ¬ ∃ w' st, recvUpdate mapsX (message setThenUnset)
        ({ arrays := fun _ => {} } : World Unit Unit) = some (w', st) ∧
      AppliedRight mapsX setThenUnset { arrays := fun _ => {} } w' := by
  have hrun : (recvUpdate mapsX (message setThenUnset)
      ({ arrays := fun _ => {} } : World Unit Unit)).map
        (fun r => (r.1.calls, (r.1.table ()).lookup [107])) =
      some ([((), .set [107] [49]), ((), .unset [107])], none) := by decide
  refine ⟨hrun, by decide, ?_⟩
  rintro ⟨w', st, heq, hright⟩
  rw [heq] at hrun
  have hcalls := congrArg (Option.map Prod.fst) hrun
  simp [hright.calls] at hcalls
  exact absurd hcalls (by decide)

end Nsdci.Nv
