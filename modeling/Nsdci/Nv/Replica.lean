import Nsdci.Lib.Overwrite
import Nsdci.Nv.InitSize
import Nsdci.Nv.Logged
import Nsdci.Receiver

/-!
# A client of a variable server

What a client of a variable server makes of the messages of its connection. The commands of an
update message are overwrites of keys, and an init message leaves the arrays of the server as they
were when it was built, whatever the client had before. `Follows` says that a client that is given
these messages has the arrays of the server but for the updates it still waits for.
-/

namespace Nsdci.Nv

open Lib

variable {α β κ γ : Type} [DecidableEq α]

/-- A command on an array as an overwrite of the keys of all arrays. -/
def Cmd.overwrite (name : α) : Cmd → Overwrite (α × Bytes) (Option Bytes)
  | .set key value => fun p => if p.1 = name ∧ p.2 = key then some (some value) else none
  | .unset key => fun p => if p.1 = name ∧ p.2 = key then some none else none
  | .flush => fun p => if p.1 = name then some none else none

/-- The arrays of a process as one map. -/
def World.view (w : World α κ) : α × Bytes → Option Bytes := fun p => (w.table p.1).lookup p.2

/-- The arrays of a client as one map over the arrays of its server. -/
def World.seen (w : World β γ) (target : α → β) : α × Bytes → Option Bytes :=
  fun p => (w.table (target p.1)).lookup p.2

/-- Commands on an array as overwrites. -/
def overwrites (u : α × List Cmd) : List (Overwrite (α × Bytes) (Option Bytes)) :=
  u.2.map (Cmd.overwrite u.1)

/-! ## Commands as overwrites -/

variable {name n : α} {cmds : List Cmd} {m : α × Bytes → Option Bytes} {key : Bytes}

/-- A command overwrites what it changes. -/
theorem Cmd.overwrite_run (name : α) (cmd : Cmd) {t : Table}
    (h : ∀ key, m (name, key) = t.lookup key) (key : Bytes) :
    (cmd.overwrite name).run m (name, key) = (cmd.run t).lookup key := by
  have hcase : ∀ k : Bytes, ∀ v : Option Bytes,
      (if name = name ∧ key = k then some v else none).getD (m (name, key)) =
        if key = k then v else t.lookup key := by
    intro k v
    by_cases hkey : key = k
    · rw [if_pos ⟨rfl, hkey⟩, if_pos hkey, Option.getD_some]
    · rw [if_neg fun hboth => hkey hboth.2, if_neg hkey, Option.getD_none, h]
  cases cmd with
  | set k value =>
      refine (hcase k (some value)).trans ?_
      show _ = (t.insert k value).lookup key
      by_cases hkey : key = k
      · rw [if_pos hkey, hkey, AList.lookup_insert]
      · rw [if_neg hkey, AList.lookup_insert_ne hkey]
  | unset k =>
      refine (hcase k none).trans ?_
      show _ = (t.erase k).lookup key
      by_cases hkey : key = k
      · rw [if_pos hkey, hkey, AList.lookup_erase]
      · rw [if_neg hkey, AList.lookup_erase_ne hkey]
  | flush =>
      show (if name = name then some none else none).getD (m (name, key)) =
        (∅ : Table).lookup key
      rw [if_pos rfl, Option.getD_some, AList.lookup_empty]

/-- The keys of another array stay. -/
theorem Cmd.overwrite_run_ne (hn : n ≠ name) (cmd : Cmd) (m : α × Bytes → Option Bytes)
    (key : Bytes) : (cmd.overwrite name).run m (n, key) = m (n, key) := by
  cases cmd with
  | set k value =>
      show (if n = name ∧ key = k then some (some value) else none).getD (m (n, key)) = _
      rw [if_neg fun hboth => hn hboth.1, Option.getD_none]
  | unset k =>
      show (if n = name ∧ key = k then some none else none).getD (m (n, key)) = _
      rw [if_neg fun hboth => hn hboth.1, Option.getD_none]
  | flush =>
      show (if n = name then some none else none).getD (m (n, key)) = _
      rw [if_neg hn, Option.getD_none]

theorem overwrites_self (name : α) (cmds : List Cmd) {t : Table}
    (h : ∀ key, m (name, key) = t.lookup key) (key : Bytes) :
    replay (overwrites (name, cmds)) m (name, key) =
      (cmds.foldl (fun t cmd => cmd.run t) t).lookup key := by
  induction cmds generalizing m t with
  | nil => exact h key
  | cons cmd cmds ih => exact ih (cmd.overwrite_run name h)

theorem overwrites_ne (hn : n ≠ name) (cmds : List Cmd) (m : α × Bytes → Option Bytes)
    (key : Bytes) : replay (overwrites (name, cmds)) m (n, key) = m (n, key) := by
  induction cmds generalizing m with
  | nil => rfl
  | cons cmd cmds ih => exact (ih _).trans (cmd.overwrite_run_ne hn m key)

/-- **What an event logs overwrites what it changed.** -/
theorem Logs.view {w w' : World α κ} (h : Logs name cmds w w') :
    w'.view = replay (overwrites (name, cmds)) w.view := by
  funext ⟨n, key⟩
  by_cases hn : n = name
  · subst hn
    have hsame : ∀ k, w.view (n, k) = (w.table n).lookup k := fun _ => rfl
    rw [overwrites_self n cmds hsame key]
    show (w'.table n).lookup key = _
    rw [h.table]
  · rw [overwrites_ne hn]
    show ((w'.arrays n).vars).lookup key = ((w.arrays n).vars).lookup key
    rw [h.others n hn]

/-! ## Messages -/

variable [DecidableEq β] {mapping : Bytes → Option β}

omit [DecidableEq α] [DecidableEq β] in
/-- The array at work stays one the client maps. -/
theorem made_isSome (mapping : Bytes → Option β) (name : β) (blocks : List Block) :
    ∃ last, (made mapping (some name) blocks).2 = some last := by
  induction blocks generalizing name with
  | nil => exact ⟨name, rfl⟩
  | cons b blocks ih =>
      cases hmap : mapping b.netname with
      | none =>
          obtain ⟨last, hlast⟩ := ih name
          exact ⟨last, by simpa [made, hmap] using hlast⟩
      | some name' =>
          obtain ⟨last, hlast⟩ := ih name'
          exact ⟨last, by simpa [made, hmap] using hlast⟩

omit [DecidableEq α] in
/-- **`RecvUpdate` accepts a message that starts with a name the client maps.** -/
theorem recvUpdate_mapped (b : Block) (blocks : List Block) (w : World β γ) {name : β}
    (hmap : mapping b.netname = some name) :
    ∃ w', recvUpdate mapping (message (b :: blocks)) w = some (w', .ok) ∧
      Did w w' (made mapping none (b :: blocks)).1 := by
  obtain ⟨w', st, hrun, hdid⟩ := recvUpdate_made mapping b blocks w
  obtain ⟨w₁, hheader, -⟩ := recvCmd_header mapping b.netname_free
    (b.cmds.flatMap Cmd.bytes ++ (message blocks ++ [0])) none w
  rw [Option.or_none, hmap] at hheader
  have hbytes : message (b :: blocks) ++ [0] = 65 :: (asciz b.netname ++
      (b.cmds.flatMap Cmd.bytes ++ (message blocks ++ [0]))) := by
    simp [message, Block.bytes]
  have hfuel := turns_le (b :: blocks)
  simp only [turns, List.map_cons, List.sum_cons] at hfuel
  obtain ⟨f, hf⟩ := Nat.exists_eq_add_of_le (show turns blocks + b.cmds.length ≤
    (message (b :: blocks)).length by simp only [turns]; omega)
  obtain ⟨w₂, hcmds, -⟩ := recvWhile_cmds mapping b.cmds_free
    (message blocks ++ [0]) (by simp) name w₁ (turns blocks + f)
  obtain ⟨w₃, hrest, -⟩ := recvWhile_blocks mapping blocks (some name) w₂ (turns blocks + f)
    (by omega)
  obtain ⟨last, hlast⟩ := made_isSome mapping name blocks
  have hloop : (recvCmd mapping (message (b :: blocks) ++ [0]) none w).bind
      (recvWhile mapping (message (b :: blocks)).length) = some (some last, w₃) := by
    rw [hbytes, hheader, Option.bind_some, hf,
      show turns blocks + b.cmds.length + f = turns blocks + f + b.cmds.length by omega, hcmds,
      hrest, ← hlast]
    rfl
  have hstatus : recvUpdate mapping (message (b :: blocks)) w =
      some ((w₃.change last broadcastUpdates).unlock last, .ok) := by
    rw [recvUpdate, hloop]
    rfl
  obtain rfl : Status.ok = st := congrArg Prod.snd (Option.some.inj (hstatus.symm.trans hrun))
  exact ⟨w', hrun, hdid⟩

/-- A client maps the name of each array of a server, and to an array of its own. -/
structure Maps (netname : α → Bytes) (served : List α) (mapping : Bytes → Option β)
    (target : α → β) : Prop where
  mapped : ∀ name ∈ served, mapping (netname name) = some (target name)
  inj : ∀ name ∈ served, ∀ n ∈ served, target n = target name → n = name

/-- The keys of the arrays of a server. -/
def keysOf (served : List α) : Set (α × Bytes) := { p | p.1 ∈ served }

/-- The data of the update message `u`. -/
structure Carries (netname : α → Bytes) (served : List α) (data : Bytes) (u : α × List Cmd) :
    Prop where
  served : u.1 ∈ served
  free : ∀ cmd ∈ u.2, cmd.NulFree
  name_free : NulFree (netname u.1)
  data : data = 65 :: (asciz (netname u.1) ++ u.2.flatMap Cmd.bytes)

variable {netname : α → Bytes} {served : List α} {target : α → β}

/-- **A client applies an update message.** -/
theorem recvUpdate_update (hmaps : Maps netname served mapping target) {data : Bytes}
    {u : α × List Cmd} (h : Carries netname served data u) (w : World β γ) :
    ∃ w', recvUpdate mapping data w = some (w', .ok) ∧
      Set.EqOn (w'.seen target) (replay (overwrites u) (w.seen target)) (keysOf served) := by
  obtain ⟨name, cmds⟩ := u
  have hmap := hmaps.mapped name h.served
  let b : Block := ⟨netname name, cmds, h.name_free, h.free⟩
  obtain ⟨w', hrun, hdid⟩ := recvUpdate_mapped b [] w hmap
  have hdata : data = message [b] := by
    rw [message, List.flatMap_singleton]
    exact h.data
  have hmade : (made mapping none [b]).1 = cmds.map (target name, ·) := by
    simp [b, made, hmap]
  rw [← hdata] at hrun
  rw [hmade] at hdid
  refine ⟨w', hrun, fun p hp => ?_⟩
  obtain ⟨n, key⟩ := p
  show (w'.table (target n)).lookup key = _
  rw [hdid.tables]
  by_cases hn : n = name
  · subst hn
    have hsame : ∀ k, w.seen target (n, k) = (w.table (target n)).lookup k := fun _ => rfl
    rw [runFor_map_self, overwrites_self n cmds hsame]
  · have hne : target name ≠ target n := fun heq => hn (hmaps.inj name h.served n hp heq.symm)
    rw [runFor_map_ne hne, overwrites_ne hn]
    rfl

/-- The last reload of an array counts; there is one. -/
theorem rebuilt_eq (arrays : α → Array κ) {served names : List α}
    (hmaps : Maps (fun n => (arrays n).netname) served mapping target) (hsub : names ⊆ served)
    (hname : name ∈ served) (t : Table) :
    rebuilt arrays names mapping (target name) t =
      if name ∈ names then (arrays name).vars else t := by
  induction names generalizing t with
  | nil => rfl
  | cons n names ih =>
      have hn : n ∈ served := hsub List.mem_cons_self
      have hrest := ih (fun x hx => hsub (List.mem_cons_of_mem _ hx))
      rw [rebuilt, List.foldl_cons, hmaps.mapped n hn]
      by_cases heq : n = name
      · subst heq
        rw [if_pos rfl, if_pos List.mem_cons_self]
        refine (hrest _).trans ?_
        split_ifs <;> rfl
      · have hne : some (target n) ≠ some (target name) :=
          fun h => heq (hmaps.inj name hname n hn (Option.some.inj h))
        have hmem : name ∈ n :: names ↔ name ∈ names :=
          ⟨fun h => (List.mem_cons.mp h).resolve_left fun h' => heq h'.symm,
            List.mem_cons_of_mem n⟩
        rw [if_neg hne]
        refine (hrest t).trans ?_
        simp only [hmem]

/-- **A client applies an init message.** -/
theorem recvUpdate_init (order : HashOrder) {arrays : α → Array κ}
    (hsized : ∀ name, Sized (arrays name)) (hne : served ≠ [])
    (hmaps : Maps (fun n => (arrays n).netname) served mapping target) (w : World β γ) :
    ∃ w', recvUpdate mapping (served.flatMap fun name => appendReload order (arrays name)) w =
        some (w', .ok) ∧
      Set.EqOn (w'.seen target) (fun p => (arrays p.1).vars.lookup p.2) (keysOf served) := by
  have hall : MapsAll arrays served mapping :=
    Or.inl fun name hname => by rw [hmaps.mapped name hname]; rfl
  obtain ⟨w', st, hrun, -, htables⟩ := (rebuilds_iff order served mapping w hsized).mpr hall
  have hstatus : st = .ok := by
    obtain ⟨first, rest, rfl⟩ := List.exists_cons_of_ne_nil hne
    have hfirst := hmaps.mapped first List.mem_cons_self
    obtain ⟨w'', hrun', -⟩ := recvUpdate_mapped (reloadBlock order (arrays first) (hsized first))
      (reloadBlocks order arrays rest hsized) w hfirst
    have hmsg : message (reloadBlock order (arrays first) (hsized first) ::
        reloadBlocks order arrays rest hsized) =
        (first :: rest).flatMap fun name => appendReload order (arrays name) :=
      @message_reloadBlocks _ _ _ (first :: rest) order hsized
    rw [hmsg, hrun] at hrun'
    exact congrArg Prod.snd (Option.some.inj hrun')
  subst hstatus
  refine ⟨w', hrun, fun p hp => ?_⟩
  show (w'.table (target p.1)).lookup p.2 = _
  rw [htables, rebuilt_eq arrays hmaps (List.Subset.refl served) hp]
  exact congrArg (AList.lookup p.2) (if_pos hp)

/-! ## The messages of a connection -/

/-- `RecvUpdate` as the callback of a receiver. -/
def recvProc (mapping : Bytes → Option β) : Receiver.RecvProc (World β γ) :=
  fun w ds => (recvUpdate mapping ds w).getD (w, .error)

/-- A client that is given these messages accepts them, and behind `log` it has the map `p` for
the arrays of its server, whatever it had before. -/
def Follows (γ : Type) (mapping : Bytes → Option β) (target : α → β) (served : List α)
    (datas : List Bytes) (log : List (Overwrite (α × Bytes) (Option Bytes)))
    (p : α × Bytes → Option Bytes) : Prop :=
  ∀ w : World β γ, ∃ w', Receiver.deliver (recvProc mapping) w datas = (w', datas, true) ∧
    CaughtUp (keysOf served) log (w'.seen target) p

variable {datas : List Bytes} {log : List (Overwrite (α × Bytes) (Option Bytes))}
  {p : α × Bytes → Option Bytes}

/-- **The init message** makes a client follow, though it is behind updates that the init message
already has. -/
theorem follows_init (order : HashOrder) {w : World α κ} (hsized : w.All Sized)
    (hne : served ≠ []) (hmaps : Maps (fun n => (w.arrays n).netname) served mapping target)
    (hlog : Settled (keysOf served) log w.view) :
    Follows γ mapping target served
      [served.flatMap fun name => appendReload order (w.arrays name)] log w.view := by
  intro c
  obtain ⟨c', hrun, hseen⟩ := recvUpdate_init order hsized hne hmaps c
  refine ⟨c', ?_, hlog.caughtUp hseen⟩
  simp [Receiver.deliver, recvProc, hrun]

omit [DecidableEq α] in
/-- A server with no arrays has nothing to follow. -/
theorem follows_nil (log : List (Overwrite (α × Bytes) (Option Bytes)))
    (p : α × Bytes → Option Bytes) : Follows γ mapping target [] [] log p :=
  fun c => ⟨c, rfl, fun _ hq => absurd hq List.not_mem_nil⟩

omit [DecidableEq α] in
/-- The server goes on, and logs what it does. -/
theorem Follows.push (h : Follows γ mapping target served datas log p)
    (us : List (Overwrite (α × Bytes) (Option Bytes))) :
    Follows γ mapping target served datas (log ++ us) (replay us p) := by
  intro c
  obtain ⟨c', hrun, hcaught⟩ := h c
  exact ⟨c', hrun, hcaught.push us⟩

omit [DecidableEq α] in
/-- What the server does to arrays that are not its own. -/
theorem Follows.congr (h : Follows γ mapping target served datas log p)
    {p' : α × Bytes → Option Bytes} (hp : Set.EqOn p p' (keysOf served)) :
    Follows γ mapping target served datas log p' := by
  intro c
  obtain ⟨c', hrun, hcaught⟩ := h c
  exact ⟨c', hrun, hcaught.congr hp⟩

/-- **An update message** takes the updates it carries off what the client waits for. -/
theorem Follows.deliver (hmaps : Maps netname served mapping target) {u : α × List Cmd}
    (h : Follows γ mapping target served datas (overwrites u ++ log) p) {data : Bytes}
    (hdata : Carries netname served data u) :
    Follows γ mapping target served (datas ++ [data]) log p := by
  intro c
  obtain ⟨c', hrun, hcaught⟩ := h c
  obtain ⟨c'', hrecv, hseen⟩ := recvUpdate_update hmaps hdata c'
  refine ⟨c'', ?_, hcaught.deliver hseen⟩
  rw [Receiver.deliver_append _ hrun]
  simp [Receiver.deliver, recvProc, hrecv]

end Nsdci.Nv
