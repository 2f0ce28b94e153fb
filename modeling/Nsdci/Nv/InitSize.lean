import Nsdci.Nv.Sections

/-!
# The size of an init message

`ClientInitMsg` allocates its message by the counters the arrays keep of the lengths of their keys
and values. The counters are right as long as the lengths fit an `int`, and then `AppendReload`
fills the message exactly and `RecvUpdate` rebuilds every array from it, for a client that maps
the names of all arrays (`init_msg_right_iff`).
-/

namespace Nsdci.Nv

open Lib

variable {α κ : Type}

/-- The length of all keys. -/
def keysLen (a : Array κ) : Nat := entrySum (fun key _ => key.length) a.vars

/-- The length of all values. -/
def valuesLen (a : Array κ) : Nat := entrySum (fun _ value => value.length) a.vars

/-- The length of an array in an init message: `A` name `F`, and `S` key value for each entry. -/
def reloadLen (a : Array κ) : Nat :=
  3 + a.netname.length + entrySum (fun key value => 3 + key.length + value.length) a.vars

/-- The counters of an array are the lengths stored in an `int`, and its strings have no NUL. -/
structure Sized (a : Array κ) : Prop where
  keys : a.sizekeys = int32 (keysLen a)
  values : a.sizevalues = int32 (valuesLen a)
  free : ∀ e ∈ pairs a.vars, NulFree e.1 ∧ NulFree e.2
  netname : NulFree a.netname

/-! ## The counters -/

theorem sized_broadcast {a : Array κ} (h : Sized a) : Sized (broadcastUpdates a).1 := by
  unfold broadcastUpdates
  split
  · exact h
  · exact ⟨h.keys, h.values, h.free, h.netname⟩

theorem sized_logUpdate (cmd : Cmd) (broadcast : Bool) {a : Array κ} (h : Sized a) :
    Sized (logUpdate cmd broadcast a).1 := by
  have hlog : Sized { a with log := a.log ++ cmd.bytes } := ⟨h.keys, h.values, h.free, h.netname⟩
  simp only [logUpdate]
  split_ifs
  · exact sized_broadcast hlog
  · exact hlog
  · exact h

/-- A set counts its key once, and its value instead of the old one. -/
theorem sized_set (key value : Bytes) (cset broadcast : Bool) {a : Array κ} (h : Sized a)
    (hkey : NulFree key) (hvalue : NulFree value) :
    Sized (setVar key value cset broadcast a).1 := by
  have hfree : ∀ e ∈ pairs (a.vars.insert key value), NulFree e.1 ∧ NulFree e.2 := by
    intro e he
    rcases mem_pairs_insert he with rfl | he
    · exact ⟨hkey, hvalue⟩
    · exact h.free e he
  have hkeys := entrySum_erase (fun key _ => key.length) a.vars key
  have hvalues := entrySum_erase (fun _ value => value.length) a.vars key
  unfold setVar
  split
  · rename_i hnew
    refine sized_logUpdate _ _ ⟨?_, ?_, hfree, h.netname⟩
    · rw [erase_eq_self hnew] at hkeys
      simp only [keysLen, entrySum_insert, erase_eq_self hnew, h.keys, int32_int32_add]
      congr 1
      push_cast
      ring
    · simp only [valuesLen, entrySum_insert, erase_eq_self hnew, h.values, int32_int32_add]
      congr 1
      push_cast
      ring
  · rename_i old hold
    split_ifs
    · exact h
    · rw [hold] at hkeys hvalues
      refine sized_logUpdate _ _ ⟨?_, ?_, hfree, h.netname⟩
      · have hlen : keysLen a = key.length + entrySum (fun key _ => key.length)
          (a.vars.erase key) := hkeys
        rw [h.keys, hlen]
        simp only [keysLen, entrySum_insert]
      · have hlen : valuesLen a = old.length + entrySum (fun _ value => value.length)
          (a.vars.erase key) := hvalues
        rw [h.values, int32_replace_part hlen]
        simp only [valuesLen, entrySum_insert]

/-- An unset takes its key and value away. -/
theorem sized_unset (key logged : Bytes) (broadcast : Bool) {a : Array κ} (h : Sized a) :
    Sized (unsetVar key logged broadcast a).1 := by
  unfold unsetVar
  split
  · exact h
  · rename_i old hold
    have hkeys := entrySum_erase (fun key _ => key.length) a.vars key
    have hvalues := entrySum_erase (fun _ value => value.length) a.vars key
    rw [hold] at hkeys hvalues
    have hlen : keysLen a = key.length + entrySum (fun key _ => key.length) (a.vars.erase key) :=
      hkeys
    have hlen' : valuesLen a = old.length + entrySum (fun _ value => value.length)
      (a.vars.erase key) := hvalues
    refine sized_logUpdate _ _ ⟨?_, ?_, fun e he => h.free e (mem_pairs_erase he), h.netname⟩
    · rw [h.keys, int32_sub_part hlen]
      simp only [keysLen]
    · rw [h.values, int32_sub_part hlen']
      simp only [valuesLen]

/-- **Every change of an array keeps its counters.** -/
theorem sized_kept : Kept (Sized (κ := κ)) where
  set _ key value cset broadcast h hkey hvalue := sized_set key value cset broadcast h hkey hvalue
  unset _ key logged broadcast h _ := sized_unset key logged broadcast h
  flush a broadcast h := by
    have hempty : ∀ e ∈ pairs (∅ : Table), NulFree e.1 ∧ NulFree e.2 :=
      fun e he => absurd he List.not_mem_nil
    exact sized_logUpdate _ _ ⟨by simp [keysLen], by simp [valuesLen], hempty, h.netname⟩
  broadcast _ h := sized_broadcast h
  clear _ h := ⟨h.keys, h.values, h.free, h.netname⟩

/-! ## The length of the message -/

variable {order : HashOrder} {arrays : α → Array κ} {served : List α}

/-- `AppendReload` writes as much as the array needs. -/
theorem length_appendReload (order : HashOrder) (a : Array κ) :
    (appendReload order a).length = reloadLen a := by
  have hentry : ∀ e : Bytes × Bytes,
      (Cmd.set e.1 e.2).bytes.length = 3 + e.1.length + e.2.length := by
    intro e
    simp only [Cmd.bytes, asciz, List.length_cons, List.length_append, List.length_nil]
    omega
  have hsets : ((order.search (entries a.vars)).flatMap fun e => (Cmd.set e.1 e.2).bytes).length =
      entrySum (fun key value => 3 + key.length + value.length) a.vars := by
    rw [length_flatMap_eq, ← sumOf_pairs]
    exact (sumOf_congr fun e _ => hentry e).trans (sumOf_perm _ (order.perm (entries a.vars)))
  simp only [appendReload, reloadLen, List.length_cons, List.length_append, hsets]
  simp only [asciz, Cmd.bytes, List.length_cons, List.length_append, List.length_nil]
  omega

/-- The reload of all arrays of a server. -/
theorem length_reloads (order : HashOrder) (arrays : α → Array κ) (served : List α) :
    (served.flatMap fun name => appendReload order (arrays name)).length =
      sumOf (fun name => reloadLen (arrays name)) served := by
  rw [length_flatMap_eq]
  exact sumOf_congr fun name _ => length_appendReload order (arrays name)

/-- What an array needs, by its counts. -/
theorem reloadLen_eq (a : Array κ) :
    reloadLen a =
      3 + (entries a.vars).length * 3 + (keysLen a + valuesLen a + a.netname.length) := by
  have hsum : entrySum (fun key value => 3 + key.length + value.length) a.vars =
      (entries a.vars).length * 3 + keysLen a + valuesLen a := by
    rw [entrySum_add, entrySum_add, entrySum_const]
    rfl
  rw [reloadLen, hsum]
  omega

/-- What an array adds to the length `ClientInitMsg` counts. -/
theorem count_eq {a : Array κ} (h : Sized a) :
    int32 (3 + ((entries a.vars).length : Int) * 3 +
      (a.sizekeys + a.sizevalues + a.netname.length)) = int32 (reloadLen a : Nat) := by
  have hcount : (3 + ((entries a.vars).length : Int) * 3 +
      (a.sizekeys + a.sizevalues + a.netname.length)) =
      3 + ((entries a.vars).length : Int) * 3 + a.netname.length + a.sizekeys + a.sizevalues := by
    ring
  have hreload : ((reloadLen a : Nat) : Int) =
      3 + ((entries a.vars).length : Int) * 3 + a.netname.length + keysLen a + valuesLen a := by
    rw [reloadLen_eq]
    push_cast
    ring
  rw [hcount, hreload, h.keys, h.values, int32_add_int32, add_right_comm, int32_add_int32,
    add_right_comm]

/-- **`ClientInitMsg` allocates the length of all reloads, stored in an `int`.** -/
theorem initLen_eq (arrays : α → Array κ) (served : List α)
    (h : ∀ name ∈ served, Sized (arrays name)) :
    initLen arrays served = int32 (sumOf (fun name => reloadLen (arrays name)) served : Nat) := by
  induction served with
  | nil => rfl
  | cons name served ih =>
      have hrest := ih fun n hn => h n (List.mem_cons_of_mem _ hn)
      simp only [initLen, List.map_cons, List.sum_cons, List.length_cons] at hrest ⊢
      have hsum := int32_add_congr (count_eq (h name (by simp))) hrest
      rw [sumOf_cons, Nat.cast_add (reloadLen (arrays name)), ← hsum]
      push_cast
      ring_nf

/-! ## The message at the client -/

/-- The commands that rebuild an array. -/
def reloadCmds (order : HashOrder) (a : Array κ) : List Cmd :=
  .flush :: (order.search (entries a.vars)).map fun e => .set e.1 e.2

/-- The reload of an array is a block of an update message. -/
def reloadBlock (order : HashOrder) (a : Array κ) (h : Sized a) : Block where
  netname := a.netname
  cmds := reloadCmds order a
  netname_free := h.netname
  cmds_free := by
    intro cmd hcmd
    rcases List.mem_cons.mp hcmd with rfl | hcmd
    · trivial
    · obtain ⟨e, he, rfl⟩ := List.mem_map.mp hcmd
      exact h.free e ((order.perm _).mem_iff.mp he)

theorem reloadBlock_bytes (order : HashOrder) (a : Array κ) (h : Sized a) :
    (reloadBlock order a h).bytes = appendReload order a := by
  simp [Block.bytes, reloadBlock, reloadCmds, appendReload, List.flatMap_map, Cmd.bytes]

variable {β γ : Type} [DecidableEq β]

/-- The commands of an init message for the arrays of a client, in order. -/
def reloadCalls (order : HashOrder) (arrays : α → Array κ) (served : List α)
    (mapping : Bytes → Option β) : List (β × Cmd) :=
  served.flatMap fun name =>
    match mapping (arrays name).netname with
    | none => []
    | some n => (reloadCmds order (arrays name)).map (n, ·)

/-- The table a client's array gets: that of the last array of the server whose name is mapped to
it, or what it had. -/
def rebuilt (arrays : α → Array κ) (served : List α) (mapping : Bytes → Option β) (n : β)
    (t : Table) : Table :=
  served.foldl (fun t name => if mapping (arrays name).netname = some n then (arrays name).vars
    else t) t

/-- The commands that rebuild an array leave its map. -/
theorem lookup_reloadCmds (order : HashOrder) (a : Array κ) (t : Table) (key : Bytes) :
    ((reloadCmds order a).foldl (fun t cmd => cmd.run t) t).lookup key = a.vars.lookup key := by
  have hload : (reloadCmds order a).foldl (fun t cmd => cmd.run t) t =
      load (order.search (entries a.vars)) ∅ := by
    rw [reloadCmds, List.foldl_cons, List.foldl_map]
    rfl
  rw [hload]
  exact lookup_load_pairs (order.perm (entries a.vars)) key

/-- Commands for one array. -/
theorem runFor_map_self (n : β) (cmds : List Cmd) (t : Table) :
    runFor n (cmds.map (n, ·)) t = cmds.foldl (fun t cmd => cmd.run t) t := by
  simp [runFor, List.foldl_map]

theorem runFor_map_ne {n n' : β} (h : n ≠ n') (cmds : List Cmd) (t : Table) :
    runFor n' (cmds.map (n, ·)) t = t := by
  induction cmds with
  | nil => rfl
  | cons cmd cmds ih => simpa [runFor, h] using ih

/-- **The commands of an init message rebuild the arrays of a client.** -/
theorem lookup_reloadCalls (order : HashOrder) (arrays : α → Array κ) (served : List α)
    (mapping : Bytes → Option β) (n : β) {t t' : Table}
    (ht : ∀ key, t.lookup key = t'.lookup key) (key : Bytes) :
    (runFor n (reloadCalls order arrays served mapping) t).lookup key =
      (rebuilt arrays served mapping n t').lookup key := by
  induction served generalizing t t' with
  | nil => exact ht key
  | cons name served ih =>
      have hcalls : reloadCalls order arrays (name :: served) mapping =
          (match mapping (arrays name).netname with
            | none => []
            | some n => (reloadCmds order (arrays name)).map (n, ·)) ++
          reloadCalls order arrays served mapping := rfl
      rw [hcalls, runFor_append, rebuilt, List.foldl_cons]
      cases hmap : mapping (arrays name).netname with
      | none => exact ih ht
      | some n' =>
          by_cases hn : n' = n
          · subst hn
            simp only [if_true, runFor_map_self]
            exact ih fun key => lookup_reloadCmds order (arrays name) t key
          · simp only [Option.some.injEq, hn, if_false, runFor_map_ne hn]
            exact ih ht

/-- What is wanted of an init message: the counters are the lengths, the reloads fill what was
allocated, and a client makes the calls of each array on the array its name is mapped to and has
the maps of the server after them. -/
structure InitMsgRight (order : HashOrder) (arrays : α → Array κ) (served : List α)
    (mapping : Bytes → Option β) (client : World β γ) : Prop where
  keys : ∀ name ∈ served, (arrays name).sizekeys = keysLen (arrays name)
  values : ∀ name ∈ served, (arrays name).sizevalues = valuesLen (arrays name)
  fills : ((served.flatMap fun name => appendReload order (arrays name)).length : Int) =
    initLen arrays served
  rebuilds : ∃ client' st,
    recvUpdate mapping (served.flatMap fun name => appendReload order (arrays name)) client =
      some (client', st) ∧
    client'.calls = client.calls ++ reloadCalls order arrays served mapping ∧
    ∀ n key, (client'.table n).lookup key =
      (rebuilt arrays served mapping n (client.table n)).lookup key

/-- A client maps the names of all arrays of a server, or of none. -/
def MapsAll (arrays : α → Array κ) (served : List α) (mapping : Bytes → Option β) : Prop :=
  (∀ name ∈ served, (mapping (arrays name).netname).isSome) ∨
    ∀ name ∈ served, mapping (arrays name).netname = none

instance (arrays : α → Array κ) (served : List α) (mapping : Bytes → Option β) :
    Decidable (MapsAll arrays served mapping) :=
  inferInstanceAs (Decidable ((∀ name ∈ served, (mapping (arrays name).netname).isSome) ∨
    ∀ name ∈ served, mapping (arrays name).netname = none))

variable {mapping : Bytes → Option β} {client : World β γ}

/-- The blocks of an init message. -/
def reloadBlocks (order : HashOrder) (arrays : α → Array κ) (served : List α)
    (h : ∀ name, Sized (arrays name)) : List Block :=
  served.map fun name => reloadBlock order (arrays name) (h name)

theorem message_reloadBlocks (order : HashOrder) (h : ∀ name, Sized (arrays name)) :
    message (reloadBlocks order arrays served h) =
      served.flatMap fun name => appendReload order (arrays name) := by
  simp [message, reloadBlocks, List.flatMap_map, reloadBlock_bytes]

omit [DecidableEq β] in
theorem addressed_reloadBlocks (order : HashOrder) (h : ∀ name, Sized (arrays name)) :
    addressed mapping (reloadBlocks order arrays served h) =
      reloadCalls order arrays served mapping := by
  rw [addressed, reloadBlocks, List.flatMap_map]
  rfl

omit [DecidableEq β] in
/-- Every block of an init message has commands, so that it is addressed right only if the names
are all mapped or all not. -/
theorem addressable_reloadBlocks_iff (order : HashOrder) (h : ∀ name, Sized (arrays name)) :
    Addressable mapping (reloadBlocks order arrays served h) ↔ MapsAll arrays served mapping := by
  cases served with
  | nil => simp [reloadBlocks, Addressable, MapsAll]
  | cons name served =>
      show (if (mapping (arrays name).netname).isSome then
          ∀ c ∈ reloadBlocks order arrays served h, mapping c.netname = none → c.cmds = []
        else ∀ c ∈ reloadBlocks order arrays served h,
          (mapping c.netname).isSome → c.cmds = []) ↔ _
      have hcmds : ∀ c ∈ reloadBlocks order arrays served h, c.cmds ≠ [] := by
        intro c hc
        obtain ⟨n, -, rfl⟩ := List.mem_map.mp hc
        exact List.cons_ne_nil _ _
      have hblocks : ∀ p : Bytes → Prop, (∀ c ∈ reloadBlocks order arrays served h, p c.netname) ↔
          ∀ n ∈ served, p (arrays n).netname := by
        intro p
        simp [reloadBlocks, reloadBlock]
      cases hmap : mapping (arrays name).netname with
      | some n =>
          have hall : (∀ c ∈ reloadBlocks order arrays served h,
              mapping c.netname = none → c.cmds = []) ↔
              ∀ c ∈ reloadBlocks order arrays served h, (mapping c.netname).isSome := by
            refine forall₂_congr fun c hc => ?_
            simp [hcmds c hc, Option.isSome_iff_ne_none]
          simp only [Option.isSome_some, if_true, hall,
            hblocks fun netname => (mapping netname).isSome = true]
          simp [MapsAll, hmap]
      | none =>
          have hall : (∀ c ∈ reloadBlocks order arrays served h,
              (mapping c.netname).isSome → c.cmds = []) ↔
              ∀ c ∈ reloadBlocks order arrays served h, mapping c.netname = none := by
            refine forall₂_congr fun c hc => ?_
            simp [hcmds c hc]
          simp only [Option.isSome_none, Bool.false_eq_true, if_false, hall,
            hblocks fun netname => mapping netname = none]
          simp [MapsAll, hmap]

/-- **A client rebuilds its arrays from an init message exactly if it maps the names of all arrays
or of none.** -/
theorem rebuilds_iff (order : HashOrder) (served : List α) (mapping : Bytes → Option β)
    (client : World β γ) (h : ∀ name, Sized (arrays name)) :
    (∃ client' st,
      recvUpdate mapping (served.flatMap fun name => appendReload order (arrays name)) client =
        some (client', st) ∧
      client'.calls = client.calls ++ reloadCalls order arrays served mapping ∧
      ∀ n key, (client'.table n).lookup key =
        (rebuilt arrays served mapping n (client.table n)).lookup key) ↔
    MapsAll arrays served mapping := by
  cases hserved : served with
  | nil =>
      have hempty : recvUpdate mapping [] client = some (client, .error) := rfl
      refine ⟨fun _ => Or.inl (by simp), fun _ => ⟨client, .error, hempty, ?_, fun n key => rfl⟩⟩
      simp [reloadCalls]
  | cons name rest =>
      have hiff := recv_update_addressing_iff mapping (reloadBlock order (arrays name) (h name))
        (reloadBlocks order arrays rest h) client
      have hcons : reloadBlock order (arrays name) (h name) :: reloadBlocks order arrays rest h =
          reloadBlocks order arrays (name :: rest) h := rfl
      rw [hcons, message_reloadBlocks, addressable_reloadBlocks_iff] at hiff
      rw [← hiff]
      constructor
      · rintro ⟨client', st, hrun, hcalls, -⟩
        obtain ⟨client'', st', hrun', hdid⟩ := recvUpdate_made mapping
          (reloadBlock order (arrays name) (h name)) (reloadBlocks order arrays rest h) client
        rw [hcons, message_reloadBlocks, hrun] at hrun'
        obtain ⟨rfl, rfl⟩ : client' = client'' ∧ st = st' := by simpa using hrun'
        have hmade : (made mapping none (reloadBlocks order arrays (name :: rest) h)).1 =
            addressed mapping (reloadBlocks order arrays (name :: rest) h) := by
          rw [addressed_reloadBlocks]
          exact List.append_cancel_left (hdid.calls.symm.trans hcalls)
        exact ⟨client', st, hrun, hmade ▸ hdid.calls, hmade ▸ hdid.tables⟩
      · rintro ⟨client', st, hrun, hright⟩
        refine ⟨client', st, hrun, ?_, fun n key => ?_⟩
        · rw [hright.calls, addressed_reloadBlocks]
        · rw [hright.tables n, addressed_reloadBlocks]
          exact lookup_reloadCalls order arrays _ mapping n (fun _ => rfl) key

/-! ## Every state -/

/-- A freshly made array. -/
theorem sized_createArray {es : List (Bytes × Bytes)} (hes : ∀ e ∈ es, NulFree e.1 ∧ NulFree e.2) :
    Sized (createArray es : Array κ) := by
  have hsets : ∀ (es : List (Bytes × Bytes)) (a : Array κ),
      (∀ e ∈ es, NulFree e.1 ∧ NulFree e.2) → Sized a →
      Sized (es.foldl (fun a e => (setVar e.1 e.2 false false a).1) a) := by
    intro es
    induction es with
    | nil => exact fun _ _ h => h
    | cons e es ih =>
        intro a hes h
        obtain ⟨hkey, hvalue⟩ := hes e (by simp)
        exact ih _ (fun e he => hes e (List.mem_cons_of_mem _ he))
          (sized_set _ _ false false h hkey hvalue)
  have hempty : Sized ({} : Array κ) :=
    ⟨by simp [keysLen], by simp [valuesLen], fun e he => absurd he List.not_mem_nil,
      List.not_mem_nil⟩
  obtain ⟨hkeys, hvalues, hfree, hnetname⟩ := hsets es {} hes hempty
  exact ⟨hkeys, hvalues, hfree, hnetname⟩

theorem sized_serve (server : Option (κ × CStr)) {a : Array κ} (h : Sized a) :
    Sized (serve server a) := by
  unfold serve
  split
  · exact h
  · rename_i servPtr netname
    exact ⟨h.keys, h.values, h.free, netname.2⟩

/-- The configured arrays. -/
theorem Setup.sized (setup : Setup α κ) : setup.world.All Sized := by
  intro n
  refine sized_serve _ (sized_createArray fun e he => ?_)
  obtain ⟨e', -, rfl⟩ := List.mem_map.mp he
  exact ⟨e'.1.2, e'.2.2⟩

/-- The message `ClientInitMsg` builds is filled by the reloads when they are as long as it is. -/
theorem initMsg_data (order : HashOrder) (d : Server α κ)
    (hfills : ((d.served.flatMap fun name => appendReload order (d.arrays name)).length : Int) =
      initLen d.arrays d.served) :
    (d.initMsg order).data = d.served.flatMap fun name => appendReload order (d.arrays name) := by
  have hlen : (initLen d.arrays d.served).toNat =
      (d.served.flatMap fun name => appendReload order (d.arrays name)).length := by
    rw [← hfills, Int.toNat_natCast]
  show List.take _ (_ ++ _) = _
  rw [hlen, List.take_left']
  rfl

variable [DecidableEq α] {env : Env α κ} {setup : Setup α κ} {es : List (Event α κ)} {w : World α κ}

/-- **Init messages.** In every state of a run, for any arrays of a server and any client, the
init message is right exactly if it is shorter than 2^31 bytes and the client maps the names of
all arrays or of none. -/
theorem init_msg_right_iff (hrun : run (step env) setup.world es = some w) (order : HashOrder)
    (served : List α) (mapping : Bytes → Option β) (client : World β γ) :
    InitMsgRight order w.arrays served mapping client ↔
      sumOf (fun name => reloadLen (w.arrays name)) served < 2 ^ 31 ∧
        MapsAll w.arrays served mapping := by
  have hsized : w.All Sized := by
    have hstep : ∀ s e s', s.All Sized → step env s e = some s' → s'.All Sized :=
      fun s e s' hs hstep => step_all sized_kept
        (fun _ h => ⟨h.keys, h.values, h.free, h.netname⟩) hstep hs
    exact run_invariant_all hstep setup.sized hrun
  have hlen := initLen_eq w.arrays served fun name _ => hsized name
  have hrebuilds := rebuilds_iff order served mapping client hsized
  constructor
  · intro h
    refine ⟨?_, hrebuilds.mp h.rebuilds⟩
    have hfills := h.fills
    rw [length_reloads, hlen] at hfills
    exact int32_natCast_eq_iff.mp hfills.symm
  · rintro ⟨hshort, hmaps⟩
    have hle : ∀ name ∈ served, reloadLen (w.arrays name) < 2 ^ 31 := fun name hname =>
      lt_of_le_of_lt (le_sumOf (fun name => reloadLen (w.arrays name)) hname) hshort
    refine ⟨fun name hname => ?_, fun name hname => ?_, ?_, hrebuilds.mpr hmaps⟩
    · have hbound := hle name hname
      rw [reloadLen_eq] at hbound
      rw [(hsized name).keys]
      exact int32_natCast_eq_iff.mpr (by omega)
    · have hbound := hle name hname
      rw [reloadLen_eq] at hbound
      rw [(hsized name).values]
      exact int32_natCast_eq_iff.mpr (by omega)
    · rw [length_reloads, hlen]
      exact (int32_natCast_eq_iff.mpr hshort).symm

/-- Two arrays with the network names `x` and `y`; only the second has an entry. -/
def twoArrays : Setup Bool Unit where
  pairs name := if name then [] else [(toCStr [107], toCStr [49])]
  server name := some ((), if name then toCStr [120] else toCStr [121])

/-- A client that maps both names. -/
def mapsBoth (netname : Bytes) : Option Bool :=
  if netname = [120] then some true else if netname = [121] then some false else none

/-- The init message of both arrays is right for a client that maps both names, and for one that
maps only `x` it is not. -/
theorem init_msg_two_arrays :
    InitMsgRight listOrder twoArrays.world.arrays [true, false] mapsBoth
      ({ arrays := fun _ => {} } : World Bool Unit) :=
  (init_msg_right_iff (show run (step
    { plainEnv with find := fun _ => none, served := fun _ => [true, false] }) twoArrays.world [] =
      some twoArrays.world from rfl) listOrder [true, false] mapsBoth _).mpr ⟨by decide, by decide⟩

/-- A client that maps only `x` gets the entry of `y` in its array. -/
theorem init_msg_unmapped_name :
    ((recvUpdate mapsX ([true, false].flatMap fun name =>
        appendReload listOrder (twoArrays.world.arrays name))
        ({ arrays := fun _ => {} } : World Unit Unit)).map
          fun r => (r.1.table ()).lookup [107]) = some (some [49]) ∧
    (twoArrays.world.arrays true).vars.lookup [107] = none ∧
    ¬ InitMsgRight listOrder twoArrays.world.arrays [true, false] mapsX
      ({ arrays := fun _ => {} } : World Unit Unit) := by
  have hgot : ((recvUpdate mapsX ([true, false].flatMap fun name =>
      appendReload listOrder (twoArrays.world.arrays name))
      ({ arrays := fun _ => {} } : World Unit Unit)).map
        fun r => (r.1.table ()).lookup [107]) = some (some [49]) := by decide
  refine ⟨hgot, by decide, fun h => ?_⟩
  obtain ⟨client', st, hrun, -, htables⟩ := h.rebuilds
  rw [hrun] at hgot
  have hwant := htables () [107]
  have hlookup : (client'.table ()).lookup [107] = some [49] := by simpa using hgot
  rw [hlookup] at hwant
  exact absurd hwant (by decide)

end Nsdci.Nv
