import Nsdci.Msg
import Nsdci.Ns

/-!
# The message receiver (`receiver.c`)

`recvMsg` is `RecvMsg`, the callback the socket thread runs when a broadcaster's connection is
readable: it reads a length, then a message of that length, logs the connection in with the first
message and hands each later one to the receiver's callback. `Conn.step` plays one event of the
connection against the bytes the broadcaster has sent.

The specification is `received`: what the messages that have arrived whole should have caused.
The receiver meets it, however the stream is cut, as long as no message is empty. The body of an
empty message needs no read, but `RecvMsg` handles a message only after reading from it: the next
`recv` asks for 0 bytes, gets 0 and is taken for the end of the stream.
-/

namespace Nsdci.Receiver

open Lib

variable {ω : Type}

/-- `Dci_RecvProc` with its argument, over the state `ω` the callbacks work on. -/
abbrev RecvProc (ω : Type) := ω → Bytes → ω × Status

/-- The table `receivers`, by login. -/
abbrev Receivers (ω : Type) := Bytes → Option (RecvProc ω)

/-- `Sock`. `filled` are the bytes stored in `len` or in `ds` before `next`. -/
structure Sock (ω : Type) where
  recvPtr : Option (RecvProc ω)
  readlen : Bool
  filled : Bytes
  nleft : Nat

/-- `ResetSock`: back to the initial message read state. -/
def resetSock (s : Sock ω) : Sock ω :=
  { s with readlen := true, filled := [], nleft := 4 }

/-- What a new connection starts with (`RecvAccept`). -/
def recvAccept : Sock ω := resetSock { recvPtr := none, readlen := true, filled := [], nleft := 0 }

/-- Why `RecvMsg` is called, with the result of its `recv`: the bytes stored, none when it
returned 0. -/
inductive Wake where
  | recvd (bs : Bytes)
  | failed
  | exit
  deriving DecidableEq, Repr

/-- `RecvMsg`: the socket (`none` when it was closed), what the callback has done, and the
messages handed to it. -/
def recvMsg (receivers : Receivers ω) (s : Sock ω) (w : ω) :
    Wake → Option (Sock ω) × ω × List Bytes
  | .exit => (none, w, [])
  | .failed => (none, w, [])
  | .recvd bs =>
      if bs = [] then (none, w, [])
      else
        let s := { s with filled := s.filled ++ bs, nleft := s.nleft - bs.length }
        if s.nleft ≠ 0 then (some s, w, [])
        else if s.readlen then
          -- `Ns_DStringSetLength` takes an `int` and makes a negative length 0.
          let len := (int32 (ofBe32 s.filled)).toNat
          (some { s with readlen := false, filled := [], nleft := len }, w, [])
        else
          match s.recvPtr with
          | none =>
              match receivers (cstr s.filled) with
              | none => (none, w, [])
              | some proc => (some (resetSock { s with recvPtr := some proc }), w, [])
          | some proc =>
              match proc w s.filled with
              | (w, .ok) => (some (resetSock s), w, [s.filled])
              | (w, _) => (none, w, [s.filled])

/-- What happens on a connection: some bytes can be read (the kernel gives `n + 1` of them, or
as many as there are and were asked for), the peer has closed, `recv` fails, or the server
exits. -/
inductive Event where
  | read (n : Nat)
  | eof
  | failed
  | exit
  deriving DecidableEq, Repr

/-- A connection: its socket while it is open, what the callback has done, the messages it was
handed, and the bytes sent but not yet read. -/
structure Conn (ω : Type) where
  sock : Option (Sock ω)
  world : ω
  calls : List Bytes
  unread : Bytes

/-- Run `RecvMsg` on the result of one `recv`. -/
def Conn.wake (receivers : Receivers ω) (c : Conn ω) (s : Sock ω) (why : Wake)
    (unread : Bytes) : Conn ω :=
  let r := recvMsg receivers s c.world why
  { sock := r.1, world := r.2.1, calls := c.calls ++ r.2.2, unread := unread }

/-- The bytes one `recv` of `nleft` bytes returns. -/
def recvBytes (nleft n : Nat) (unread : Bytes) : Bytes := unread.take (min nleft (n + 1))

/-- One event. A connection with nothing to read is not woken. -/
def Conn.step (receivers : Receivers ω) (c : Conn ω) (ev : Event) : Conn ω :=
  match c.sock, ev with
  | none, _ => c
  | some s, .read n =>
      if c.unread = [] then c
      else
        let bs := recvBytes s.nleft n c.unread
        c.wake receivers s (.recvd bs) (c.unread.drop bs.length)
  | some s, .eof => c.wake receivers s (.recvd []) c.unread
  | some s, .failed => c.wake receivers s .failed c.unread
  | some s, .exit => c.wake receivers s .exit c.unread

/-- A connection accepted, on which the broadcaster sends these messages. -/
def accepted (w : ω) (msgs : List Msg) : Conn ω :=
  { sock := some recvAccept, world := w, calls := [], unread := msgs.flatMap Msg.wire }

/-- A whole run of a connection. -/
def run (receivers : Receivers ω) (w : ω) (msgs : List Msg) (evs : List Event) : Conn ω :=
  evs.foldl (Conn.step receivers) (accepted w msgs)

/-! ## What the messages should cause -/

/-- Messages handed to a callback in order, up to the first it fails on: what the callback has
done, the messages it was handed, and whether it accepted all of them. -/
def deliver (proc : RecvProc ω) : ω → List Bytes → ω × List Bytes × Bool
  | w, [] => (w, [], true)
  | w, d :: ds =>
      match proc w d with
      | (w, .ok) => let r := deliver proc w ds; (r.1, d :: r.2.1, r.2.2)
      | (w, _) => (w, [d], false)

/-- The receiver the first message logs in to. -/
def login (receivers : Receivers ω) (ds : List Bytes) : Option (RecvProc ω) :=
  ds.head?.bind fun d => receivers (cstr d)

/-- What these messages should have caused: the first is the login, and each later one is handed
to the receiver of that login. An unknown login is refused. -/
def received (receivers : Receivers ω) (w : ω) : List Bytes → ω × List Bytes × Bool
  | [] => (w, [], true)
  | d :: ds =>
      match receivers (cstr d) with
      | none => (w, [], false)
      | some proc => deliver proc w ds

/-- The messages that have arrived whole on a connection. -/
def arrived (msgs : List Msg) (c : Conn ω) : List Bytes :=
  whole (msgs.map Msg.data) ((msgs.flatMap Msg.wire).length - c.unread.length)

/-- A connection is right after these events: the messages that have arrived whole have caused
what they should, and it is open exactly if none was refused and nothing but reads happened. -/
structure Framed (receivers : Receivers ω) (w : ω) (msgs : List Msg) (evs : List Event)
    (c : Conn ω) : Prop where
  caused : (c.world, c.calls) =
    ((received receivers w (arrived msgs c)).1, (received receivers w (arrived msgs c)).2.1)
  loggedIn : ∀ s, c.sock = some s → s.recvPtr = login receivers (arrived msgs c)
  isOpen : c.sock.isSome ↔
    (received receivers w (arrived msgs c)).2.2 ∧ ∀ ev ∈ evs, ∃ n, ev = .read n

/-- One more message, when all before it were accepted. -/
theorem deliver_append (proc : RecvProc ω) {w w' : ω} {ds calls : List Bytes}
    (h : deliver proc w ds = (w', calls, true)) (es : List Bytes) :
    deliver proc w (ds ++ es) =
      ((deliver proc w' es).1, calls ++ (deliver proc w' es).2.1, (deliver proc w' es).2.2) := by
  induction ds generalizing w calls with
  | nil =>
      obtain ⟨rfl, rfl, -⟩ : w = w' ∧ [] = calls ∧ True := by simpa [deliver] using h
      simp
  | cons d ds ih =>
      rcases hproc : proc w d with ⟨w₁, st⟩
      cases st with
      | ok =>
          simp only [deliver, hproc, Prod.mk.injEq] at h
          obtain ⟨h₁, rfl, h₃⟩ := h
          have hrest : deliver proc w₁ ds = (w', (deliver proc w₁ ds).2.1, true) :=
            Prod.ext h₁ (Prod.ext rfl h₃)
          have := ih hrest
          simp [deliver, hproc, this]
      | error => simp [deliver, hproc] at h
      | timeout => simp [deliver, hproc] at h

/-- The stream of the messages is that of their data. -/
theorem flatMap_wire (msgs : List Msg) : msgs.flatMap Msg.wire = frames (msgs.map Msg.data) := by
  rw [frames, List.flatMap_map]
  rfl

/-! ## Every message non-empty -/

/-- An open connection on which `done` has been handled and `rest` is to come: what was read of
the length, or of the next message, is in `filled` and the rest of it is asked for. -/
structure Reading (receivers : Receivers ω) (w : ω) (ds done rest : List Bytes) (c : Conn ω)
    (s : Sock ω) : Prop where
  sock : c.sock = some s
  split : ds = done ++ rest
  caused : received receivers w done = (c.world, c.calls, true)
  loggedIn : s.recvPtr = login receivers done
  pos : 0 < s.nleft
  header : s.readlen = true → s.filled ++ c.unread = frames rest ∧ s.filled.length + s.nleft = 4
  body : s.readlen = false → ∃ d rest', rest = d :: rest' ∧
    s.filled ++ c.unread = d ++ frames rest' ∧ s.filled.length + s.nleft = d.length

variable {receivers : Receivers ω} {w : ω} {ds done rest : List Bytes} {c : Conn ω} {s : Sock ω}

/-- While a connection reads, exactly the messages handled have arrived whole. -/
theorem Reading.whole_eq (h : Reading receivers w ds done rest c s) :
    whole ds ((frames ds).length - c.unread.length) = done := by
  cases hmode : s.readlen with
  | true =>
      obtain ⟨hstream, hfour⟩ := h.header hmode
      have hpos := h.pos
      have hstream := congrArg List.length hstream
      have hat : (frames ds).length - c.unread.length = (frames done).length + s.filled.length := by
        simp only [h.split, frames_append, List.length_append] at hstream ⊢
        omega
      rw [hat, h.split, whole_append]
      cases rest with
      | nil => simp [whole]
      | cons d rest => rw [whole_of_lt (by omega), List.append_nil]
  | false =>
      obtain ⟨d, rest', rfl, hstream, hd⟩ := h.body hmode
      have hpos := h.pos
      have hstream := congrArg List.length hstream
      have hat : (frames ds).length - c.unread.length =
          (frames done).length + (4 + s.filled.length) := by
        simp only [h.split, frames_append, frames_cons, List.length_append, length_frame]
          at hstream ⊢
        omega
      rw [hat, h.split, whole_append, whole_of_lt (by omega), List.append_nil]

/-- A connection closed because a message was refused. -/
structure Refused (receivers : Receivers ω) (w : ω) (ds : List Bytes) (c : Conn ω) : Prop where
  sock : c.sock = none
  caused : received receivers w (whole ds ((frames ds).length - c.unread.length)) =
    (c.world, c.calls, false)

/-- One `recv` gives at least one byte, no more than asked for, and the rest stays unread. -/
theorem recvBytes_spec {nleft : Nat} (n : Nat) {unread : Bytes} (hpos : 0 < nleft)
    (hne : unread ≠ []) :
    recvBytes nleft n unread ≠ [] ∧ (recvBytes nleft n unread).length ≤ nleft ∧
      recvBytes nleft n unread ++ unread.drop (recvBytes nleft n unread).length = unread := by
  have hlen : (recvBytes nleft n unread).length = min (min nleft (n + 1)) unread.length := by
    simp [recvBytes]
  have hunread := List.length_pos_of_ne_nil hne
  exact ⟨List.ne_nil_of_length_pos (by omega), by omega,
    List.prefix_iff_eq_append.mp (List.take_prefix _ _)⟩

/-- One more message handled: what a longer list of messages causes. -/
theorem received_append {w' : ω} {calls : List Bytes} {proc : RecvProc ω}
    (h : received receivers w done = (w', calls, true))
    (hlogin : login receivers done = some proc) (d : Bytes) :
    received receivers w (done ++ [d]) =
      match proc w' d with
      | (w', .ok) => (w', calls ++ [d], true)
      | (w', _) => (w', calls ++ [d], false) := by
  cases done with
  | nil => simp [login] at hlogin
  | cons first done =>
      have hproc : receivers (cstr first) = some proc := by simpa [login] using hlogin
      simp only [received, hproc, List.cons_append] at h ⊢
      rw [deliver_append proc h]
      rcases hd : proc w' d with ⟨w'', st⟩
      cases st <;> simp [deliver, hd]

/-- The stream position right after a message: that message is whole as well. -/
theorem whole_next {d : Bytes} {unread : Bytes} (hsplit : ds = done ++ d :: rest)
    (hunread : unread = frames rest) :
    whole ds ((frames ds).length - unread.length) = done ++ [d] := by
  have hds : ds = (done ++ [d]) ++ rest := by simp [hsplit]
  have hat : (frames ds).length - unread.length = (frames (done ++ [d])).length + 0 := by
    rw [hds, hunread, frames_append, List.length_append, Nat.add_sub_cancel, Nat.add_zero]
  rw [hat, hds, whole_append]
  cases rest with
  | nil => simp [whole]
  | cons e rest => rw [whole_of_lt (by omega), List.append_nil]

/-- A `recv` that leaves something of the length or the message to read. -/
theorem Reading.partial_read (h : Reading receivers w ds done rest c s) {bs unread : Bytes}
    (hne : bs ≠ []) (hlt : bs.length < s.nleft) (hunread : bs ++ unread = c.unread) :
    ∃ s', Reading receivers w ds done rest (c.wake receivers s (.recvd bs) unread) s' := by
  have hleft : s.nleft - bs.length ≠ 0 := by omega
  refine ⟨{ s with filled := s.filled ++ bs, nleft := s.nleft - bs.length },
    ?_, h.split, ?_, h.loggedIn, by simp; omega, ?_, ?_⟩
  · simp [Conn.wake, recvMsg, hne, hleft]
  · simpa [Conn.wake, recvMsg, hne, hleft] using h.caused
  · intro hmode
    obtain ⟨hstream, hfour⟩ := h.header hmode
    refine ⟨?_, by simp; omega⟩
    rw [← hstream, ← hunread]
    simp [Conn.wake]
  · intro hmode
    obtain ⟨d, rest', hrest, hstream, hd⟩ := h.body hmode
    refine ⟨d, rest', hrest, ?_, by simp; omega⟩
    rw [← hstream, ← hunread]
    simp [Conn.wake]

/-- The `recv` that completes a length: the message it announces is read next. -/
theorem Reading.length_read (h : Reading receivers w ds done rest c s) {bs unread : Bytes}
    (hmode : s.readlen = true) (hne : bs ≠ []) (hlen : bs.length = s.nleft)
    (hunread : bs ++ unread = c.unread)
    (hds : ∀ d ∈ ds, d ≠ [] ∧ d.length + 4 < 2147483648) :
    ∃ s', Reading receivers w ds done rest (c.wake receivers s (.recvd bs) unread) s' := by
  obtain ⟨hstream, hfour⟩ := h.header hmode
  rw [← hunread, ← List.append_assoc] at hstream
  cases rest with
  | nil => simp_all
  | cons d rest' =>
      obtain ⟨hd, hsize⟩ := hds d (by simp [h.split])
      obtain ⟨hheader, hrest⟩ : s.filled ++ bs = be32 d.length ∧ unread = d ++ frames rest' := by
        apply List.append_inj
        · simpa [frame] using hstream
        · simp; omega
      have hread : (int32 (ofBe32 (s.filled ++ bs))).toNat = d.length := by
        rw [hheader, ofBe32_be32_natCast (by omega), int32_natCast_eq_iff.mpr (by omega)]
        exact Int.toNat_natCast _
      refine ⟨{ s with readlen := false, filled := [], nleft := d.length },
        ?_, h.split, ?_, h.loggedIn, List.length_pos_of_ne_nil hd, by simp, ?_⟩
      · simp [Conn.wake, recvMsg, hne, hlen, hmode, hread]
      · simpa [Conn.wake, recvMsg, hne, hlen, hmode] using h.caused
      · exact fun _ => ⟨d, rest', rfl, by simpa [Conn.wake] using hrest, by simp⟩

/-- The `recv` that completes a message: it is the login, or the callback is called with it. -/
theorem Reading.message_read (h : Reading receivers w ds done rest c s) {bs unread : Bytes}
    (hmode : s.readlen = false) (hne : bs ≠ []) (hlen : bs.length = s.nleft)
    (hunread : bs ++ unread = c.unread) :
    let c' := c.wake receivers s (.recvd bs) unread
    (∃ done rest s', Reading receivers w ds done rest c' s') ∨ Refused receivers w ds c' := by
  obtain ⟨d, rest', rfl, hstream, hd⟩ := h.body hmode
  rw [← hunread, ← List.append_assoc] at hstream
  obtain ⟨hmsg, hrest⟩ : s.filled ++ bs = d ∧ unread = frames rest' :=
    List.append_inj hstream (by simp; omega)
  have hwhole := whole_next h.split hrest
  have hsplit : ds = (done ++ [d]) ++ rest' := by simp [h.split]
  cases hlogin : s.recvPtr with
  | none =>
      have hdone : done = [] := by
        cases done with
        | nil => rfl
        | cons first done =>
            have hcaused := h.caused
            have hnone : receivers (cstr first) = none := by
              simpa [login, hlogin] using h.loggedIn.symm
            simp [received, hnone] at hcaused
      subst hdone
      obtain ⟨hworld, hcalls⟩ : w = c.world ∧ [] = c.calls := by
        simpa [received] using h.caused
      cases hproc : receivers (cstr d) with
      | none =>
          refine Or.inr ⟨?_, ?_⟩
          · simp [Conn.wake, recvMsg, hne, hlen, hmode, hlogin, hmsg, hproc]
          · simp [Conn.wake, recvMsg, hne, hlen, hmode, hlogin, hmsg, hproc, hwhole, received,
              hworld, ← hcalls]
      | some proc =>
          refine Or.inl ⟨[d], rest', resetSock { s with recvPtr := some proc },
            ?_, hsplit, ?_, ?_, by simp [resetSock], ?_, by simp [resetSock]⟩
          · simp [Conn.wake, recvMsg, hne, hlen, hmode, hlogin, hmsg, hproc, resetSock]
          · simp [Conn.wake, recvMsg, hne, hlen, hmode, hlogin, hmsg, hproc, received, deliver,
              hworld, ← hcalls]
          · simp [resetSock, login, hproc]
          · simp [resetSock, Conn.wake, hrest]
  | some proc =>
      have happend := received_append h.caused (h.loggedIn.symm.trans hlogin) d
      rcases hcall : proc c.world d with ⟨w', st⟩
      by_cases hok : st = .ok
      · subst hok
        have hlog : login receivers (done ++ [d]) = some proc := by
          rw [← hlogin, h.loggedIn]
          cases done with
          | nil => exact absurd (h.loggedIn.symm.trans hlogin) (by simp [login])
          | cons first done => simp [login]
        refine Or.inl ⟨done ++ [d], rest', resetSock s, ?_, hsplit, ?_, ?_, by simp [resetSock],
          ?_, by simp [resetSock]⟩
        · simp [Conn.wake, recvMsg, hne, hlen, hmode, hlogin, hmsg, hcall, resetSock]
        · simp [Conn.wake, recvMsg, hne, hlen, hmode, hlogin, hmsg, hcall, happend]
        · simp [resetSock, hlogin, hlog]
        · simp [resetSock, Conn.wake, hrest]
      · refine Or.inr ⟨?_, ?_⟩
        · cases st <;>
            simp_all [Conn.wake, recvMsg]
        · cases st <;>
            simp_all [Conn.wake, recvMsg]

/-- One read of an open connection. -/
theorem Reading.step_read (h : Reading receivers w ds done rest c s) (n : Nat)
    (hds : ∀ d ∈ ds, d ≠ [] ∧ d.length + 4 < 2147483648) :
    let c' := c.step receivers (.read n)
    (∃ done rest s', Reading receivers w ds done rest c' s') ∨ Refused receivers w ds c' := by
  by_cases hun : c.unread = []
  · exact Or.inl ⟨done, rest, s, by simpa [Conn.step, h.sock, hun] using h⟩
  · obtain ⟨hne, hle, hsplit⟩ := recvBytes_spec n h.pos hun
    simp only [Conn.step, h.sock, hun, if_false]
    rcases Nat.lt_or_eq_of_le hle with hlt | heq
    · exact Or.inl ⟨done, rest, h.partial_read hne hlt hsplit⟩
    · cases hmode : s.readlen with
      | true => exact Or.inl ⟨done, rest, h.length_read hmode hne heq hsplit hds⟩
      | false => exact h.message_read hmode hne heq hsplit

/-- A connection that is closed stays as it is. -/
theorem Conn.step_closed (h : c.sock = none) (ev : Event) : c.step receivers ev = c := by
  simp [Conn.step, h]

/-- The end of the stream, an error or an exit closes the connection and does nothing else. -/
theorem Conn.step_close (hsock : c.sock = some s) {ev : Event} (hev : ∀ n, ev ≠ .read n) :
    c.step receivers ev = { c with sock := none } := by
  cases ev with
  | read n => exact absurd rfl (hev n)
  | eof => simp [Conn.step, hsock, Conn.wake, recvMsg]
  | failed => simp [Conn.step, hsock, Conn.wake, recvMsg]
  | exit => simp [Conn.step, hsock, Conn.wake, recvMsg]

/-- What holds of a connection of non-empty messages after some events: it is open and reads, or
it was closed by an event or by a message refused. -/
inductive Sound (receivers : Receivers ω) (w : ω) (ds : List Bytes) (evs : List Event)
    (c : Conn ω) : Prop
  | reading (done rest : List Bytes) (s : Sock ω) (h : Reading receivers w ds done rest c s)
      (hevs : ∀ ev ∈ evs, ∃ n, ev = .read n)
  | refused (h : Refused receivers w ds c)
  | closed (hsock : c.sock = none)
      (hcaused : received receivers w (whole ds ((frames ds).length - c.unread.length)) =
        (c.world, c.calls, true))
      (hevs : ¬ ∀ ev ∈ evs, ∃ n, ev = .read n)

/-- One event keeps a connection sound. -/
theorem Sound.step {evs : List Event} (h : Sound receivers w ds evs c) (ev : Event)
    (hds : ∀ d ∈ ds, d ≠ [] ∧ d.length + 4 < 2147483648) :
    Sound receivers w ds (evs ++ [ev]) (c.step receivers ev) := by
  cases h with
  | reading done rest s h hevs =>
      by_cases hread : ∃ n, ev = .read n
      · obtain ⟨n, rfl⟩ := hread
        rcases h.step_read n hds with ⟨done, rest, s', h'⟩ | h'
        · exact .reading done rest s' h' (by simpa [or_imp, forall_and] using hevs)
        · exact .refused h'
      · rw [Conn.step_close h.sock fun n hn => hread ⟨n, hn⟩]
        exact .closed rfl (by simpa [h.whole_eq] using h.caused)
          fun hall => hread (hall ev (by simp))
  | refused h =>
      rw [Conn.step_closed h.sock]
      exact .refused h
  | closed hsock hcaused hevs =>
      rw [Conn.step_closed hsock]
      exact .closed hsock hcaused fun hall => hevs fun e he => hall e (by simp [he])

/-- A sound connection is right. -/
theorem Sound.framed {msgs : List Msg} {evs : List Event}
    (h : Sound receivers w (msgs.map Msg.data) evs c) : Framed receivers w msgs evs c := by
  have harr : arrived msgs c =
      whole (msgs.map Msg.data) ((frames (msgs.map Msg.data)).length - c.unread.length) := by
    rw [arrived, flatMap_wire]
  cases h with
  | reading done rest s h hevs =>
      rw [h.whole_eq] at harr
      refine ⟨by simp [harr, h.caused], ?_, by simpa [h.sock, harr, h.caused] using hevs⟩
      intro s' hs'
      obtain rfl : s = s' := Option.some.inj (h.sock.symm.trans hs')
      rw [harr, h.loggedIn]
  | refused h =>
      exact ⟨by simp [harr, h.caused], by simp [h.sock], by simp [h.sock, harr, h.caused]⟩
  | closed hsock hcaused hevs =>
      exact ⟨by simp [harr, hcaused], by simp [hsock], by simp [hsock, harr, hcaused, hevs]⟩

/-- A new connection has read nothing. -/
theorem accepted_reading (receivers : Receivers ω) (w : ω) (msgs : List Msg) :
    Reading receivers w (msgs.map Msg.data) [] (msgs.map Msg.data) (accepted w msgs)
      recvAccept where
  sock := rfl
  split := rfl
  caused := rfl
  loggedIn := rfl
  pos := by simp [recvAccept, resetSock]
  header _ := by simp [recvAccept, resetSock, accepted, flatMap_wire]
  body := by simp [recvAccept, resetSock]

/-- A run from any sound connection is sound. -/
theorem Sound.run {before : List Event} (h : Sound receivers w ds before c)
    (hds : ∀ d ∈ ds, d ≠ [] ∧ d.length + 4 < 2147483648) (evs : List Event) :
    Sound receivers w ds (before ++ evs) (evs.foldl (Conn.step receivers) c) := by
  induction evs generalizing c before with
  | nil => simpa using h
  | cons ev evs ih => simpa using ih (h.step ev hds)

/-- **When no message is empty, every run of the connection is right.** -/
theorem framed_of_nonempty (receivers : Receivers ω) (w : ω) (msgs : List Msg)
    (evs : List Event) (hmsgs : ∀ msg ∈ msgs, msg.data ≠ []) :
    Framed receivers w msgs evs (run receivers w msgs evs) := by
  have hds : ∀ d ∈ msgs.map Msg.data, d ≠ [] ∧ d.length + 4 < 2147483648 := by
    simp only [List.mem_map, forall_exists_index, and_imp, forall_apply_eq_imp_iff₂]
    exact fun msg hmem => ⟨hmsgs msg hmem, msg.size_lt⟩
  have hstart : Sound receivers w (msgs.map Msg.data) [] (accepted w msgs) :=
    .reading _ _ _ (accepted_reading receivers w msgs) (by simp)
  exact Sound.framed (by simpa [run] using hstart.run hds evs)

/-! ## An empty message -/

/-- Receivers that know every login and accept every message. -/
def acceptAll : Receivers ω := fun _ => some fun w _ => (w, .ok)

theorem deliver_acceptAll (w : ω) (ds : List Bytes) :
    deliver (fun w _ => (w, .ok)) w ds = (w, ds, true) := by
  induction ds with
  | nil => rfl
  | cons d ds ih => simp [deliver, ih]

@[simp] theorem received_acceptAll (w : ω) (ds : List Bytes) :
    received acceptAll w ds = (w, ds.tail, true) := by
  cases ds with
  | nil => rfl
  | cons d ds => simp [received, acceptAll, deliver_acceptAll]

/-- The events that read one message at a time: its length, then the message. -/
def readAll (ds : List Bytes) : List Event := ds.flatMap fun d => [.read 3, .read (d.length - 1)]

/-- Where a connection stands when the messages `done` have been read. -/
structure AtMessage (done : List Bytes) (unread : Bytes) (c : Conn ω) (s : Sock ω) : Prop where
  sock : c.sock = some s
  start : s = { resetSock s with recvPtr := s.recvPtr }
  loggedIn : s.recvPtr = login acceptAll done
  calls : c.calls = done.tail
  unread : c.unread = unread

/-- Reading a length. -/
theorem AtMessage.read_length {d tail : Bytes} (h : AtMessage done (frame d ++ tail) c s)
    (hsize : d.length + 4 < 2147483648) :
    c.step acceptAll (.read 3) =
      { c with
        sock := some { s with readlen := false, filled := [], nleft := d.length }
        unread := d ++ tail } := by
  have hstart := h.start
  have hmode : s.readlen = true := by rw [hstart]; rfl
  have hfilled : s.filled = [] := by rw [hstart]; rfl
  have hnleft : s.nleft = 4 := by rw [hstart]; rfl
  have hbs : recvBytes 4 3 c.unread = be32 d.length := by
    rw [recvBytes, h.unread, frame, List.append_assoc]
    exact List.take_left' rfl
  have hne : c.unread ≠ [] := by simp [h.unread, frame, be32]
  have hread : (int32 (ofBe32 (be32 d.length))).toNat = d.length := by
    rw [ofBe32_be32_natCast (by omega), int32_natCast_eq_iff.mpr (by omega)]
    exact Int.toNat_natCast _
  have hrest : c.unread.drop 4 = d ++ tail := by
    rw [h.unread, frame, List.append_assoc]
    exact List.drop_left' rfl
  have hbe : be32 d.length ≠ [] := by simp [be32]
  simp [Conn.step, h.sock, hne, hnleft, hbs, Conn.wake, recvMsg, hmode, hfilled, hread, hrest, hbe]

/-- Reading a whole message that is not empty. -/
theorem AtMessage.read_message {d tail : Bytes} (h : AtMessage done (frame d ++ tail) c s)
    (hsize : d.length + 4 < 2147483648) (hd : d ≠ []) :
    ∃ s', AtMessage (done ++ [d]) tail
      ((c.step acceptAll (.read 3)).step acceptAll (.read (d.length - 1))) s' := by
  have hpos := List.length_pos_of_ne_nil hd
  have hbs : recvBytes d.length (d.length - 1) (d ++ tail) = d := by
    rw [recvBytes, show min d.length (d.length - 1 + 1) = d.length by omega]
    exact List.take_left' rfl
  rw [h.read_length hsize]
  cases done with
  | nil =>
      have hnone : s.recvPtr = none := by rw [h.loggedIn]; rfl
      refine ⟨resetSock { s with recvPtr := some fun w _ => (w, .ok) }, ?_, rfl, rfl, ?_, ?_⟩
      · simp [Conn.step, hd, hbs, Conn.wake, recvMsg, hnone, acceptAll, resetSock]
      · simp [Conn.step, hd, hbs, Conn.wake, recvMsg, hnone, acceptAll, h.calls]
      · simp [Conn.step, hd, hbs, Conn.wake]
  | cons first done =>
      have hsome : s.recvPtr = some fun w _ => (w, .ok) := by rw [h.loggedIn]; rfl
      refine ⟨resetSock s, ?_, rfl, hsome, ?_, ?_⟩
      · simp [Conn.step, hd, hbs, Conn.wake, recvMsg, hsome, resetSock]
      · simp [Conn.step, hd, hbs, Conn.wake, recvMsg, hsome, h.calls]
      · simp [Conn.step, hd, hbs, Conn.wake]

/-- Reading several messages that are not empty. -/
theorem AtMessage.readAll {pre : List Bytes} {tail : Bytes}
    (h : AtMessage done (frames pre ++ tail) c s)
    (hpre : ∀ d ∈ pre, d ≠ [] ∧ d.length + 4 < 2147483648) :
    ∃ s', AtMessage (done ++ pre) tail ((readAll pre).foldl (Conn.step acceptAll) c) s' := by
  induction pre generalizing done c s with
  | nil => exact ⟨s, by simpa [Receiver.readAll] using h⟩
  | cons d pre ih =>
      obtain ⟨hd, hsize⟩ := hpre d (by simp)
      have hfirst : AtMessage done (frame d ++ (frames pre ++ tail)) c s := by simpa using h
      obtain ⟨s', h'⟩ := hfirst.read_message hsize hd
      obtain ⟨s'', h''⟩ := ih h' fun e he => hpre e (by simp [he])
      exact ⟨s'', by simpa [Receiver.readAll] using h''⟩

/-- **An empty message that has arrived has caused nothing.** -/
theorem not_framed_of_empty (w : ω) (msgs : List Msg) (hempty : ∃ msg ∈ msgs, msg.data = []) :
    ∃ evs, ¬ Framed acceptAll w msgs evs (run acceptAll w msgs evs) := by
  have hmem : ([] : Bytes) ∈ msgs.map Msg.data := by simpa [eq_comm] using hempty
  obtain ⟨pre, post, hsplit, hpre⟩ := List.eq_append_cons_of_mem hmem
  have hsize : ∀ d ∈ pre, d ≠ [] ∧ d.length + 4 < 2147483648 := by
    intro d hd
    obtain ⟨msg, -, rfl⟩ := List.mem_map.mp (hsplit ▸ List.mem_append_left _ hd)
    exact ⟨fun hnil => hpre (hnil ▸ hd), msg.size_lt⟩
  have hstart : AtMessage [] (frames pre ++ frames ([] :: post)) (accepted w msgs) recvAccept :=
    { sock := rfl, start := rfl, loggedIn := rfl, calls := rfl
      unread := by rw [accepted, flatMap_wire, hsplit, frames_append] }
  obtain ⟨s, hat⟩ := hstart.readAll hsize
  rw [frames_cons] at hat
  refine ⟨readAll pre ++ [.read 3], fun hframed => ?_⟩
  have hlast : run acceptAll w msgs (readAll pre ++ [.read 3]) =
      ((readAll pre).foldl (Conn.step acceptAll) (accepted w msgs)).step acceptAll (.read 3) := by
    simp [run]
  rw [hlast, hat.read_length (by simp)] at hframed
  obtain ⟨hcaused, hlogin, -⟩ := hframed
  have harr := whole_next hsplit (Eq.refl (frames post))
  simp only [arrived, flatMap_wire, List.nil_append] at hcaused hlogin
  rw [harr] at hcaused hlogin
  cases pre with
  | nil =>
      have := hlogin _ rfl
      simp [hat.loggedIn, login, acceptAll] at this
  | cons d pre => simp [hat.calls] at hcaused

/-- **Receiver framing.** Messages are received right, by any receivers and however their stream
is cut into reads, exactly if none of them is empty. -/
theorem receiver_framing_iff (w : ω) (msgs : List Msg) :
    (∀ receivers evs, Framed receivers w msgs evs (run receivers w msgs evs)) ↔
      ∀ msg ∈ msgs, msg.data ≠ [] := by
  constructor
  · intro hall msg hmem hnil
    obtain ⟨evs, hnot⟩ := not_framed_of_empty w msgs ⟨msg, hmem, hnil⟩
    exact hnot (hall _ evs)
  · exact fun hmsgs receivers evs => framed_of_nonempty receivers w msgs evs hmsgs

/-- A login `a`, an empty message and a message of one byte. -/
def withEmpty : List Msg :=
  [⟨[97], by decide⟩, ⟨[], by decide⟩, ⟨[98], by decide⟩]

/-- The connection with the empty message is closed at the first read behind it: the callback
was never called, though all that happened were reads and the login was accepted. -/
theorem receiver_drops_empty :
    let evs := [.read 3, .read 0, .read 3, .read 3]
    let c := run acceptAll () withEmpty evs
    c.sock.isNone ∧ c.calls = [] ∧ arrived withEmpty c = [[97], []] ∧
      ¬ Framed acceptAll () withEmpty evs c := by
  refine ⟨by decide, by decide, by decide, fun hframed => ?_⟩
  exact absurd (congrArg Prod.snd hframed.caused) (by decide)

end Nsdci.Receiver
