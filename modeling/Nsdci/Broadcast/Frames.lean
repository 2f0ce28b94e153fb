import Nsdci.Broadcast.Clients

/-!
# What goes on the wire

The bytes on a connection are a prefix of the frames of the messages `MsgSend` was given for it:
the login, the init message if there is one, then queue messages. What is missing of the last
frame is what the client is still sending. This holds as long as no send on the connection times
out: the time-out drops the rest of the message but goes back to the connect state on the same
socket, so that the login frame goes out again, behind a frame that was cut.
-/

namespace Nsdci.Broadcast

open Lib

variable {σ : Type} {cfg : Config σ} {s s' : State σ} {e : Event σ} {c c' : Client} {k : Nat}

/-- What a client has still to send. -/
def Client.pending (c : Client) : Bytes := if c.msgPtr.isSome then c.bufPtr else []

/-- The frames of the messages handed to a connection. -/
def Conn.frames (conn : Conn) : Bytes := Lib.frames (conn.handed.map Prod.snd)

/-- Nothing was handed to a connection yet, or the login, an init message if any, and queue
messages. -/
def InOrder (login : Bytes) (handed : List (Kind × Bytes)) : Prop :=
  handed = [] ∨ ∃ inits queues : List Bytes, inits.length ≤ 1 ∧
    handed = (.login, login) :: (inits.map (Kind.init, ·) ++ queues.map (Kind.queue, ·))

/-- The connection `k`, if it is one of this client, carries whole frames in order: all of them,
with what is still to be sent, while it is open, and a prefix of them when it was closed. -/
structure Framed (cfg : Config σ) (k : Nat) (c : Client) : Prop where
  current : ∀ conn ∈ c.sock, conn.id = k →
    InOrder cfg.login.data conn.handed ∧ conn.wire ++ c.pending = conn.frames
  closed : ∀ conn ∈ c.closed, conn.id = k →
    InOrder cfg.login.data conn.handed ∧ conn.wire <+: conn.frames

/-- What the state of a client says of the messages handed to its connection. -/
def Handed (cfg : Config σ) (c : Client) (handed : List (Kind × Bytes)) : Prop :=
  match c.state with
  | .connect => handed = []
  | .login => ∃ queues : List Bytes,
      handed = (.login, cfg.login.data) :: queues.map (Kind.queue, ·) ∧
        (cfg.initProc.isSome → queues = [] ∧ c.msgPtr.isSome)
  | .ready => ∃ inits queues : List Bytes, inits.length ≤ 1 ∧
      handed = (.login, cfg.login.data) ::
        (inits.map (Kind.init, ·) ++ queues.map (Kind.queue, ·))

/-- What every move that is no time-out on the connection `k` keeps. -/
structure Sending (cfg : Config σ) (k : Nat) (c : Client) : Prop where
  handed : ∀ conn ∈ c.sock, conn.id = k → Handed cfg c conn.handed
  wire : ∀ conn ∈ c.sock, conn.id = k → conn.wire ++ c.pending = conn.frames
  closed : ∀ conn ∈ c.closed, conn.id = k →
    InOrder cfg.login.data conn.handed ∧ conn.wire <+: conn.frames

theorem Handed.inOrder {handed : List (Kind × Bytes)} (h : Handed cfg c handed) :
    InOrder cfg.login.data handed := by
  unfold Handed at h
  split at h
  · exact Or.inl h
  · obtain ⟨queues, heq, -⟩ := h
    exact Or.inr ⟨[], queues, by simp, by simpa using heq⟩
  · obtain ⟨inits, queues, hlen, heq⟩ := h
    exact Or.inr ⟨inits, queues, hlen, heq⟩

theorem Sending.framed (h : Sending cfg k c) : Framed cfg k c :=
  ⟨fun conn hconn hk => ⟨(h.handed conn hconn hk).inOrder, h.wire conn hconn hk⟩, h.closed⟩

/-- A step does not time out a send on the connection `k`. -/
def NoTimeout (k : Nat) (s : State σ) (e : Event σ) : Prop :=
  ∀ c ∈ timedOutClient s e, ∀ conn ∈ c.sock, conn.id ≠ k

/-- `NoTimeout` looks at one client at most. -/
instance decidableNoTimeout (k : Nat) (s : State σ) (e : Event σ) : Decidable (NoTimeout k s e) :=
  inferInstanceAs (Decidable (∀ c ∈ timedOutClient s e, ∀ conn ∈ c.sock, conn.id ≠ k))

/-- All the bytes of a message sent. -/
theorem Sending.done (h : Sending cfg k c) (hmsg : c.msgPtr.isSome) :
    ∀ conn ∈ (c.done cfg).sock, conn.id = k → ∃ conn₀ ∈ c.sock, conn₀.id = k ∧
      conn.handed = conn₀.handed ∧ conn.wire = conn.frames := by
  intro conn hconn hk
  obtain ⟨conn₀, hconn₀, rfl⟩ : ∃ conn₀ ∈ c.sock,
      { conn₀ with wire := conn₀.wire ++ c.bufPtr.take c.bufPtr.length } = conn := by
    simpa [Client.done, Client.sent] using hconn
  refine ⟨conn₀, hconn₀, hk, rfl, ?_⟩
  have hwire := h.wire conn₀ hconn₀ hk
  simpa [Client.pending, hmsg, Conn.frames] using hwire

/-- **A move that does not time out a send on the connection keeps its framing.** -/
theorem Sending.move (h : Sending cfg k c) (hmove : Move cfg s e c c') (hok : NoTimeout k s e) :
    Sending cfg k c' := by
  cases hmove with
  | same => exact h
  | connected hoff id =>
      refine ⟨?_, ?_, h.closed⟩
      · rintro conn hconn -
        obtain rfl : { id := id } = conn := by simpa using hconn
        rfl
      · rintro conn hconn -
        obtain rfl : { id := id } = conn := by simpa using hconn
        simp [Client.pending, hoff.msgPtr, Conn.frames]
  | login hon hstate clock =>
      have hnone := hon.connect hstate
      refine ⟨?_, ?_, h.closed⟩ <;> intro conn hconn hk <;>
        obtain ⟨conn₀, hconn₀, rfl⟩ : ∃ conn₀ ∈ c.sock,
          { conn₀ with handed := conn₀.handed ++ [(Kind.login, cfg.login.data)] } = conn := by
          simpa [Client.give] using hconn
      · have hempty : conn₀.handed = [] := by
          simpa [Handed, hstate] using h.handed conn₀ hconn₀ hk
        exact ⟨[], by simp [hempty], fun _ => ⟨rfl, rfl⟩⟩
      · have hempty : conn₀.handed = [] := by
          simpa [Handed, hstate] using h.handed conn₀ hconn₀ hk
        have hwire : conn₀.wire = [] := by
          simpa [Client.pending, hnone, Conn.frames, hempty] using h.wire conn₀ hconn₀ hk
        simp [Client.give, Client.pending, hwire, hempty, Conn.frames, Msg.wire_eq_frame]
  | progress hon hstate hmsg n hlt =>
      refine ⟨?_, ?_, h.closed⟩ <;> intro conn hconn hk <;>
        obtain ⟨conn₀, hconn₀, rfl⟩ : ∃ conn₀ ∈ c.sock,
          { conn₀ with wire := conn₀.wire ++ c.bufPtr.take n } = conn := by
          simpa [Client.sent] using hconn
      · exact h.handed conn₀ hconn₀ hk
      · have hwire := h.wire conn₀ hconn₀ hk
        simp only [Client.pending, hmsg, if_true] at hwire
        simp [Client.sent, Client.pending, hmsg, hwire, Conn.frames]
  | done hon hstate hmsg hplain =>
      refine ⟨?_, ?_, h.closed⟩ <;> intro conn hconn hk <;>
        obtain ⟨conn₀, hconn₀, hk₀, hhanded, hwire⟩ := h.done hmsg conn hconn hk
      · have hold := h.handed conn₀ hconn₀ hk₀
        rw [hhanded]
        cases hs : c.state with
        | connect => exact absurd hs hstate
        | login =>
            simp only [Handed, hs] at hold
            obtain ⟨queues, heq, -⟩ := hold
            simp only [Handed, Client.done, Client.sent, hs]
            exact ⟨queues, heq, fun hsome => by simp [hplain hs] at hsome⟩
        | ready => simpa [Handed, Client.done, Client.sent, hs] using hold
      · simpa [Client.pending, Client.done, Client.sent] using hwire
  | ready hon hstate id hmsg p hp hproc =>
      refine ⟨?_, ?_, h.closed⟩ <;> intro conn hconn hk <;>
        obtain ⟨conn₀, hconn₀, hk₀, hhanded, hwire⟩ := h.done (by simp [hmsg]) conn hconn hk
      · have hold := h.handed conn₀ hconn₀ hk₀
        simp only [Handed, hstate] at hold
        obtain ⟨queues, heq, -⟩ := hold
        rw [hhanded]
        exact ⟨[], queues, by simp, by simpa using heq⟩
      · simpa [Client.pending, Client.done, Client.sent] using hwire
  | init hon hstate id hmsg p hp id' hproc m hval clock =>
      refine ⟨?_, ?_, h.closed⟩ <;> intro conn hconn hk <;>
        obtain ⟨conn₁, hconn₁, rfl⟩ : ∃ conn₁ ∈ (c.done cfg).sock,
          { conn₁ with handed := conn₁.handed ++ [(Kind.init, m.data)] } = conn := by
          simpa [Client.give] using hconn
      · obtain ⟨conn₀, hconn₀, hk₀, hhanded, -⟩ := h.done (by simp [hmsg]) conn₁ hconn₁ hk
        have hold := h.handed conn₀ hconn₀ hk₀
        simp only [Handed, hstate] at hold
        obtain ⟨queues, heq, hnone⟩ := hold
        obtain ⟨rfl, -⟩ := hnone (by simp [hp])
        exact ⟨[m.data], [], by simp, by simp [hhanded, heq]⟩
      · obtain ⟨conn₀, hconn₀, hk₀, hhanded, hwire⟩ := h.done (by simp [hmsg]) conn₁ hconn₁ hk
        simp [Client.give, Client.pending, hwire, Conn.frames, Msg.wire_eq_frame]
  | timeout hon hmsg htime =>
      exact ⟨fun conn hconn hk => absurd hk (hok c htime conn hconn),
        fun conn hconn hk => absurd hk (hok c htime conn hconn), h.closed⟩
  | retried hon =>
      refine ⟨by simp [Client.retried], by simp [Client.retried], fun conn hconn hk => ?_⟩
      rcases List.mem_append.mp hconn with hcur | hold
      · have hconn₀ : conn ∈ c.sock := by simpa using hcur
        exact ⟨(h.handed conn hconn₀ hk).inOrder, ⟨c.pending, h.wire conn hconn₀ hk⟩⟩
      · exact h.closed conn hold hk
  | handed hon hstate hfree id hid m hval htaken clock =>
      have hclosed : (noteDue id c).closed = c.closed := by
        unfold noteDue
        split_ifs <;> rfl
      refine ⟨?_, ?_, by simpa [Client.give, hclosed] using h.closed⟩ <;> intro conn hconn hk <;>
        obtain ⟨conn₀, hconn₀, rfl⟩ : ∃ conn₀ ∈ c.sock,
          { conn₀ with handed := conn₀.handed ++ [(Kind.queue, m.data)] } = conn := by
          simpa [Client.give] using hconn
      · have hold := h.handed conn₀ hconn₀ hk
        cases hs : c.state with
        | connect => exact absurd hs hstate
        | login =>
            simp only [Handed, hs] at hold
            obtain ⟨queues, heq, hnone⟩ := hold
            simp only [Handed, Client.give, noteDue_state, hs]
            refine ⟨queues ++ [m.data], by simp [heq], fun hsome => ?_⟩
            exact absurd (hnone hsome).2 (by simp [hfree])
        | ready =>
            simp only [Handed, hs] at hold
            obtain ⟨inits, queues, hlen, heq⟩ := hold
            simp only [Handed, Client.give, noteDue_state, hs]
            exact ⟨inits, queues ++ [m.data], hlen, by simp [heq]⟩
      · have hwire := h.wire conn₀ hconn₀ hk
        simp only [Client.pending, hfree, Option.isSome_none, Bool.false_eq_true, if_false,
          List.append_nil] at hwire
        simp [Client.give, Client.pending, hwire, Conn.frames, Msg.wire_eq_frame]

/-- **Broadcast framing.** In every run in which no send on a connection times out, the bytes on
that connection are a prefix of whole frames: the login, the init message if any, then queue
messages. While it is open, what is missing of the last frame is still being sent. -/
theorem broadcast_framing (cfg : Config σ) (clients : Nat) (d : σ) (hd : cfg.holds d = 0) (k : Nat)
    (es : List (Event σ)) (s : State σ)
    (hok : Along (step cfg) (NoTimeout k) (start cfg clients d) es)
    (hrun : run (step cfg) (start cfg clients d) es = some s) :
    ∀ c ∈ s.clients, Framed cfg k c := by
  have hkeep : ∀ s e s', ((∃ leaked, Inv cfg leaked s) ∧ ∀ c ∈ s.clients, Sending cfg k c) →
      NoTimeout k s e → step cfg s e = some s' →
      (∃ leaked, Inv cfg leaked s') ∧ ∀ c ∈ s'.clients, Sending cfg k c := by
    rintro s e s' ⟨⟨leaked, hinv⟩, hsending⟩ hno hstep
    obtain ⟨L, hinv', -⟩ := hinv.step hstep
    refine ⟨⟨_, hinv'⟩, fun c' hc' => ?_⟩
    obtain ⟨c, hc, hmove⟩ := step_clients hinv hstep c' hc'
    exact (hsending c hc).move hmove hno
  have hstart : (∃ leaked, Inv cfg leaked (start cfg clients d)) ∧
      ∀ c ∈ (start cfg clients d).clients, Sending cfg k c := by
    refine ⟨⟨0, inv_start cfg clients d hd⟩, fun c hc => ?_⟩
    have hc' : c ∈ List.replicate clients { timeout := cfg.timeoutInterval : Client } := by
      simpa [State.clients, start, Pc.todo] using hc
    obtain ⟨-, rfl⟩ := List.mem_replicate.mp hc'
    exact ⟨by simp, by simp, by simp⟩
  have hall := run_invariant hkeep hstart hok hrun
  exact fun c hc => (hall.2 c hc).framed

/-- A broadcaster `nv` with no `initProc` and a send time-out of 5 seconds. -/
def plainConfig : Config Unit :=
  { name := [110, 118], name_lt := by decide, timeoutInterval := 5, stimeoutInterval := 5
    retryInterval := 2, initProc := none }

/-- A client connects and takes the first 5 bytes of the login frame. -/
def connectAndSend : List (Event Unit) :=
  [.round 0 [true], .client { pollout := true } (.sent 0) 0, .next [],
    .round 1 [], .client { pollout := true } (.sent 5) 0, .next []]

/-- After it the connection carries a prefix of the login frame. -/
theorem broadcast_framing_connectAndSend :
    ∃ s, run (step plainConfig) (start plainConfig 1 ()) connectAndSend = some s ∧
      ∀ c ∈ s.clients, Framed plainConfig 0 c := by
  obtain ⟨s, hs⟩ := Option.isSome_iff_exists.mp
    (show (run (step plainConfig) (start plainConfig 1 ()) connectAndSend).isSome by decide)
  exact ⟨s, hs, broadcast_framing plainConfig 1 () rfl 0 connectAndSend s (by decide) hs⟩

/-- The client can take no more until the time is over; then it takes everything. -/
def timeoutAndReconnect : List (Event Unit) :=
  connectAndSend ++
    [.round 6 [], .client {} .failed 6, .next [],
      .round 7 [], .client { pollout := true } (.sent 0) 7, .next [],
      .round 8 [], .client { pollout := true } (.sent 7) 8, .next []]

/-- The connections of a broadcaster that are open. -/
def State.conns (s : State σ) : List Conn := s.clients.filterMap Client.sock

/-- The bytes on the wire are then the first 5 of the login frame and the whole login frame again:
they do not start with a login frame, and the connection is still open. -/
theorem broadcast_timeout_cuts :
    (run (step plainConfig) (start plainConfig 1 ()) timeoutAndReconnect).map
        (fun s => s.conns.map Conn.wire) =
      some [[0, 0, 0, 3, 110, 0, 0, 0, 3, 110, 118, 0]] ∧
    ¬ frame plainConfig.login.data <+: [0, 0, 0, 3, 110, 0, 0, 0, 3, 110, 118, 0] ∧
    ¬ ∀ s ∈ run (step plainConfig) (start plainConfig 1 ()) timeoutAndReconnect,
      ∀ c ∈ s.clients, Framed plainConfig 0 c := by
  refine ⟨by decide, by decide, fun hall => ?_⟩
  have hhanded : (run (step plainConfig) (start plainConfig 1 ()) timeoutAndReconnect).map
      (fun s => s.conns.map fun conn => (conn.id, conn.handed)) =
      some [(0, [(.login, plainConfig.login.data), (.login, plainConfig.login.data)])] := by
    decide
  obtain ⟨s, hs, hconns⟩ := Option.map_eq_some_iff.mp hhanded
  obtain ⟨conn, hconn, heq⟩ := List.map_eq_singleton_iff.mp hconns
  obtain ⟨hid, htwice⟩ := Prod.mk.inj heq
  have hmem : conn ∈ s.clients.filterMap Client.sock := by
    rw [State.conns] at hconn
    simp [hconn]
  obtain ⟨c, hc, hsock⟩ := List.mem_filterMap.mp hmem
  obtain ⟨horder, -⟩ := (hall s hs c hc).current conn hsock hid
  rcases horder with hnil | ⟨inits, queues, hlen, heq⟩
  · simp [hnil] at htwice
  · rw [htwice] at heq
    cases inits <;> cases queues <;> simp at heq

end Nsdci.Broadcast
