import Nsdci.Server

/-!
# Vectored sends (`Dci_ServerSendVec`, `Callback`)

A response is a list of vectors queued with `serverSendVec`; each writable event sends a prefix
of what the vectors describe and runs `callbackSend`. `sendRun` plays a sequence of `sendmsg`
results against a queued response and keeps the bytes put on the wire and the number of calls of
the server procedure.

`Dci_UpdateIov` and the loop of `Callback` agree exactly when the boundary of a short send does
not fall inside a vector that has bytes behind it (`SplitsClean`). Elsewhere the loop of
`Callback` also shortens every later vector, so bytes of those are never sent.
-/

namespace Nsdci.Server

open Lib

variable {β δ : Type}

/-! ## One advance of the vectors -/

/-- A boundary after `n` bytes of vectors of these lengths lies between two vectors, or inside
the last one that is not empty. -/
def SplitsClean : List Nat → Nat → Prop
  | [], _ => True
  | len :: lens, n => if len ≤ n then SplitsClean lens (n - len) else n = 0 ∨ lens.sum = 0

/-- `SplitsClean` can be checked vector by vector. -/
instance decidableSplitsClean : ∀ (lens : List Nat) (n : Nat), Decidable (SplitsClean lens n)
  | [], _ => inferInstanceAs (Decidable True)
  | len :: lens, n =>
      have := decidableSplitsClean lens (n - len)
      inferInstanceAs (Decidable (if len ≤ n then _ else _))

/-- The lengths of a list of vectors. -/
abbrev lens (iov : List (Iovec β)) : List Nat := iov.map Iovec.len

@[simp] theorem callbackIov_zero (iov : List (Iovec β)) : callbackIov iov 0 = iov := by
  cases iov <;> simp [callbackIov]

/-- Vectors that describe nothing are left alone by both loops. -/
theorem callbackIov_of_total_zero (iov : List (Iovec β)) (n : Nat) (h : total iov = 0) :
    callbackIov iov n = iov := by
  induction iov generalizing n with
  | nil => rfl
  | cons v iov ih =>
      have hv : v.len = 0 := by simp at h; omega
      have hiov : total iov = 0 := by simp at h; omega
      simp only [callbackIov]
      split_ifs <;> simp_all

/-- At a clean boundary the loop of `Callback` is `Dci_UpdateIov`. -/
theorem callbackIov_eq_updateIov (iov : List (Iovec β)) (n : Nat)
    (h : SplitsClean (lens iov) n) : callbackIov iov n = updateIov iov n := by
  induction iov generalizing n with
  | nil => rfl
  | cons v iov ih =>
      simp only [List.map_cons, SplitsClean] at h
      simp only [callbackIov, updateIov]
      split_ifs with hn hlen hle
      · rfl
      · rw [if_pos hle] at h
        rw [ih _ h]
      · rw [if_neg hle] at h
        have htotal : total iov = 0 := h.resolve_left hn
        rw [callbackIov_of_total_zero iov n htotal, updateIov_zero]
      · rw [if_pos (by omega)] at h
        rw [ih n (by simpa [show v.len = 0 by omega] using h)]

/-- The loop of `Callback` gives up at least the bytes sent. -/
theorem total_callbackIov_le (iov : List (Iovec β)) (n : Nat) :
    total (callbackIov iov n) ≤ total iov - n := by
  induction iov generalizing n with
  | nil => simp [callbackIov]
  | cons v iov ih =>
      have hrest := ih n
      have hfull := ih (n - v.len)
      simp only [callbackIov]
      split_ifs <;> simp <;> omega

/-- At any other boundary it gives up more: bytes of a later vector are lost. -/
theorem total_callbackIov_lt (iov : List (Iovec β)) (n : Nat)
    (h : ¬ SplitsClean (lens iov) n) : total (callbackIov iov n) < total iov - n := by
  induction iov generalizing n with
  | nil => exact absurd trivial h
  | cons v iov ih =>
      simp only [List.map_cons, SplitsClean] at h
      simp only [callbackIov]
      split_ifs with hn hlen hle
      · subst hn
        split_ifs at h with hle
        · have := ih 0 (by simpa using h)
          simp at this
        · exact absurd (Or.inl rfl) h
      · rw [if_pos hle] at h
        have := ih _ h
        simp only [total_cons, Iovec.len_null]
        omega
      · rw [if_neg hle, not_or] at h
        have hpos : total iov ≠ 0 := h.2
        have := total_callbackIov_le iov n
        simp only [total_cons, Iovec.len_advance]
        omega
      · rw [if_pos (by omega)] at h
        have := ih n (by simpa [show v.len = 0 by omega] using h)
        simp only [total_cons]
        omega

/-- **The loop of `Callback` leaves the bytes `Dci_UpdateIov` leaves exactly at a clean
boundary.** -/
theorem gather_callbackIov_iff (m : Mem β) (iov : List (Iovec β)) (n : Nat) :
    gather m (callbackIov iov n) = gather m (updateIov iov n) ↔ SplitsClean (lens iov) n := by
  constructor
  · intro h
    by_contra hclean
    have hlen := congrArg List.length h
    have hlt := total_callbackIov_lt iov n hclean
    simp only [length_gather, total_updateIov] at hlen
    omega
  · intro h
    rw [callbackIov_eq_updateIov iov n h]

/-- After a clean advance, boundaries are counted from the bytes already sent. -/
theorem splitsClean_updateIov (iov : List (Iovec β)) (s k : Nat)
    (h : SplitsClean (lens iov) s) :
    SplitsClean (lens (updateIov iov s)) k ↔ SplitsClean (lens iov) (s + k) := by
  induction iov generalizing s with
  | nil => simp [updateIov, SplitsClean]
  | cons v iov ih =>
      simp only [List.map_cons, SplitsClean] at h
      simp only [updateIov]
      split_ifs with hs hlen hle
      · simp [hs]
      · rw [if_pos hle] at h
        have hsub : s + k - v.len = s - v.len + k := by omega
        simpa [SplitsClean, show v.len ≤ s + k by omega, hsub] using ih _ h
      · rw [if_neg hle] at h
        have hsum : (lens iov).sum = 0 := h.resolve_left hs
        simp only [List.map_cons, SplitsClean, Iovec.len_advance, updateIov_zero, hsum, or_true]
        have hrest : ∀ j, SplitsClean (lens iov) j := by
          intro j
          by_contra hj
          have := total_callbackIov_lt iov j hj
          have htotal : total iov = 0 := hsum
          omega
        simp [hrest]
      · rw [if_pos (by omega)] at h
        have hv : v.len = 0 := by omega
        simpa [SplitsClean, hv] using ih s (by simpa [hv] using h)

/-! ## A whole response -/

/-- A response on its way: the bytes on the wire so far, how often the server procedure was
called with `DCI_SERVER_SEND`, and whether the response is still queued. -/
structure SendRun (β δ : Type) where
  env : Env β δ
  wire : Bytes
  calls : Nat
  live : Bool

/-- A response just queued with `serverSendVec`. -/
def queued (env : Env β δ) (iov : List (Iovec β)) : SendRun β δ :=
  { env := { env with client := serverSendVec env.client iov }, wire := [], calls := 0,
    live := true }

/-- One writable event at which `sendmsg` takes `k` bytes. -/
def sendEvent (r : SendRun β δ) (k : Nat) : SendRun β δ :=
  let out := callbackSend r.env k false
  { env := out.1
    wire := r.wire ++ (gather r.env.mem r.env.client.iov).take k
    calls := if out.2 = none then r.calls + 1 else r.calls
    live := out.2 = some .ok }

/-- A sequence of writable events. -/
def sendRun (r : SendRun β δ) (ks : List Nat) : SendRun β δ := ks.foldl sendEvent r

/-- The results successive calls of `sendmsg` can have: while the response is queued, each takes
at least one byte and at most what the vectors still describe, and never more than an `int`
holds (the kernel transfers less than 2 GiB a call). -/
def SendResults : SendRun β δ → List Nat → Prop
  | _, [] => True
  | r, k :: ks =>
      r.live = true ∧ 1 ≤ k ∧ k ≤ total r.env.client.iov ∧ k < 2 ^ 31 ∧
        SendResults (sendEvent r k) ks

/-- `SendResults` can be checked event by event. -/
instance decidableSendResults :
    ∀ (r : SendRun β δ) (ks : List Nat), Decidable (SendResults r ks)
  | _, [] => inferInstanceAs (Decidable True)
  | r, k :: ks =>
      have := decidableSendResults (sendEvent r k) ks
      inferInstanceAs (Decidable (_ ∧ _ ∧ _ ∧ _ ∧ _))

/-- After `n` bytes: they are the first `n` of the response, the vectors describe the rest (as
`Dci_UpdateIov` would have them), and the procedure was called exactly if they are all. -/
structure SentSoFar (m : Mem β) (iov : List (Iovec β)) (n : Nat) (r : SendRun β δ) : Prop where
  wire : r.wire = (gather m iov).take n
  remaining : gather m r.env.client.iov = gather m (updateIov iov n)
  calls : r.calls = if 0 < n ∧ n = total iov then 1 else 0
  live : n < total iov → r.live = true

/-- The condition a send that ends after `n` bytes must meet: the boundary is clean, and `nleft`
does not wrap to 0 before the end. -/
def CleanSend (lens : List Nat) (n : Nat) : Prop :=
  SplitsClean lens n ∧ (n = lens.sum ∨ ¬ (4294967296 ∣ lens.sum - n))

/-- Every send of a sequence is clean, from `s` bytes on. -/
def CleanSends (lens : List Nat) : Nat → List Nat → Prop
  | _, [] => True
  | s, k :: ks => CleanSend lens (s + k) ∧ CleanSends lens (s + k) ks

/-- The state of a response after `s` bytes when all went well and some are left. -/
structure Sending (m : Mem β) (iov : List (Iovec β)) (s : Nat) (r : SendRun β δ) : Prop where
  mem : r.env.mem = m
  vectors : r.env.client.iov = updateIov iov s
  nleft : r.env.client.nleft = int32 (total iov - s : Int)
  clean : SplitsClean (lens iov) s
  more : s = 0 ∨ s < total iov
  wire : r.wire = (gather m iov).take s
  calls : r.calls = 0
  live : r.live = true

theorem splitsClean_zero (lens : List Nat) : SplitsClean lens 0 := by
  induction lens with
  | nil => trivial
  | cons len lens ih =>
      simp only [SplitsClean]
      split_ifs
      · simpa using ih
      · exact Or.inl trivial

/-- A response starts with nothing sent. -/
theorem queued_sending (env : Env β δ) (iov : List (Iovec β)) :
    Sending env.mem iov 0 (queued env iov) where
  mem := rfl
  vectors := by simp [queued, serverSendVec]
  nleft := by simp [queued, serverSendVec_nleft]
  clean := splitsClean_zero _
  more := Or.inl rfl
  wire := by simp [queued]
  calls := rfl
  live := rfl

/-- What `Callback` does with a count that fits an `int`. -/
theorem sendEvent_spec (r : SendRun β δ) {k : Nat} (hpos : 1 ≤ k) (hk : k < 2 ^ 31) :
    let left := int32 (r.env.client.nleft - k)
    let r' := sendEvent r k
    r'.env.mem = r.env.mem ∧ r'.env.client.iov = callbackIov r.env.client.iov k ∧
      r'.env.client.nleft = left ∧ r'.calls = (if left = 0 then r.calls + 1 else r.calls) ∧
      r'.live = decide (left ≠ 0) := by
  have hint : int32 k = k := int32_natCast_eq_iff.mpr hk
  have hnot : k ≠ 0 := by omega
  have hout : callbackSend r.env k false = callbackSent r.env k false := by
    rw [callbackSend, hint]
  by_cases hleft : int32 (r.env.client.nleft - k) = 0 <;>
    simp [sendEvent, hout, callbackSent, hnot, hleft]

/-- The count left is 0 as an `int` at the end and at every multiple of 2^32 before it. -/
theorem nleft_eq_zero_iff {t n : Nat} (h : n ≤ t) :
    int32 (t - n : Int) = 0 ↔ 4294967296 ∣ t - n := by
  rw [int32_eq_zero_iff, ← Nat.cast_sub h]
  exact_mod_cast Iff.rfl

variable {m : Mem β} {iov : List (Iovec β)} {r : SendRun β δ} {s k : Nat}

/-- The bytes still described while a response goes well. -/
theorem Sending.total_eq (h : Sending m iov s r) : total r.env.client.iov = total iov - s := by
  rw [h.vectors, total_updateIov]

/-- A clean send delivers its bytes. -/
theorem Sending.sentSoFar (h : Sending m iov s r) (hpos : 1 ≤ k) (hk : k < 2 ^ 31)
    (hle : k ≤ total r.env.client.iov) (hclean : CleanSend (lens iov) (s + k)) :
    SentSoFar m iov (s + k) (sendEvent r k) := by
  obtain ⟨hmem, hiov, -, hcalls, hlive⟩ := sendEvent_spec r hpos hk
  obtain ⟨hsplit, hend⟩ := hclean
  have htotal := h.total_eq
  have hs := h.more
  have hleft : int32 (r.env.client.nleft - k) = 0 ↔ s + k = total iov := by
    rw [h.nleft, int32_int32_sub, show (total iov - s - k : Int) = total iov - (s + k : Nat) by
      push_cast; omega, nleft_eq_zero_iff (by omega)]
    exact ⟨fun hdvd => hend.resolve_right (not_not.mpr hdvd), fun heq => by simp [heq]⟩
  refine ⟨?_, ?_, ?_, ?_⟩
  · have hwire : (sendEvent r k).wire = r.wire ++ (gather r.env.mem r.env.client.iov).take k := rfl
    rw [hwire, h.wire, h.mem, h.vectors, gather_updateIov, List.take_add]
  · rw [hiov, h.vectors, callbackIov_eq_updateIov _ _ ((splitsClean_updateIov _ _ _ h.clean).mpr
      hsplit), updateIov_updateIov]
  · simp only [hcalls, hleft, h.calls]
    split_ifs <;> omega
  · intro hlt
    have hne : int32 (r.env.client.nleft - k) ≠ 0 := fun h0 => by
      have := hleft.mp h0
      omega
    simp [hlive, hne]

/-- After a clean send that is not the last the response goes on well. -/
theorem Sending.next (h : Sending m iov s r) (hpos : 1 ≤ k) (hk : k < 2 ^ 31)
    (hle : k ≤ total r.env.client.iov) (hclean : CleanSend (lens iov) (s + k))
    (hlt : s + k < total iov) : Sending m iov (s + k) (sendEvent r k) := by
  obtain ⟨hmem, hiov, hnleft, -, -⟩ := sendEvent_spec r hpos hk
  have hsent := h.sentSoFar hpos hk hle hclean
  refine ⟨hmem.trans h.mem, ?_, ?_, hclean.1, Or.inr hlt, hsent.wire, ?_, hsent.live hlt⟩
  · rw [hiov, h.vectors, callbackIov_eq_updateIov _ _ ((splitsClean_updateIov _ _ _ h.clean).mpr
      hclean.1), updateIov_updateIov]
  · rw [hnleft, h.nleft, int32_int32_sub]
    exact congrArg int32 (by push_cast; omega)
  · rw [hsent.calls, if_neg (by omega)]

/-- A send that delivers its bytes is clean. -/
theorem Sending.cleanSend (h : Sending m iov s r) (hpos : 1 ≤ k) (hk : k < 2 ^ 31)
    (hle : k ≤ total r.env.client.iov) (hsent : SentSoFar m iov (s + k) (sendEvent r k)) :
    CleanSend (lens iov) (s + k) := by
  obtain ⟨-, hiov, -, -, hlive⟩ := sendEvent_spec r hpos hk
  have htotal := h.total_eq
  have hs := h.more
  constructor
  · rw [← splitsClean_updateIov _ _ _ h.clean, ← gather_callbackIov_iff m, ← h.vectors, ← hiov,
      hsent.remaining, h.vectors, updateIov_updateIov]
  · by_cases heq : s + k = total iov
    · exact Or.inl heq
    · right
      intro hdvd
      have hzero : int32 (r.env.client.nleft - k) = 0 := by
        rw [h.nleft, int32_int32_sub, show (total iov - s - k : Int) = total iov - (s + k : Nat) by
          push_cast; omega, nleft_eq_zero_iff (by omega)]
        exact hdvd
      have := hsent.live (by omega)
      simp [hlive, hzero] at this

/-- While all goes well the bytes sent are the first of the response. -/
theorem Sending.sentSoFar_self (h : Sending m iov s r) : SentSoFar m iov s r where
  wire := h.wire
  remaining := by rw [h.vectors]
  calls := by
    have hs := h.more
    rw [h.calls, if_neg (by omega)]
  live _ := h.live

/-- When the last byte has gone no send can follow. -/
theorem SentSoFar.results_nil {n : Nat} (h : SentSoFar m iov n r) (hn : total iov ≤ n)
    {ks : List Nat} (hks : SendResults r ks) : ks = [] := by
  cases ks with
  | nil => rfl
  | cons k ks =>
      obtain ⟨-, hpos, hle, -⟩ := hks
      have hlen := congrArg List.length h.remaining
      simp only [length_gather, total_updateIov] at hlen
      omega

/-- From any point where all went well, the rest of a response is delivered exactly if every
further send is clean. -/
theorem Sending.delivered_iff (h : Sending m iov s r) (ks : List Nat) (hks : SendResults r ks) :
    (∀ j ≤ ks.length, SentSoFar m iov (s + (ks.take j).sum) (sendRun r (ks.take j))) ↔
      CleanSends (lens iov) s ks := by
  induction ks generalizing s r with
  | nil => simpa [CleanSends, sendRun] using h.sentSoFar_self
  | cons k ks ih =>
      obtain ⟨-, hpos, hle, hk, hrest⟩ := hks
      constructor
      · intro hall
        have hsent : SentSoFar m iov (s + k) (sendEvent r k) := by
          simpa [sendRun] using hall 1 (by simp)
        have hclean := h.cleanSend hpos hk hle hsent
        refine ⟨hclean, ?_⟩
        by_cases hlt : s + k < total iov
        · refine (ih (h.next hpos hk hle hclean hlt) hrest).mp fun j hj => ?_
          simpa [sendRun, Nat.add_assoc] using hall (j + 1) (by simpa using hj)
        · rw [hsent.results_nil (by omega) hrest]
          trivial
      · rintro ⟨hclean, hcleans⟩ j hj
        have hsent := h.sentSoFar hpos hk hle hclean
        cases j with
        | zero => simpa [sendRun] using h.sentSoFar_self
        | succ j =>
            by_cases hlt : s + k < total iov
            · have := (ih (h.next hpos hk hle hclean hlt) hrest).mpr hcleans j (by simpa using hj)
              simpa [sendRun, Nat.add_assoc] using this
            · have hnil := hsent.results_nil (by omega) hrest
              simpa [sendRun, hnil] using hsent

/-- **Vectored send.** A response of any vectors is delivered by any sequence of short sends,
every byte once and in order, with the procedure called when the last byte has gone, exactly if
no send ends inside a vector that has bytes behind it and no proper prefix leaves a multiple of
2^32 bytes. -/
theorem server_send_iff (env : Env β δ) (iov : List (Iovec β)) (ks : List Nat)
    (hks : SendResults (queued env iov) ks) :
    (∀ j ≤ ks.length, SentSoFar env.mem iov (ks.take j).sum
        (sendRun (queued env iov) (ks.take j))) ↔
      CleanSends (lens iov) 0 ks := by
  simpa using (queued_sending env iov).delivered_iff ks hks

/-- A client in front of a memory whose byte at offset `i` is `i`. -/
def countingEnv : Env Unit Unit :=
  { client := {}, stats := {}, mem := fun _ i => UInt8.ofNat i, data := () }

/-- An RPC reply: the 8-byte header and 4 bytes of data. -/
def smallReply : List (Iovec Unit) := [.mk' ⟨(), 0⟩ 8, .mk' ⟨(), 8⟩ 4]

/-- The reply goes out whole when the first send takes the header and the others the data. -/
theorem server_send_smallReply :
    SentSoFar countingEnv.mem smallReply 12 (sendRun (queued countingEnv smallReply) [8, 1, 3]) :=
  (server_send_iff countingEnv smallReply [8, 1, 3] (by decide)).mpr
    ⟨⟨by decide, by decide⟩, ⟨by decide, by decide⟩, ⟨by decide, by decide⟩, trivial⟩ 3 le_rfl

/-- A first send of 5 bytes ends inside the header. The 3 header bytes left go out next, but the
data is lost: the vectors are empty, 4 bytes are still counted and the procedure was not called. -/
theorem server_send_loses_data :
    let r := sendRun (queued countingEnv smallReply) [5, 3]
    SendResults (queued countingEnv smallReply) [5, 3] ∧
      r.wire = [0, 1, 2, 3, 4, 5, 6, 7] ∧ total r.env.client.iov = 0 ∧
      r.env.client.nleft = 4 ∧ r.calls = 0 ∧
      ¬ ∀ j ≤ 2, SentSoFar countingEnv.mem smallReply ([5, 3].take j).sum
        (sendRun (queued countingEnv smallReply) ([5, 3].take j)) := by
  refine ⟨by decide, by decide, by decide, by decide, by decide, fun h => ?_⟩
  have hremaining := congrArg List.length (h 1 (by decide)).remaining
  exact absurd hremaining (by decide)

end Nsdci.Server
