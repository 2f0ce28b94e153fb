import Nsdci.Proxies.Steps

/-!
# Whose answer a call gets

While a call has a proxy, the bytes in the pipes and in the child are those of its own script or of
the record of its evaluation (`Phase`). A proxy that is put back has nothing in its pipes (`Quiet`),
as long as no call whose read failed puts its proxy back still running (`Safe`).
-/

namespace Nsdci.Proxies

open Lib Function

/-- The record of an evaluation. -/
def Evaluation.record (e : Evaluation) : Bytes := TclExport.tclExport e.interp e.code [] none

/-- The code and what Tcl is handed for an evaluation. -/
def Evaluation.result (e : Evaluation) : Int × List TclExport.Handed :=
  (e.code, TclExport.handedAll (e.interp.strs e.code) none)

/-- The child evaluated the script in some state of its interpreter. -/
def Evaluation.Of {σ : Type} (tcl : Eval σ) (e : Evaluation) : Prop :=
  ∃ st, (tcl.eval st e.script).2 = (e.code, e.interp)

/-- An evaluation. -/
def evaluation {σ : Type} (tcl : Eval σ) (st : σ) (script : Bytes) : Evaluation :=
  ⟨script, (tcl.eval st script).2.1, (tcl.eval st script).2.2⟩

/-- The answer of a call is the result of an evaluation of its script. -/
def Sender.Right {σ : Type} (tcl : Eval σ) (snd : Sender) : Prop :=
  ∀ answer ∈ snd.answer, ∃ e : Evaluation, e.Of tcl ∧ e.script = snd.script.text ∧
    answer = (e.result, some e)

/-- Every call gets its own answer, and no running proxy is idle with a request that was begun and
a response that was not completely read. -/
structure Paired {σ : Type} (tcl : Eval σ) (s : State σ) : Prop where
  right : ∀ t, (s.senders t).Right tcl
  read : ∀ p ∈ s.idle, (s.proxies p).process.isSome → (s.proxies p).unread = false

/-- The `refid` of a call that is about to test it with `ok` set. -/
def Pc.passed : Pc → Option Nat
  | .tested _ refid true => some refid
  | _ => none

/-- A call that got no answer does not find the `refid` it knows. -/
def Safe {σ : Type} (s : State σ) : Event → Prop
  | .step t _ => (s.senders t).answer = none →
      ∀ refid ∈ (s.senders t).pc.passed, s.pool.map Pool.refid ≠ some refid
  | _ => True

/-- The condition can be checked. -/
instance decidableSafe {σ : Type} (s : State σ) : ∀ e, Decidable (Safe s e)
  | .step t _ => inferInstanceAs (Decidable ((s.senders t).answer = none →
      ∀ refid ∈ (s.senders t).pc.passed, s.pool.map Pool.refid ≠ some refid))
  | .send .. | .timeout .. | .start .. | .startStep .. | .childRead .. | .childWrite ..
  | .childExit .. => inferInstanceAs (Decidable True)

/-! ## What is in the pipes -/

/-- Nothing is in the pipes, and the child waits for a request or is gone. -/
def Quiet {σ : Type} (x : Proxy σ) : Prop :=
  ∀ process ∈ x.process, x.unread = false ∧ process.fromChild = [] ∧
    (process.child = .exited ∨ process.child = .reading [] ∧ process.toChild = [])

/-- The child has read a part of the request, the next is in the pipe, and the call has the rest. -/
def Asking {σ : Type} (host : TclExport.Order) (x : Proxy σ) (snd : Sender) (rest : Bytes) : Prop :=
  ∃ process, x.process = some process ∧ process.fromChild = [] ∧
    process.evals.length = snd.mark ∧
    (process.child = .exited ∨ ∃ c, process.child = .reading c ∧
      c ++ process.toChild ++ rest = request host snd.script ∧
      c.length < (request host snd.script).length)

/-- The call has read a part of the record, the next is in the pipe, and the child has the rest. -/
def Answering {σ : Type} (tcl : Eval σ) (x : Proxy σ) (snd : Sender) (got : Bytes) : Prop :=
  ∃ process e rest, x.process = some process ∧ process.evals[snd.mark]? = some e ∧ e.Of tcl ∧
    e.script = snd.script.text ∧ got ++ process.fromChild ++ rest = e.record ∧
    (process.child = .exited ∨ process.toChild = [] ∧
      (process.child = .replying rest ∧ rest ≠ [] ∨ process.child = .reading [] ∧ rest = []))

/-- A call and the proxy in its hands. -/
def Phase {σ : Type} (tcl : Eval σ) (host : TclExport.Order) (x : Proxy σ) (snd : Sender) : Prop :=
  match snd.pc with
  | .took _ _ => snd.answer = none ∧ Quiet x
  | .writing _ _ rest => snd.answer = none ∧ rest ≠ [] ∧ Asking host x snd rest
  | .reading _ _ got =>
      snd.answer = none ∧ (got = [] ∧ Asking host x snd [] ∨ Answering tcl x snd got)
  | .tested _ _ _ => snd.answer ≠ none → Quiet x
  | .returning _ => Quiet x
  | .stopped _ _ => x.process = none
  | .new | .waiting | .stopping _ _ | .finished => True

variable {σ : Type} {tcl : Eval σ} {host : TclExport.Order}

/-! ## The record -/

/-- A record has a length that is an `int`. -/
theorem fits_record {e : Evaluation} (he : e.Of tcl) :
    TclExport.strsLength (e.interp.strs e.code) + 16 < 2 ^ 31 := by
  obtain ⟨st, hst⟩ := he
  have hfits := tcl.fits st e.script
  rw [hst] at hfits
  exact hfits

/-- The record of an evaluation is a header and what its lengths say. -/
theorem record_cut {e : Evaluation} (he : e.Of tcl) :
    ∃ h body, e.record = h ++ body ∧ h.length = 16 ∧ TclExport.next h = body.length := by
  have hfits := fits_record he
  exact TclExport.tclExport_cut e.interp (by omega) none

/-- It is not empty. -/
theorem record_ne_nil {e : Evaluation} (he : e.Of tcl) : e.record ≠ [] := by
  obtain ⟨h, body, hrecord, hlen, -⟩ := record_cut he
  intro hnil
  have hlength := congrArg List.length (hrecord.symm.trans hnil)
  rw [List.length_append, hlen, List.length_nil] at hlength
  omega

/-- The import of it gives the result. -/
theorem import_record {e : Evaluation} (he : e.Of tcl) :
    TclExport.tclImport e.record none = e.result := by
  have hfits := fits_record he
  obtain ⟨st, hst⟩ := he
  have hcode : (tcl.eval st e.script).2.1 = e.code := congrArg Prod.fst hst
  have hlo : -(2 ^ 31) ≤ e.code := hcode ▸ tcl.code_lo st e.script
  have hhi : e.code < 2 ^ 31 := hcode ▸ tcl.code_hi st e.script
  exact TclExport.tclImport_tclExport e.interp hlo hhi (by omega) none

/-- What needs no more bytes, and begins a record, is all of it. -/
theorem eq_record {e : Evaluation} (he : e.Of tcl) {got tail : Bytes}
    (h : got ++ tail = e.record) (hneeded : needed got = 0) : tail = [] := by
  obtain ⟨hd, body, hrecord, hlen, hnext⟩ := record_cut he
  unfold needed at hneeded
  split at hneeded
  next hshort => omega
  next hlong =>
    have htake : got.take 16 = hd := by
      have hfront : (got ++ tail).take 16 = got.take 16 :=
        List.take_append_of_le_length (by omega)
      rw [← hfront, h, hrecord, List.take_left' hlen]
    rw [htake, hnext, Int.toNat_natCast] at hneeded
    have hlength := congrArg List.length (h.trans hrecord)
    rw [List.length_append, List.length_append, hlen] at hlength
    exact List.length_eq_zero_iff.mp (by omega)

/-! ## The request -/

/-- An `int` is read as it was written. -/
theorem int32_word_hostInt (x : Int) : int32 (host.word (hostInt host x)) = int32 x := by
  cases host with
  | big => exact int32_ofBe32_be32 x
  | little =>
      show int32 (ofBe32 (be32 x).reverse.reverse) = int32 x
      rw [List.reverse_reverse]
      exact int32_ofBe32_be32 x

@[simp] theorem length_hostInt (x : Int) : (hostInt host x).length = 4 := by
  cases host <;> rfl

@[simp] theorem length_request (script : Script) :
    (request host script).length = 4 + script.text.length := by
  rw [request, List.length_append, length_hostInt]

/-- With four bytes of a request the child knows the length of the script. -/
theorem scriptLength_request {script : Script} {c tail : Bytes}
    (h : c ++ tail = request host script) (hlen : 4 ≤ c.length) :
    scriptLength host c = script.text.length := by
  have hfits := script.fits
  have htake : c.take 4 = hostInt host script.text.length := by
    have hfront : (c ++ tail).take 4 = c.take 4 := List.take_append_of_le_length hlen
    rw [← hfront, h, request, List.take_left' (length_hostInt _)]
  rw [scriptLength, htake, int32_word_hostInt, int32_of_range (by omega) (by omega)]

/-- With a part of the request the child reads on. -/
theorem got_part {process : Process σ} {script : Script} {c tail : Bytes}
    (h : c ++ tail = request host script) (hlen : c.length < (request host script).length) :
    process.got tcl host c = { process with child := .reading c } := by
  refine if_pos ?_
  by_cases hfour : c.length < 4
  · exact Or.inl hfour
  · rw [scriptLength_request h (by omega)]
    rw [length_request] at hlen
    right
    omega

/-- With all of it the child evaluates the script. -/
theorem got_request (process : Process σ) (script : Script) :
    process.got tcl host (request host script) =
      { process with
        child := .replying (evaluation tcl process.tcl script.text).record
        tcl := (tcl.eval process.tcl script.text).1
        evals := process.evals ++ [evaluation tcl process.tcl script.text] } := by
  have hlength : (request host script).length = 4 + script.text.length := length_request script
  have hscript : scriptLength host (request host script) = script.text.length :=
    scriptLength_request (List.append_nil _) (by omega)
  have htext : ((request host script).drop 4).take script.text.length = script.text := by
    rw [request, List.drop_left' (length_hostInt _), List.take_length]
  rw [Process.got, if_neg (by omega), hscript, Int.toNat_natCast, htext]
  rfl

/-- A child of a call that asks. -/
theorem asking_moves {x : Proxy σ} {snd : Sender} {rest : Bytes} {process process' : Process σ}
    (h : Asking host x snd rest) (hprocess : x.process = some process)
    (hmove : process.Moves tcl host process') :
    Asking host { x with process := some process' } snd rest ∨
      rest = [] ∧ Answering tcl { x with process := some process' } snd [] := by
  obtain ⟨_, hprocess', hfrom, hmark, hchild⟩ := h
  obtain rfl := Option.some.inj (hprocess.symm.trans hprocess')
  cases hmove with
  | exit => exact Or.inl ⟨_, rfl, hfrom, hmark, Or.inl rfl⟩
  | write k process' hwrite =>
      unfold Process.write at hwrite
      rcases hchild with hchild | ⟨c, hchild, -⟩ <;> rw [hchild] at hwrite <;>
        exact absurd hwrite (by simp)
  | read k process' hread =>
      unfold Process.read at hread
      rcases hchild with hchild | ⟨c, hchild, hrequest, hlen⟩ <;> rw [hchild] at hread
      · exact absurd hread (by simp)
      · obtain ⟨⟨hk, hkle, -⟩, hread⟩ := Option.ite_none_right_eq_some.mp hread
        obtain rfl := Option.some.inj hread
        -- what the child has, and what is still in the pipe or to be written
        have hsplit : (c ++ process.toChild.take k) ++ (process.toChild.drop k ++ rest) =
            request host snd.script := by
          rw [← hrequest, ← List.append_assoc, List.append_assoc c, List.take_append_drop]
        by_cases hall : (c ++ process.toChild.take k).length < (request host snd.script).length
        · rw [got_part hsplit hall]
          refine Or.inl ⟨_, rfl, hfrom, hmark, Or.inr ⟨_, rfl, ?_, hall⟩⟩
          rw [List.append_assoc]
          exact hsplit
        · have hnone : process.toChild.drop k ++ rest = [] := by
            have hlength := congrArg List.length hsplit
            rw [List.length_append] at hlength
            exact List.length_eq_zero_iff.mp (by omega)
          obtain ⟨hdrop, hrest⟩ := List.append_eq_nil_iff.mp hnone
          rw [hnone, List.append_nil] at hsplit
          rw [hsplit, got_request, hdrop]
          have heval : (process.evals ++ [evaluation tcl process.tcl snd.script.text])[snd.mark]? =
              some (evaluation tcl process.tcl snd.script.text) := by
            rw [← hmark]
            exact List.getElem?_concat_length
          have hrecord : [] ++ process.fromChild ++
              (evaluation tcl process.tcl snd.script.text).record =
                (evaluation tcl process.tcl snd.script.text).record := by
            rw [hfrom, List.nil_append, List.nil_append]
          exact Or.inr ⟨hrest, _, _, _, rfl, heval, ⟨_, rfl⟩, rfl, hrecord,
            Or.inr ⟨rfl, Or.inl ⟨rfl, record_ne_nil ⟨process.tcl, rfl⟩⟩⟩⟩

/-- A child of a call that reads its answer. -/
theorem answering_moves {x : Proxy σ} {snd : Sender} {got : Bytes} {process process' : Process σ}
    (h : Answering tcl x snd got) (hprocess : x.process = some process)
    (hmove : process.Moves tcl host process') :
    Answering tcl { x with process := some process' } snd got := by
  obtain ⟨_, e, rest, hprocess', heval, he, hscript, hrecord, hchild⟩ := h
  obtain rfl := Option.some.inj (hprocess.symm.trans hprocess')
  cases hmove with
  | exit => exact ⟨_, e, rest, rfl, heval, he, hscript, hrecord, Or.inl rfl⟩
  | read k process' hread =>
      unfold Process.read at hread
      rcases hchild with hchild | ⟨hto, ⟨hchild, -⟩ | ⟨hchild, -⟩⟩ <;> rw [hchild] at hread
      · exact absurd hread (by simp)
      · exact absurd hread (by simp)
      · -- nothing is left to read
        obtain ⟨⟨hk, hkle, -⟩, -⟩ := Option.ite_none_right_eq_some.mp hread
        rw [hto, List.length_nil] at hkle
        omega
  | write k process' hwrite =>
      unfold Process.write at hwrite
      rcases hchild with hchild | ⟨hto, ⟨hchild, hrest⟩ | ⟨hchild, -⟩⟩ <;> rw [hchild] at hwrite
      · exact absurd hwrite (by simp)
      · obtain ⟨hk, hwrite⟩ := Option.ite_none_right_eq_some.mp hwrite
        obtain rfl := Option.some.inj hwrite
        have hcut : got ++ (process.fromChild ++ rest.take k) ++ rest.drop k = e.record := by
          rw [← hrecord]
          simp only [List.append_assoc, List.take_append_drop]
        refine ⟨_, e, rest.drop k, rfl, heval, he, hscript, hcut, Or.inr ⟨hto, ?_⟩⟩
        by_cases hdrop : rest.drop k = []
        · exact Or.inr ⟨if_pos hdrop, hdrop⟩
        · exact Or.inl ⟨if_neg hdrop, hdrop⟩
      · exact absurd hwrite (by simp)

/-- A child with nothing to do, when there is nothing in its pipes. -/
theorem quiet_moves {x : Proxy σ} {process process' : Process σ} (h : Quiet x)
    (hprocess : x.process = some process) (hmove : process.Moves tcl host process') :
    Quiet { x with process := some process' } := by
  obtain ⟨hunread, hfrom, hchild⟩ := h process hprocess
  intro process'' hprocess''
  obtain rfl := Option.some.inj hprocess''
  cases hmove with
  | exit => exact ⟨hunread, hfrom, Or.inl rfl⟩
  | read k process' hread =>
      unfold Process.read at hread
      rcases hchild with hchild | ⟨hchild, hto⟩ <;> rw [hchild] at hread
      · exact absurd hread (by simp)
      · obtain ⟨⟨hk, hkle, -⟩, -⟩ := Option.ite_none_right_eq_some.mp hread
        rw [hto, List.length_nil] at hkle
        omega
  | write k process' hwrite =>
      unfold Process.write at hwrite
      rcases hchild with hchild | ⟨hchild, -⟩ <;> rw [hchild] at hwrite <;>
        exact absurd hwrite (by simp)

/-- **A step of the child leaves a call and its proxy as they should be.** -/
theorem phase_moves {x : Proxy σ} {snd : Sender} {process process' : Process σ}
    (h : Phase tcl host x snd) (hprocess : x.process = some process)
    (hmove : process.Moves tcl host process') :
    Phase tcl host { x with process := some process' } snd := by
  unfold Phase at h ⊢
  cases hpc : snd.pc with
  | took p refid =>
      rw [hpc] at h
      exact ⟨h.1, quiet_moves h.2 hprocess hmove⟩
  | writing p refid rest =>
      rw [hpc] at h
      obtain ⟨hanswer, hrest, hasking⟩ := h
      cases asking_moves hasking hprocess hmove with
      | inl hasking => exact ⟨hanswer, hrest, hasking⟩
      | inr hdone => exact absurd hdone.1 hrest
  | reading p refid got =>
      rw [hpc] at h
      obtain ⟨hanswer, ⟨hgot, hasking⟩ | hanswering⟩ := h
      · cases asking_moves hasking hprocess hmove with
        | inl hasking => exact ⟨hanswer, Or.inl ⟨hgot, hasking⟩⟩
        | inr hdone => exact ⟨hanswer, Or.inr (hgot ▸ hdone.2)⟩
      · exact ⟨hanswer, Or.inr (answering_moves hanswering hprocess hmove)⟩
  | tested p refid ok =>
      rw [hpc] at h
      exact fun hanswer => quiet_moves (h hanswer) hprocess hmove
  | returning p =>
      rw [hpc] at h
      exact quiet_moves h hprocess hmove
  | stopped p refid =>
      rw [hpc] at h
      exact absurd (hprocess.symm.trans h) (by simp)
  | new | waiting | stopping | finished => trivial

/-- A call begins to ask a child that is quiet, or new. -/
theorem asking_start {x : Proxy σ} {snd : Sender} {process : Process σ}
    (hprocess : x.process = some process) (hmark : process.evals.length = snd.mark)
    (hfrom : process.fromChild = [])
    (hchild : process.child = .exited ∨ process.child = .reading [] ∧ process.toChild = []) :
    Asking host x snd (request host snd.script) := by
  refine ⟨process, hprocess, hfrom, hmark, hchild.imp id fun ⟨hchild, hto⟩ => ⟨[], hchild, ?_, ?_⟩⟩
  · rw [hto]
    rfl
  · rw [length_request, List.length_nil]
    omega

/-- What is written goes into the pipe. -/
theorem asking_written {x : Proxy σ} {snd : Sender} {rest : Bytes} {process : Process σ}
    (h : Asking host x snd rest) (hprocess : x.process = some process) (n : Nat) (snd' : Sender)
    (hscript : snd'.script = snd.script) (hmark : snd'.mark = snd.mark) :
    Asking host { x with
      process := some { process with toChild := process.toChild ++ rest.take n }
      unread := true } snd' (rest.drop n) := by
  obtain ⟨_, hprocess', hfrom, hlength, hchild⟩ := h
  obtain rfl := Option.some.inj (hprocess.symm.trans hprocess')
  refine ⟨_, rfl, hfrom, hlength.trans hmark.symm, hchild.imp id ?_⟩
  intro ⟨c, hchild, hrequest, hlen⟩
  refine ⟨c, hchild, ?_, hscript ▸ hlen⟩
  rw [hscript, ← hrequest]
  simp only [List.append_assoc, List.take_append_drop]

/-- What is read comes from the pipe. -/
theorem answering_read {x : Proxy σ} {snd snd' : Sender} {got : Bytes} {process : Process σ}
    (h : Answering tcl x snd got) (hprocess : x.process = some process) (n : Nat)
    (hscript : snd'.script = snd.script) (hmark : snd'.mark = snd.mark) :
    Answering tcl { x with
      process := some { process with fromChild := process.fromChild.drop n } } snd'
      (got ++ process.fromChild.take n) := by
  obtain ⟨_, e, rest, hprocess', heval, he, htext, hrecord, hchild⟩ := h
  obtain rfl := Option.some.inj (hprocess.symm.trans hprocess')
  refine ⟨_, e, rest, rfl, hmark ▸ heval, he, hscript ▸ htext, ?_, hchild⟩
  rw [← hrecord]
  simp only [List.append_assoc, List.take_append_drop]

/-- With the whole record read nothing is left, and the import gives the result. -/
theorem answering_imported {x : Proxy σ} {snd : Sender} {got : Bytes} {process : Process σ}
    (h : Answering tcl x snd got) (hprocess : x.process = some process)
    (hneeded : needed got = 0) :
    Quiet { x with unread := false } ∧ ∃ e : Evaluation, e.Of tcl ∧ e.script = snd.script.text ∧
      (TclExport.tclImport got none, process.evals[snd.mark]?) = (e.result, some e) := by
  obtain ⟨_, e, rest, hprocess', heval, he, htext, hrecord, hchild⟩ := h
  obtain rfl := Option.some.inj (hprocess.symm.trans hprocess')
  rw [List.append_assoc] at hrecord
  have hnone := eq_record he hrecord hneeded
  obtain ⟨hfrom, hrest⟩ := List.append_eq_nil_iff.mp hnone
  rw [hnone, List.append_nil] at hrecord
  refine ⟨fun process' hprocess' => ?_, e, he, htext, ?_⟩
  · obtain rfl := Option.some.inj (hprocess.symm.trans hprocess')
    refine ⟨rfl, hfrom, hchild.imp id fun ⟨hto, hchild⟩ => ?_⟩
    cases hchild with
    | inl hreplying => exact absurd hrest hreplying.2
    | inr hreading => exact ⟨hreading.1, hto⟩
  · rw [heval, hrecord, import_record he]

/-- **A step of a call leaves it and its proxy as they should be.** -/
theorem hold_phase {refid' : Nat} {x x' : Proxy σ} {snd snd' : Sender} {n : Int}
    (h : Phase tcl host x snd) (hright : snd.Right tcl)
    (hmove : Hold tcl host refid' x snd n x' snd')
    (hsafe : snd.answer = none → ∀ refid ∈ snd.pc.passed, refid' ≠ refid) :
    Phase tcl host x' snd' ∧ snd'.Right tcl := by
  unfold Phase at h
  cases hmove with
  | running p refid process hpc hprocess =>
      rw [hpc] at h
      obtain ⟨hanswer, hquiet⟩ := h
      obtain ⟨hunread, hfrom, hchild⟩ := hquiet process hprocess
      refine ⟨⟨hanswer, ?_, asking_start hprocess rfl hfrom hchild⟩, hright⟩
      exact List.ne_nil_of_length_pos (by rw [length_request]; omega)
  | started p refid hpc hprocess =>
      rw [hpc] at h
      refine ⟨⟨h.1, ?_, asking_start rfl rfl rfl (Or.inr ⟨rfl, rfl⟩)⟩, hright⟩
      exact List.ne_nil_of_length_pos (by rw [length_request]; omega)
  | notStarted p refid hpc hprocess =>
      rw [hpc] at h
      exact ⟨fun hanswer => absurd h.1 hanswer, hright⟩
  | notWritten p refid rest process hpc hprocess =>
      rw [hpc] at h
      exact ⟨fun hanswer => absurd h.1 hanswer, hright⟩
  | written p refid rest process hpc hprocess hn hchild hlen =>
      rw [hpc] at h
      obtain ⟨hanswer, -, hasking⟩ := h
      refine ⟨?_, hright⟩
      have hasking' := asking_written hasking hprocess n.toNat snd rfl rfl
      by_cases hdrop : rest.drop n.toNat = []
      · rw [if_pos hdrop]
        rw [hdrop] at hasking'
        exact ⟨hanswer, Or.inl ⟨rfl, hasking'⟩⟩
      · rw [if_neg hdrop]
        exact ⟨hanswer, hdrop, hasking'⟩
  | imported p refid got process hpc hprocess hneeded =>
      rw [hpc] at h
      obtain ⟨-, ⟨rfl, -⟩ | hanswering⟩ := h
      · exact absurd hneeded (by decide)
      · obtain ⟨hquiet, e, he, htext, hresult⟩ := answering_imported hanswering hprocess hneeded
        refine ⟨fun _ => hquiet, fun answer hanswer => ⟨e, he, htext, ?_⟩⟩
        rw [← hresult]
        exact (Option.some.inj hanswer).symm
  | notRead p refid got process hpc hprocess =>
      rw [hpc] at h
      exact ⟨fun hanswer => absurd h.1 hanswer, hright⟩
  | read p refid got process hpc hprocess hneeded hn hlen havail =>
      rw [hpc] at h
      obtain ⟨hanswer, ⟨-, process', hprocess', hfrom, -⟩ | hanswering⟩ := h
      · -- there is nothing to read yet
        obtain rfl := Option.some.inj (hprocess.symm.trans hprocess')
        rw [hfrom, List.length_nil] at havail
        omega
      · exact ⟨⟨hanswer, Or.inr (answering_read hanswering hprocess n.toNat rfl rfl)⟩, hright⟩
  | tested p refid ok hpc =>
      rw [hpc] at h
      refine ⟨?_, hright⟩
      by_cases hback : ok = true ∧ refid = refid'
      · rw [if_pos hback]
        obtain ⟨rfl, rfl⟩ := hback
        refine h fun hanswer => ?_
        exact hsafe hanswer refid (by rw [hpc]; rfl) rfl
      · rw [if_neg hback]
        trivial
  | stopped p refid hpc =>
      refine ⟨?_, hright⟩
      show x.stop.process = none
      unfold Proxy.stop
      split
      · rfl
      next hprocess => exact hprocess

/-! ## All calls and proxies -/

/-- A call of `proxy.send` among the proxies. -/
structure Sender.Ok {σ : Type} (tcl : Eval σ) (host : TclExport.Order) (proxies : Nat → Proxy σ)
    (snd : Sender) : Prop where
  right : snd.Right tcl
  begun : snd.pc = .new ∨ snd.pc = .waiting → snd.answer = none
  phase : ∀ p, snd.pc.held = some p → Phase tcl host (proxies p) snd

/-- What holds in every state of a safe run. -/
structure Inv {σ : Type} (tcl : Eval σ) (host : TclExport.Order) (s : State σ) : Prop where
  placed : Placed s
  senders : ∀ t, (s.senders t).Ok tcl host s.proxies
  idle : ∀ p ∈ s.idle, Quiet (s.proxies p)

/-- A call whose proxy is as before. -/
theorem Sender.Ok.same {snd : Sender} {proxies proxies' : Nat → Proxy σ}
    (h : snd.Ok tcl host proxies) (hsame : ∀ p, snd.pc.held = some p → proxies' p = proxies p) :
    snd.Ok tcl host proxies' :=
  ⟨h.right, h.begun, fun p hp => by rw [hsame p hp]; exact h.phase p hp⟩

/-- A call that has no answer has no wrong one. -/
theorem right_of_none {snd : Sender} (hanswer : snd.answer = none) : snd.Right tcl := by
  intro answer hmem
  rw [hanswer] at hmem
  exact absurd hmem (by simp)

/-- A call that waits, or gives up. -/
theorem Sender.Ok.without {snd : Sender} {proxies : Nat → Proxy σ} (hanswer : snd.answer = none)
    (hpc : snd.pc = .waiting ∨ snd.pc = .finished) : snd.Ok tcl host proxies := by
  refine ⟨right_of_none hanswer, fun _ => hanswer, fun p hp => ?_⟩
  rcases hpc with hpc | hpc <;> rw [hpc] at hp <;> exact absurd hp (by simp [Pc.held])

/-- A call that returns. -/
theorem Sender.Ok.finished {snd : Sender} {proxies proxies' : Nat → Proxy σ}
    (h : snd.Ok tcl host proxies) : (snd.goto .finished).Ok tcl host proxies' := by
  refine ⟨h.right, fun hpc => ?_, fun p hp => absurd hp (by simp [Sender.goto, Pc.held])⟩
  exact absurd hpc (by simp [Sender.goto])

variable {s s' : State σ} {e : Event}

/-- The calls after a step of one of them. -/
theorem Inv.setSender (h : Inv tcl host s) {t : Nat} {snd : Sender} {proxies : Nat → Proxy σ}
    (hsnd : snd.Ok tcl host proxies)
    (hsame : ∀ t' ≠ t, ∀ p, (s.senders t').pc.held = some p → proxies p = s.proxies p) (t' : Nat) :
    (update s.senders t snd t').Ok tcl host proxies := by
  by_cases ht : t' = t
  · subst ht
    rw [update_self]
    exact hsnd
  · rw [update_of_ne ht]
    exact (h.senders t').same (hsame t' ht)

/-- A call puts its proxy back. -/
theorem Inv.put (h : Inv tcl host s) {t p : Nat} {pool : Pool} {idle : List Nat}
    (hplaced : Placed ((s.setIdle pool idle).setSender t ((s.senders t).goto .finished)))
    (hpool : s.pool = some pool) (hidle : idle.Perm (p :: pool.idle))
    (hquiet : Quiet (s.proxies p)) :
    Inv tcl host ((s.setIdle pool idle).setSender t ((s.senders t).goto .finished)) := by
  refine ⟨hplaced, h.setSender (h.senders t).finished fun _ _ _ _ => rfl, fun q hq => ?_⟩
  have hq' : q ∈ p :: pool.idle := hidle.mem_iff.mp hq
  cases List.mem_cons.mp hq' with
  | inl heq => exact heq ▸ hquiet
  | inr hmem => exact h.idle q (by show q ∈ s.pool.elim [] Pool.idle; rw [hpool]; exact hmem)

/-- **A safe step keeps the invariant.** -/
theorem effect_inv (h : Inv tcl host s) (hsafe : Safe s e) (heffect : Effect tcl host s e s') :
    Inv tcl host s' := by
  have hplaced := effect_placed h.placed heffect
  cases heffect with
  | without e t snd hpc hpc' hanswer =>
      have hnone := hanswer.trans ((h.senders t).begun hpc)
      exact ⟨hplaced, h.setSender (.without hnone hpc') fun _ _ _ _ => rfl, h.idle⟩
  | take e t snd pool p idle hpool hidle hpc hpc' hanswer =>
      have hnone := hanswer.trans ((h.senders t).begun hpc)
      have hlist : s.idle = p :: idle := (lists_idle hpool).trans hidle
      have hquiet := h.idle p (by rw [hlist]; exact List.mem_cons_self)
      refine ⟨hplaced, h.setSender ⟨right_of_none hnone, fun _ => hnone, fun q hq => ?_⟩
        fun _ _ _ _ => rfl, fun q hq => h.idle q (by rw [hlist]; exact List.mem_cons_of_mem p hq)⟩
      rw [hpc'] at hq
      obtain rfl := Option.some.inj hq
      unfold Phase
      rw [hpc']
      exact ⟨hnone, hquiet⟩
  | hold t n pool p x snd hpool hheld hmove =>
      have hphase := (h.senders t).phase p hheld
      obtain ⟨hphase', hright'⟩ := hold_phase hphase (h.senders t).right hmove (by
        intro hnone refid hrefid heq
        exact hsafe hnone refid hrefid (by rw [hpool, ← heq]; rfl))
      have hheld' := hmove.held_eq hheld
      refine ⟨hplaced, h.setSender ⟨hright', fun hpc => ?_, fun q hq => ?_⟩ ?_, fun q hq => ?_⟩
      · rcases hpc with hpc | hpc <;> rw [hpc] at hheld' <;> exact absurd hheld' (by simp [Pc.held])
      · obtain rfl := Option.some.inj (hq.symm.trans hheld')
        show Phase tcl host (update s.proxies q x q) snd
        rw [update_self]
        exact hphase'
      · intro t' ht q hq
        exact update_of_ne (h.placed.sender_ne hheld hq ht) _ _
      · have hne : q ≠ p := by
          rintro rfl
          exact h.placed.not_mem (q := .idle) hheld (by simp) hq
        show Quiet (update s.proxies p x q)
        rw [update_of_ne hne]
        exact h.idle q hq
  | front t n pool p hpool hpc =>
      have hphase := (h.senders t).phase p (by rw [hpc]; rfl)
      rw [Phase, hpc] at hphase
      exact h.put hplaced hpool (List.Perm.refl _) hphase
  | back t n pool p hpool hpc =>
      have hphase := (h.senders t).phase p (by rw [hpc]; rfl)
      rw [Phase, hpc] at hphase
      refine h.put hplaced hpool (List.perm_append_singleton p pool.idle) fun process hprocess => ?_
      exact absurd (hphase.symm.trans hprocess) (by simp)
  | toss t n pool p refid hpool hpc hrefid =>
      exact ⟨hplaced, h.setSender (h.senders t).finished fun _ _ _ _ => rfl, h.idle⟩
  | begin u nproxies hspc =>
      have hsame : (s.beginStart u nproxies).senders = s.senders ∧
          (s.beginStart u nproxies).proxies = s.proxies := by
        unfold State.beginStart
        cases s.pool <;> exact ⟨rfl, rfl⟩
      have hnone : (s.beginStart u nproxies).idle = [] := by
        unfold State.beginStart
        cases s.pool <;> rfl
      refine ⟨hplaced, fun t => ?_, fun p hp => ?_⟩
      · rw [hsame.1, hsame.2]
        exact h.senders t
      · rw [hnone] at hp
        exact absurd hp List.not_mem_nil
  | stopOld u p old refid nproxies hspc =>
      have hother : ∀ q place, q ∈ s.lists place → place ≠ .starter u → q ≠ p := by
        rintro q place hq hplace rfl
        have hmem : q ∈ s.lists (.starter u) := by
          rw [lists_starter hspc]
          exact List.mem_cons_self
        exact hplace (h.placed.places.eq_of_mem hq hmem)
      refine ⟨hplaced, fun t => (h.senders t).same fun q hq => ?_, fun q hq => ?_⟩
      · exact update_of_ne (hother q (.sender t) (mem_lists_sender hq) (by simp)) _ _
      · show Quiet (update s.proxies p _ q)
        rw [update_of_ne (hother q .idle hq (by simp))]
        exact h.idle q hq
  | finish u refid nproxies pool hpool hspc =>
      have hold : ∀ q place, q ∈ s.lists place →
          (s.endStart u refid nproxies pool).proxies q = s.proxies q := by
        intro q place hq
        have hlt := h.placed.fresh place q hq
        exact if_neg (by omega)
      refine ⟨hplaced, fun t => (h.senders t).same fun q hq => ?_, fun q hq => ?_⟩
      · exact hold q (.sender t) (mem_lists_sender hq)
      · cases List.mem_append.mp hq with
        | inl hnew =>
            have hproxy : (s.endStart u refid nproxies pool).proxies q =
                ⟨none, refid, false, 0, 0⟩ := if_pos (List.mem_range'_1.mp hnew)
            rw [hproxy]
            exact fun process hprocess => absurd hprocess (by simp)
        | inr hmem =>
            have hidle : q ∈ s.idle := by rw [← lists_idle hpool] at hmem; exact hmem
            rw [hold q .idle hidle]
            exact h.idle q hidle
  | child e p process process' hprocess hmove =>
      refine ⟨hplaced, fun t => ⟨(h.senders t).right, (h.senders t).begun, fun q hq => ?_⟩,
        fun q hq => ?_⟩
      · have hphase := (h.senders t).phase q hq
        show Phase tcl host (update s.proxies p _ q) (s.senders t)
        by_cases hqp : q = p
        · subst hqp
          rw [update_self]
          exact phase_moves hphase hprocess hmove
        · rw [update_of_ne hqp]
          exact hphase
      · have hquiet := h.idle q hq
        show Quiet (update s.proxies p _ q)
        by_cases hqp : q = p
        · subst hqp
          rw [update_self]
          exact quiet_moves hquiet hprocess hmove
        · rw [update_of_ne hqp]
          exact hquiet

/-- The first state has the invariant. -/
theorem inv_init : Inv tcl host (State.init σ) := by
  refine ⟨placed_init, fun t => ⟨right_of_none rfl, fun _ => rfl, fun p hp => ?_⟩, fun p hp => ?_⟩
  · exact absurd hp (by simp [State.init, Pc.held])
  · exact absurd hp List.not_mem_nil

/-- **The answer of every call is that of its own script**, and no proxy is idle with a response
that was not completely read, in every run in which no call whose read failed finds the `refid` it
knows. -/
theorem results_paired (tcl : Eval σ) (host : TclExport.Order) {es : List Event} {s : State σ}
    (hrun : run (State.next tcl host) (State.init σ) es = some s)
    (hsafe : Along (State.next tcl host) Safe (State.init σ) es) : Paired tcl s := by
  have hinv : Inv tcl host s := by
    refine run_invariant (fun s e s' h hok hstep => ?_) inv_init hsafe hrun
    exact effect_inv h hok (next_effect hstep)
  refine ⟨fun t => (hinv.senders t).right, fun p hp hrunning => ?_⟩
  obtain ⟨process, hprocess⟩ := Option.isSome_iff_exists.mp hrunning
  exact (hinv.idle p hp process hprocess).1

/-! ## A read that fails -/

/-- The first bytes of a script are short. -/
theorem length_cstr_take (text : Bytes) : (cstr (text.take 8)).length ≤ 8 :=
  (List.takeWhile_prefix _).length_le.trans (List.length_take_le 8 text)

/-- A short script. -/
def short (text : Bytes) : Script where
  text := cstr (text.take 8)
  free := nulFree_cstr _
  fits := by
    have hlen := length_cstr_take text
    omega

/-- A Tcl whose scripts give their first bytes. -/
def echo : Eval Unit where
  start := ()
  eval _ script := ((), 0, ⟨toCStr (script.take 8), none, none⟩)
  code_lo _ _ := by
    show -(2 ^ 31) ≤ (0 : Int)
    omega
  code_hi _ _ := by
    show (0 : Int) < 2 ^ 31
    omega
  fits _ script := by
    have hlen := length_cstr_take script
    show (cstr (script.take 8)).length + 0 + 0 + 16 < 2 ^ 31
    omega

/-- A pool with one proxy, and a call. -/
def oneCall : List Event :=
  [.start 0 1, .startStep 0, .send 0 (short [65]), .step 0 0, .step 0 5,
    .childRead 0 5, .childWrite 0 17, .step 0 16, .step 0 1, .step 0 0, .step 0 0, .step 0 0]

/-- The call gets its answer. -/
theorem results_paired_echo :
    ∃ s, run (State.next echo .little) (State.init Unit) oneCall = some s ∧ Paired echo s := by
  obtain ⟨s, hs⟩ := Option.isSome_iff_exists.mp
    (by decide +kernel : (run (State.next echo .little) (State.init Unit) oneCall).isSome)
  exact ⟨s, hs, results_paired echo .little hs (by decide +kernel)⟩

/-- A call whose `read` fails puts its proxy back. -/
def lostRead : List Event :=
  [.start 0 1, .startStep 0, .send 0 (short [65]), .step 0 0, .step 0 5,
    .step 0 (-1), .step 0 0, .step 0 0]

/-- The next call takes the proxy. -/
def nextCall : List Event :=
  [.send 1 (short [66]), .step 1 0, .step 1 5, .childRead 0 5, .childWrite 0 17,
    .step 1 16, .step 1 1, .step 1 0]

/-- The evaluation an answer is from is one of the script of the call. -/
theorem Sender.Right.script {snd : Sender} (h : snd.Right tcl) :
    ∀ answer ∈ snd.answer, answer.2.map Evaluation.script = some snd.script.text := by
  intro answer hanswer
  obtain ⟨e, -, htext, rfl⟩ := h answer hanswer
  exact congrArg some htext

/-- The proxy is idle with an answer to come, and the next call gets the answer of the first. -/
theorem answer_of_another :
    ∃ s s', run (State.next echo .little) (State.init Unit) lostRead = some s ∧
      run (State.next echo .little) s nextCall = some s' ∧
      ¬ Paired echo s ∧ ¬ (s'.senders 1).Right echo := by
  refine ⟨_, _, rfl, rfl, fun h => ?_, fun h => ?_⟩
  · exact absurd (h.read 0 (by decide +kernel) (by decide +kernel)) (by decide +kernel)
  · exact absurd h.script (by decide +kernel)

end Nsdci.Proxies
