import Nsdci.File.Get
import Mathlib.Algebra.Order.Group.Multiset

/-!
# Runs of `file.get`

Whatever calls and evictions come in between, a file is open exactly while the cache or a call has
it (`Held`). A call that finds no other encoding in the cache gives what the file has (`expected`).
-/

namespace Nsdci.Fget

open Lib

variable {E : Type} (tcl : Tcl E)

/-! ## What is expected -/

/-- What a file is: its bytes, or the `errno` of opening it. -/
abbrev Content := Except Nat Bytes

/-- What `open` gives of a file. -/
def openOf : Content → Except Nat Unit
  | .error errno => .error errno
  | .ok _ => .ok ()

/-- `EINVAL`. -/
def einval : Nat := 22

/-- What `pread` gives of a file. -/
def preadOf (bytes : Bytes) (req : Request) : Except Nat Bytes :=
  if req.offset < 0 then .error einval
  else .ok ((bytes.drop req.offset.toNat).take req.length.toNat)

/-- The result of a call, from the file and the arguments alone. -/
def expected (content : Content) (req : Request) : Result :=
  match content with
  | .error errno => .error (.open_ errno)
  | .ok bytes =>
      let enc := req.enc_name.bind tcl.getEncoding
      if req.enc_name.isSome ∧ enc.isNone then .error .encoding
      else State.result tcl req enc (preadOf bytes req) einval []

/-- The system does what it does with a file of this content: `open` succeeds or fails, and `pread`
gives its bytes. -/
def Env (file : Bytes) (content : Content) (s : State E) : Event → Prop
  | .enter i opened => ∀ req, s.calls.lookup i = some (.called req) → req.file = file →
      s.cache.lookup file = none → opened = openOf content
  | .read i got _ _ => ∀ req id enc bytes, s.calls.lookup i = some (.reading req id enc) →
      req.file = file → content = .ok bytes → got = preadOf bytes req
  | _ => True

/-- The end of a string of this encoding is found in the buffer. -/
def Ended (enc : Option E) (data : Bytes) : Prop :=
  ∀ e, enc = some e → tcl.wide e = true → (wideLength (data ++ [0])).isSome = true

/-- The length can be allocated, the cache has no other encoding for the file than the call, and the
read is not short and finds the end of the string. -/
def Agrees (file : Bytes) (content : Content) (s : State E) : Event → Prop
  | .call _ req => 0 ≤ req.length ∧ req.length < intMax
  | .enter i _ => ∀ req id cell enc_name enc, s.calls.lookup i = some (.called req) →
      req.file = file → s.cache.lookup file = some id → s.files.val id = some cell →
      req.enc_name = some enc_name → cell.enc = some enc → tcl.getEncoding enc_name = some enc
  | .read i _ _ _ => ∀ req id enc bytes data, s.calls.lookup i = some (.reading req id enc) →
      req.file = file → content = .ok bytes → preadOf bytes req = .ok data →
      (data.length : Int) = req.length ∧ Ended tcl enc data
  | _ => True

/-- The file a call has. -/
def Call.held : Call E → Option Nat
  | .called _ => none
  | .reading _ id _ => some id
  | .closing _ id _ => some id

/-- A reference, if there is one. -/
def one (id : Option Nat) : Multiset Nat := id.elim 0 fun id => {id}

/-- The references in a table. -/
def heldBy {κ β : Type} (f : β → Option Nat) (t : AList fun _ : κ => β) : Multiset Nat :=
  (pairs t).filterMap fun e => f e.2

/-- Who has files: the entries of the cache, and the calls. -/
def State.held (s : State E) : Multiset Nat := heldBy some s.cache + heldBy Call.held s.calls

/-- What is expected of a state: no file was closed that was closed before, a file that is read is
open, one that nobody has is closed, the results of calls on the file are as expected, and the heap
was not overwritten. -/
structure Right (file : Bytes) (content : Content) (s : State E) : Prop where
  once : s.files.fault = false
  reading : ∀ i req id enc, s.calls.lookup i = some (.reading req id enc) → (s.files.val id).isSome
  closed : ∀ id, id ∉ s.held → s.files.val id = none
  results : ∀ req r, (req, r) ∈ s.results → req.file = file → r = expected tcl content req
  heap : s.fault = false

/-! ## References -/

theorem filterMap_cons_eq {κ β : Type} {f : β → Option Nat} {key : κ} {value : β} {o : Option Nat}
    (l : List (κ × β)) (h : f value = o) :
    (((key, value) :: l).filterMap (fun e => f e.2) : Multiset Nat) =
      one o + (l.filterMap (fun e => f e.2) : Multiset Nat) := by
  rw [List.filterMap_cons]
  cases o with
  | none =>
      rw [h]
      exact (zero_add _).symm
  | some id =>
      rw [h]
      rfl

section Tables

variable {κ β : Type} [DecidableEq κ] {f : β → Option Nat} {t : AList fun _ : κ => β} {key : κ}

theorem heldBy_insert (value : β) :
    heldBy f (t.insert key value) = one (f value) + heldBy f (t.erase key) :=
  filterMap_cons_eq _ rfl

theorem heldBy_erase {value : β} (h : t.lookup key = some value) :
    heldBy f t = one (f value) + heldBy f (t.erase key) := by
  have hperm : (pairs t).Perm ((key, value) :: pairs (t.erase key)) := (perm_erase h).map _
  rw [heldBy, Multiset.coe_eq_coe.mpr (hperm.filterMap _)]
  exact filterMap_cons_eq _ rfl

end Tables

/-- The references beside those of one call. -/
def State.rest (s : State E) (i : Nat) : Multiset Nat :=
  heldBy some s.cache + heldBy Call.held (s.calls.erase i)

theorem held_setCall (s : State E) (i : Nat) (call : Call E) :
    (s.setCall i call).held = one call.held + s.rest i := by
  show heldBy some s.cache + heldBy Call.held (s.calls.insert i call) = _
  rw [heldBy_insert, State.rest, add_left_comm]

theorem held_finish (s : State E) (i : Nat) (req : Request) (r : Result) :
    (s.finish i req r).held = s.rest i := rfl

theorem held_of_lookup {s : State E} {i : Nat} {call : Call E} (h : s.calls.lookup i = some call) :
    s.held = one call.held + s.rest i := by
  rw [State.held, heldBy_erase h, State.rest, add_left_comm]

theorem held_of_not_lookup {s : State E} {i : Nat} (h : s.calls.lookup i = none) :
    s.held = s.rest i := by
  rw [State.rest, erase_eq_self h, State.held]

/-- What the cache has is held. -/
theorem mem_held_of_cache {s : State E} {name : Bytes} {id : Nat}
    (h : s.cache.lookup name = some id) :
    id ∈ s.held := by
  rw [State.held, heldBy_erase h]
  exact Multiset.mem_add.mpr
    (Or.inl (Multiset.mem_add.mpr (Or.inl (Multiset.mem_singleton_self id))))

theorem mem_held_of_call {s : State E} {i : Nat} {call : Call E} {id : Nat}
    (h : s.calls.lookup i = some call) (hid : call.held = some id) : id ∈ s.held := by
  rw [held_of_lookup h, hid]
  exact Multiset.mem_add.mpr (Or.inl (Multiset.mem_singleton_self id))

/-! ## Files -/

/-- A call that has nothing uses a file that somebody has. -/
theorem counted_use {s : State E} {i : Nat} {id : Nat} {call : Call E} (hc : s.files.Counted s.held)
    (hcall : s.calls.lookup i = some call) (hnone : call.held = none) (hid : id ∈ s.held)
    (req : Request) (enc : Option E) :
    (s.use i req id enc).files.Counted (s.use i req id enc).held := by
  have hheld : (s.use i req id enc).held = id ::ₘ s.held := by
    show (s.setCall i (.reading req id enc)).held = _
    rw [held_setCall, held_of_lookup hcall, hnone]
    show {id} + s.rest i = id ::ₘ (0 + s.rest i)
    rw [zero_add, Multiset.singleton_add]
  rw [hheld]
  exact hc.incr hid

theorem counted_finish {s : State E} {i : Nat} {call : Call E} (hc : s.files.Counted s.held)
    (hcall : s.calls.lookup i = some call) (hnone : call.held = none) (req : Request) (r : Result) :
    (s.finish i req r).files.Counted (s.finish i req r).held := by
  have hheld : s.held = s.rest i := by
    rw [held_of_lookup hcall, hnone]
    exact zero_add _
  rw [held_finish, ← hheld]
  exact hc

variable {tcl}

theorem counted_cached {s : State E} {i : Nat} {req : Request} {id : Nat}
    (hc : s.files.Counted s.held) (hcall : s.calls.lookup i = some (.called req))
    (hcache : s.cache.lookup req.file = some id) :
    (s.cached tcl i req id).files.Counted (s.cached tcl i req id).held := by
  have hid := mem_held_of_cache hcache
  obtain ⟨cell, hcell⟩ := hc.val_of_mem hid
  rw [State.cached, hcell]
  dsimp only
  split
  · exact counted_use hc hcall rfl hid req none
  · exact counted_use hc hcall rfl hid req none
  · split
    · next enc _ =>
        exact counted_use (s := { s with files := s.files.setVal id { cell with enc := some enc } })
          (hc.setVal hid _) hcall rfl hid req (some enc)
    · exact counted_finish hc hcall rfl req _
  · exact counted_use hc hcall rfl hid req _

theorem counted_uncached {s : State E} {i : Nat} {req : Request} {opened : Except Nat Unit}
    (hc : s.files.Counted s.held) (hcall : s.calls.lookup i = some (.called req))
    (hcache : s.cache.lookup req.file = none) :
    (s.uncached tcl i req opened).files.Counted (s.uncached tcl i req opened).held := by
  unfold State.uncached
  cases opened with
  | error errno => exact counted_finish hc hcall rfl req _
  | ok u =>
      have halloc := hc.alloc (⟨req.file, req.enc_name.bind tcl.getEncoding⟩ : File E)
      dsimp only
      generalize s.files.alloc (⟨req.file, req.enc_name.bind tcl.getEncoding⟩ : File E) = new
        at halloc ⊢
      obtain ⟨files, id⟩ := new
      split_ifs with hunknown
      · exact counted_finish (s := { s with files := files.decr id }) halloc.decr hcall rfl req _
      · have hheld :
          ({ s with files := files, cache := s.cache.insert req.file id } : State E).held =
            id ::ₘ s.held := by
          show heldBy some (s.cache.insert req.file id) + heldBy Call.held s.calls = _
          rw [heldBy_insert, erase_eq_self hcache, add_assoc]
          rfl
        refine counted_use (s := { s with files := files, cache := s.cache.insert req.file id })
          ?_ hcall rfl ?_ req _
        · rw [hheld]
          exact halloc
        · rw [hheld]
          exact Multiset.mem_cons_self _ _

/-- **Every step keeps the counts right.** -/
theorem counted_next {s s' : State E} {e : Event} (hc : s.files.Counted s.held)
    (h : s.next tcl e = some s') : s'.files.Counted s'.held := by
  cases e with
  | call i req =>
      rw [State.next] at h
      split at h
      · next hnone =>
          obtain rfl := Option.some.inj h
          show s.files.Counted (s.setCall i (.called req)).held
          rw [held_setCall, ← held_of_not_lookup hnone]
          show s.files.Counted (0 + s.held)
          rw [zero_add]
          exact hc
      · exact nomatch h
  | enter i opened =>
      rw [State.next] at h
      split at h
      · next req hcall =>
          split at h
          · next id hcache =>
              obtain rfl := Option.some.inj h
              exact counted_cached hc hcall hcache
          · next hcache =>
              obtain rfl := Option.some.inj h
              exact counted_uncached hc hcall hcache
      · exact nomatch h
  | read i got errno behind =>
      rw [State.next] at h
      split at h
      · next req id enc hcall =>
          obtain rfl := Option.some.inj h
          rw [held_setCall]
          rw [held_of_lookup hcall] at hc
          exact hc
      · exact nomatch h
  | close i =>
      rw [State.next] at h
      split at h
      · next req id r hcall =>
          obtain rfl := Option.some.inj h
          rw [held_of_lookup hcall] at hc
          exact hc.decr
      · exact nomatch h
  | evict name =>
      obtain ⟨id, hcache, rfl⟩ := Option.map_eq_some_iff.mp h
      rw [State.held, heldBy_erase hcache, add_assoc] at hc
      exact hc.decr

/-! ## Results -/

variable {file : Bytes} {content : Content}

/-- The encoding a call asks for. -/
def Request.enc (tcl : Tcl E) (req : Request) : Option E := req.enc_name.bind tcl.getEncoding

/-- The call asks for an encoding that there is, or for none. -/
def Request.Known (tcl : Tcl E) (req : Request) : Prop :=
  ¬(req.enc_name.isSome ∧ (req.enc tcl).isNone)

/-- A call on the file has the encoding it asks for, and its result is as expected. -/
def CallOk (tcl : Tcl E) (file : Bytes) (content : Content) : Call E → Prop
  | .called _ => True
  | .reading req _ enc => req.file = file →
      (∃ bytes, content = .ok bytes) ∧ enc = req.enc tcl ∧ req.Known tcl
  | .closing req _ r => req.file = file → r = expected tcl content req

/-- What holds in every state of a run whose steps agree. -/
structure Inv (tcl : Tcl E) (file : Bytes) (content : Content) (s : State E) : Prop where
  counted : s.files.Counted s.held
  cached : ∀ id, s.cache.lookup file = some id → ∃ bytes, content = .ok bytes
  calls : ∀ i call, s.calls.lookup i = some call → CallOk tcl file content call
  results : ∀ req r, (req, r) ∈ s.results → req.file = file → r = expected tcl content req
  heap : s.fault = false

theorem inv_empty : Inv tcl file content State.empty :=
  ⟨Heap.counted_empty, fun _ h => (nomatch h), fun _ _ h => (nomatch h),
    fun _ _ h => absurd h List.not_mem_nil, rfl⟩

theorem Inv.right {s : State E} (h : Inv tcl file content s) : Right tcl file content s := by
  refine ⟨h.counted.fault, fun i req id enc hcall => ?_, fun id hid => ?_, h.results, h.heap⟩
  · exact (h.counted.val_isSome_iff id).mpr (mem_held_of_call hcall rfl)
  · exact Option.not_isSome_iff_eq_none.mp fun hsome => hid ((h.counted.val_isSome_iff id).mp hsome)

theorem calls_insert {P : Call E → Prop} {calls : AList fun _ : Nat => Call E} {i : Nat}
    {call : Call E} (h : ∀ j c, calls.lookup j = some c → P c) (hcall : P call) :
    ∀ j c, (calls.insert i call).lookup j = some c → P c := by
  intro j c hc
  by_cases hj : j = i
  · rw [hj, AList.lookup_insert] at hc
    exact Option.some.inj hc ▸ hcall
  · rw [AList.lookup_insert_ne hj] at hc
    exact h j c hc

theorem calls_erase {P : Call E → Prop} {calls : AList fun _ : Nat => Call E} {i : Nat}
    (h : ∀ j c, calls.lookup j = some c → P c) :
    ∀ j c, (calls.erase i).lookup j = some c → P c := by
  intro j c hc
  by_cases hj : j = i
  · rw [hj, AList.lookup_erase] at hc
    exact nomatch hc
  · rw [AList.lookup_erase_ne hj] at hc
    exact h j c hc

theorem results_append {results : List (Request × Result)} {req : Request} {r : Result}
    {P : Request → Result → Prop} (h : ∀ req r, (req, r) ∈ results → P req r) (hr : P req r) :
    ∀ req' r', (req', r') ∈ results ++ [(req, r)] → P req' r' := by
  intro req' r' hmem
  rcases List.mem_append.mp hmem with hold | hnew
  · exact h req' r' hold
  · obtain ⟨rfl, rfl⟩ := Prod.mk.inj (List.mem_singleton.mp hnew)
    exact hr

/-- The length of a string that ends in the bytes is found there. -/
theorem wideLength_append {s : Bytes} {n : Nat} (h : wideLength s = some n) (rest : Bytes) :
    wideLength (s ++ rest) = some n := by
  fun_induction wideLength s generalizing n with
  | case1 a b s hzero =>
      rw [List.cons_append, List.cons_append, wideLength, if_pos hzero]
      exact h
  | case2 a b s hzero ih =>
      obtain ⟨m, hm, rfl⟩ := Option.map_eq_some_iff.mp h
      rw [List.cons_append, List.cons_append, wideLength, if_neg hzero, ih hm]
      rfl
  | case3 => exact nomatch h

theorem wideLength_le (s : Bytes) : ∀ n, wideLength s = some n → n ≤ s.length := by
  fun_induction wideLength s with
  | case1 a b s hzero =>
      intro n h
      obtain rfl := Option.some.inj h
      exact Nat.zero_le _
  | case2 a b s hzero ih =>
      intro n h
      obtain ⟨m, hm, rfl⟩ := Option.map_eq_some_iff.mp h
      have hle := ih m hm
      rw [List.length_cons, List.length_cons]
      omega
  | case3 =>
      intro n h
      exact nomatch h

/-- **When the end of the string is in the buffer it does not matter what is behind.** -/
theorem convert_behind {enc : Option E} {data : Bytes} (h : Ended tcl enc data)
    (behind behind' : Bytes) : convert tcl enc data behind = convert tcl enc data behind' := by
  cases enc with
  | none => rfl
  | some e =>
      have hsplit : ∀ rest : Bytes, data ++ 0 :: rest = (data ++ [0]) ++ rest := by
        intro rest
        rw [List.append_assoc]
        rfl
      -- the string is a front of the buffer
      have hfront : ∃ n, n ≤ (data ++ [0]).length ∧
          ∀ rest, encodedLength tcl e (data ++ 0 :: rest) = n := by
        by_cases hwide : tcl.wide e = true
        · obtain ⟨n, hn⟩ := Option.isSome_iff_exists.mp (h e rfl hwide)
          refine ⟨n, wideLength_le _ n hn, fun rest => ?_⟩
          rw [encodedLength, if_pos hwide, hsplit, wideLength_append hn]
          rfl
        · refine ⟨(cstr data).length, ?_, fun rest => ?_⟩
          · have hle : (cstr data).length ≤ data.length := (List.takeWhile_prefix _).length_le
            rw [List.length_append]
            omega
          · rw [encodedLength, if_neg hwide, cstr_append_zero]
      obtain ⟨n, hle, hn⟩ := hfront
      have htake : ∀ rest, (data ++ 0 :: rest).take n = (data ++ [0]).take n := by
        intro rest
        rw [hsplit, List.take_append_of_le_length hle]
      rw [convert, convert]
      show cstr (tcl.toUtf e ((data ++ 0 :: behind).take
          (encodedLength tcl e (data ++ 0 :: behind)))) =
        cstr (tcl.toUtf e ((data ++ 0 :: behind').take
          (encodedLength tcl e (data ++ 0 :: behind'))))
      rw [hn, hn, htake behind, htake behind']

/-- What a read comes to is what is expected. -/
theorem result_eq {req : Request} {bytes : Bytes} (hcontent : content = .ok bytes)
    (hknown : req.Known tcl) (hread : ∀ data, preadOf bytes req = .ok data →
      (data.length : Int) = req.length ∧ Ended tcl (req.enc tcl) data) (errno : Nat)
    (behind : Bytes) :
    State.result tcl req (req.enc tcl) (preadOf bytes req) errno behind =
      expected tcl content req := by
  rw [hcontent, expected]
  show _ = if req.enc_name.isSome ∧ (req.enc tcl).isNone then _ else _
  rw [if_neg hknown]
  show _ = State.result tcl req (req.enc tcl) (preadOf bytes req) einval []
  cases hpread : preadOf bytes req with
  | error e => rfl
  | ok data =>
      obtain ⟨hlen, hended⟩ := hread data hpread
      rw [State.result, State.result]
      rw [if_pos hlen, if_pos hlen]
      exact congrArg Except.ok (convert_behind hended _ _)

/-- An encoding that there is not is reported. -/
theorem expected_encoding {req : Request} {bytes : Bytes} (hcontent : content = .ok bytes)
    (hunknown : ¬req.Known tcl) : expected tcl content req = .error .encoding := by
  rw [hcontent, expected]
  exact if_pos (not_not.mp hunknown)

/-- A call that starts to read. -/
theorem inv_use {s : State E} {i : Nat} {req : Request} {id : Nat} {enc : Option E}
    (hinv : Inv tcl file content s) (files : Heap (File E))
    (hcounted : ({ s with files := files }.use i req id enc).files.Counted
      ({ s with files := files }.use i req id enc).held)
    (hok : CallOk tcl file content (.reading req id enc)) :
    Inv tcl file content ({ s with files := files }.use i req id enc) :=
  ⟨hcounted, hinv.cached, calls_insert hinv.calls hok, hinv.results, hinv.heap⟩

/-- A call that returns. -/
theorem inv_finish {s : State E} {i : Nat} {req : Request} {r : Result}
    (hinv : Inv tcl file content s) (files : Heap (File E))
    (hcounted : ({ s with files := files }.finish i req r).files.Counted
      ({ s with files := files }.finish i req r).held)
    (hr : req.file = file → r = expected tcl content req) :
    Inv tcl file content ({ s with files := files }.finish i req r) :=
  ⟨hcounted, hinv.cached, calls_erase hinv.calls, results_append hinv.results hr, hinv.heap⟩

theorem known_of_none {req : Request} (h : req.enc_name = none) : req.Known tcl := by
  rintro ⟨hsome, -⟩
  rw [h] at hsome
  exact nomatch hsome

theorem enc_of_some {req : Request} {enc_name : Bytes} (h : req.enc_name = some enc_name) :
    req.enc tcl = tcl.getEncoding enc_name := by
  rw [Request.enc, h]
  rfl

theorem known_of_some {req : Request} {enc : E} (h : req.enc tcl = some enc) : req.Known tcl := by
  rintro ⟨-, hnone⟩
  rw [h] at hnone
  exact nomatch hnone

/-- A call that finds its file in the cache. -/
theorem inv_cached {s : State E} {i : Nat} {req : Request} {id : Nat}
    (hinv : Inv tcl file content s) (hcall : s.calls.lookup i = some (.called req))
    (hcache : s.cache.lookup req.file = some id)
    (hagrees : ∀ cell enc_name enc, req.file = file → s.files.val id = some cell →
      req.enc_name = some enc_name → cell.enc = some enc → tcl.getEncoding enc_name = some enc) :
    Inv tcl file content (s.cached tcl i req id) := by
  have hcounted : (s.cached tcl i req id).files.Counted (s.cached tcl i req id).held :=
    counted_cached hinv.counted hcall hcache
  have hcontent : req.file = file → ∃ bytes, content = .ok bytes :=
    fun hfile => hinv.cached id (hfile ▸ hcache)
  obtain ⟨cell, hcell⟩ := hinv.counted.val_of_mem (mem_held_of_cache hcache)
  rw [State.cached, hcell] at hcounted ⊢
  dsimp only at hcounted ⊢
  cases hname : req.enc_name with
  | none =>
      have henc : req.enc tcl = none := by
        rw [Request.enc, hname]
        rfl
      have hok : CallOk tcl file content (.reading req id none) :=
        fun hfile => ⟨hcontent hfile, henc.symm, known_of_none hname⟩
      rw [hname] at hcounted
      cases hcellenc : cell.enc with
      | none =>
          rw [hcellenc] at hcounted
          exact inv_use hinv s.files hcounted hok
      | some enc =>
          rw [hcellenc] at hcounted
          exact inv_use hinv s.files hcounted hok
  | some enc_name =>
      rw [hname] at hcounted
      cases hcellenc : cell.enc with
      | none =>
          rw [hcellenc] at hcounted
          dsimp only at hcounted ⊢
          cases hget : tcl.getEncoding enc_name with
          | some enc =>
              rw [hget] at hcounted
              have henc : req.enc tcl = some enc := (enc_of_some hname).trans hget
              exact inv_use hinv _ hcounted
                fun hfile => ⟨hcontent hfile, henc.symm, known_of_some henc⟩
          | none =>
              rw [hget] at hcounted
              refine inv_finish hinv s.files hcounted fun hfile => ?_
              obtain ⟨bytes, hbytes⟩ := hcontent hfile
              refine (expected_encoding hbytes fun hknown => hknown ⟨?_, ?_⟩).symm
              · rw [hname]
                rfl
              · rw [enc_of_some hname, hget]
                rfl
      | some enc =>
          rw [hcellenc] at hcounted
          refine inv_use hinv s.files hcounted fun hfile => ?_
          -- the encoding of the cache is the one of the call
          have henc : req.enc tcl = some enc :=
            (enc_of_some hname).trans (hagrees cell enc_name enc hfile hcell hname hcellenc)
          exact ⟨hcontent hfile, henc.symm, known_of_some henc⟩

/-- A call that opens its file. -/
theorem inv_uncached {s : State E} {i : Nat} {req : Request} {opened : Except Nat Unit}
    (hinv : Inv tcl file content s) (hcall : s.calls.lookup i = some (.called req))
    (hcache : s.cache.lookup req.file = none)
    (henv : req.file = file → opened = openOf content) :
    Inv tcl file content (s.uncached tcl i req opened) := by
  have hcounted : (s.uncached tcl i req opened).files.Counted (s.uncached tcl i req opened).held :=
    counted_uncached hinv.counted hcall hcache
  have hopened : ∀ u, opened = .ok u → req.file = file → ∃ bytes, content = .ok bytes := by
    intro u hu hfile
    cases hcontent : content with
    | error errno =>
        rw [hu, hcontent] at henv
        exact nomatch henv hfile
    | ok bytes => exact ⟨bytes, rfl⟩
  unfold State.uncached at hcounted ⊢
  cases opened with
  | error errno =>
      refine inv_finish hinv s.files hcounted fun hfile => ?_
      cases hcontent : content with
      | error errno' =>
          rw [hcontent] at henv
          obtain rfl := Except.error.inj (henv hfile)
          rfl
      | ok bytes =>
          rw [hcontent] at henv
          exact nomatch henv hfile
  | ok u =>
      dsimp only at hcounted ⊢
      change (if req.enc_name.isSome ∧ (req.enc tcl).isNone then _ else _ : State E).files.Counted
        (if req.enc_name.isSome ∧ (req.enc tcl).isNone then _ else _ : State E).held at hcounted
      show Inv tcl file content (if req.enc_name.isSome ∧ (req.enc tcl).isNone then _ else _)
      by_cases hunknown : req.enc_name.isSome ∧ (req.enc tcl).isNone
      · rw [if_pos hunknown] at hcounted ⊢
        refine inv_finish hinv _ hcounted fun hfile => ?_
        obtain ⟨bytes, hbytes⟩ := hopened u rfl hfile
        exact (expected_encoding hbytes fun hknown => hknown hunknown).symm
      · rw [if_neg hunknown] at hcounted ⊢
        refine ⟨hcounted, ?_, calls_insert hinv.calls ?_, hinv.results, hinv.heap⟩
        · intro id hid
          by_cases hfile : req.file = file
          · exact hopened u rfl hfile
          · refine hinv.cached id ?_
            rw [← hid]
            exact (AList.lookup_insert_ne (Ne.symm hfile)).symm
        · exact fun hfile => ⟨hopened u rfl hfile, rfl, hunknown⟩

/-- **A step that agrees keeps the invariant.** -/
theorem inv_next {s s' : State E} {e : Event} (hinv : Inv tcl file content s)
    (henv : Env file content s e) (hagrees : Agrees tcl file content s e)
    (h : s.next tcl e = some s') : Inv tcl file content s' := by
  have hcounted := counted_next hinv.counted h
  cases e with
  | call i req =>
      rw [State.next] at h
      split at h
      · obtain rfl := Option.some.inj h
        refine ⟨hcounted, hinv.cached, calls_insert hinv.calls trivial, hinv.results, ?_⟩
        show (s.fault || !(0 ≤ req.length && req.length < intMax)) = false
        rw [hinv.heap, decide_eq_true hagrees.1, decide_eq_true hagrees.2]
        rfl
      · exact nomatch h
  | enter i opened =>
      rw [State.next] at h
      split at h
      · next req hcall =>
          split at h
          · next id hcache =>
              obtain rfl := Option.some.inj h
              exact inv_cached hinv hcall hcache fun cell enc_name enc hfile hcell hname henc =>
                hagrees req id cell enc_name enc hcall hfile (hfile ▸ hcache) hcell hname henc
          · next hcache =>
              obtain rfl := Option.some.inj h
              exact inv_uncached hinv hcall hcache fun hfile =>
                henv req hcall hfile (hfile ▸ hcache)
      · exact nomatch h
  | read i got errno behind =>
      rw [State.next] at h
      split at h
      · next req id enc hcall =>
          obtain rfl := Option.some.inj h
          refine ⟨hcounted, hinv.cached, calls_insert hinv.calls ?_, hinv.results, hinv.heap⟩
          intro hfile
          obtain ⟨⟨bytes, hbytes⟩, henc, hknown⟩ := hinv.calls i _ hcall hfile
          rw [henv req id enc bytes hcall hfile hbytes, henc]
          refine result_eq hbytes hknown (fun data hdata => ?_) errno behind
          rw [← henc]
          exact hagrees req id enc bytes data hcall hfile hbytes hdata
      · exact nomatch h
  | close i =>
      rw [State.next] at h
      split at h
      · next req id r hcall =>
          obtain rfl := Option.some.inj h
          exact inv_finish hinv _ hcounted (hinv.calls i _ hcall)
      · exact nomatch h
  | evict name =>
      obtain ⟨id, hcache, rfl⟩ := Option.map_eq_some_iff.mp h
      refine ⟨hcounted, fun id hid => ?_, hinv.calls, hinv.results, hinv.heap⟩
      change (s.cache.erase name).lookup file = some id at hid
      by_cases hname : file = name
      · rw [hname, AList.lookup_erase] at hid
        exact nomatch hid
      · rw [AList.lookup_erase_ne hname] at hid
        exact hinv.cached id hid

/-- **In every run whose steps agree, with a file that does not change, every state is right.** -/
theorem getCmd_runs (tcl : Tcl E) (file : Bytes) (content : Content) (es : List Event) (s : State E)
    (hrun : run (State.next tcl) State.empty es = some s)
    (henv : Along (State.next tcl) (Env file content) State.empty es)
    (hagrees : Along (State.next tcl) (Agrees tcl file content) State.empty es) :
    Right tcl file content s := by
  have hinv : Inv tcl file content s :=
    run_invariant (fun _ _ _ hinv hok h => inv_next hinv hok.1 hok.2 h) inv_empty
      (along_and.mpr ⟨henv, hagrees⟩) hrun
  exact hinv.right

/-! ## Runs with an encoding -/

/-- Every other byte, from the first. -/
def lowBytes : Bytes → Bytes
  | a :: _ :: s => a :: lowBytes s
  | _ => []

def utf8Name : Bytes := [117, 116, 102, 45, 56]
def unicodeName : Bytes := [117, 110, 105, 99, 111, 100, 101]

/-- The encodings `utf-8` and `unicode`, of characters below 128. -/
def twoEncodings : Tcl Bool where
  getEncoding name :=
    if name = utf8Name then some false else if name = unicodeName then some true else none
  wide e := e
  toUtf e bytes := if e then lowBytes bytes else bytes

/-- `AB` in `unicode`, with two NULs. -/
def abBytes : Bytes := [65, 0, 66, 0, 0, 0]

/-- A read of all of it. -/
def abRequest (enc_name : Bytes) : Request := ⟨[102], some enc_name, 0, 6⟩

/-- A call, from its start to its result. -/
def abCall (i : Nat) (enc_name : Bytes) : List Event :=
  [.call i (abRequest enc_name), .enter i (.ok ()), .read i (.ok abBytes) 0 [], .close i]

theorem getCmd_runs_unicode :
    ∃ s, run (State.next twoEncodings) State.empty (abCall 0 unicodeName) =
    some s ∧ Right twoEncodings [102] (.ok abBytes) s := by
  have hbytes : preadOf abBytes (abRequest unicodeName) = .ok abBytes := rfl
  refine ⟨_, rfl, getCmd_runs twoEncodings [102] (.ok abBytes) (abCall 0 unicodeName) _ rfl ?_ ?_⟩
  · refine Along.cons trivial rfl (Along.cons (fun _ _ _ _ => rfl) rfl
      (Along.cons ?_ rfl (Along.cons trivial rfl trivial)))
    intro req id enc bytes hcall _ hcontent
    cases hcall
    cases hcontent
    exact hbytes.symm
  · refine Along.cons ⟨by decide, by decide⟩ rfl (Along.cons ?_ rfl
      (Along.cons ?_ rfl (Along.cons trivial rfl trivial)))
    · intro req id cell enc_name enc _ _ hcache
      exact nomatch hcache
    · intro req id enc bytes data hcall _ hcontent hdata
      cases hcall
      cases hcontent
      cases hdata
      exact ⟨rfl, fun e _ _ => rfl⟩

/-- After a call with `utf-8`, a call with `unicode` gives `A`, and not `AB`. -/
theorem getCmd_other_encoding : ∃ s,
    run (State.next twoEncodings) State.empty (abCall 0 utf8Name ++ abCall 1 unicodeName) = some s ∧
      Along (State.next twoEncodings) (Env [102] (.ok abBytes)) State.empty
        (abCall 0 utf8Name ++ abCall 1 unicodeName) ∧
      s.results = [(abRequest utf8Name, .ok [65]), (abRequest unicodeName, .ok [65])] ∧
      expected twoEncodings (.ok abBytes) (abRequest unicodeName) = .ok [65, 66] ∧
      ¬Right twoEncodings [102] (.ok abBytes) s := by
  refine ⟨_, rfl, ?_, rfl, rfl, fun hright => ?_⟩
  · have hread : ∀ {req : Request} {bytes : Bytes}, req.offset = 0 → req.length = 6 →
        (Except.ok abBytes : Content) = .ok bytes → .ok abBytes = preadOf bytes req := by
      intro req bytes hoffset hlength hcontent
      obtain rfl := Except.ok.inj hcontent
      rw [preadOf, hoffset, hlength]
      rfl
    refine Along.cons trivial rfl (Along.cons (fun _ _ _ _ => rfl) rfl
      (Along.cons ?_ rfl (Along.cons trivial rfl
        (Along.cons trivial rfl (Along.cons (fun _ _ _ _ => rfl) rfl
          (Along.cons ?_ rfl (Along.cons trivial rfl trivial)))))))
    · intro req id enc bytes hcall _ hcontent
      cases hcall
      exact hread rfl rfl hcontent
    · intro req id enc bytes hcall _ hcontent
      cases hcall
      exact hread rfl rfl hcontent
  · have hlast := hright.results (abRequest unicodeName) (.ok [65])
      (List.mem_cons_of_mem _ (List.mem_singleton_self _)) rfl
    exact nomatch hlast

end Nsdci.Fget
