import Nsdci.Nt
import Nsdci.Lib.Sums
import Nsdci.Lib.Table
import Nsdci.Lib.Transition
import Mathlib.Algebra.BigOperators.Group.List.Basic
import Mathlib.Algebra.Ring.Prod
import Mathlib.Tactic.Abel
import Mathlib.Tactic.LinearCombination

/-!
# Counts and totals of a tally server (`otally.c`)

The server adds the value of every request it receives to an `unsigned long` and prints the
counts and totals that `nt.get` drains as `long`s. A value is an `int` that crosses the network as a
`uint32_t`, and is added as such: with `long`s of 64 bits a negative value counts as a large one.

What was printed and what is held make up the tallies received exactly if no tally that is received
is negative (where a `long` has 64 bits) or takes the figures out of the range of a `long`.
-/

namespace Nsdci.Nt

open Lib

/-- The size of a `long`. -/
inductive Long where
  | bits32
  | bits64
  deriving DecidableEq

/-- The number of values of an `unsigned long`. -/
def Long.modulus : Long → Nat
  | .bits32 => 4294967296
  | .bits64 => 18446744073709551616

/-- What `%ld` prints for an `unsigned long`. -/
def Long.signed (l : Long) (x : Nat) : Int := (x : Int).bmod l.modulus

/-- `Sum`: two `unsigned long`s. -/
structure Sum where
  count : Nat
  total : Nat
  deriving DecidableEq

/-- The figures of a sum as they are printed. -/
def Sum.shown (l : Long) (sum : Sum) : Int × Int := (l.signed sum.count, l.signed sum.total)

/-- `++sumPtr->count; sumPtr->total += value` with the `uint32_t` of a request. -/
def Sum.add (l : Long) (sum : Sum) (req : Req) : Sum :=
  ⟨(sum.count + 1) % l.modulus, (sum.total + ofBe32 req.value) % l.modulus⟩

/-- The keys of a bucket, and the buckets. A bucket that was drained has no table. -/
abbrev Keys := AList fun _ : Bytes => Sum

@[inherit_doc Keys] abbrev Buckets := AList fun _ : Bytes => Option Keys

/-- The sum of a key, if there is one. -/
def Buckets.sum (t : Buckets) (bucket key : Bytes) : Option Sum :=
  (t.lookup bucket).join.bind (·.lookup key)

/-- `GetSum`, and what `NtsProc` stores there. -/
def Buckets.tally (l : Long) (t : Buckets) (req : Req) : Buckets :=
  let keys := ((t.lookup req.bucket).join).getD ∅
  t.insert req.bucket
    (some (keys.insert req.key (((keys.lookup req.key).getD ⟨0, 0⟩).add l req)))

/-- What a repeater's `NtsProc` puts in a node and its client sends on. -/
def repeatReq (req : Req) : Req := ⟨req.value, req.bucket, req.key⟩

/-- A table that `nt.get` has detached and not yet printed. -/
structure Drain where
  bucket : Bytes
  entries : List (Bytes × Sum)

/-- A line that `nt.get` has printed. -/
structure Printed where
  bucket : Bytes
  key : Bytes
  figures : Int × Int

/-- A tally server, the tallies on their way to it with the values they were sent with, and what
it has received. -/
structure Server where
  flight : List (Req × Int)
  buckets : Buckets
  drains : List Drain
  printed : List Printed
  received : List (Req × Int)

/-- What can happen: a tally is sent, goes through a repeater, is lost, or is received; a bucket is
drained; and a key of a drained bucket is printed. -/
inductive Act where
  | send (argv : List CStr)
  | repeated (i : Nat)
  | lose (i : Nat)
  | receive (i : Nat)
  | get (bucket : CStr)
  | print (i j : Nat)

/-- The value that `Tcl_GetInt` stores for the last argument. -/
def sentValue (tcl : Rpc.TclGetInt) (argv : List CStr) : Option Int :=
  match argv with
  | [_, _, _, text] => (tcl.getInt text.1).map int32
  | _ => none

/-- One step. -/
def Server.act (l : Long) (tcl : Rpc.TclGetInt) (s : Server) : Act → Option Server
  | .send argv =>
      match ntcSendReq tcl argv, sentValue tcl argv with
      | .ok req, some value => some { s with flight := s.flight ++ [(req, value)] }
      | _, _ => some s
  | .repeated i => s.flight[i]?.map fun x =>
      { s with flight := s.flight.set i (repeatReq x.1, x.2) }
  | .lose i => s.flight[i]?.map fun _ => { s with flight := s.flight.eraseIdx i }
  | .receive i => s.flight[i]?.map fun x =>
      { s with
        flight := s.flight.eraseIdx i
        buckets := s.buckets.tally l x.1
        received := s.received ++ [x] }
  | .get bucket =>
      match (s.buckets.lookup bucket.1).join with
      | some keys => some
          { s with
            buckets := s.buckets.insert bucket.1 none
            drains := s.drains ++ [⟨bucket.1, pairs keys⟩] }
      | none => some s
  | .print i j => s.drains[i]?.bind fun d => d.entries[j]?.map fun e =>
      { s with
        drains := s.drains.set i { d with entries := d.entries.eraseIdx j }
        printed := s.printed ++ [⟨d.bucket, e.1, e.2.shown l⟩] }

/-- A server that has received nothing. -/
def Server.empty : Server := ⟨[], ∅, [], [], []⟩

/-! ## What is to hold -/

section Figures

variable (l : Long) (s : Server) (bucket key : Bytes)

/-- What was printed for a key. -/
def Server.drained : Int × Int :=
  (s.printed.map fun p => if p.bucket = bucket ∧ p.key = key then p.figures else 0).sum

/-- The figures of a key in a table that is being printed. -/
def Drain.holds (d : Drain) : Int × Int :=
  (d.entries.map fun e => if d.bucket = bucket ∧ e.1 = key then e.2.shown l else 0).sum

/-- What is held for a key, as it would be printed. -/
def Server.held : Int × Int :=
  (s.buckets.sum bucket key).elim 0 (Sum.shown l) + (s.drains.map (Drain.holds l bucket key)).sum

/-- What was received for a key: the number of tallies, and their sum. -/
def Server.tallied : Int × Int :=
  (s.received.map fun x => if x.1.bucket = bucket ∧ x.1.key = key then (1, x.2) else 0).sum

end Figures

/-- **What was printed and what is held make up what was received**, for every key. -/
def Server.Right (l : Long) (s : Server) : Prop :=
  ∀ bucket key, s.drained bucket key + s.held l bucket key = s.tallied bucket key

/-- A value can be added to a sum: the count and the total stay in the range of a `long`, and the
value is not negative where a `long` has more bits than it. -/
def Sum.Takes (l : Long) (sum : Sum) (value : Int) : Prop :=
  match l with
  | .bits32 => l.signed sum.count + 1 < 2147483648 ∧
      -2147483648 ≤ l.signed sum.total + value ∧ l.signed sum.total + value < 2147483648
  | .bits64 => l.signed sum.count + 1 < 9223372036854775808 ∧ 0 ≤ value ∧
      l.signed sum.total + value < 9223372036854775808

/-- Every tally that is received can be added to the sum that is held for its key. -/
def Safe (l : Long) (s : Server) : Act → Prop
  | .receive i => ∀ x ∈ s.flight[i]?,
      ((s.buckets.sum x.1.bucket x.1.key).getD ⟨0, 0⟩).Takes l x.2
  | _ => True

/-! ## Sums of lists and tables -/

section Sums

/-- The entry of a key in the list of a table. -/
theorem sum_pairs (f : Sum → Int × Int) (t : Keys) (key : Bytes) :
    ((pairs t).map fun e => if e.1 = key then f e.2 else 0).sum = (t.lookup key).elim 0 f := by
  obtain ⟨entries, hnodup⟩ := t
  show ((entries.map fun e => (e.1, e.2)).map fun e => if e.1 = key then f e.2 else 0).sum =
    (entries.dlookup key).elim 0 f
  induction entries with
  | nil => rfl
  | cons e entries ih =>
      rw [List.nodupKeys_cons] at hnodup
      have hrest := ih hnodup.2
      rw [List.map_cons, List.map_cons, List.sum_cons, hrest]
      by_cases he : e.1 = key
      · subst he
        have hnone : entries.dlookup e.1 = none := List.dlookup_eq_none.mpr hnodup.1
        rw [if_pos rfl, hnone, List.dlookup_cons_eq]
        simp
      · rw [if_neg he, List.dlookup_cons_ne _ _ (Ne.symm he), zero_add]

end Sums

/-- The sums after a tally: that of its key, and the others as before. -/
theorem sum_tally (l : Long) (t : Buckets) (req : Req) (bucket key : Bytes) :
    (t.tally l req).sum bucket key =
      if req.bucket = bucket ∧ req.key = key then
        some (((t.sum bucket key).getD ⟨0, 0⟩).add l req)
      else t.sum bucket key := by
  unfold Buckets.tally Buckets.sum
  dsimp only
  by_cases hbucket : req.bucket = bucket
  · subst hbucket
    rw [AList.lookup_insert, Option.join_some, Option.bind_some]
    by_cases hkey : req.key = key
    · subst hkey
      rw [AList.lookup_insert, if_pos ⟨rfl, rfl⟩]
      cases (t.lookup req.bucket).join with
      | none => rfl
      | some keys => rfl
    · rw [AList.lookup_insert_ne (Ne.symm hkey), if_neg (fun h => hkey h.2)]
      cases (t.lookup req.bucket).join with
      | none => rfl
      | some keys => rfl
  · rw [AList.lookup_insert_ne (Ne.symm hbucket), if_neg (fun h => hbucket h.1)]

/-- A sum whose figures come from tallies that could be added. -/
structure Sum.Good (l : Long) (sum : Sum) : Prop where
  count : 0 ≤ l.signed sum.count
  total : l = .bits64 → 0 ≤ l.signed sum.total

/-- What is printed is in the range of a `long`. -/
theorem signed_range (l : Long) (x : Nat) :
    -(l.modulus : Int) ≤ 2 * l.signed x ∧ 2 * l.signed x < l.modulus := by
  have hpos : 0 < l.modulus := by cases l <;> decide
  have heven : l.modulus % 2 = 0 := by cases l <;> rfl
  have hlo := Int.le_bmod (x := (x : Int)) hpos
  have hhi := Int.bmod_lt (x := (x : Int)) hpos
  unfold Long.signed
  omega

/-- What is printed after an addition is the sum, up to a multiple of the modulus. -/
theorem signed_add (l : Long) (x u : Nat) :
    ∃ q, l.signed ((x + u) % l.modulus) = l.signed x + u - l.modulus * q := by
  obtain ⟨q, hq⟩ := Int.dvd_self_sub_bmod (x := (x : Int)) (m := l.modulus)
  obtain ⟨q', hq'⟩ := Int.dvd_self_sub_bmod (x := (((x + u) % l.modulus : Nat) : Int))
    (m := l.modulus)
  have hdiv : (((x + u) % l.modulus : Nat) : Int) =
      ((x : Int) + u) - l.modulus * (((x : Int) + u) / l.modulus) := by
    have := Int.mul_ediv_add_emod ((x : Int) + u) l.modulus
    push_cast
    omega
  refine ⟨((x : Int) + u) / l.modulus + q' - q, ?_⟩
  unfold Long.signed
  rw [mul_sub, mul_add]
  omega

/-- **A value is added right exactly if the sum can take it.** -/
theorem shown_add_iff {l : Long} {sum : Sum} (h : sum.Good l) {req : Req} {value : Int}
    (hreq : req.value = be32 value) (hlo : -2147483648 ≤ value) (hhi : value < 2147483648) :
    (sum.add l req).shown l = sum.shown l + (1, value) ↔ sum.Takes l value := by
  obtain ⟨hcount, htotal⟩ := h
  have hword := ofBe32_be32 value
  obtain ⟨q, hq⟩ := signed_add l sum.count 1
  obtain ⟨q', hq'⟩ := signed_add l sum.total (value % 4294967296).toNat
  have hrange := signed_range l ((sum.count + 1) % l.modulus)
  have hrange' := signed_range l ((sum.total + (value % 4294967296).toNat) % l.modulus)
  have hold := signed_range l sum.count
  have hold' := signed_range l sum.total
  show (l.signed ((sum.count + 1) % l.modulus),
      l.signed ((sum.total + ofBe32 req.value) % l.modulus)) =
    (l.signed sum.count + 1, l.signed sum.total + value) ↔ _
  rw [hreq, hword, Prod.mk.injEq]
  cases l with
  | bits32 =>
      -- a number and its low 32 bits are the same to 32 bits
      simp only [Sum.Takes, Long.modulus] at hq hq' hrange hrange' hold hold' ⊢
      omega
  | bits64 =>
      -- a negative number and its low 32 bits are not the same to 64 bits
      have htotal := htotal rfl
      simp only [Sum.Takes, Long.modulus] at hq hq' hrange hrange' hold hold' ⊢
      omega

/-- A sum that could take a value is good again. -/
theorem Sum.Good.add {l : Long} {sum : Sum} (h : sum.Good l) {req : Req} {value : Int}
    (hreq : req.value = be32 value) (hlo : -2147483648 ≤ value) (hhi : value < 2147483648)
    (htakes : sum.Takes l value) : (sum.add l req).Good l := by
  have hshown := (shown_add_iff h hreq hlo hhi).mpr htakes
  obtain ⟨hcount, htotal⟩ := Prod.mk.inj hshown
  have hcount' : l.signed (sum.add l req).count = l.signed sum.count + 1 := hcount
  have htotal' : l.signed (sum.add l req).total = l.signed sum.total + value := htotal
  refine ⟨?_, fun hl => ?_⟩
  · have := h.count
    omega
  · have := h.total hl
    subst hl
    have hnonneg : 0 ≤ value := htakes.2.1
    omega

/-! ## Steps -/

/-- A tally on its way: its value is an `int` in network byte order. -/
structure Sent (x : Req × Int) : Prop where
  value : x.1.value = be32 x.2
  lo : -2147483648 ≤ x.2
  hi : x.2 < 2147483648

/-- **The invariant**: the figures are right, and come from tallies that could be added. -/
structure Server.Sound (l : Long) (s : Server) : Prop where
  right : s.Right l
  flight : ∀ x ∈ s.flight, Sent x
  good : ∀ bucket key sum, s.buckets.sum bucket key = some sum → sum.Good l

section Steps

variable {l : Long} {tcl : Rpc.TclGetInt} {s s' : Server}

theorem good_zero (l : Long) : Sum.Good l ⟨0, 0⟩ := by
  cases l with
  | bits32 => exact ⟨by decide, fun _ => by decide⟩
  | bits64 => exact ⟨by decide, fun _ => by decide⟩

theorem shown_zero (l : Long) : Sum.shown l ⟨0, 0⟩ = 0 := by
  cases l with
  | bits32 => rfl
  | bits64 => rfl

/-- What `nt.send` sends is the value it was given. -/
theorem sent_of_send {argv : List CStr} {req : Req} {value : Int}
    (hreq : ntcSendReq tcl argv = .ok req) (hvalue : sentValue tcl argv = some value) :
    Sent (req, value) := by
  unfold ntcSendReq at hreq
  unfold sentValue at hvalue
  split at hreq
  · rename_i bucket key text
    split_ifs at hreq
    split at hreq
    · cases hreq
    · rename_i x hx
      obtain rfl := Except.ok.inj hreq
      dsimp only at hvalue
      rw [hx, Option.map_some] at hvalue
      obtain rfl := Option.some.inj hvalue
      obtain ⟨hlo, hhi⟩ := int32_range x
      exact ⟨(be32_int32 x).symm, by dsimp only; omega, by dsimp only; omega⟩
  · cases hreq

/-- A step that adds nothing to a sum keeps the invariant. -/
theorem Server.Sound.quiet (h : s.Sound l)
    (hbalance : ∀ bucket key, s'.drained bucket key + s'.held l bucket key =
      s.drained bucket key + s.held l bucket key)
    (hreceived : s'.received = s.received) (hflight : ∀ x ∈ s'.flight, Sent x)
    (hgood : ∀ bucket key sum, s'.buckets.sum bucket key = some sum →
      s.buckets.sum bucket key = some sum) : s'.Sound l := by
  refine ⟨fun bucket key => ?_, hflight, fun bucket key sum hsum => ?_⟩
  · rw [hbalance, h.right, tallied, tallied, hreceived]
  · exact h.good bucket key sum (hgood bucket key sum hsum)

/-- **A drain takes the sums of its bucket along.** -/
theorem held_get (bucket : CStr) {keys : Keys}
    (hkeys : (s.buckets.lookup bucket.1).join = some keys)
    (b k : Bytes) :
    Server.held l { s with
      buckets := s.buckets.insert bucket.1 none
      drains := s.drains ++ [⟨bucket.1, pairs keys⟩] } b k = s.held l b k := by
  unfold Server.held
  dsimp only
  rw [List.map_append, List.sum_append, List.map_singleton, List.sum_singleton]
  by_cases hb : bucket.1 = b
  · subst hb
    have hdrain : Drain.holds l bucket.1 k ⟨bucket.1, pairs keys⟩ =
        (keys.lookup k).elim 0 (Sum.shown l) := by
      rw [← sum_pairs]
      simp [Drain.holds]
    have hnone : Buckets.sum (s.buckets.insert bucket.1 none) bucket.1 k = none := by
      simp [Buckets.sum]
    have hold : s.buckets.sum bucket.1 k = keys.lookup k := by
      rw [Buckets.sum, hkeys, Option.bind_some]
    rw [hdrain, hnone, hold, Option.elim_none, zero_add, add_comm]
  · have hdrain : Drain.holds l b k ⟨bucket.1, pairs keys⟩ = 0 := by
      simp [Drain.holds, hb]
    have hsame : Buckets.sum (s.buckets.insert bucket.1 none) b k = s.buckets.sum b k := by
      unfold Buckets.sum
      rw [AList.lookup_insert_ne (Ne.symm hb)]
    rw [hdrain, hsame, add_zero]

/-- **What is printed is no longer held.** -/
theorem balance_print {i j : Nat} {d : Drain} {e : Bytes × Sum} (hd : s.drains[i]? = some d)
    (he : d.entries[j]? = some e) (b k : Bytes) :
    Server.drained { s with
        drains := s.drains.set i { d with entries := d.entries.eraseIdx j }
        printed := s.printed ++ [⟨d.bucket, e.1, e.2.shown l⟩] } b k +
      Server.held l { s with
        drains := s.drains.set i { d with entries := d.entries.eraseIdx j }
        printed := s.printed ++ [⟨d.bucket, e.1, e.2.shown l⟩] } b k =
    s.drained b k + s.held l b k := by
  have hset := sum_map_set (Drain.holds l b k) hd { d with entries := d.entries.eraseIdx j }
  have herase : Drain.holds l b k { d with entries := d.entries.eraseIdx j } +
      (if d.bucket = b ∧ e.1 = k then e.2.shown l else 0) = Drain.holds l b k d :=
    sum_map_eraseIdx (fun e : Bytes × Sum => if d.bucket = b ∧ e.1 = k then e.2.shown l else 0) he
  -- the line printed and the entry erased have the same figures
  have hmoved : ((s.drains.set i { d with entries := d.entries.eraseIdx j }).map
      (Drain.holds l b k)).sum + (if d.bucket = b ∧ e.1 = k then e.2.shown l else 0) =
      (s.drains.map (Drain.holds l b k)).sum := by
    rw [← herase, add_comm (Drain.holds l b k _), ← add_assoc] at hset
    exact add_right_cancel hset
  unfold Server.drained Server.held
  dsimp only
  rw [List.map_append, List.sum_append, List.map_singleton, List.sum_singleton, ← hmoved]
  abel

/-- What a tally that is received does to the figures of its key. -/
theorem balance_receive {x : Req × Int} (h : s.Sound l) (i : Nat) :
    Server.Right l { s with
      flight := s.flight.eraseIdx i
      buckets := s.buckets.tally l x.1
      received := s.received ++ [x] } ↔
    ((((s.buckets.sum x.1.bucket x.1.key).getD ⟨0, 0⟩).add l x.1).shown l =
      ((s.buckets.sum x.1.bucket x.1.key).getD ⟨0, 0⟩).shown l + (1, x.2)) := by
  have hold : ∀ b k, (s.buckets.sum b k).elim 0 (Sum.shown l) =
      ((s.buckets.sum b k).getD ⟨0, 0⟩).shown l := by
    intro b k
    cases s.buckets.sum b k with
    | none => exact (shown_zero l).symm
    | some sum => rfl
  have hright := h.right
  unfold Server.Right at hright ⊢
  unfold Server.drained Server.held Server.tallied at hright ⊢
  dsimp only at hright ⊢
  constructor
  · intro hall
    have hkey := hall x.1.bucket x.1.key
    rw [List.map_append, List.sum_append, List.map_singleton, List.sum_singleton, if_pos ⟨rfl, rfl⟩,
      sum_tally, if_pos ⟨rfl, rfl⟩, Option.elim_some, ← hright, hold] at hkey
    linear_combination hkey
  · intro hadd b k
    rw [List.map_append, List.sum_append, List.map_singleton, List.sum_singleton, sum_tally,
      ← hright]
    by_cases hkey : x.1.bucket = b ∧ x.1.key = k
    · obtain ⟨rfl, rfl⟩ := hkey
      rw [if_pos ⟨rfl, rfl⟩, if_pos ⟨rfl, rfl⟩, Option.elim_some, hadd, hold]
      abel
    · rw [if_neg hkey, if_neg hkey, add_zero]

/-- The sum a tally is added to is good, also a new one. -/
theorem Server.Sound.good_getD (h : s.Sound l) (bucket key : Bytes) :
    ((s.buckets.sum bucket key).getD ⟨0, 0⟩).Good l := by
  cases hsum : s.buckets.sum bucket key with
  | none => exact good_zero l
  | some sum => exact h.good bucket key sum hsum

/-- **Every safe step keeps the invariant.** -/
theorem Server.Sound.act (h : s.Sound l) {e : Act} (hsafe : Safe l s e)
    (hstep : s.act l tcl e = some s') : s'.Sound l := by
  cases e with
  | send argv =>
      have hkeep : ∀ x, s.act l tcl (.send argv) = some x → x.Sound l := by
        intro x hx
        simp only [Server.act] at hx
        split at hx
        · rename_i req value hreq hvalue
          obtain rfl := Option.some.inj hx
          refine h.quiet (fun _ _ => rfl) rfl (fun y hy => ?_) (fun _ _ _ hsum => hsum)
          rcases List.mem_append.mp hy with hy | hy
          · exact h.flight y hy
          · obtain rfl : y = (req, value) := by simpa using hy
            exact sent_of_send hreq hvalue
        · obtain rfl := Option.some.inj hx
          exact h
      exact hkeep s' hstep
  | repeated i =>
      obtain ⟨x, hx, rfl⟩ := Option.map_eq_some_iff.mp hstep
      refine h.quiet (fun _ _ => rfl) rfl (fun y hy => ?_) (fun _ _ _ hsum => hsum)
      rcases List.mem_or_eq_of_mem_set hy with hy | rfl
      · exact h.flight y hy
      · have hsent := h.flight x (List.mem_of_getElem? hx)
        exact ⟨hsent.value, hsent.lo, hsent.hi⟩
  | lose i =>
      obtain ⟨x, hx, rfl⟩ := Option.map_eq_some_iff.mp hstep
      exact h.quiet (fun _ _ => rfl) rfl (fun y hy => h.flight y (List.mem_of_mem_eraseIdx hy))
        (fun _ _ _ hsum => hsum)
  | receive i =>
      obtain ⟨x, hx, rfl⟩ := Option.map_eq_some_iff.mp hstep
      have hsent := h.flight x (List.mem_of_getElem? hx)
      have htakes := hsafe x hx
      have hgood := h.good_getD x.1.bucket x.1.key
      refine ⟨?_, fun y hy => h.flight y (List.mem_of_mem_eraseIdx hy), ?_⟩
      · exact (balance_receive h i).mpr
          ((shown_add_iff hgood hsent.value hsent.lo hsent.hi).mpr htakes)
      · intro b k sum hsum
        dsimp only at hsum
        rw [sum_tally] at hsum
        split_ifs at hsum with hkey
        · obtain ⟨rfl, rfl⟩ := hkey
          obtain rfl := Option.some.inj hsum
          exact hgood.add hsent.value hsent.lo hsent.hi htakes
        · exact h.good b k sum hsum
  | get bucket =>
      simp only [Server.act] at hstep
      cases hkeys : (s.buckets.lookup bucket.1).join with
      | none =>
          rw [hkeys] at hstep
          obtain rfl := Option.some.inj hstep
          exact h
      | some keys =>
          rw [hkeys] at hstep
          obtain rfl := Option.some.inj hstep
          refine h.quiet (fun b k => ?_) rfl h.flight (fun b k sum hsum => ?_)
          · rw [held_get bucket hkeys]
            rfl
          · by_cases hb : b = bucket.1
            · subst hb
              simp [Buckets.sum] at hsum
            · simpa [Buckets.sum, AList.lookup_insert_ne hb] using hsum
  | print i j =>
      obtain ⟨d, hd, hstep⟩ := Option.bind_eq_some_iff.mp hstep
      obtain ⟨e, he, rfl⟩ := Option.map_eq_some_iff.mp hstep
      exact h.quiet (balance_print hd he) rfl h.flight (fun _ _ _ hsum => hsum)

/-- **A step leaves the figures right exactly if it is safe.** -/
theorem Server.Sound.safe_iff (tcl : Rpc.TclGetInt) (h : s.Sound l) (e : Act) :
    Safe l s e ↔ ∀ s' ∈ s.act l tcl e, s'.Right l := by
  constructor
  · intro hsafe s' hs'
    exact (h.act hsafe hs').right
  · intro hright
    cases e with
    | receive i =>
        intro x hx
        have hsent := h.flight x (List.mem_of_getElem? hx)
        have hafter := hright _ (Option.map_eq_some_iff.mpr ⟨x, hx, rfl⟩)
        exact (shown_add_iff (h.good_getD _ _) hsent.value hsent.lo hsent.hi).mp
          ((balance_receive h i).mp hafter)
    | send argv => trivial
    | repeated i => trivial
    | lose i => trivial
    | get bucket => trivial
    | print i j => trivial

/-- Nothing was received and nothing is held. -/
theorem sound_empty (l : Long) : Server.empty.Sound l := by
  refine ⟨fun bucket key => ?_, fun x hx => absurd hx List.not_mem_nil, ?_⟩
  · rfl
  · intro bucket key sum hsum
    exact absurd hsum (by simp [Server.empty, Buckets.sum])

end Steps

/-- **The figures are right in every state of a run exactly if every tally that is received can be
added**: with a `long` of 64 bits, its value is not negative, and the figures held for its key
stay in the range of a `long`. -/
theorem totals_right_iff (l : Long) (tcl : Rpc.TclGetInt) (es : List Act) :
    (∀ pre, pre <+: es → ∀ s, run (Server.act l tcl) Server.empty pre = some s → s.Right l) ↔
      Along (Server.act l tcl) (Safe l) Server.empty es := by
  have hempty := sound_empty l
  rw [reached_iff_along es hempty.right]
  symm
  exact along_congr (fun s e h => h.safe_iff tcl e) (fun s e s' h hsafe => h.act hsafe) es hempty

/-- A vote of -1 that is received. -/
def minusOne : List Act :=
  [.send [toCStr (ascii "nt.send"), toCStr [98], toCStr [107], toCStr (ascii "-1")], .receive 0]

/-- With a `long` of 64 bits the total of -1 is 4294967295. -/
theorem negative_total : ∃ s, run (Server.act .bits64 Rpc.TclGetInt.decimal) Server.empty minusOne =
    some s ∧ s.held .bits64 [98] [107] = (1, 4294967295) ∧ s.tallied [98] [107] = (1, -1) ∧
    ¬ s.Right .bits64 := by
  refine ⟨_, rfl, ?_, ?_, ?_⟩
  · decide +kernel
  · decide +kernel
  · intro h
    have := h [98] [107]
    revert this
    decide +kernel

end Nsdci.Nt
