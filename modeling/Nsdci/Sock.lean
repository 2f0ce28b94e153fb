import Nsdci.Lib.Memory
import Mathlib.Tactic.Linarith

/-!
# Scatter/gather vectors (`sock.c`)

`Iovec` is `struct iovec`; `updateIov` is `Dci_UpdateIov`, the loop that moves a vector past
the bytes a partial `sendmsg` or `recvmsg` has handled. Its specification is `gather_updateIov`:
what is left to transfer is what was there before, less the first `n` bytes.
-/

namespace Nsdci

open Lib

/-- `struct iovec`. A vector over a `NULL` base describes no bytes. -/
structure Iovec (β : Type) where
  base : Option (Ptr β)
  len : Nat
  valid : base = none → len = 0
  deriving DecidableEq

namespace Iovec

variable {β : Type}

/-- `iov_base = NULL; iov_len = 0`. -/
def null : Iovec β := ⟨none, 0, fun _ => rfl⟩

/-- `iov_base = p; iov_len = n`. -/
def mk' (p : Ptr β) (n : Nat) : Iovec β := ⟨some p, n, by simp⟩

/-- `iov_len -= n; iov_base += n`. -/
def advance (v : Iovec β) (n : Nat) : Iovec β :=
  ⟨v.base.map (·.add n), v.len - n, by
    intro h
    have := v.valid (by simpa using h)
    omega⟩

/-- The bytes one vector describes. -/
def bytes (m : Mem β) (v : Iovec β) : Bytes :=
  match v.base with
  | some p => m.read p v.len
  | none => []

@[simp] theorem len_null : (null : Iovec β).len = 0 := rfl
@[simp] theorem len_mk' (p : Ptr β) (n : Nat) : (mk' p n).len = n := rfl
@[simp] theorem len_advance (v : Iovec β) (n : Nat) : (v.advance n).len = v.len - n := rfl
@[simp] theorem bytes_null (m : Mem β) : (null : Iovec β).bytes m = [] := rfl
@[simp] theorem bytes_mk' (m : Mem β) (p : Ptr β) (n : Nat) :
    (mk' p n).bytes m = m.read p n := rfl

@[simp] theorem length_bytes (m : Mem β) (v : Iovec β) : (v.bytes m).length = v.len := by
  unfold bytes
  split
  · simp
  · rename_i h
    simp [v.valid h]

/-- A vector of length 0 describes no bytes, whatever its base. -/
theorem bytes_of_len_zero (m : Mem β) {v : Iovec β} (h : v.len = 0) : v.bytes m = [] :=
  List.eq_nil_of_length_eq_zero (by simpa using h)

/-- Advancing a vector drops its first bytes. -/
@[simp] theorem bytes_advance (m : Mem β) (v : Iovec β) (n : Nat) :
    (v.advance n).bytes m = (v.bytes m).drop n := by
  obtain ⟨base, len, hvalid⟩ := v
  cases base with
  | none => simp [bytes, advance]
  | some p => simp [bytes, advance, Mem.drop_read]

/-- Two advances are one. -/
theorem advance_advance (v : Iovec β) (a b : Nat) :
    (v.advance a).advance b = v.advance (a + b) := by
  obtain ⟨base, len, hvalid⟩ := v
  cases base <;> simp [advance, Ptr.add, Nat.sub_sub, Nat.add_assoc]

end Iovec

variable {β : Type}

/-- The number of bytes a list of vectors describes. -/
def total (iov : List (Iovec β)) : Nat := (iov.map Iovec.len).sum

/-- The bytes a list of vectors describes, in order. -/
def gather (m : Mem β) (iov : List (Iovec β)) : Bytes := iov.flatMap (Iovec.bytes m)

@[simp] theorem total_nil : total ([] : List (Iovec β)) = 0 := rfl

@[simp] theorem total_cons (v : Iovec β) (iov : List (Iovec β)) :
    total (v :: iov) = v.len + total iov := by
  simp [total]

@[simp] theorem gather_nil (m : Mem β) : gather m [] = [] := rfl

@[simp] theorem gather_cons (m : Mem β) (v : Iovec β) (iov : List (Iovec β)) :
    gather m (v :: iov) = v.bytes m ++ gather m iov := rfl

@[simp] theorem length_gather (m : Mem β) (iov : List (Iovec β)) :
    (gather m iov).length = total iov := by
  induction iov with
  | nil => rfl
  | cons v iov ih => simp [ih]

/-- `Dci_UpdateIov`: modify the vectors to reflect a transfer of `n` bytes. -/
def updateIov : List (Iovec β) → Nat → List (Iovec β)
  | [], _ => []
  | v :: iov, n =>
      if n = 0 then v :: iov
      else if 0 < v.len then
        if v.len ≤ n then .null :: updateIov iov (n - v.len)
        else v.advance n :: updateIov iov 0
      else v :: updateIov iov n

@[simp] theorem updateIov_zero (iov : List (Iovec β)) : updateIov iov 0 = iov := by
  cases iov <;> simp [updateIov]

@[simp] theorem length_updateIov (iov : List (Iovec β)) (n : Nat) :
    (updateIov iov n).length = iov.length := by
  induction iov generalizing n with
  | nil => rfl
  | cons v iov ih =>
      simp only [updateIov]
      split_ifs <;> simp [ih]

/-- **The vectors describe what was there before, less the first `n` bytes.** -/
theorem gather_updateIov (m : Mem β) (iov : List (Iovec β)) (n : Nat) :
    gather m (updateIov iov n) = (gather m iov).drop n := by
  induction iov generalizing n with
  | nil => simp [updateIov]
  | cons v iov ih =>
      simp only [updateIov]
      split_ifs with hn hlen hle
      · simp [hn]
      · have hdrop : (v.bytes m).drop n = [] := List.drop_eq_nil_of_le (by simpa using hle)
        simp [ih, List.drop_append, hdrop]
      · have hsub : n - v.len = 0 := by omega
        simp [List.drop_append, hsub]
      · have hv : v.bytes m = [] := Iovec.bytes_of_len_zero m (by omega)
        simp [ih, hv]

/-- The vectors are shorter by the bytes transferred. -/
@[simp] theorem total_updateIov (iov : List (Iovec β)) (n : Nat) :
    total (updateIov iov n) = total iov - n := by
  have h := congrArg List.length (gather_updateIov (fun _ _ => 0) iov n)
  simpa using h

/-- Two partial transfers leave what one transfer of their sum leaves. -/
theorem updateIov_updateIov (iov : List (Iovec β)) (a b : Nat) :
    updateIov (updateIov iov a) b = updateIov iov (a + b) := by
  induction iov generalizing a b with
  | nil => rfl
  | cons v iov ih =>
      by_cases ha : a = 0
      · simp [ha]
      by_cases hb : b = 0
      · simp [hb]
      by_cases hlen : v.len = 0
      · simp [updateIov, ha, hb, hlen, ih]
      by_cases hva : v.len ≤ a
      · have hsum : v.len ≤ a + b := by omega
        have hsub : a - v.len + b = a + b - v.len := by omega
        simp [updateIov, ha, hb, hva, hsum, Nat.pos_of_ne_zero hlen, ih, hsub]
      · have hpos : 0 < v.len - a := by omega
        by_cases hvb : v.len ≤ a + b
        · have hle : v.len - a ≤ b := by omega
          have hsub : b - (v.len - a) = a + b - v.len := by omega
          simp [updateIov, ha, hb, hva, hvb, hle, hpos, Nat.pos_of_ne_zero hlen, hsub]
        · have hle : ¬ v.len - a ≤ b := by omega
          simp [updateIov, ha, hb, hva, hvb, hle, hpos, Nat.pos_of_ne_zero hlen,
            Iovec.advance_advance]

/-- A transfer that ends inside the first vector. -/
theorem updateIov_lt (p : Ptr β) {n k : Nat} (iov : List (Iovec β)) (hk : k < n) :
    updateIov (.mk' p n :: iov) k = .mk' (p.add k) (n - k) :: iov := by
  have hpos : 0 < n := by omega
  have hle : ¬ n ≤ k := by omega
  by_cases h0 : k = 0
  · subst h0
    simp [Ptr.add]
  · simp only [updateIov, if_neg h0, Iovec.len_mk', if_pos hpos, if_neg hle, updateIov_zero]
    rfl

/-- A transfer that fills the first vector. -/
theorem updateIov_ge (p : Ptr β) {n k : Nat} (iov : List (Iovec β)) (hn : 0 < n) (hk : n ≤ k) :
    updateIov (.mk' p n :: iov) k = .null :: updateIov iov (k - n) := by
  have h0 : k ≠ 0 := by omega
  simp [updateIov, h0, hn, hk]

/-! ## Scattered reads -/

section Scatter

variable [DecidableEq β]

/-- What `recvmsg` stores: the vectors are filled in order. -/
def scatter (m : Mem β) : List (Iovec β) → Bytes → Mem β
  | [], _ => m
  | v :: iov, bs =>
      scatter (match v.base with
        | some p => m.write p (bs.take v.len)
        | none => m) iov (bs.drop v.len)

@[simp] theorem scatter_nil (m : Mem β) (iov : List (Iovec β)) : scatter m iov [] = m := by
  induction iov with
  | nil => rfl
  | cons v iov ih =>
      obtain ⟨base, len, hvalid⟩ := v
      cases base <;> simp [scatter, ih]

/-- **A read goes on, after the vectors are moved, where the one before it stopped.** -/
theorem scatter_append (m : Mem β) (iov : List (Iovec β)) (as bs : Bytes) :
    scatter m iov (as ++ bs) = scatter (scatter m iov as) (updateIov iov as.length) bs := by
  induction iov generalizing m as with
  | nil => rfl
  | cons v iov ih =>
      by_cases has : as = []
      · simp [has]
      have hpos : as.length ≠ 0 := by simpa using has
      obtain ⟨base, len, hvalid⟩ := v
      simp only [updateIov, if_neg hpos]
      split_ifs with hlen hle
      · -- the first vector is filled
        have htake : (as ++ bs).take len = as.take len := List.take_append_of_le_length hle
        have hdrop : (as ++ bs).drop len = as.drop len ++ bs :=
          List.drop_append_of_le_length hle
        simp only [scatter, Iovec.null, htake, hdrop, ih, List.length_drop, List.drop_zero]
      · -- the read ends inside the first vector
        have hsub : as.take len = as := List.take_of_length_le (by omega)
        have hnil : as.drop len = [] := List.drop_eq_nil_of_le (by omega)
        have htake : (as ++ bs).take len = as ++ bs.take (len - as.length) := by
          rw [List.take_append, hsub]
        have hdrop : (as ++ bs).drop len = bs.drop (len - as.length) := by
          rw [List.drop_append, hnil, List.nil_append]
        cases base with
        | none => exact absurd (hvalid rfl) (by simpa using Nat.ne_of_gt hlen)
        | some p =>
            simp only [scatter, Iovec.advance, Option.map_some, updateIov_zero, hsub, hnil,
              htake, hdrop, scatter_nil, Mem.write_append]
      · obtain rfl : len = 0 := by simpa using hlen
        cases base <;> simp [scatter, ih]

/-- Reading into the vectors is reading `n` bytes to `p`. -/
def Fills (iov : List (Iovec β)) (p : Ptr β) (n : Nat) : Prop :=
  total iov = n ∧ ∀ m bs, bs.length ≤ n → scatter m iov bs = m.write p bs

/-- A read that ends inside the first vector. -/
theorem scatter_le (m : Mem β) (p : Ptr β) {n : Nat} (iov : List (Iovec β)) {bs : Bytes}
    (h : bs.length ≤ n) : scatter m (.mk' p n :: iov) bs = m.write p bs := by
  have htake : bs.take n = bs := List.take_of_length_le h
  have hdrop : bs.drop n = [] := List.drop_eq_nil_of_le h
  simp only [scatter, Iovec.mk', htake, hdrop, scatter_nil]

/-- One vector for `n` bytes, whatever stands behind it. -/
theorem fills_mk' (p : Ptr β) (n : Nat) (iov : List (Iovec β)) (h : total iov = 0) :
    Fills (.mk' p n :: iov) p n :=
  ⟨by simp [h], fun m _ hbs => scatter_le m p iov hbs⟩

/-- An empty vector in front is passed over. -/
theorem Fills.cons_null {iov : List (Iovec β)} {p : Ptr β} {n : Nat} (h : Fills iov p n) :
    Fills (.null :: iov) p n := by
  refine ⟨by simpa using h.1, fun m bs hbs => ?_⟩
  rw [← h.2 m bs hbs]
  rfl

/-- What is left to fill after `k` bytes. -/
theorem Fills.updateIov {iov : List (Iovec β)} {p : Ptr β} {n : Nat} (h : Fills iov p n)
    {k : Nat} (hk : k ≤ n) : Fills (updateIov iov k) (p.add k) (n - k) := by
  obtain ⟨htotal, hfill⟩ := h
  refine ⟨by rw [total_updateIov, htotal], fun m bs hbs => ?_⟩
  have hlen : (m.read p k ++ bs).length ≤ n := by simp; omega
  have happ := scatter_append m iov (m.read p k) bs
  rw [hfill m _ hlen, hfill m (m.read p k) (by simpa using hk), Mem.write_append, Mem.write_read,
    Mem.length_read] at happ
  exact happ.symm

end Scatter

end Nsdci
