import Nsdci.Lib.Memory

/-!
# Newlines of a text channel

A channel in its automatic mode gives a line feed for a carriage return, for a line feed, and for
one behind the other. What that does to bytes that are no text: no carriage return is left
(`notMem_eol`), and no byte is lost exactly if no line feed follows a carriage return
(`length_eol_iff`).
-/

namespace Nsdci.Lib

/-- What a channel gives for its bytes. It remembers whether the last byte was a carriage return. -/
def eol : Bool → Bytes → Bytes
  | _, [] => []
  | sawCR, b :: bs =>
      if b = 13 then 10 :: eol true bs
      else if b = 10 ∧ sawCR then eol false bs
      else b :: eol false bs

/-- What a channel gives for a byte by itself. -/
def eolByte (b : UInt8) : UInt8 := if b = 13 then 10 else b

/-- A line feed follows a carriage return. -/
def CrLf (bs : Bytes) : Prop := [13, 10] <:+: bs

instance (bs : Bytes) : Decidable (CrLf bs) := inferInstanceAs (Decidable (_ <:+: _))

/-- **No carriage return is left.** -/
theorem notMem_eol (sawCR : Bool) (bs : Bytes) : 13 ∉ eol sawCR bs := by
  induction bs generalizing sawCR with
  | nil => exact List.not_mem_nil
  | cons b bs ih =>
      unfold eol
      split_ifs with hcr hlf
      · exact List.not_mem_cons_of_ne_of_not_mem (by decide) (ih true)
      · exact ih false
      · exact List.not_mem_cons_of_ne_of_not_mem (Ne.symm hcr) (ih false)

/-- No byte is added. -/
theorem length_eol_le (sawCR : Bool) (bs : Bytes) : (eol sawCR bs).length ≤ bs.length := by
  induction bs generalizing sawCR with
  | nil => exact Nat.le_refl 0
  | cons b bs ih =>
      unfold eol
      split_ifs with hcr hlf
      · exact Nat.succ_le_succ (ih true)
      · exact Nat.le_succ_of_le (ih false)
      · exact Nat.succ_le_succ (ih false)

/-- Where a line feed follows a carriage return, in a list that is not empty. -/
theorem crLf_cons {b : UInt8} {bs : Bytes} :
    CrLf (b :: bs) ↔ b = 13 ∧ bs.head? = some 10 ∨ CrLf bs := by
  unfold CrLf
  rw [List.infix_cons_iff]
  refine or_congr_left ?_
  rw [List.cons_prefix_cons]
  cases bs with
  | nil => simp
  | cons b' bs => simp [List.cons_prefix_cons, eq_comm]

/-- What is given from a byte on. -/
theorem eol_step (sawCR : Bool) (b : UInt8) (bs : Bytes) : eol sawCR (b :: bs) =
    if b = 13 then 10 :: eol true bs
    else if b = 10 ∧ sawCR then eol false bs
    else b :: eol false bs := rfl

/-- A front without a line feed behind a carriage return is taken byte by byte, whatever follows. -/
theorem eol_append (sawCR : Bool) {bs : Bytes} (rest : Bytes) (h : ¬ CrLf bs)
    (hhead : sawCR = true → bs.head? ≠ some 10) :
    ∃ saw, eol sawCR (bs ++ rest) = bs.map eolByte ++ eol saw rest := by
  induction bs generalizing sawCR with
  | nil => exact ⟨sawCR, rfl⟩
  | cons b bs ih =>
      obtain ⟨hnext, hrest⟩ := not_or.mp fun h' => h (crLf_cons.mpr h')
      rw [List.cons_append, List.map_cons, eol_step]
      by_cases hcr : b = 13
      · obtain ⟨saw, hsaw⟩ := ih true hrest fun _ hlf => hnext ⟨hcr, hlf⟩
        refine ⟨saw, ?_⟩
        rw [if_pos hcr, hsaw, eolByte, if_pos hcr, List.cons_append]
      · have hlf : ¬ (b = 10 ∧ sawCR = true) := fun ⟨hb, hsaw⟩ =>
          hhead hsaw (congrArg some hb)
        obtain ⟨saw, hsaw⟩ := ih false hrest Bool.noConfusion
        refine ⟨saw, ?_⟩
        rw [if_neg hcr, if_neg hlf, hsaw, eolByte, if_neg hcr, List.cons_append]

/-- **Without a line feed behind a carriage return every byte is taken by itself.** -/
theorem eol_eq_map (sawCR : Bool) {bs : Bytes} (h : ¬ CrLf bs)
    (hhead : sawCR = true → bs.head? ≠ some 10) : eol sawCR bs = bs.map eolByte := by
  obtain ⟨saw, hsaw⟩ := eol_append sawCR [] h hhead
  rw [List.append_nil] at hsaw
  rw [hsaw]
  exact List.append_nil _

/-- A front gives no bytes but its own and line feeds, and what follows it comes behind them. -/
theorem eol_split (sawCR : Bool) (bs rest : Bytes) :
    ∃ front saw, eol sawCR (bs ++ rest) = front ++ eol saw rest ∧ ∀ b ∈ front, b = 10 ∨ b ∈ bs := by
  induction bs generalizing sawCR with
  | nil => exact ⟨[], sawCR, rfl, fun b hb => absurd hb List.not_mem_nil⟩
  | cons b bs ih =>
      rw [List.cons_append, eol_step]
      split_ifs with hcr hlf
      · obtain ⟨front, saw, heq, hfront⟩ := ih true
        refine ⟨10 :: front, saw, by rw [heq, List.cons_append], fun c hc => ?_⟩
        rcases List.mem_cons.mp hc with rfl | hc
        · exact Or.inl rfl
        · exact (hfront c hc).imp_right (List.mem_cons_of_mem b)
      · obtain ⟨front, saw, heq, hfront⟩ := ih false
        exact ⟨front, saw, heq, fun c hc => (hfront c hc).imp_right (List.mem_cons_of_mem b)⟩
      · obtain ⟨front, saw, heq, hfront⟩ := ih false
        refine ⟨b :: front, saw, by rw [heq, List.cons_append], fun c hc => ?_⟩
        rcases List.mem_cons.mp hc with rfl | hc
        · exact Or.inr List.mem_cons_self
        · exact (hfront c hc).imp_right (List.mem_cons_of_mem b)

/-- At the start of a channel, or behind what is no carriage return, a byte gives a byte. -/
theorem eol_cons (b : UInt8) (bs : Bytes) :
    eol false (b :: bs) = eolByte b :: eol (decide (b = 13)) bs := by
  rw [eol_step, eolByte]
  by_cases hcr : b = 13
  · rw [if_pos hcr, if_pos hcr, decide_eq_true hcr]
  · rw [if_neg hcr, if_neg hcr, decide_eq_false hcr, if_neg fun h => Bool.noConfusion h.2]

/-- Other bytes are given as they are. -/
theorem eol_cons_of_ne {b : UInt8} (hcr : b ≠ 13) (bs : Bytes) :
    eol false (b :: bs) = b :: eol false bs := by
  rw [eol_cons, eolByte, if_neg hcr, decide_eq_false hcr]

/-- There is no line feed behind a carriage return where there is no carriage return. -/
theorem not_crLf_of_notMem {bs : Bytes} (h : 13 ∉ bs) : ¬CrLf bs :=
  fun hcrlf => h (hcrlf.subset List.mem_cons_self)

/-- **A line feed behind a carriage return is lost.** -/
theorem length_eol_lt (sawCR : Bool) {bs : Bytes} (h : CrLf bs) :
    (eol sawCR bs).length < bs.length := by
  induction bs generalizing sawCR with
  | nil => exact absurd (List.infix_nil.mp h) (List.cons_ne_nil _ _)
  | cons b bs ih =>
      have hle := length_eol_le false bs
      unfold eol
      by_cases hcr : b = 13
      · rw [if_pos hcr]
        rcases crLf_cons.mp h with ⟨-, hlf⟩ | hrest
        · obtain ⟨bs, rfl⟩ : ∃ bs', bs = 10 :: bs' := by
            cases bs with
            | nil => exact nomatch hlf
            | cons b' bs' => exact ⟨bs', by rw [Option.some.inj hlf]⟩
          have hle' := length_eol_le false bs
          have hlost : eol true (10 :: bs) = eol false bs := rfl
          rw [hlost, List.length_cons, List.length_cons, List.length_cons]
          omega
        · exact Nat.succ_lt_succ (ih true hrest)
      · rcases crLf_cons.mp h with ⟨hcr', -⟩ | hrest
        · exact absurd hcr' hcr
        · have hlt := ih false hrest
          rw [if_neg hcr]
          split_ifs
          · exact Nat.lt_succ_of_lt hlt
          · exact Nat.succ_lt_succ hlt

/-- **The length tells whether a line feed was lost.** -/
theorem length_eol_iff {bs : Bytes} : (eol false bs).length = bs.length ↔ ¬ CrLf bs := by
  constructor
  · intro h hcrlf
    have hlt := length_eol_lt false hcrlf
    omega
  · intro h
    rw [eol_eq_map false h Bool.noConfusion, List.length_map]

/-- Bytes without a carriage return are given as they are. -/
theorem map_eolByte {bs : Bytes} (h : 13 ∉ bs) : bs.map eolByte = bs := by
  induction bs with
  | nil => rfl
  | cons b bs ih =>
      obtain ⟨hb, hbs⟩ := not_or.mp fun h' => h (List.mem_cons.mpr h')
      rw [List.map_cons, ih hbs, eolByte, if_neg (Ne.symm hb)]

end Nsdci.Lib
