import Nsdci.Lib.Memory

/-!
# NUL-terminated strings

`cstr bs` is the string a `char *` to the bytes `bs` stands for, and `readCStr` is the idiom
`s = p, p += strlen(p) + 1`. A string is stored with its terminator by `asciz`.
-/

namespace Nsdci.Lib

/-- The string has no NUL inside. -/
def NulFree (s : Bytes) : Prop := 0 ∉ s

instance (s : Bytes) : Decidable (NulFree s) := inferInstanceAs (Decidable (0 ∉ s))

/-- The empty string has none. -/
theorem nulFree_nil : NulFree [] := List.not_mem_nil

/-- A C string. -/
abbrev CStr := { s : Bytes // NulFree s }

/-- The string with its terminator. -/
def asciz (s : Bytes) : Bytes := s ++ [0]

/-- The bytes of a text in ASCII. -/
def ascii (s : String) : Bytes := s.toList.map fun c => UInt8.ofNat c.toNat

/-- The string up to the first NUL. -/
def cstr (bs : Bytes) : Bytes := bs.takeWhile (· ≠ 0)

/-- Read a string and step past its terminator. `none` when there is no terminator: the read
would leave the buffer. -/
def readCStr : Bytes → Option (Bytes × Bytes)
  | [] => none
  | b :: bs => if b = 0 then some ([], bs) else (readCStr bs).map fun r => (b :: r.1, r.2)

/-- The first place where `pat` stands in `s` (`strstr`, as an offset). -/
def strstr (pat : Bytes) : Bytes → Option Nat
  | [] => if pat = [] then some 0 else none
  | c :: s => if pat <+: c :: s then some 0 else (strstr pat s).map (· + 1)

/-- The first place of a character (`strchr`, as an offset). -/
def strchr (c : UInt8) (s : Bytes) : Option Nat := s.idxOf? c

/-- A stored string is read back, and reading goes on behind it. -/
theorem readCStr_asciz {s : Bytes} (hs : NulFree s) (rest : Bytes) :
    readCStr (asciz s ++ rest) = some (s, rest) := by
  induction s with
  | nil => rfl
  | cons b s ih =>
      have hb : b ≠ 0 := fun h => hs (by simp [h])
      have htail : NulFree s := fun h => hs (List.mem_cons_of_mem _ h)
      have := ih htail
      simp_all [asciz, readCStr]

/-- What is read has no NUL. -/
theorem nulFree_of_readCStr {bs s rest : Bytes} (h : readCStr bs = some (s, rest)) :
    NulFree s ∧ bs = asciz s ++ rest := by
  induction bs generalizing s with
  | nil => simp [readCStr] at h
  | cons b bs ih =>
      simp only [readCStr] at h
      split_ifs at h with hb
      · obtain ⟨rfl, rfl⟩ : [] = s ∧ bs = rest := by simpa using h
        simp [NulFree, asciz, hb]
      · obtain ⟨⟨t, rest'⟩, hread, heq⟩ := Option.map_eq_some_iff.mp h
        obtain ⟨rfl, rfl⟩ : b :: t = s ∧ rest' = rest := by simpa using heq
        obtain ⟨hfree, rfl⟩ := ih hread
        exact ⟨by simpa [NulFree, eq_comm, hb] using hfree, by simp [asciz]⟩

/-- What `strstr` finds is there. -/
theorem prefix_of_strstr {pat s : Bytes} {i : Nat} (h : strstr pat s = some i) :
    pat <+: s.drop i := by
  induction s generalizing i with
  | nil =>
      simp only [strstr, Option.ite_none_right_eq_some] at h
      simp [h.1]
  | cons c s ih =>
      simp only [strstr] at h
      split_ifs at h with hpre
      · obtain rfl : 0 = i := by simpa using h
        exact hpre
      · obtain ⟨j, hj, rfl⟩ := Option.map_eq_some_iff.mp h
        simpa using ih hj

/-- What `strstr` finds is the first place. -/
theorem strstr_le {pat s : Bytes} {i j : Nat} (h : strstr pat s = some i)
    (hj : pat <+: s.drop j) : i ≤ j := by
  induction s generalizing i j with
  | nil =>
      simp only [strstr, Option.ite_none_right_eq_some] at h
      have := h.2
      simp only [Option.some.injEq] at this
      omega
  | cons c s ih =>
      simp only [strstr] at h
      split_ifs at h with hpre
      · obtain rfl : 0 = i := by simpa using h
        exact Nat.zero_le j
      · obtain ⟨k, hk, rfl⟩ := Option.map_eq_some_iff.mp h
        cases j with
        | zero => exact absurd hj hpre
        | succ j => exact Nat.succ_le_succ (ih hk (by simpa using hj))

/-- What is there is found, or another place before it. -/
theorem exists_strstr {pat s : Bytes} {j : Nat} (hj : pat <+: s.drop j) :
    ∃ i ≤ j, strstr pat s = some i := by
  induction s generalizing j with
  | nil =>
      rw [List.drop_nil, List.prefix_nil] at hj
      exact ⟨0, Nat.zero_le j, if_pos hj⟩
  | cons c s ih =>
      rw [strstr]
      split_ifs with hpre
      · exact ⟨0, Nat.zero_le j, rfl⟩
      · cases j with
        | zero => exact absurd hj hpre
        | succ j =>
            obtain ⟨i, hi, hfound⟩ := ih hj
            exact ⟨i + 1, Nat.succ_le_succ hi, by rw [hfound]; rfl⟩

/-- `strstr` finds nothing in a string that ends before the first place does. -/
theorem strstr_take {pat s : Bytes} {i n : Nat} (hpat : pat ≠ []) (h : strstr pat s = some i)
    (hn : n < i + pat.length) : strstr pat (s.take n) = none := by
  by_contra hsome
  obtain ⟨j, hj⟩ := Option.ne_none_iff_exists'.mp hsome
  have hpre := prefix_of_strstr hj
  have hle := hpre.length_le
  rw [List.drop_take] at hpre
  have hij := strstr_le h (hpre.trans (List.take_prefix _ _))
  have hpos := List.length_pos_iff.mpr hpat
  simp only [List.length_drop, List.length_take] at hle
  omega

/-- What is found in a text is found when the text goes on. -/
theorem strstr_front {pat s t : Bytes} {i : Nat} (hst : s <+: t) (h : strstr pat s = some i) :
    strstr pat t = some i := by
  have hpre := prefix_of_strstr h
  obtain ⟨rest, rfl⟩ := hst
  have hi : i ≤ s.length := by
    by_contra hgt
    have hnil : pat = [] := by
      rw [List.drop_eq_nil_of_le (by omega)] at hpre
      exact List.prefix_nil.mp hpre
    have := strstr_le (j := 0) h (hnil ▸ List.nil_prefix)
    omega
  have hthere : pat <+: (s ++ rest).drop i := by
    rw [List.drop_append_of_le_length hi]
    exact hpre.trans (List.prefix_append _ _)
  obtain ⟨j, hj, hfound⟩ := exists_strstr hthere
  have hback : pat <+: s.drop j := by
    have hlong := prefix_of_strstr hfound
    have hle := hpre.length_le
    rw [List.length_drop] at hle
    rw [List.drop_append_of_le_length (by omega)] at hlong
    exact List.prefix_of_prefix_length_le hlong (List.prefix_append _ _) (by simp; omega)
  rw [hfound, Nat.le_antisymm hj (strstr_le h hback)]

/-- Bytes that cannot start the pattern are passed over. -/
theorem strstr_append {c : UInt8} {pat as : Bytes} (has : c ∉ as) (s : Bytes) :
    strstr (c :: pat) (as ++ s) = (strstr (c :: pat) s).map (· + as.length) := by
  induction as with
  | nil => simp
  | cons a as ih =>
      have hne : c ≠ a := fun h => has (by simp [h])
      have htail : c ∉ as := fun h => has (List.mem_cons_of_mem _ h)
      have hno : ¬ (c :: pat) <+: a :: (as ++ s) := fun h => hne (List.cons_prefix_cons.mp h).1
      rw [List.cons_append, strstr, if_neg hno, ih htail, Option.map_map]
      rfl

/-- A pattern does not stand across a byte that is not in it. -/
theorem infix_cut {c : UInt8} {pat as bs : Bytes} (hc : c ∉ pat) (h : pat <:+: as ++ c :: bs) :
    pat <:+: as ∨ pat <:+: bs := by
  obtain ⟨s, t, heq⟩ := h
  rcases List.append_eq_append_iff.mp heq with ⟨u, has, -⟩ | ⟨u, hu, hbs⟩
  · exact Or.inl ⟨s, u, has.symm⟩
  · cases u with
    | nil => exact Or.inl ⟨s, [], by rw [List.append_nil, hu, List.append_nil]⟩
    | cons d u =>
        obtain ⟨rfl, rfl⟩ := List.cons.inj hbs
        rcases List.append_eq_append_iff.mp hu with ⟨v, -, hpat⟩ | ⟨v, -, hpat⟩
        · -- the byte is in the pattern
          exact absurd (hpat ▸ List.mem_append_right v List.mem_cons_self) hc
        · cases v with
          | nil =>
              rw [List.nil_append] at hpat
              exact absurd (hpat ▸ List.mem_cons_self) hc
          | cons e v =>
              obtain ⟨-, rfl⟩ := List.cons.inj hpat
              exact Or.inr ⟨v, t, rfl⟩

/-- A pattern that ends in the front of a string is in the front. -/
theorem infix_take {pat s : Bytes} {i n : Nat} (h : pat <+: s.drop i) (hn : i + pat.length ≤ n) :
    pat <:+: s.take n := by
  have hpre : pat <+: (s.take n).drop i := by
    rw [List.drop_take, List.prefix_take_iff]
    exact ⟨h, by omega⟩
  exact hpre.isInfix.trans (List.drop_suffix i _).isInfix

/-- A pattern is not in a string without one of its bytes. -/
theorem not_infix_of_notMem {c : UInt8} {pat s : Bytes} (hc : c ∈ pat) (hs : c ∉ s) :
    ¬ pat <:+: s := fun h => hs (h.subset hc)

theorem nulFree_append {s t : Bytes} : NulFree (s ++ t) ↔ NulFree s ∧ NulFree t := by
  unfold NulFree
  rw [List.mem_append, not_or]

/-- The C string of the first bytes is the front of that of all. -/
theorem cstr_prefix (s rest : Bytes) : cstr s <+: cstr (s ++ rest) := by
  induction s with
  | nil => exact List.nil_prefix
  | cons c s ih =>
      unfold cstr at ih ⊢
      rw [List.cons_append, List.takeWhile_cons, List.takeWhile_cons]
      split_ifs
      · exact List.cons_prefix_cons.mpr ⟨rfl, ih⟩
      · exact List.nil_prefix

/-- A string without NUL is its own C string, up to a NUL behind it. -/
theorem cstr_append {s : Bytes} (hs : NulFree s) (rest : Bytes) :
    cstr (s ++ rest) = s ++ cstr rest := by
  unfold cstr
  apply List.takeWhile_append_of_pos
  intro b hb
  have hne : b ≠ 0 := fun h => hs (h ▸ hb)
  simpa using hne

/-- A C string has no NUL. -/
theorem nulFree_cstr (bs : Bytes) : NulFree (cstr bs) := by
  intro h
  have hall : (cstr bs).all (· ≠ 0) = true := List.all_takeWhile
  simpa using List.all_eq_true.mp hall 0 h

/-- The C string at some bytes. -/
def toCStr (bs : Bytes) : CStr := ⟨cstr bs, nulFree_cstr bs⟩

/-- A string without NUL is the whole C string. -/
theorem cstr_eq_self {s : Bytes} (hs : NulFree s) : cstr s = s := by
  simpa [cstr] using cstr_append hs []

/-- A C string ends at the NUL. -/
theorem cstr_append_zero (s rest : Bytes) : cstr (s ++ 0 :: rest) = cstr s := by
  induction s with
  | nil => rfl
  | cons b s ih =>
      unfold cstr at ih ⊢
      by_cases hb : b = 0
      · simp [hb]
      · simpa [hb] using ih

/-- `strstr` finds nothing where the pattern does not stand. -/
theorem strstr_eq_none {pat s : Bytes} (h : ¬pat <:+: s) : strstr pat s = none := by
  by_contra hsome
  obtain ⟨i, hi⟩ := Option.ne_none_iff_exists'.mp hsome
  exact h ((prefix_of_strstr hi).isInfix.trans (List.drop_suffix i s).isInfix)

/-- A pattern whose first character does not come again in it is found behind a text without the
pattern. -/
theorem strstr_behind {c : UInt8} {pat s : Bytes} (hc : c ∉ pat) (h : ¬c :: pat <:+: s)
    (rest : Bytes) : strstr (c :: pat) (s ++ (c :: pat ++ rest)) = some s.length := by
  induction s with
  | nil => exact if_pos (List.prefix_append _ _)
  | cons a s ih =>
      have htail : ¬c :: pat <:+: s := fun hs => h (hs.trans (List.suffix_cons a s).isInfix)
      have hno : ¬c :: pat <+: a :: (s ++ (c :: pat ++ rest)) := by
        intro hhere
        obtain ⟨rfl, hpre⟩ := List.cons_prefix_cons.mp hhere
        rcases List.prefix_or_prefix_of_prefix hpre (List.prefix_append s _) with hs | ⟨u, hu⟩
        · exact h (List.cons_prefix_cons.mpr ⟨rfl, hs⟩).isInfix
        · rw [← hu, List.prefix_append_right_inj] at hpre
          cases u with
          | nil =>
              rw [List.append_nil] at hu
              exact h (hu ▸ List.infix_refl _)
          | cons d u =>
              -- the first character would come again
              obtain ⟨rfl, -⟩ := List.cons_prefix_cons.mp hpre
              exact hc (hu ▸ List.mem_append_right s List.mem_cons_self)
      rw [List.cons_append, strstr, if_neg hno, ih htail]
      rfl

/-- A character is found behind a text without it. -/
theorem strchr_behind {c : UInt8} {s : Bytes} (h : c ∉ s) (rest : Bytes) :
    strchr c (s ++ c :: rest) = some s.length := by
  induction s with
  | nil => exact if_pos (beq_self_eq_true c)
  | cons a s ih =>
      obtain ⟨hne, hs⟩ := not_or.mp (fun hc => h (List.mem_cons.mpr hc))
      have hrest : List.idxOf? c (s ++ c :: rest) = some s.length := ih hs
      rw [strchr, List.cons_append, List.idxOf?_cons, if_neg (by simpa using Ne.symm hne), hrest]
      rfl

/-- A pattern that ends with its only `c`, in a text: it ends with the first `c` there, or is behind
that. -/
theorem infix_concat {c : UInt8} {pat as bs : Bytes} (has : c ∉ as) (hc : c ∉ pat)
    (h : pat ++ [c] <:+: as ++ c :: bs) : pat <:+ as ∨ pat ++ [c] <:+: bs := by
  obtain ⟨s, t, heq⟩ := h
  have hsplit : (s ++ pat) ++ c :: t = as ++ c :: bs := by
    rw [← heq]
    simp
  rcases List.append_eq_append_iff.mp hsplit with ⟨u, hu, hrest⟩ | ⟨u, hu, hrest⟩
  · cases u with
    | nil => exact Or.inl ⟨s, by rw [hu, List.append_nil]⟩
    | cons d u =>
        obtain ⟨rfl, -⟩ := List.cons.inj hrest
        exact absurd (hu ▸ List.mem_append_right _ List.mem_cons_self) has
  · cases u with
    | nil => exact Or.inl ⟨s, by rw [hu, List.append_nil]⟩
    | cons d u =>
        obtain ⟨rfl, hbs⟩ := List.cons.inj hrest
        rcases List.append_eq_append_iff.mp hu with ⟨v, -, hpat⟩ | ⟨v, -, hpat⟩
        · exact absurd (hpat ▸ List.mem_append_right v List.mem_cons_self) hc
        · cases v with
          | nil =>
              rw [List.nil_append] at hpat
              exact absurd (hpat ▸ List.mem_cons_self) hc
          | cons e v =>
              obtain ⟨-, hu⟩ := List.cons.inj hpat
              refine Or.inr ⟨v, t, ?_⟩
              rw [hbs, hu]
              simp

end Nsdci.Lib
