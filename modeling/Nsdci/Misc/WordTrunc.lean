import Nsdci.Rpc

/-!
# Truncated words (`misc.c`)

`WordTruncCmd` puts a space into each word that is longer than a maximum, as often as it takes. It
counts characters: `Tcl_UtfToUniChar`, which belongs to Tcl and is a parameter here, says how many
bytes the next one has.

`wordTrunc_chars` says what the characters of the output are.
-/

namespace Nsdci.Misc

open Lib
open Rpc (isSpace)

/-! ## Characters -/

/-- The length of the next character (`Tcl_UtfToUniChar`). A character that does not begin with an
ASCII byte has none, and a space behind a character leaves it as it is. -/
structure TclUtf where
  utfToUniChar : Bytes → Nat
  pos : ∀ c text, 128 ≤ c → 0 < utfToUniChar (c :: text)
  le : ∀ c text, 128 ≤ c → utfToUniChar (c :: text) ≤ (c :: text).length
  high : ∀ c text, 128 ≤ c → ∀ b ∈ (c :: text).take (utfToUniChar (c :: text)), 128 ≤ b
  space : ∀ c text rest, 128 ≤ c → utfToUniChar (c :: text ++ rest) ≤ (c :: text).length →
    utfToUniChar (c :: text ++ 32 :: rest) = utfToUniChar (c :: text ++ rest)

/-- How far `end` goes. -/
def charLen (utf : TclUtf) : Bytes → Nat
  | [] => 0
  | c :: text => if c < 128 then 1 else utf.utfToUniChar (c :: text)

theorem charLen_pos (utf : TclUtf) {text : Bytes} (h : text ≠ []) : 0 < charLen utf text := by
  obtain ⟨c, text, rfl⟩ := List.exists_cons_of_ne_nil h
  rw [charLen]
  split_ifs with hc
  · exact Nat.one_pos
  · exact utf.pos c text (UInt8.not_lt.mp hc)

theorem length_drop_charLen (utf : TclUtf) {text : Bytes} (h : text ≠ []) :
    (text.drop (charLen utf text)).length < text.length := by
  have hpos := charLen_pos utf h
  have hlen := List.length_pos_iff.mpr h
  rw [List.length_drop]
  omega

/-- The characters of a text. -/
def chars (utf : TclUtf) (text : Bytes) : List Bytes :=
  if _h : text = [] then [] else
    text.take (charLen utf text) :: chars utf (text.drop (charLen utf text))
termination_by text.length
decreasing_by exact length_drop_charLen utf _h

/-- A text that begins with white space. -/
def blank : Bytes → Bool
  | [] => false
  | c :: _ => isSpace c

/-! ## The command -/

/-- The `while` loop over a word: the output, the text from `start` to `end`, and the rest. -/
def truncWord (utf : TclUtf) (max ctrCnt : Nat) (ds word text : Bytes) : Bytes × Bytes × Bytes :=
  if _h : text = [] ∨ blank text then (ds, word, text)
  else
    let last := word ++ text.take (charLen utf text)
    let rest := text.drop (charLen utf text)
    if max ≤ ctrCnt + 1 ∧ rest ≠ [] ∧ blank rest = false then
      truncWord utf max 0 (ds ++ last ++ [32]) [] rest
    else truncWord utf max (ctrCnt + 1) ds last rest
termination_by text.length
decreasing_by all_goals exact length_drop_charLen utf fun hnil => _h (.inl hnil)

/-- A word is shorter than the text. -/
theorem length_truncWord (utf : TclUtf) (max ctrCnt : Nat) (ds word text : Bytes) :
    (truncWord utf max ctrCnt ds word text).2.2.length ≤ text.length ∧
      (blank text = false → text ≠ [] →
        (truncWord utf max ctrCnt ds word text).2.2.length < text.length) := by
  induction ctrCnt, ds, word, text using truncWord.induct utf max with
  | case1 ctrCnt ds word text hend =>
      rw [truncWord, dif_pos hend]
      refine ⟨le_rfl, fun hword hne => absurd hend ?_⟩
      simp [hword, hne]
  | case2 ctrCnt ds word text hend last rest hfull ih =>
      have hlt : rest.length < text.length :=
        length_drop_charLen utf fun hnil => hend (.inl hnil)
      rw [truncWord, dif_neg hend]
      dsimp only
      rw [if_pos hfull]
      exact ⟨ih.1.trans hlt.le, fun _ _ => ih.1.trans_lt hlt⟩
  | case3 ctrCnt ds word text hend last rest hmore ih =>
      have hlt : rest.length < text.length :=
        length_drop_charLen utf fun hnil => hend (.inl hnil)
      rw [truncWord, dif_neg hend]
      dsimp only
      rw [if_neg hmore]
      exact ⟨ih.1.trans hlt.le, fun _ _ => ih.1.trans_lt hlt⟩

theorem blank_dropWhile (text : Bytes) : blank (text.dropWhile isSpace) = false := by
  induction text with
  | nil => rfl
  | cons c text ih =>
      rw [List.dropWhile_cons]
      split_ifs with hc
      · exact ih
      · exact Bool.eq_false_iff.mpr hc

/-- The `do` loop of `WordTruncCmd`, and what it appends at the end. -/
def truncLoop (utf : TclUtf) (max : Nat) (ds word text : Bytes) : Bytes :=
  let next := truncWord utf max 0 ds (word ++ text.takeWhile isSpace) (text.dropWhile isSpace)
  if _h : next.2.2 = [] then next.1 ++ next.2.1
  else truncLoop utf max next.1 next.2.1 next.2.2
termination_by text.length
decreasing_by
  have hlen := length_truncWord utf max 0 ds (word ++ text.takeWhile isSpace)
    (text.dropWhile isSpace)
  have hle := (text.dropWhile_sublist isSpace).length_le
  have hpos : 0 < next.2.2.length := List.length_pos_iff.mpr _h
  exact (hlen.2 (blank_dropWhile text) (List.length_pos_iff.mp (hpos.trans_le hlen.1))).trans_le hle

/-- `WordTruncCmd`, for a `max` that is a number. -/
def wordTruncCmd (utf : TclUtf) (text : CStr) (max : Int) : Option Bytes :=
  if max ≤ 0 then none else some (truncLoop utf max.toNat [] [] text)

/-! ## What it should do -/

/-- Characters with single spaces between some of them, each between two that are no white space. -/
inductive Broken : List Bytes → List Bytes → Prop where
  | nil : Broken [] []
  | keep (p : Bytes) {cs out : List Bytes} : Broken cs out → Broken (p :: cs) (p :: out)
  | space (p q : Bytes) {cs out : List Bytes} : blank p = false → blank q = false →
      Broken (q :: cs) out → Broken (p :: q :: cs) (p :: [32] :: out)

/-- A list that does not begin with a character of a word. -/
def WordEnd (cs : List Bytes) : Prop := ∀ q ∈ cs.head?, blank q = true

instance (cs : List Bytes) : Decidable (WordEnd cs) := inferInstanceAs (Decidable (∀ _ ∈ _, _))

/-- The characters that the command writes. -/
def spread (max : Nat) : Nat → List Bytes → List Bytes
  | _, [] => []
  | ctrCnt, p :: cs =>
      if blank p then p :: spread max 0 cs
      else if max ≤ ctrCnt + 1 ∧ ¬WordEnd cs then p :: [32] :: spread max 0 cs
      else p :: spread max (ctrCnt + 1) cs

/-- At the end of a word, it does not matter how many characters it had. -/
theorem spread_wordEnd {cs : List Bytes} (h : WordEnd cs) (max ctrCnt : Nat) :
    spread max ctrCnt cs = spread max 0 cs := by
  cases cs with
  | nil => rfl
  | cons q cs =>
      have hblank : blank q = true := h q rfl
      rw [spread, spread, if_pos hblank, if_pos hblank]

theorem broken_spread (max ctrCnt : Nat) (cs : List Bytes) :
    Broken cs (spread max ctrCnt cs) := by
  induction cs generalizing ctrCnt with
  | nil => exact .nil
  | cons p cs ih =>
      rw [spread]
      split_ifs with hblank hfull
      · exact .keep p (ih 0)
      · cases cs with
        | nil => exact absurd (fun q hq => by simp at hq) hfull.2
        | cons q cs =>
            have hq : blank q = false := by
              by_contra hq
              exact hfull.2 fun r hr => by simp_all
            exact .space p q (Bool.eq_false_iff.mpr hblank) hq (ih 0)
      · exact .keep p (ih (ctrCnt + 1))

/-- A run of characters of words. -/
def Run (run : List Bytes) : Prop := ∀ p ∈ run, blank p = false

theorem run_wordEnd {cs run : List Bytes} (hcs : WordEnd cs) (hrun : Run run) (h : run <+: cs) :
    run = [] := by
  cases run with
  | nil => rfl
  | cons p run =>
      obtain ⟨rest, rfl⟩ := h
      exact absurd ((hrun p List.mem_cons_self).symm.trans (hcs p rfl)) Bool.false_ne_true

theorem wordEnd_space (cs : List Bytes) : WordEnd ([32] :: cs) := by
  intro q hq
  obtain rfl := Option.some.inj hq
  rfl

theorem wordEnd_spread {cs : List Bytes} (h : WordEnd cs) (max ctrCnt : Nat) :
    WordEnd (spread max ctrCnt cs) := by
  cases cs with
  | nil => exact h
  | cons q cs =>
      rw [spread, if_pos (h q rfl)]
      exact h

/-- A run at the beginning is not longer than what is left of the maximum. -/
theorem length_run_prefix {max ctrCnt : Nat} (hcnt : ctrCnt < max) {cs run : List Bytes}
    (hrun : Run run) (h : run <+: spread max ctrCnt cs) : ctrCnt + run.length ≤ max := by
  induction cs generalizing ctrCnt run with
  | nil =>
      obtain rfl := List.prefix_nil.mp h
      exact hcnt.le
  | cons p cs ih =>
      cases run with
      | nil => exact hcnt.le
      | cons r run =>
          have hrest : Run run := fun q hq => hrun q (List.mem_cons_of_mem _ hq)
          rw [List.length_cons]
          rw [spread] at h
          split_ifs at h with hblank hfull
          · obtain ⟨rfl, -⟩ := List.cons_prefix_cons.mp h
            exact absurd ((hrun r List.mem_cons_self).symm.trans hblank) Bool.false_ne_true
          · rw [run_wordEnd (wordEnd_space _) hrest (List.cons_prefix_cons.mp h).2]
            exact hcnt
          · have hprefix := (List.cons_prefix_cons.mp h).2
            by_cases hmore : ctrCnt + 1 < max
            · have := ih hmore hrest hprefix
              omega
            · -- the word is as long as it may be, and ends here
              have hend : WordEnd cs := by
                by_contra hend
                exact hfull ⟨not_lt.mp hmore, hend⟩
              rw [run_wordEnd (wordEnd_spread hend max _) hrest hprefix]
              exact hcnt

/-- No run is longer than the maximum. -/
theorem length_run {max ctrCnt : Nat} (hcnt : ctrCnt < max) {cs run : List Bytes}
    (hrun : Run run) (h : run <:+: spread max ctrCnt cs) : run.length ≤ max := by
  induction cs generalizing ctrCnt with
  | nil =>
      obtain rfl := List.infix_nil.mp h
      exact Nat.zero_le _
  | cons p cs ih =>
      have hprefix : run <+: spread max ctrCnt (p :: cs) → run.length ≤ max := by
        intro hp
        have := length_run_prefix hcnt hrun hp
        omega
      rw [spread] at h hprefix
      split_ifs at h hprefix with hblank hfull
      · exact (List.infix_cons_iff.mp h).elim hprefix (ih (by omega))
      · obtain h | h := List.infix_cons_iff.mp h
        · exact hprefix h
        · obtain h | h := List.infix_cons_iff.mp h
          · rw [run_wordEnd (wordEnd_space _) hrun h]
            exact Nat.zero_le _
          · exact ih (by omega) h
      · obtain h | h := List.infix_cons_iff.mp h
        · exact hprefix h
        · by_cases hmore : ctrCnt + 1 < max
          · exact ih hmore h
          · have hend : WordEnd cs := by
              by_contra hend
              exact hfull ⟨not_lt.mp hmore, hend⟩
            rw [spread_wordEnd hend] at h
            exact ih (by omega) h

/-! ## The loops -/

theorem chars_nil (utf : TclUtf) : chars utf [] = [] := by
  rw [chars, dif_pos rfl]

theorem chars_eq (utf : TclUtf) {text : Bytes} (h : text ≠ []) :
    chars utf text = text.take (charLen utf text) :: chars utf (text.drop (charLen utf text)) := by
  rw [chars, dif_neg h]

theorem flatten_chars (utf : TclUtf) (text : Bytes) : (chars utf text).flatten = text := by
  induction text using chars.induct utf with
  | case1 => rw [chars_nil]; rfl
  | case2 text h ih => rw [chars_eq utf h, List.flatten_cons, ih, List.take_append_drop]

theorem blank_take {text : Bytes} {n : Nat} (h : 0 < n) : blank (text.take n) = blank text := by
  obtain ⟨n, rfl⟩ := Nat.exists_eq_succ_of_ne_zero h.ne'
  cases text <;> rfl

/-- The text ends a word if its characters do. -/
theorem wordEnd_chars (utf : TclUtf) (text : Bytes) :
    WordEnd (chars utf text) ↔ text = [] ∨ blank text := by
  by_cases h : text = []
  · rw [h, chars_nil]
    exact ⟨fun _ => .inl rfl, fun _ q hq => absurd hq (by simp)⟩
  · rw [chars_eq utf h]
    constructor
    · exact fun hend => .inr (blank_take (charLen_pos utf h) ▸ hend _ rfl)
    · intro hblank q hq
      obtain rfl := Option.some.inj hq
      rw [blank_take (charLen_pos utf h)]
      exact hblank.resolve_left h

/-- The loop over a word writes what is to be written, up to the end of the word. -/
theorem truncWord_eq (utf : TclUtf) (max ctrCnt : Nat) (ds word text : Bytes) :
    (truncWord utf max ctrCnt ds word text).1 ++ (truncWord utf max ctrCnt ds word text).2.1 ++
        (spread max 0 (chars utf (truncWord utf max ctrCnt ds word text).2.2)).flatten =
      ds ++ word ++ (spread max ctrCnt (chars utf text)).flatten := by
  induction ctrCnt, ds, word, text using truncWord.induct utf max with
  | case1 ctrCnt ds word text hend =>
      rw [truncWord, dif_pos hend, spread_wordEnd ((wordEnd_chars utf text).mpr hend) max ctrCnt]
  | case2 ctrCnt ds word text hend last rest hfull ih =>
      have hne : text ≠ [] := fun hnil => hend (.inl hnil)
      have hword : ¬blank (text.take (charLen utf text)) = true :=
        fun hblank => hend (.inr (blank_take (charLen_pos utf hne) ▸ hblank))
      have hmore : ¬WordEnd (chars utf rest) := by
        rw [wordEnd_chars]
        rintro (hnil | hblank)
        · exact hfull.2.1 hnil
        · exact absurd (hfull.2.2.symm.trans hblank) Bool.false_ne_true
      rw [truncWord, dif_neg hend]
      dsimp only
      rw [if_pos hfull, ih, chars_eq utf hne, spread, if_neg hword, if_pos ⟨hfull.1, hmore⟩]
      simp only [last, rest, List.flatten_cons, List.append_assoc, List.nil_append]
  | case3 ctrCnt ds word text hend last rest hmore ih =>
      have hne : text ≠ [] := fun hnil => hend (.inl hnil)
      have hword : ¬blank (text.take (charLen utf text)) = true :=
        fun hblank => hend (.inr (blank_take (charLen_pos utf hne) ▸ hblank))
      have hsame : ¬(max ≤ ctrCnt + 1 ∧ ¬WordEnd (chars utf rest)) := by
        rw [wordEnd_chars]
        rintro ⟨hfull, hrest⟩
        exact hmore ⟨hfull, fun hnil => hrest (.inl hnil),
          Bool.eq_false_iff.mpr fun hblank => hrest (.inr hblank)⟩
      rw [truncWord, dif_neg hend]
      dsimp only
      rw [if_neg hmore, ih, chars_eq utf hne, spread, if_neg hword, if_neg hsame]
      simp only [last, rest, List.flatten_cons, List.append_assoc]

/-- White space is one byte. -/
theorem charLen_blank (utf : TclUtf) {c : UInt8} (hc : isSpace c = true) (text : Bytes) :
    charLen utf (c :: text) = 1 := by
  refine if_pos ?_
  unfold isSpace at hc
  simp only [Bool.or_eq_true, Bool.and_eq_true, decide_eq_true_eq] at hc
  obtain rfl | hc := hc
  · decide
  · exact UInt8.lt_of_le_of_lt hc.2 (by decide)

/-- White space is written as it is. -/
theorem spread_white (utf : TclUtf) (max : Nat) (text : Bytes) :
    (spread max 0 (chars utf text)).flatten = text.takeWhile isSpace ++
      (spread max 0 (chars utf (text.dropWhile isSpace))).flatten := by
  induction text with
  | nil => rfl
  | cons c text ih =>
      rw [List.takeWhile_cons, List.dropWhile_cons]
      by_cases hc : isSpace c = true
      · rw [if_pos hc, if_pos hc, chars_eq utf (List.cons_ne_nil c text),
          charLen_blank utf hc, spread]
        rw [if_pos (show blank ((c :: text).take 1) = true from hc), List.flatten_cons]
        show [c] ++ (spread max 0 (chars utf text)).flatten = _
        rw [ih]
        rfl
      · rw [if_neg hc, if_neg hc]
        rfl

/-- The command writes the text with the spaces. -/
theorem truncLoop_eq (utf : TclUtf) (max : Nat) (ds word text : Bytes) :
    truncLoop utf max ds word text = ds ++ word ++ (spread max 0 (chars utf text)).flatten := by
  have hword (ds word text : Bytes) := truncWord_eq utf max 0 ds (word ++ text.takeWhile isSpace)
    (text.dropWhile isSpace)
  induction ds, word, text using truncLoop.induct utf max with
  | case1 ds word text next hend =>
      rw [truncLoop, dif_pos hend, spread_white, ← List.append_assoc, List.append_assoc ds, ← hword,
        show (truncWord utf max 0 ds (word ++ text.takeWhile isSpace)
          (text.dropWhile isSpace)).2.2 = [] from hend, chars_nil]
      exact (List.append_nil _).symm
  | case2 ds word text next hmore ih =>
      rw [truncLoop, dif_neg hmore, ih, spread_white utf max text, ← List.append_assoc,
        List.append_assoc ds, ← hword]

/-! ## The characters of the output -/

theorem charLen_le (utf : TclUtf) (text : Bytes) : charLen utf text ≤ text.length := by
  cases text with
  | nil => exact le_rfl
  | cons c text =>
      rw [charLen]
      split_ifs with hc
      · exact Nat.succ_pos _
      · exact utf.le c text (UInt8.not_lt.mp hc)

/-- A space behind a character. -/
theorem charLen_space (utf : TclUtf) {t : Bytes} (ht : t ≠ []) {rest : Bytes}
    (h : charLen utf (t ++ rest) ≤ t.length) :
    charLen utf (t ++ 32 :: rest) = charLen utf (t ++ rest) := by
  obtain ⟨c, t, rfl⟩ := List.exists_cons_of_ne_nil ht
  rw [List.cons_append, charLen] at h ⊢
  rw [List.cons_append, charLen]
  split_ifs at h ⊢ with hc
  · rfl
  · exact utf.space c t rest (UInt8.not_lt.mp hc) h

/-- Spaces behind a character. -/
theorem charLen_append (utf : TclUtf) {cs out : List Bytes} (h : Broken cs out) {t : Bytes}
    (ht : t ≠ []) (hlen : charLen utf (t ++ cs.flatten) ≤ t.length) :
    charLen utf (t ++ out.flatten) = charLen utf (t ++ cs.flatten) := by
  induction h generalizing t with
  | nil => rfl
  | keep p h ih =>
      have htp : t ++ p ≠ [] := List.append_ne_nil_of_left_ne_nil ht p
      have hle := hlen.trans (List.prefix_append t p).length_le
      rw [List.flatten_cons, ← List.append_assoc] at hle ⊢
      rw [List.flatten_cons, ← List.append_assoc]
      exact ih htp hle
  | space p q hp hq h ih =>
      have htp : t ++ p ≠ [] := List.append_ne_nil_of_left_ne_nil ht p
      have hle := hlen.trans (List.prefix_append t p).length_le
      rw [List.flatten_cons (l := p), ← List.append_assoc] at hle
      rw [List.flatten_cons (l := p), List.flatten_cons (l := p), ← List.append_assoc,
        ← List.append_assoc, ← ih htp hle]
      exact charLen_space utf htp ((ih htp hle).trans_le hle)

/-- The first character of a text that begins with it. -/
theorem chars_append (utf : TclUtf) {p rest : Bytes} (hp : p ≠ [])
    (hlen : charLen utf (p ++ rest) = p.length) : chars utf (p ++ rest) = p :: chars utf rest := by
  rw [chars_eq utf (List.append_ne_nil_of_left_ne_nil hp rest), hlen, List.take_left,
    List.drop_left]

/-- A space is a character of its own. -/
theorem chars_space (utf : TclUtf) (rest : Bytes) :
    chars utf (32 :: rest) = [32] :: chars utf rest :=
  chars_append utf (List.cons_ne_nil 32 []) (charLen_blank utf rfl rest)

/-- With the spaces, the characters are the same. -/
theorem chars_flatten (utf : TclUtf) {text : Bytes} {out : List Bytes}
    (h : Broken (chars utf text) out) : chars utf out.flatten = out := by
  induction text using chars.induct utf generalizing out with
  | case1 =>
      rw [chars_nil] at h
      cases h
      exact chars_nil utf
  | case2 text hne ih =>
      have hp : text.take (charLen utf text) ≠ [] := by
        rw [← List.length_pos_iff, List.length_take_of_le (charLen_le utf text)]
        exact charLen_pos utf hne
      have hlen : ∀ {cs : List Bytes}, cs.flatten = text.drop (charLen utf text) →
          charLen utf (text.take (charLen utf text) ++ cs.flatten) =
            (text.take (charLen utf text)).length := by
        intro cs hcs
        rw [hcs, List.take_append_drop, List.length_take_of_le (charLen_le utf text)]
      have hrest := flatten_chars utf (text.drop (charLen utf text))
      rw [chars_eq utf hne] at h
      generalize chars utf (text.drop (charLen utf text)) = cs at h ih hrest
      cases h with
      | keep p h =>
          rw [List.flatten_cons, chars_append utf hp, ih h]
          rw [charLen_append utf h hp (hlen hrest).le, hlen hrest]
      | space p q hp' hq h =>
          have hout := charLen_append utf h hp (hlen hrest).le
          rw [List.flatten_cons, List.flatten_cons, chars_append utf hp]
          · exact congrArg _ ((chars_space utf _).trans (congrArg _ (ih h)))
          · show charLen utf (_ ++ 32 :: List.flatten _) = _
            rw [charLen_space utf hp (hout.trans (hlen hrest)).le, hout, hlen hrest]

/-- **Truncated words.** The characters of the output are those of the text with single spaces
between some of them, each between two that are no white space, and no more than the maximum are
without white space between them. -/
theorem wordTrunc_chars (utf : TclUtf) (text : CStr) {max : Int} (hmax : 1 ≤ max) :
    ∃ out, wordTruncCmd utf text max = some out ∧ Broken (chars utf text) (chars utf out) ∧
      ∀ run, run <:+: chars utf out → Run run → (run.length : Int) ≤ max := by
  have hbroken := broken_spread max.toNat 0 (chars utf text)
  refine ⟨_, if_neg (by omega), ?_, ?_⟩
  · rw [truncLoop_eq]
    exact (chars_flatten utf hbroken).symm ▸ hbroken
  · intro run hinfix hrun
    rw [truncLoop_eq] at hinfix
    have hle := length_run (show 0 < max.toNat by omega) hrun
      (chars_flatten utf hbroken ▸ hinfix)
    omega

/-! ## A library -/

/-- The bytes that a character has behind its first one. -/
def trail (c : UInt8) : Nat :=
  if 192 ≤ c ∧ c < 224 then 1 else if 224 ≤ c ∧ c < 240 then 2 else 0

/-- A byte of a character behind its first one. -/
def isTrail (c : UInt8) : Bool := 128 ≤ c && c < 192

/-- `Tcl_UtfToUniChar`: a character of up to three bytes, or one byte that begins none. -/
def readChar : Bytes → Nat
  | [] => 0
  | c :: text =>
      if trail c ≤ text.length ∧ (text.take (trail c)).all isTrail then trail c + 1 else 1

/-- The library of Tcl. -/
def TclUtf.utf8 : TclUtf where
  utfToUniChar := readChar
  pos c text _ := by
    rw [readChar]
    split_ifs <;> omega
  le c text _ := by
    rw [readChar, List.length_cons]
    split_ifs <;> omega
  high c text hc := by
    rw [readChar]
    split_ifs with h
    · intro b hb
      rw [List.take_succ_cons] at hb
      obtain rfl | hb := List.mem_cons.mp hb
      · exact hc
      · have htrail := List.all_eq_true.mp h.2 b hb
        rw [isTrail, Bool.and_eq_true, decide_eq_true_eq] at htrail
        exact htrail.1
    · intro b hb
      obtain rfl := List.mem_singleton.mp hb
      exact hc
  space c text rest _ hle := by
    rw [List.cons_append, readChar, List.length_cons] at hle
    rw [List.cons_append, List.cons_append, readChar, readChar]
    by_cases htrail : trail c ≤ text.length
    · rw [List.take_append_of_le_length htrail, List.take_append_of_le_length htrail]
      have hboth (more : Bytes) : trail c ≤ (text ++ more).length :=
        htrail.trans (List.prefix_append text more).length_le
      refine if_congr ?_ rfl rfl
      rw [and_iff_right (hboth _), and_iff_right (hboth _)]
    · -- the space is where the character still needs a byte
      have hspace : 32 ∈ (text ++ 32 :: rest).take (trail c) := by
        obtain ⟨n, hn⟩ := Nat.exists_eq_add_of_lt (not_le.mp htrail)
        rw [List.take_append, hn, Nat.add_assoc, Nat.add_sub_cancel_left, List.take_succ_cons]
        exact List.mem_append_right _ List.mem_cons_self
      rw [if_neg fun h => absurd (List.all_eq_true.mp h.2 32 hspace) (by decide)]
      split_ifs at hle ⊢ with h
      · omega
      · rfl

/-- Five characters of one word, one of them of two bytes. -/
theorem wordTrunc_five :
    ∃ out, wordTruncCmd .utf8 ⟨[97, 195, 164, 98, 99, 100], by decide⟩ 2 = some out ∧
      Broken (chars .utf8 [97, 195, 164, 98, 99, 100]) (chars .utf8 out) ∧
      ∀ run, run <:+: chars .utf8 out → Run run → (run.length : Int) ≤ 2 :=
  wordTrunc_chars .utf8 ⟨[97, 195, 164, 98, 99, 100], by decide⟩ (by decide)

end Nsdci.Misc
