import Nsdci.Lib.CString

/-!
# Tcl lists

`Tcl_SplitList` and the functions that write list elements belong to Tcl: `TclList` has them as
parameters. What the program relies on is that a list written element by element, with white
space between the elements, is split into those elements again.

`TclList.simple` is one such pair of functions. It writes an element as it is, in braces, or with
backslashes.
-/

namespace Nsdci

open Lib

/-- White space between the elements of a list. -/
def isListSpace (c : UInt8) : Bool := c = 32 || (9 ≤ c && c ≤ 13)

/-- Nothing but white space. -/
def White (s : Bytes) : Prop := ∀ c ∈ s, isListSpace c = true

/-- Elements, each with the white space before it. -/
abbrev Parts := List (Bytes × Bytes)

/-- Only the first element may stand without white space before it. -/
structure Spaced (parts : Parts) : Prop where
  white : ∀ p ∈ parts, White p.1
  free : ∀ p ∈ parts, NulFree p.2
  apart : ∀ p ∈ parts.tail, p.1 ≠ []

/-- A list as a text. -/
def listText (element : Bytes → Bytes) (parts : Parts) : Bytes :=
  parts.flatMap fun p => p.1 ++ element p.2

/-- The list functions of Tcl: the form an element is written in (`Tcl_ConvertElement`), and
`Tcl_SplitList`. -/
structure TclList where
  element : Bytes → Bytes
  splitList : Bytes → Option (List Bytes)
  element_free : ∀ e, NulFree e → NulFree (element e)
  splitList_listText : ∀ parts tail, Spaced parts → White tail →
    splitList (listText element parts ++ tail) = some (parts.map Prod.snd)

namespace TclList

variable (tcl : TclList)

/-- `Ns_DStringAppendElement` and `Tcl_DStringAppendElement`. -/
def appendElement (ds e : Bytes) : Bytes :=
  if ds = [] then tcl.element e else ds ++ 32 :: tcl.element e

theorem white_nil : White [] := fun _ h => absurd h List.not_mem_nil

theorem white_space : White [32] := by
  intro c hc
  obtain rfl : c = 32 := by simpa using hc
  rfl

theorem white_newline : White [10] := by
  intro c hc
  obtain rfl : c = 10 := by simpa using hc
  rfl

/-- One element is a list. -/
theorem splitList_element {e : Bytes} (he : NulFree e) :
    tcl.splitList (tcl.element e) = some [e] := by
  have hspaced : Spaced [([], e)] :=
    ⟨by simpa using white_nil, by simpa using he, by simp⟩
  simpa [listText] using tcl.splitList_listText [([], e)] [] hspaced white_nil

/-- The empty text is the empty list. -/
theorem splitList_nil : tcl.splitList [] = some [] := by
  have hspaced : Spaced [] := ⟨by simp, by simp, by simp⟩
  simpa [listText] using tcl.splitList_listText [] [] hspaced white_nil

/-- Every element is written as something. -/
theorem element_ne_nil {e : Bytes} (he : NulFree e) : tcl.element e ≠ [] := by
  intro h
  have hsplit := tcl.splitList_element he
  rw [h, splitList_nil] at hsplit
  simp at hsplit

/-- Elements with one blank between them. -/
def blanks : List Bytes → Parts
  | [] => []
  | e :: es => ([], e) :: es.map fun e => ([32], e)

@[simp] theorem blanks_snd (es : List Bytes) : (blanks es).map Prod.snd = es := by
  cases es with
  | nil => rfl
  | cons e es => simp [blanks]

theorem spaced_blanks {es : List Bytes} (hes : ∀ e ∈ es, NulFree e) : Spaced (blanks es) := by
  cases es with
  | nil => exact ⟨by simp [blanks], by simp [blanks], by simp [blanks]⟩
  | cons e es =>
      refine ⟨?_, ?_, ?_⟩
      · intro p hp
        rcases List.mem_cons.mp hp with rfl | hp
        · exact white_nil
        · obtain ⟨e', -, rfl⟩ := List.mem_map.mp hp
          exact white_space
      · intro p hp
        rcases List.mem_cons.mp hp with rfl | hp
        · exact hes e (by simp)
        · obtain ⟨e', he', rfl⟩ := List.mem_map.mp hp
          exact hes e' (List.mem_cons_of_mem _ he')
      · intro p hp
        obtain ⟨e', -, rfl⟩ := List.mem_map.mp hp
        exact List.cons_ne_nil _ _

/-- A text made by appending elements. -/
theorem foldl_appendElement {es : List Bytes} (hes : ∀ e ∈ es, NulFree e) :
    es.foldl tcl.appendElement [] = listText tcl.element (blanks es) := by
  have hmore : ∀ (es : List Bytes) (ds : Bytes), ds ≠ [] → es.foldl tcl.appendElement ds =
      ds ++ listText tcl.element (es.map fun e => ([32], e)) := by
    intro es
    induction es with
    | nil => simp [listText]
    | cons e es ih =>
        intro ds hds
        have hne : ds ++ 32 :: tcl.element e ≠ [] := by simp
        rw [List.foldl_cons, appendElement, if_neg hds, ih _ hne]
        simp [listText]
  cases es with
  | nil => rfl
  | cons e es =>
      rw [List.foldl_cons, appendElement, if_pos rfl,
        hmore es _ (tcl.element_ne_nil (hes e (by simp)))]
      simp [listText, blanks]

/-- A text of appended elements has no NUL. -/
theorem foldl_free {es : List Bytes} (hes : ∀ e ∈ es, NulFree e) :
    NulFree (es.foldl tcl.appendElement []) := by
  have hmore : ∀ (es : List Bytes) (ds : Bytes), (∀ e ∈ es, NulFree e) → NulFree ds →
      NulFree (es.foldl tcl.appendElement ds) := by
    intro es
    induction es with
    | nil => exact fun _ _ hds => hds
    | cons e es ih =>
        intro ds hes hds
        refine ih _ (fun e he => hes e (List.mem_cons_of_mem _ he)) ?_
        have he := tcl.element_free e (hes e (by simp))
        unfold appendElement
        split_ifs
        · exact he
        · simp only [NulFree, List.mem_append, List.mem_cons, not_or]
          exact ⟨hds, by decide, he⟩
  exact hmore es [] hes List.not_mem_nil

/-- **Appended elements are split again**, also with white space behind them. -/
theorem splitList_foldl {es : List Bytes} (hes : ∀ e ∈ es, NulFree e) {tail : Bytes}
    (htail : White tail) : tcl.splitList (es.foldl tcl.appendElement [] ++ tail) = some es := by
  rw [tcl.foldl_appendElement hes, tcl.splitList_listText _ _ (spaced_blanks hes) htail, blanks_snd]

/-! ## A simple list syntax -/

/-- The bytes that need no quoting. -/
def isPlain (c : UInt8) : Bool :=
  !isListSpace c && c ≠ 34 && c ≠ 35 && c ≠ 36 && c ≠ 59 && c ≠ 91 && c ≠ 92 && c ≠ 93 &&
    c ≠ 123 && c ≠ 125

/-- The bytes that may stand in braces. -/
def isBraced (c : UInt8) : Bool := c ≠ 92 && c ≠ 123 && c ≠ 125

/-- A byte, behind a backslash where it needs one. -/
def escaped (c : UInt8) : Bytes :=
  if isPlain c then [c] else if c = 10 then [92, 110] else [92, c]

/-- What a byte behind a backslash stands for. -/
def unescaped (c : UInt8) : UInt8 := if c = 110 then 10 else c

/-- An element as it is, in braces, or with backslashes. -/
def simpleElement (e : Bytes) : Bytes :=
  if !e.isEmpty && e.all isPlain then e
  else if e.all isBraced then 123 :: (e ++ [125])
  else e.flatMap escaped

/-- Where the splitting of a list is: between elements, in one that is not in braces, behind a
backslash, in braces, or behind the closing brace. -/
inductive Mode where
  | out
  | bare (e : Bytes)
  | escape (e : Bytes)
  | brace (e : Bytes)
  | closed (e : Bytes)

/-- Split a list. -/
def simpleSplit : Mode → Bytes → Option (List Bytes)
  | .out, [] => some []
  | .bare e, [] => some [e]
  | .escape _, [] => none
  | .brace _, [] => none
  | .closed e, [] => some [e]
  | .out, c :: s =>
      if isListSpace c then simpleSplit .out s
      else if c = 123 then simpleSplit (.brace []) s
      else if c = 92 then simpleSplit (.escape []) s
      else simpleSplit (.bare [c]) s
  | .bare e, c :: s =>
      if isListSpace c then (simpleSplit .out s).map (e :: ·)
      else if c = 92 then simpleSplit (.escape e) s
      else simpleSplit (.bare (e ++ [c])) s
  | .escape e, c :: s => simpleSplit (.bare (e ++ [unescaped c])) s
  | .brace e, c :: s =>
      if c = 125 then simpleSplit (.closed e) s else simpleSplit (.brace (e ++ [c])) s
  | .closed e, c :: s =>
      if isListSpace c then (simpleSplit .out s).map (e :: ·) else none

/-- The text goes on with white space, or ends. -/
def Ends (s : Bytes) : Prop := ∀ c ∈ s.head?, isListSpace c = true

/-- A finished word. -/
theorem simpleSplit_bare_end (e : Bytes) {s : Bytes} (hs : Ends s) :
    simpleSplit (.bare e) s = (simpleSplit .out s).map (e :: ·) := by
  cases s with
  | nil => rfl
  | cons c s =>
      have hc : isListSpace c = true := hs c rfl
      simp [simpleSplit, hc]

theorem simpleSplit_closed_end (e : Bytes) {s : Bytes} (hs : Ends s) :
    simpleSplit (.closed e) s = (simpleSplit .out s).map (e :: ·) := by
  cases s with
  | nil => rfl
  | cons c s =>
      have hc : isListSpace c = true := hs c rfl
      simp [simpleSplit, hc]

/-- A plain byte is none that ends a word or opens something. -/
theorem plain_ne {c : UInt8} (h : isPlain c = true) : isListSpace c = false ∧ c ≠ 123 ∧ c ≠ 92 := by
  simp [isPlain] at h
  simp [h]

theorem simpleSplit_bare_step (e s : Bytes) {c : UInt8} (hc : isPlain c = true) :
    simpleSplit (.bare e) (c :: s) = simpleSplit (.bare (e ++ [c])) s := by
  obtain ⟨hspace, -, hslash⟩ := plain_ne hc
  simp [simpleSplit, hspace, hslash]

theorem simpleSplit_bare_plain (e w : Bytes) (hw : w.all isPlain = true) {s : Bytes} (hs : Ends s) :
    simpleSplit (.bare e) (w ++ s) = (simpleSplit .out s).map ((e ++ w) :: ·) := by
  induction w generalizing e with
  | nil => simpa using simpleSplit_bare_end e hs
  | cons c w ih =>
      obtain ⟨hc, hw⟩ : isPlain c = true ∧ w.all isPlain = true := by simpa using hw
      rw [List.cons_append, simpleSplit_bare_step e _ hc, ih _ hw]
      simp

theorem simpleSplit_brace (e w : Bytes) (hw : w.all isBraced = true) {s : Bytes} (hs : Ends s) :
    simpleSplit (.brace e) (w ++ 125 :: s) = (simpleSplit .out s).map ((e ++ w) :: ·) := by
  induction w generalizing e with
  | nil => simpa [simpleSplit] using simpleSplit_closed_end e hs
  | cons c w ih =>
      obtain ⟨hc, hw⟩ : isBraced c = true ∧ w.all isBraced = true := by simpa using hw
      have hclose : c ≠ 125 := by simp [isBraced] at hc; exact hc.2
      simp [simpleSplit, hclose, ih _ hw]

/-- A byte with its backslash is read back. -/
theorem simpleSplit_escaped (e s : Bytes) (c : UInt8) :
    simpleSplit (.bare e) (escaped c ++ s) = simpleSplit (.bare (e ++ [c])) s := by
  have hslash : isListSpace 92 = false := rfl
  unfold escaped
  split_ifs with hplain hnewline
  · simpa [simpleSplit] using simpleSplit_bare_step e s hplain
  · subst hnewline
    simp [simpleSplit, hslash, unescaped]
  · have hn : c ≠ 110 := fun h => hplain (h ▸ rfl)
    simp [simpleSplit, hslash, unescaped, hn]

theorem simpleSplit_escape (e w : Bytes) {s : Bytes} (hs : Ends s) :
    simpleSplit (.bare e) (w.flatMap escaped ++ s) =
      (simpleSplit .out s).map ((e ++ w) :: ·) := by
  induction w generalizing e with
  | nil => simpa using simpleSplit_bare_end e hs
  | cons c w ih =>
      rw [List.flatMap_cons, List.append_assoc, simpleSplit_escaped, ih]
      simp

/-- The first byte of a word begins it. -/
theorem simpleSplit_out_escaped (c : UInt8) (s : Bytes) :
    simpleSplit .out (escaped c ++ s) = simpleSplit (.bare []) (escaped c ++ s) := by
  have hslash : isListSpace 92 = false := rfl
  unfold escaped
  split_ifs with hplain hnewline
  · obtain ⟨hspace, hopen, hback⟩ := plain_ne hplain
    simp [simpleSplit, hspace, hopen, hback]
  · simp [simpleSplit, hslash]
  · simp [simpleSplit, hslash]

/-- An element is read back. -/
theorem simpleSplit_element (e : Bytes) {s : Bytes} (hs : Ends s) :
    simpleSplit .out (simpleElement e ++ s) = (simpleSplit .out s).map (e :: ·) := by
  unfold simpleElement
  split_ifs with hplain hbrace
  · cases e with
    | nil => simp at hplain
    | cons c w =>
        obtain ⟨hc, hw⟩ : isPlain c = true ∧ w.all isPlain = true := by simpa using hplain
        obtain ⟨hspace, hopen, hslash⟩ := plain_ne hc
        simpa [simpleSplit, hspace, hopen, hslash] using simpleSplit_bare_plain [c] w hw hs
  · have hopen : isListSpace 123 = false := rfl
    simpa [simpleSplit, hopen] using simpleSplit_brace [] e hbrace hs
  · cases e with
    | nil => simp at hbrace
    | cons c w =>
        rw [List.flatMap_cons, List.append_assoc, simpleSplit_out_escaped, ← List.append_assoc,
          ← List.flatMap_cons, simpleSplit_escape [] (c :: w) hs]
        rfl

theorem simpleSplit_white {w : Bytes} (hw : White w) (s : Bytes) :
    simpleSplit .out (w ++ s) = simpleSplit .out s := by
  induction w with
  | nil => rfl
  | cons c w ih =>
      have hc : isListSpace c = true := hw c (by simp)
      simp [simpleSplit, hc, ih fun c' hc' => hw c' (List.mem_cons_of_mem _ hc')]

theorem ends_of_white {w : Bytes} (hw : White w) : Ends w := by
  intro c hc
  exact hw c (List.mem_of_mem_head? hc)

/-- A text of further elements goes on with white space. -/
theorem ends_listText {parts : Parts} (hwhite : ∀ p ∈ parts, White p.1)
    (hapart : ∀ p ∈ parts, p.1 ≠ []) {tail : Bytes} (htail : White tail) :
    Ends (listText simpleElement parts ++ tail) := by
  cases parts with
  | nil => simpa [listText] using ends_of_white htail
  | cons p parts =>
      intro c hc
      have hne := hapart p (by simp)
      have hhead : (listText simpleElement (p :: parts) ++ tail).head? = p.1.head? := by
        cases hp : p.1 with
        | nil => exact absurd hp hne
        | cons b w => simp [listText, hp]
      rw [hhead] at hc
      exact hwhite p (by simp) c (List.mem_of_mem_head? hc)

/-- Lists of elements as they are, in braces, or with backslashes. -/
def simple : TclList where
  element := simpleElement
  splitList := simpleSplit .out
  element_free e he := by
    unfold simpleElement NulFree
    split_ifs
    · exact he
    · simpa [NulFree] using he
    · intro h0
      obtain ⟨c, hc, h0⟩ := List.mem_flatMap.mp h0
      have hzero : c = 0 := by
        unfold escaped at h0
        split_ifs at h0
        · simpa [eq_comm] using h0
        · simp at h0
        · simpa [eq_comm] using h0
      exact he (hzero ▸ hc)
  splitList_listText parts tail hparts htail := by
    obtain ⟨hwhite, -, hapart⟩ := hparts
    induction parts with
    | nil =>
        have h := simpleSplit_white htail []
        simpa [listText, simpleSplit] using h
    | cons p parts ih =>
        have hwhite' : ∀ q ∈ parts, White q.1 := fun q hq => hwhite q (List.mem_cons_of_mem _ hq)
        have hends : Ends (listText simpleElement parts ++ tail) :=
          ends_listText hwhite' hapart htail
        have hrest := ih hwhite' fun q hq => hapart q (List.mem_of_mem_tail hq)
        have htext : listText simpleElement (p :: parts) ++ tail =
            p.1 ++ (simpleElement p.2 ++ (listText simpleElement parts ++ tail)) := by
          simp [listText]
        rw [htext, simpleSplit_white (hwhite p (by simp)), simpleSplit_element _ hends, hrest]
        rfl

/-- No element ends with a newline. -/
theorem last_simpleElement (e : Bytes) : (simpleElement e).getLast? ≠ some 10 := by
  unfold simpleElement
  split_ifs with hplain hbrace
  · intro hlast
    have hmem : 10 ∈ e := List.mem_of_getLast? hlast
    obtain ⟨-, hall⟩ : _ ∧ e.all isPlain = true := by simpa only [Bool.and_eq_true] using hplain
    exact absurd (List.all_eq_true.mp hall 10 hmem) (by decide)
  · rw [List.getLast?_cons, List.getLast?_concat]
    decide
  · rcases List.eq_nil_or_concat e with rfl | ⟨w, c, rfl⟩
    · simp
    · rw [List.concat_eq_append, List.flatMap_append, List.flatMap_singleton]
      unfold escaped
      split_ifs with hc hnewline
      · rw [List.getLast?_concat]
        intro h
        rw [Option.some.inj h] at hc
        exact absurd hc (by decide)
      · simp
      · simpa using hnewline

example : simple.element (ascii "a b") = ascii "{a b}" := by decide

end TclList

end Nsdci
