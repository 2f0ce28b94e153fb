import Nsdci.Csv

/-!
# Records of comma-separated values

What a written record is (`Record.text`), and what `CsvGet` makes of it. Each call returns as many
fields as the record has. They are those of the record exactly if the line buffer does not move once
the first line of the record is in it (`csvGet_iff`): a field that is open across a line break is
otherwise read where the buffer was.
-/

namespace Nsdci.Csv

open Lib

/-! ## Records -/

/-- A field as it is written. The channel does not give carriage returns as they are. -/
structure Field where
  value : Bytes
  quoted : Bool
  free : NulFree value
  noReturn : 13 ∉ value
  plain : quoted = false → comma ∉ value ∧ quote ∉ value ∧ newline ∉ value

/-- The value with every quote doubled. -/
def doubled : Bytes → Bytes
  | [] => []
  | b :: s => if b = quote then quote :: quote :: doubled s else b :: doubled s

def Field.text (field : Field) : Bytes :=
  if field.quoted then quote :: (doubled field.value ++ [quote]) else field.value

/-- The fields behind the first one. -/
def tailText : List Field → Bytes
  | [] => []
  | field :: fields => comma :: (field.text ++ tailText fields)

/-- A record has a field. -/
structure Record where
  first : Field
  rest : List Field

namespace Record

def fields (record : Record) : List Field := record.first :: record.rest

def values (record : Record) : List Bytes := record.fields.map Field.value

def text (record : Record) : Bytes := record.first.text ++ tailText record.rest

end Record

/-- A file of records. -/
def fileText (records : List Record) : Bytes :=
  records.flatMap fun record => record.text ++ [newline]

/-! ## What is expected -/

variable (tcl : TclList) (lib : DStringLib)

/-- The columns of a call are those of the record. -/
def Parsed (record : Record) (columns : Columns) : Prop :=
  columns.nColumns = record.fields.length ∧ tcl.splitList columns.ds = some record.values

/-- Calls one after the other. -/
def csvGets : (Nat → Realloc) → Nat → List Bytes → List Columns
  | _, 0, _ => []
  | reallocs, n + 1, lines =>
      let (columns, lines) := csvGet tcl lib (reallocs 0) lines
      columns :: csvGets (fun k => reallocs (k + 1)) n lines

/-- A call for each record gives it, and a further call gives -1. -/
def Right (reallocs : Nat → Realloc) (records : List Record) : Prop :=
  ∃ columns, csvGets tcl lib reallocs (records.length + 1) (channelLines (fileText records)) =
      columns ++ [⟨-1, []⟩] ∧ List.Forall₂ (Parsed tcl) records columns

/-- The first line of a text, and the others. -/
def splitLines : Bytes → Bytes × List Bytes
  | [] => ([], [])
  | b :: text =>
      let (line, lines) := splitLines text
      if b = newline then ([], line :: lines) else (b :: line, lines)

/-- The buffer when more lines have been read. -/
def Line.read (realloc : Realloc) (line : Line) (lines : List Bytes) : Line :=
  lines.foldl (fun line text => (line.append lib realloc [newline]).append lib realloc text) line

/-- The buffer with the first line of a text. -/
def firstLine (realloc : Realloc) (text : Bytes) : Line :=
  (Line.init lib).append lib realloc (splitLines text).1

/-- The buffer does not move when the lines behind the first one are read. -/
def Stays (realloc : Realloc) (record : Record) : Prop :=
  let line := firstLine lib realloc record.text
  (line.read lib realloc (splitLines record.text).2).block = line.block

instance (realloc : Realloc) (record : Record) : Decidable (Stays lib realloc record) :=
  inferInstanceAs (Decidable (_ = _))

/-! ## Quotes -/

theorem undouble_cons {a : UInt8} {s : Bytes} (h : ¬(a = quote ∧ s.head? = some quote)) :
    undouble (a :: s) = a :: undouble s := by
  cases s with
  | nil => rfl
  | cons b s => exact if_neg fun h' => h ⟨h'.1, congrArg some h'.2⟩

theorem undouble_pair (s : Bytes) : undouble (quote :: quote :: s) = quote :: undouble s := rfl

/-- **Doubled quotes become single ones again.** -/
theorem undouble_doubled (value s : Bytes) :
    undouble (doubled value ++ s) = value ++ undouble s := by
  induction value with
  | nil => rfl
  | cons b value ih =>
      rw [doubled]
      split_ifs with hb
      · rw [hb, List.cons_append, List.cons_append, undouble_pair, ih, List.cons_append]
      · rw [List.cons_append, undouble_cons fun h => hb h.1, ih, List.cons_append]

theorem undouble_doubled_nil (value : Bytes) : undouble (doubled value) = value := by
  have hrest := undouble_doubled value []
  rw [List.append_nil] at hrest
  rw [hrest]
  exact List.append_nil _

/-- A quote in front of doubled quotes is left. -/
theorem undouble_quote_doubled (value : Bytes) :
    undouble (quote :: doubled value) = quote :: value := by
  induction value with
  | nil => rfl
  | cons b value ih =>
      rw [doubled]
      split_ifs with hb
      · rw [undouble_pair, ih, hb]
      · have hhead : ¬(quote = quote ∧ (b :: doubled value).head? = some quote) :=
          fun h => hb (Option.some.inj h.2)
        rw [undouble_cons hhead, undouble_cons fun h => hb h.1, undouble_doubled_nil]

theorem undouble_of_notMem {s : Bytes} (h : quote ∉ s) : undouble s = s := by
  induction s with
  | nil => rfl
  | cons b s ih =>
      obtain ⟨hb, hs⟩ := not_or.mp fun h' => h (List.mem_cons.mpr h')
      rw [undouble_cons fun h' => hb h'.1.symm, ih hs]

/-- **What is written is read.** -/
theorem unquoted_text (field : Field) : unquoted field.text = field.value := by
  unfold unquoted Field.text
  cases hquoted : field.quoted with
  | true =>
      have hlast : (quote :: (doubled field.value ++ [quote])).getLast? = some quote := by
        rw [← List.cons_append, List.getLast?_concat]
      rw [if_pos rfl, if_pos ⟨rfl, hlast⟩, ← List.cons_append, List.dropLast_concat]
      exact undouble_doubled_nil _
  | false =>
      obtain ⟨-, hquote, -⟩ := field.plain hquoted
      have hhead : ¬(field.value.head? = some quote ∧ field.value.getLast? = some quote) :=
        fun h => hquote (List.mem_of_mem_head? h.1)
      rw [if_neg Bool.false_ne_true, if_neg hhead, undouble_of_notMem hquote]

/-! ## What is read of a field that was cut off -/

/-- Where the buffer can move inside a value: in front of a line break, or behind one. -/
def Cut (front back : Bytes) : Prop := back.head? = some newline ∨ front.getLast? = some newline

theorem doubled_append (front back : Bytes) :
    doubled (front ++ back) = doubled front ++ doubled back := by
  induction front with
  | nil => rfl
  | cons b front ih =>
      rw [List.cons_append, doubled, doubled, ih]
      split_ifs
      · rfl
      · rfl

/-- The front of a quoted field, with its opening quote. -/
theorem unquoted_front (front : Bytes) : unquoted (quote :: doubled front) = [] ∨
    (front.getLast? = some quote ∧ unquoted (quote :: doubled front) = front) ∨
      front.getLast? ≠ some quote ∧ unquoted (quote :: doubled front) = quote :: front := by
  rcases List.eq_nil_or_concat front with rfl | ⟨front, b, rfl⟩
  · exact Or.inl rfl
  · rw [List.concat_eq_append]
    by_cases hb : b = quote
    · subst hb
      refine Or.inr (Or.inl ⟨List.getLast?_concat, ?_⟩)
      have hdoubled : doubled (front ++ [quote]) = doubled front ++ [quote] ++ [quote] := by
        rw [doubled_append, List.append_assoc]
        rfl
      have hlast : (quote :: (doubled front ++ [quote] ++ [quote])).getLast? = some quote := by
        rw [← List.cons_append, List.getLast?_concat]
      rw [hdoubled, unquoted, if_pos ⟨rfl, hlast⟩, ← List.cons_append, List.dropLast_concat]
      show undouble (doubled front ++ [quote]) = _
      rw [undouble_doubled]
      rfl
    · have hdoubled : doubled (front ++ [b]) = doubled front ++ [b] := by
        rw [doubled_append, doubled, if_neg hb]
        rfl
      have hlast : (quote :: (doubled front ++ [b])).getLast? = some b := by
        rw [← List.cons_append, List.getLast?_concat]
      refine Or.inr (Or.inr ⟨?_, ?_⟩)
      · rw [List.getLast?_concat]
        exact fun h => hb (Option.some.inj h)
      · rw [unquoted, if_neg, undouble_quote_doubled]
        rintro ⟨-, h⟩
        rw [hdoubled, hlast] at h
        exact hb (Option.some.inj h)

/-- **The front of a value, up to a line break, is not read as the value.** -/
theorem unquoted_front_ne {front back : Bytes} (h : Cut front back)
    (hmem : newline ∈ front ++ back) :
    unquoted (quote :: doubled front) ≠ front ++ back := by
  intro heq
  -- the value has no line break behind the front
  have hback : newline ∉ back := by
    intro hback
    have hpos : 0 < back.count newline := List.count_pos_iff.mpr hback
    have hcount := congrArg (List.count newline) heq
    rw [List.count_append] at hcount
    rcases unquoted_front front with h | ⟨-, h⟩ | ⟨-, h⟩
    · rw [h, List.count_nil] at hcount
      omega
    · rw [h] at hcount
      omega
    · rw [h, List.count_cons_of_ne (by decide)] at hcount
      omega
  rcases h with h | h
  · exact hback (List.mem_of_mem_head? h)
  · rcases unquoted_front front with hfront | ⟨hlast, -⟩ | ⟨-, hfront⟩
    · rw [hfront] at heq
      rw [← heq] at hmem
      exact absurd hmem List.not_mem_nil
    · rw [h] at hlast
      exact absurd (Option.some.inj hlast) (by decide)
    · rw [hfront] at heq
      have hlength := congrArg List.length heq
      rw [List.length_append, List.length_cons] at hlength
      obtain ⟨b, rfl⟩ : ∃ b, back = [b] := List.length_eq_one_iff.mp (by omega)
      have hlast := congrArg List.getLast? heq
      rw [List.getLast?_concat, List.getLast?_cons, h] at hlast
      exact hback (Option.some.inj hlast ▸ List.mem_singleton_self _)

/-! ## The buffer -/

section Buffer

variable (realloc : Realloc) (line : Line) (bytes : Bytes)

@[simp] theorem append_string : (line.append lib realloc bytes).string = line.string ++ bytes := by
  unfold Line.append
  dsimp only
  split_ifs
  · rfl
  · rfl
  · rfl
  · rfl

/-- **What an append does to the place of the string.** -/
theorem append_block : line.block ≤ (line.append lib realloc bytes).block ∧
    (line.block ≠ 0 → (line.append lib realloc bytes).left = line.left) ∧
    (line.block = 0 → (line.append lib realloc bytes).block ≠ 0 →
      (line.append lib realloc bytes).left = line.string) := by
  unfold Line.append
  dsimp only
  by_cases hfits : line.string.length + bytes.length < line.spaceAvl
  · rw [if_pos hfits]
    exact ⟨Nat.le_refl _, fun _ => rfl, fun hzero hne => absurd hzero hne⟩
  · rw [if_neg hfits]
    by_cases hblock : line.block = 0
    · rw [if_pos hblock]
      exact ⟨hblock ▸ Nat.zero_le _, fun hne => absurd hblock hne, fun _ _ => rfl⟩
    · rw [if_neg hblock]
      refine ⟨?_, fun _ => rfl, fun hzero => absurd hzero hblock⟩
      dsimp only
      split_ifs
      · exact Nat.le_refl _
      · exact Nat.le_succ _

end Buffer

/-- What happened to the buffer while a value was read, with `before` in front of it. -/
structure Moved (line line' : Line) (before value : Bytes) : Prop where
  le : line.block ≤ line'.block
  mem : line'.block ≠ line.block → newline ∈ value
  left : line.block ≠ 0 → line'.left = line.left
  cut : line.block = 0 → line'.block ≠ 0 → ∃ front back, value = front ++ back ∧ Cut front back ∧
    line'.left = before ++ doubled front

theorem Moved.refl (line : Line) (before value : Bytes) : Moved line line before value :=
  ⟨Nat.le_refl _, fun h => absurd rfl h, fun _ => rfl, fun h h' => absurd h h'⟩

/-- A byte before the rest of the value. -/
theorem Moved.cons {line line' : Line} {before value : Bytes} {b : UInt8}
    (h : Moved line line' (before ++ doubled [b]) value) :
    Moved line line' before (b :: value) := by
  refine ⟨h.le, fun hne => List.mem_cons_of_mem b (h.mem hne), h.left, fun hzero hne => ?_⟩
  obtain ⟨front, back, rfl, hcut, hleft⟩ := h.cut hzero hne
  refine ⟨b :: front, back, rfl, hcut.imp_right fun hlast => ?_, ?_⟩
  · rw [List.getLast?_cons, hlast]
    rfl
  · rw [hleft, List.append_assoc, ← doubled_append]
    rfl

/-- A line break before the rest of the value. -/
theorem Moved.lineBreak {realloc : Realloc} {line line' : Line} {value text : Bytes}
    (h : Moved ((line.append lib realloc [newline]).append lib realloc text) line'
      (line.string ++ [newline]) value) : Moved line line' line.string (newline :: value) := by
  obtain ⟨hle, hleft, hcut⟩ := append_block lib realloc line [newline]
  obtain ⟨hle', hleft', hcut'⟩ :=
    append_block lib realloc (line.append lib realloc [newline]) text
  rw [append_string] at hcut'
  refine ⟨(hle.trans hle').trans h.le, fun _ => List.mem_cons_self,
    fun hne => ?_, fun hzero hne => ?_⟩
  · rw [h.left (by omega), hleft' (by omega), hleft hne]
  · by_cases hfirst : (line.append lib realloc [newline]).block = 0
    · by_cases hsecond : ((line.append lib realloc [newline]).append lib realloc text).block = 0
      · obtain ⟨front, back, rfl, hfront, hl⟩ := h.cut hsecond hne
        refine ⟨newline :: front, back, rfl, hfront.imp_right fun hlast => ?_, ?_⟩
        · rw [List.getLast?_cons, hlast]
          rfl
        · rw [hl, List.append_assoc]
          rfl
      · -- it moves for the next line
        refine ⟨[newline], value, rfl, Or.inr rfl, ?_⟩
        rw [h.left hsecond, hcut' hfirst hsecond]
        rfl
    · -- it moves for the line break
      refine ⟨[], newline :: value, rfl, Or.inl rfl, ?_⟩
      rw [h.left (by omega), hleft' hfirst, hcut hzero hfirst]
      exact (List.append_nil _).symm

/-! ## The scan -/

section Scan

variable {tcl} {lib} {realloc : Realloc}

theorem scan_cons (line : Line) (st : Scan) (p : Nat) (a : UInt8) (rest : Bytes) :
    scan tcl realloc line st p (a :: rest) =
      if a = quote ∧ rest.head? = some quote then scan tcl realloc line st (p + 2) (rest.drop 1)
      else scan tcl realloc line (st.step tcl realloc line p a) (p + 1) rest := by
  cases rest with
  | nil =>
      rw [if_neg fun h => nomatch h.2]
      rfl
  | cons b rest =>
      rw [scan]
      simp only [List.head?_cons, Option.some.injEq, List.drop_succ_cons, List.drop_zero]

variable (tcl lib realloc)

/-- The end of a line, and what follows. -/
def endLine (line : Line) (st : Scan) (lines : List Bytes) : Columns × List Bytes :=
  if st.inquote then getLines tcl lib realloc (line.append lib realloc [newline]) st lines
  else
    let st := st.append tcl realloc line line.string.length
    (⟨st.cols, st.ds⟩, lines)

/-- The rest of a record, behind the bytes that were scanned. -/
def goText (lines : List Bytes) (line : Line) (st : Scan) (before text : Bytes) :
    Columns × List Bytes :=
  let line := { line with string := before ++ (splitLines text).1 }
  endLine tcl lib realloc line (scan tcl realloc line st before.length (splitLines text).1)
    ((splitLines text).2 ++ lines)

/-- The block of the buffer when a record is complete. -/
def lastBlock (line : Line) (before text : Bytes) : Nat :=
  (({ line with string := before ++ (splitLines text).1 } : Line).read lib realloc
    (splitLines text).2).block

variable {tcl lib realloc} {lines : List Bytes} {line : Line} {st : Scan} {before text : Bytes}

theorem splitLines_cons {b : UInt8} (hb : b ≠ newline) (text : Bytes) :
    splitLines (b :: text) = (b :: (splitLines text).1, (splitLines text).2) := by
  rw [splitLines]
  exact if_neg hb

theorem splitLines_newline (text : Bytes) :
    splitLines (newline :: text) = ([], (splitLines text).1 :: (splitLines text).2) := by
  rw [splitLines]
  exact if_pos rfl

/-- The first byte of a line is that of the text. -/
theorem head_splitLines {b : UInt8} (hb : b ≠ newline) (text : Bytes) :
    (splitLines text).1.head? = some b ↔ text.head? = some b := by
  cases text with
  | nil => rfl
  | cons c text =>
      by_cases hc : c = newline
      · rw [hc, splitLines_newline]
        exact iff_of_false (fun h => nomatch h) fun h => hb (Option.some.inj h).symm
      · rw [splitLines_cons hc]
        rfl

theorem append_cons_eq (before : Bytes) (b : UInt8) (rest : Bytes) :
    before ++ b :: rest = (before ++ [b]) ++ rest := by
  rw [List.append_assoc]
  rfl

/-- A pair of quotes. -/
theorem goText_pair : goText tcl lib realloc lines line st before (quote :: quote :: text) =
    goText tcl lib realloc lines line st (before ++ [quote, quote]) text := by
  have hsplit : splitLines (quote :: quote :: text) =
      (quote :: quote :: (splitLines text).1, (splitLines text).2) := by
    rw [splitLines_cons (by decide), splitLines_cons (by decide)]
  have hpair : quote = quote ∧ (quote :: (splitLines text).1).head? = some quote := ⟨rfl, rfl⟩
  unfold goText
  rw [hsplit, List.length_append, List.append_assoc]
  dsimp only
  rw [scan_cons, if_pos hpair]
  rfl

/-- Another byte of a line. -/
theorem goText_step {b : UInt8} (hb : b ≠ newline)
    (hpair : ¬(b = quote ∧ text.head? = some quote)) :
    goText tcl lib realloc lines line st before (b :: text) =
      goText tcl lib realloc lines line (st.step tcl realloc
        { line with string := before ++ [b] ++ (splitLines text).1 } before.length b)
        (before ++ [b]) text := by
  have hnext : ¬(b = quote ∧ (splitLines text).1.head? = some quote) :=
    fun h => hpair ⟨h.1, (head_splitLines (by decide) text).mp h.2⟩
  unfold goText
  rw [splitLines_cons hb, List.length_append]
  dsimp only
  rw [scan_cons, if_neg hnext, append_cons_eq]
  rfl

/-- A further line, with a field open. -/
theorem getLines_cons (line : Line) (hquote : st.inquote = true) (text : Bytes)
    (lines : List Bytes) : getLines tcl lib realloc line st (text :: lines) =
      endLine tcl lib realloc (line.append lib realloc text)
        (scan tcl realloc (line.append lib realloc text) st line.string.length text) lines := by
  obtain ⟨inquote, s, ds, cols⟩ := st
  obtain rfl : inquote = true := hquote
  rfl

/-- A line break in a quoted field. -/
theorem goText_newline (hquote : st.inquote = true) :
    goText tcl lib realloc lines line st before (newline :: text) =
      goText tcl lib realloc lines ((({ line with string := before } : Line).append lib realloc
        [newline]).append lib realloc (splitLines text).1) st (before ++ [newline]) text := by
  have hstring : ((({ line with string := before } : Line).append lib realloc [newline]).append lib
      realloc (splitLines text).1).string = before ++ [newline] ++ (splitLines text).1 := by
    rw [append_string, append_string]
  unfold goText
  rw [splitLines_newline]
  dsimp only
  rw [scan, List.append_nil, endLine, if_pos hquote, List.cons_append, getLines_cons _ hquote,
    append_string, ← hstring]

/-- The end of a record. -/
theorem goText_nil (hquote : st.inquote = false) : goText tcl lib realloc lines line st before [] =
    (⟨st.cols + 1, csvAppend tcl st.ds
      (({ line with string := before } : Line).field realloc st.s before.length)⟩, lines) := by
  unfold goText
  rw [splitLines]
  dsimp only
  rw [scan, List.append_nil, endLine, hquote]
  rfl

/-! ### The place of the buffer -/

theorem lastBlock_cons {b : UInt8} (hb : b ≠ newline) :
    lastBlock lib realloc line before (b :: text) =
      lastBlock lib realloc line (before ++ [b]) text := by
  unfold lastBlock
  rw [splitLines_cons hb, append_cons_eq]

theorem lastBlock_newline : lastBlock lib realloc line before (newline :: text) =
    lastBlock lib realloc ((({ line with string := before } : Line).append lib realloc
      [newline]).append lib realloc (splitLines text).1) (before ++ [newline]) text := by
  have hstring : ((({ line with string := before } : Line).append lib realloc [newline]).append lib
      realloc (splitLines text).1).string = before ++ [newline] ++ (splitLines text).1 := by
    rw [append_string, append_string]
  unfold lastBlock
  rw [splitLines_newline, List.append_nil, ← hstring]
  rfl

/-- The buffer does not come back. -/
theorem block_le_read (line : Line) (texts : List Bytes) :
    line.block ≤ (line.read lib realloc texts).block := by
  induction texts generalizing line with
  | nil => exact Nat.le_refl _
  | cons text texts ih =>
      have hbreak := (append_block lib realloc line [newline]).1
      have hline := (append_block lib realloc (line.append lib realloc [newline]) text).1
      exact (hbreak.trans hline).trans (ih _)

theorem block_le_last : line.block ≤ lastBlock lib realloc line before text :=
  block_le_read ({ line with string := before ++ (splitLines text).1 } : Line) _

/-! ### Fields -/

theorem step_quote (line : Line) (p : Nat) :
    st.step tcl realloc line p quote = { st with inquote := !st.inquote } := if_pos rfl

theorem step_comma (hquote : st.inquote = false) (line : Line) (p : Nat) :
    st.step tcl realloc line p comma =
      { st.append tcl realloc line p with s := ⟨line.block, p + 1⟩ } := by
  rw [Scan.step, if_neg (by decide), if_pos ⟨rfl, hquote⟩]

theorem step_other {b : UInt8} (hquote : b ≠ quote) (hcomma : ¬(b = comma ∧ st.inquote = false))
    (line : Line) (p : Nat) : st.step tcl realloc line p b = st := by
  rw [Scan.step, if_neg hquote, if_neg hcomma]

/-- The rest of a quoted value. -/
theorem goText_value {value : Bytes} (hquote : st.inquote = true)
    (htext : text.head? ≠ some quote) :
    ∃ line', goText tcl lib realloc lines line st before (doubled value ++ quote :: text) =
        goText tcl lib realloc lines line' { st with inquote := false }
          (before ++ (doubled value ++ [quote])) text ∧
      lastBlock lib realloc line before (doubled value ++ quote :: text) =
        lastBlock lib realloc line' (before ++ (doubled value ++ [quote])) text ∧
      Moved line line' before value := by
  induction value generalizing line before with
  | nil =>
      refine ⟨line, ?_, lastBlock_cons (by decide), Moved.refl _ _ _⟩
      show goText tcl lib realloc lines line st before (quote :: text) = _
      rw [goText_step (by decide) (fun h => htext h.2), step_quote, hquote]
      rfl
  | cons b value ih =>
      by_cases hb : b = quote
      · subst hb
        obtain ⟨line', hgo, hlast, hmoved⟩ := @ih line (before ++ [quote, quote])
        have hbefore : before ++ [quote, quote] ++ (doubled value ++ [quote]) =
            before ++ (doubled (quote :: value) ++ [quote]) := by
          rw [List.append_assoc]
          rfl
        rw [hbefore] at hgo hlast
        refine ⟨line', ?_, ?_, hmoved.cons⟩
        · show goText tcl lib realloc lines line st before
            (quote :: quote :: (doubled value ++ quote :: text)) = _
          rw [goText_pair, hgo]
        · show lastBlock lib realloc line before
            (quote :: quote :: (doubled value ++ quote :: text)) = _
          rw [lastBlock_cons (by decide), lastBlock_cons (by decide), List.append_assoc]
          exact hlast
      · have hdoubled : doubled (b :: value) = b :: doubled value := if_neg hb
        have hbefore : before ++ [b] ++ (doubled value ++ [quote]) =
            before ++ (doubled (b :: value) ++ [quote]) := by
          rw [hdoubled, List.append_assoc]
          rfl
        by_cases hnewline : b = newline
        · subst hnewline
          obtain ⟨line', hgo, hlast, hmoved⟩ := @ih
            ((({ line with string := before } : Line).append lib realloc [newline]).append
              lib realloc (splitLines (doubled value ++ quote :: text)).1) (before ++ [newline])
          rw [hbefore] at hgo hlast
          refine ⟨line', ?_, ?_, ?_⟩
          · rw [hdoubled, List.cons_append, goText_newline hquote, hgo, ← hdoubled]
          · rw [hdoubled, List.cons_append, lastBlock_newline, hlast, ← hdoubled]
          · have hbreak : Moved { line with string := before } line' before (newline :: value) :=
              Moved.lineBreak lib hmoved
            exact ⟨hbreak.le, hbreak.mem, hbreak.left, hbreak.cut⟩
        · obtain ⟨line', hgo, hlast, hmoved⟩ := @ih line (before ++ [b])
          rw [hbefore] at hgo hlast
          have hcomma : ¬(b = comma ∧ st.inquote = false) := by
            rw [hquote]
            exact fun h => nomatch h.2
          have hone : doubled [b] = [b] := if_neg hb
          refine ⟨line', ?_, ?_, Moved.cons (hone.symm ▸ hmoved)⟩
          · rw [hdoubled, List.cons_append, goText_step hnewline (fun h => hb h.1),
              step_other hb hcomma, hgo, ← hdoubled]
          · rw [hdoubled, List.cons_append, lastBlock_cons hnewline, hlast, ← hdoubled]

/-- A quoted value with its opening quote, behind a comma. -/
theorem goText_quoted {value : Bytes} (hquote : st.inquote = false)
    (htext : text.head? ≠ some quote) : ∃ line',
    goText tcl lib realloc lines line st before (quote :: (doubled value ++ quote :: text)) =
        goText tcl lib realloc lines line' st (before ++ quote :: (doubled value ++ [quote])) text ∧
      lastBlock lib realloc line before (quote :: (doubled value ++ quote :: text)) =
        lastBlock lib realloc line' (before ++ quote :: (doubled value ++ [quote])) text ∧
      Moved line line' (before ++ [quote]) value := by
  induction value generalizing line before with
  | nil =>
      refine ⟨line, goText_pair, ?_, Moved.refl _ _ _⟩
      show lastBlock lib realloc line before (quote :: quote :: text) = _
      rw [lastBlock_cons (by decide), lastBlock_cons (by decide), List.append_assoc]
      rfl
  | cons b value ih =>
      by_cases hb : b = quote
      · -- the opening quote and the first of the pair are taken together
        subst hb
        obtain ⟨line', hgo, hlast, hmoved⟩ := @ih line (before ++ [quote, quote])
        have hbefore : before ++ [quote, quote] ++ quote :: (doubled value ++ [quote]) =
            before ++ quote :: (doubled (quote :: value) ++ [quote]) := by
          rw [List.append_assoc]
          rfl
        have hpair : before ++ [quote, quote] ++ [quote] =
            before ++ [quote] ++ doubled [quote] := by
          rw [List.append_assoc, List.append_assoc]
          rfl
        rw [hbefore] at hgo hlast
        refine ⟨line', ?_, ?_, Moved.cons (hpair ▸ hmoved)⟩
        · show goText tcl lib realloc lines line st before
            (quote :: quote :: quote :: (doubled value ++ quote :: text)) = _
          rw [goText_pair, hgo]
        · show lastBlock lib realloc line before
            (quote :: quote :: quote :: (doubled value ++ quote :: text)) = _
          rw [lastBlock_cons (by decide), lastBlock_cons (by decide), List.append_assoc]
          exact hlast
      · have hdoubled : doubled (b :: value) = b :: doubled value := if_neg hb
        have hhead : ¬(quote = quote ∧
            (doubled (b :: value) ++ quote :: text).head? = some quote) := by
          rw [hdoubled]
          exact fun h => hb (Option.some.inj h.2)
        obtain ⟨line', hgo, hlast, hmoved⟩ := @goText_value tcl lib realloc lines line
          { st with inquote := true } (before ++ [quote]) text (b :: value) rfl htext
        have hbefore : before ++ [quote] ++ (doubled (b :: value) ++ [quote]) =
            before ++ quote :: (doubled (b :: value) ++ [quote]) := (append_cons_eq _ _ _).symm
        have hst : ({ st with inquote := false } : Scan) = st := by
          rw [← hquote]
        rw [hbefore] at hgo hlast
        refine ⟨line', ?_, ?_, hmoved⟩
        · rw [goText_step (by decide) hhead, step_quote, hquote]
          exact hst ▸ hgo
        · rw [lastBlock_cons (by decide), hlast]

/-- A value without quotes. -/
theorem goText_plain {value : Bytes} (hcomma : comma ∉ value) (hquote : quote ∉ value)
    (hnewline : newline ∉ value) : goText tcl lib realloc lines line st before (value ++ text) =
        goText tcl lib realloc lines line st (before ++ value) text ∧
      lastBlock lib realloc line before (value ++ text) =
        lastBlock lib realloc line (before ++ value) text := by
  induction value generalizing before with
  | nil =>
      rw [List.append_nil]
      exact ⟨rfl, rfl⟩
  | cons b value ih =>
      obtain ⟨hbcomma, hcomma⟩ := not_or.mp fun h => hcomma (List.mem_cons.mpr h)
      obtain ⟨hbquote, hquote⟩ := not_or.mp fun h => hquote (List.mem_cons.mpr h)
      obtain ⟨hbnewline, hnewline⟩ := not_or.mp fun h => hnewline (List.mem_cons.mpr h)
      obtain ⟨hgo, hlast⟩ := @ih (before ++ [b]) hcomma hquote hnewline
      rw [List.cons_append, goText_step (Ne.symm hbnewline) (fun h => hbquote h.1.symm),
        step_other (Ne.symm hbquote) (fun h => hbcomma h.1.symm), hgo,
        lastBlock_cons (Ne.symm hbnewline), hlast, ← append_cons_eq]
      exact ⟨rfl, rfl⟩

/-- **A field behind a comma is passed by.** -/
theorem goText_field (field : Field) (hquote : st.inquote = false)
    (htext : text.head? ≠ some quote) : ∃ line',
    goText tcl lib realloc lines line st before (field.text ++ text) =
        goText tcl lib realloc lines line' st (before ++ field.text) text ∧
      lastBlock lib realloc line before (field.text ++ text) =
        lastBlock lib realloc line' (before ++ field.text) text ∧
      Moved line line' (before ++ [quote]) field.value := by
  cases hquoted : field.quoted with
  | true =>
      have hfield : field.text = quote :: (doubled field.value ++ [quote]) := by
        rw [Field.text, hquoted]
        rfl
      have hall : field.text ++ text = quote :: (doubled field.value ++ quote :: text) := by
        rw [hfield, List.cons_append, List.append_assoc]
        rfl
      rw [hall, hfield]
      exact goText_quoted hquote htext
  | false =>
      have hfield : field.text = field.value := by
        rw [Field.text, hquoted]
        rfl
      obtain ⟨hcomma, hquote, hnewline⟩ := field.plain hquoted
      obtain ⟨hgo, hlast⟩ := @goText_plain tcl lib realloc lines line st before text _ hcomma
        hquote hnewline
      rw [hfield]
      exact ⟨line, hgo, hlast, Moved.refl _ _ _⟩

/-! ### What is read of a field -/

theorem undouble_sublist (s : Bytes) : (undouble s).Sublist s := by
  fun_induction undouble s with
  | case1 => exact List.Sublist.refl _
  | case2 b => exact List.Sublist.refl _
  | case3 a b s h ih =>
      rw [h.1, h.2]
      exact List.Sublist.cons_cons _ (ih.cons _)
  | case4 a b s h ih => exact ih.cons_cons _

theorem free_unquoted {s : Bytes} (h : NulFree s) : NulFree (unquoted s) := by
  intro hmem
  have hmem := (undouble_sublist _).subset hmem
  split_ifs at hmem
  · exact h (List.dropLast_subset _ (List.mem_of_mem_drop hmem))
  · exact h hmem

theorem free_doubled {value : Bytes} (h : NulFree value) : NulFree (doubled value) := by
  induction value with
  | nil => exact nulFree_nil
  | cons b value ih =>
      obtain ⟨hb, hvalue⟩ := not_or.mp fun h' => h (List.mem_cons.mpr h')
      rw [doubled]
      split_ifs
      · simpa [NulFree, quote] using ih hvalue
      · simpa [NulFree, hb] using ih hvalue

theorem free_text (field : Field) : NulFree field.text := by
  rw [Field.text]
  split_ifs
  · simpa [NulFree, quote] using free_doubled field.free
  · exact field.free

/-- What `CsvAppend` makes of the field that ends at the end of the bytes. -/
def fieldRead (realloc : Realloc) (line : Line) (st : Scan) (before : Bytes) : Bytes :=
  unquoted (({ line with string := before } : Line).field realloc st.s before.length)

theorem free_fieldRead : NulFree (fieldRead realloc line st before) := by
  refine free_unquoted ?_
  rw [Line.field]
  split_ifs
  · exact nulFree_cstr _
  · exact nulFree_cstr _
  · exact nulFree_cstr _

/-- What is behind the end does not matter. -/
theorem field_append (rest : Bytes) :
    ({ line with string := before ++ rest } : Line).field realloc st.s before.length =
      ({ line with string := before } : Line).field realloc st.s before.length := by
  unfold Line.field
  dsimp only
  rw [List.take_left, List.take_length]

/-- **A field is read as it is if the buffer did not move.** -/
theorem fieldRead_eq {line' : Line} (field : Field) (hs : st.s = ⟨line.block, before.length⟩)
    (hblock : line'.block = line.block) :
    fieldRead realloc line' st (before ++ field.text) = field.value := by
  unfold fieldRead Line.field
  dsimp only
  rw [hs, if_pos hblock.symm, List.take_length, List.drop_left, cstr_eq_self (free_text field),
    unquoted_text]

/-- **A field is not read as it is if the buffer moved**, with nothing in the blocks that were given
back. -/
theorem fieldRead_ne {line' : Line} (field : Field) (hs : st.s = ⟨line.block, before.length⟩)
    (hmoved : Moved line line' (before ++ [quote]) field.value)
    (hfreed : ∀ block off, realloc.freed block off = []) (hblock : line'.block ≠ line.block) :
    fieldRead realloc line' st (before ++ field.text) ≠ field.value := by
  have hmem := hmoved.mem hblock
  unfold fieldRead Line.field
  dsimp only
  rw [hs, if_neg hblock.symm]
  by_cases hzero : line.block = 0
  · obtain ⟨front, back, hvalue, hcut, hleft⟩ := hmoved.cut hzero (hzero ▸ hblock)
    have hfree : NulFree (quote :: doubled front) := by
      have hfront : NulFree front :=
        fun h => field.free (hvalue ▸ List.mem_append_left back h)
      simpa [NulFree, quote] using free_doubled hfront
    rw [if_pos hzero, hleft, List.append_assoc, List.drop_left]
    show unquoted (cstr (quote :: doubled front)) ≠ _
    rw [cstr_eq_self hfree, hvalue]
    rw [hvalue] at hmem
    exact unquoted_front_ne hcut hmem
  · rw [if_neg hzero, hfreed]
    intro h
    rw [← h] at hmem
    exact absurd hmem List.not_mem_nil

/-! ### Records -/

/-- What is read of fields, against their values and the place of the buffer. -/
structure Got (realloc : Realloc) (read : List Bytes) (fields : List Field) (stays : Prop) :
    Prop where
  free : ∀ x ∈ read, NulFree x
  values : stays → read = fields.map Field.value
  stays : (∀ block off, realloc.freed block off = []) → read = fields.map Field.value → stays

theorem head_tailText (fields : List Field) : (tailText fields).head? ≠ some quote := by
  cases fields with
  | nil => exact fun h => nomatch h
  | cons field fields => exact fun h => absurd (Option.some.inj h) (by decide)

/-- **From the end of a field on**: the field is appended, and then the other fields. -/
theorem goText_tail (fields : List Field) (hquote : st.inquote = false) : ∃ read,
    goText tcl lib realloc lines line st before (tailText fields) =
      (⟨st.cols + 1 + fields.length,
        (fieldRead realloc line st before :: read).foldl tcl.appendElement st.ds⟩, lines) ∧
      Got realloc read fields
        (lastBlock lib realloc line before (tailText fields) = line.block) := by
  induction fields generalizing line st before with
  | nil =>
      have hlast : lastBlock lib realloc line before [] = line.block := rfl
      refine ⟨[], ?_, fun x h => absurd h List.not_mem_nil, fun _ => rfl, fun _ _ => hlast⟩
      exact goText_nil hquote
  | cons field fields ih =>
      obtain ⟨st', hst'⟩ : ∃ st' : Scan, st' =
          { st.append tcl realloc { line with string := before } before.length with
            s := ⟨line.block, before.length + 1⟩ } := ⟨_, rfl⟩
      have hstep : goText tcl lib realloc lines line st before (tailText (field :: fields)) =
          goText tcl lib realloc lines line st' (before ++ [comma])
            (field.text ++ tailText fields) := by
        rw [tailText, goText_step (by decide) (fun h => absurd h.1 (by decide)), step_comma hquote,
          hst']
        unfold Scan.append
        rw [List.append_assoc, field_append]
      have hlast : lastBlock lib realloc line before (tailText (field :: fields)) =
          lastBlock lib realloc line (before ++ [comma]) (field.text ++ tailText fields) := by
        rw [tailText, lastBlock_cons (by decide)]
      have hquote' : st'.inquote = false := hst' ▸ hquote
      have hs : st'.s = ⟨line.block, (before ++ [comma]).length⟩ := by
        rw [hst', List.length_append]
        rfl
      obtain ⟨line', hgo, hlast', hmoved⟩ := @goText_field tcl lib realloc lines line st'
        (before ++ [comma]) (tailText fields) field hquote' (head_tailText fields)
      obtain ⟨read, hread, hgot⟩ := @ih line' st' (before ++ [comma] ++ field.text) hquote'
      refine ⟨fieldRead realloc line' st' (before ++ [comma] ++ field.text) :: read, ?_, ?_, ?_, ?_⟩
      · have hcols : (st'.cols : Int) + 1 + fields.length =
            st.cols + 1 + ((field :: fields).length : Nat) := by
          rw [hst', List.length_cons]
          show ((st.cols + 1 : Nat) : Int) + 1 + fields.length = _
          push_cast
          ring
        rw [hstep, hgo, hread, hcols, hst']
        rfl
      · intro x hx
        rcases List.mem_cons.mp hx with rfl | hx
        · exact free_fieldRead
        · exact hgot.free x hx
      · intro hstays
        rw [hlast, hlast'] at hstays
        have hle := hmoved.le
        have hle' : line'.block ≤ lastBlock lib realloc line' (before ++ [comma] ++ field.text)
            (tailText fields) := block_le_last
        rw [fieldRead_eq field hs (by omega), hgot.values (by omega)]
        rfl
      · intro hfreed hall
        obtain ⟨hfirst, hrest⟩ := List.cons.inj hall
        have hblock : line'.block = line.block := by
          by_contra hne
          exact fieldRead_ne field hs hmoved hfreed hne hfirst
        rw [hlast, hlast', hgot.stays hfreed hrest, hblock]

theorem firstLine_string (lib : DStringLib) (realloc : Realloc) (text : Bytes) :
    (firstLine lib realloc text).string = (splitLines text).1 := by
  rw [firstLine, append_string]
  rfl

theorem channelLines_append (text rest : Bytes) : channelLines (text ++ newline :: rest) =
    (splitLines text).1 :: ((splitLines text).2 ++ channelLines rest) := by
  induction text with
  | nil => rfl
  | cons b text ih =>
      rw [List.cons_append, channelLines]
      by_cases hb : b = newline
      · rw [if_pos hb, ih, hb, splitLines_newline]
        rfl
      · rw [if_neg hb, ih, splitLines_cons hb]

/-- The rest of a record, when the line is in the buffer. -/
theorem goText_eq (h : line.string = before ++ (splitLines text).1) :
    goText tcl lib realloc lines line st before text =
      endLine tcl lib realloc line (scan tcl realloc line st before.length (splitLines text).1)
        ((splitLines text).2 ++ lines) := by
  unfold goText
  rw [← h]

/-- A call that finds a text without a quote at its start. -/
theorem csvGet_plain (htext : text.head? ≠ some quote) (rest : Bytes) :
    csvGet tcl lib realloc (channelLines (text ++ newline :: rest)) =
      goText tcl lib realloc (channelLines rest) (firstLine lib realloc text)
        ⟨false, ⟨(firstLine lib realloc text).block, 0⟩, [], 0⟩ [] text := by
  have hhead : (splitLines text).1.head? ≠ some quote :=
    fun h => htext ((head_splitLines (by decide) text).mp h)
  rw [channelLines_append, csvGet, getLines]
  simp only [hhead, and_false, if_false]
  rw [goText_eq (firstLine_string lib realloc text)]
  rfl

/-- A call that finds a quote. -/
theorem csvGet_quote (rest : Bytes) :
    csvGet tcl lib realloc (channelLines (quote :: text ++ newline :: rest)) =
      goText tcl lib realloc (channelLines rest) (firstLine lib realloc (quote :: text))
        ⟨true, ⟨(firstLine lib realloc (quote :: text)).block, 0⟩, [], 0⟩ [quote] text := by
  rw [channelLines_append, csvGet, getLines, splitLines_cons (by decide)]
  simp only [List.head?_cons, and_true, if_true]
  have hstring : (firstLine lib realloc (quote :: text)).string =
      [quote] ++ (splitLines text).1 := by
    rw [firstLine_string, splitLines_cons (by decide)]
    rfl
  rw [goText_eq hstring, firstLine, splitLines_cons (by decide)]
  rfl

theorem lastBlock_eq (h : line.string = before ++ (splitLines text).1) :
    lastBlock lib realloc line before text =
      (line.read lib realloc (splitLines text).2).block := by
  unfold lastBlock
  rw [← h]

/-- **A call that finds a record passes its first field.** -/
theorem csvGet_first (tcl : TclList) (lib : DStringLib) (realloc : Realloc) (record : Record)
    (rest : Bytes) : ∃ line,
    let block := (firstLine lib realloc record.text).block
    csvGet tcl lib realloc (channelLines (record.text ++ newline :: rest)) =
        goText tcl lib realloc (channelLines rest) line ⟨false, ⟨block, 0⟩, [], 0⟩
          record.first.text (tailText record.rest) ∧
      (Stays lib realloc record ↔
        lastBlock lib realloc line record.first.text (tailText record.rest) = block) ∧
      Moved (firstLine lib realloc record.text) line [quote] record.first.value := by
  have htail := head_tailText record.rest
  cases hquoted : record.first.quoted with
  | true =>
      have hfirst : record.first.text = quote :: (doubled record.first.value ++ [quote]) := by
        rw [Field.text, hquoted]
        rfl
      have htext : record.text =
          quote :: (doubled record.first.value ++ quote :: tailText record.rest) := by
        rw [Record.text, hfirst, List.cons_append, List.append_assoc]
        rfl
      obtain ⟨line, hgo, hlast, hmoved⟩ := @goText_value tcl lib realloc (channelLines rest)
        (firstLine lib realloc record.text)
        ⟨true, ⟨(firstLine lib realloc record.text).block, 0⟩, [], 0⟩ [quote]
        (tailText record.rest) record.first.value rfl htail
      have hstring : (firstLine lib realloc record.text).string = [quote] ++
          (splitLines (doubled record.first.value ++ quote :: tailText record.rest)).1 := by
        rw [firstLine_string, htext, splitLines_cons (by decide)]
        rfl
      refine ⟨line, ?_, ?_, hmoved⟩
      · rw [hfirst]
        refine Eq.trans ?_ hgo
        rw [htext]
        exact csvGet_quote rest
      · change _ = lastBlock lib realloc line (quote :: (doubled record.first.value ++ [quote])) _
          at hlast
        rw [hfirst, ← hlast, lastBlock_eq hstring]
        unfold Stays
        rw [htext, splitLines_cons (by decide)]
  | false =>
      have hhead : record.text.head? ≠ some quote := by
        have hfirst : record.first.text = record.first.value := by
          rw [Field.text, hquoted]
          rfl
        obtain ⟨-, hquote, -⟩ := record.first.plain hquoted
        rw [Record.text, hfirst]
        cases hvalue : record.first.value with
        | nil => exact htail
        | cons b value =>
            rw [hvalue] at hquote
            exact fun h => hquote (Option.some.inj h ▸ List.mem_cons_self)
      obtain ⟨line, hgo, hlast, hmoved⟩ := @goText_field tcl lib realloc (channelLines rest)
        (firstLine lib realloc record.text)
        ⟨false, ⟨(firstLine lib realloc record.text).block, 0⟩, [], 0⟩ []
        (tailText record.rest) record.first rfl htail
      refine ⟨line, ?_, ?_, hmoved⟩
      · rw [csvGet_plain hhead]
        exact hgo
      · have hstring : (firstLine lib realloc record.text).string =
            [] ++ (splitLines record.text).1 := firstLine_string lib realloc record.text
        change lastBlock lib realloc _ [] record.text =
          lastBlock lib realloc line record.first.text _
          at hlast
        rw [← hlast, lastBlock_eq hstring]
        exact Iff.rfl

/-- **A call reads one record**: as many fields as it has, and their values exactly if the buffer
stays. -/
theorem csvGet_record (tcl : TclList) (lib : DStringLib) (realloc : Realloc) (record : Record)
    (rest : Bytes) : ∃ read,
    csvGet tcl lib realloc (channelLines (record.text ++ newline :: rest)) =
      (⟨record.fields.length, read.foldl tcl.appendElement []⟩, channelLines rest) ∧
    Got realloc read record.fields (Stays lib realloc record) := by
  obtain ⟨line, hget, hstays, hmoved⟩ := csvGet_first tcl lib realloc record rest
  obtain ⟨read, hread, hgot⟩ := @goText_tail tcl lib realloc (channelLines rest) line
    ⟨false, ⟨(firstLine lib realloc record.text).block, 0⟩, [], 0⟩ record.first.text record.rest rfl
  have hle := hmoved.le
  have hle' : line.block ≤ lastBlock lib realloc line record.first.text (tailText record.rest) :=
    block_le_last
  refine ⟨fieldRead realloc line ⟨false, ⟨(firstLine lib realloc record.text).block, 0⟩, [], 0⟩
    record.first.text :: read, ?_, ?_, fun h => ?_, fun hfreed hall => ?_⟩
  · have hcols : ((0 : Nat) : Int) + 1 + record.rest.length = (record.fields.length : Nat) := by
      rw [Record.fields, List.length_cons]
      push_cast
      ring
    rw [hget, hread, hcols]
  · intro x hx
    rcases List.mem_cons.mp hx with rfl | hx
    · exact free_fieldRead
    · exact hgot.free x hx
  · have hlast := hstays.mp h
    have hfirst :
        fieldRead realloc line ⟨false, ⟨(firstLine lib realloc record.text).block, 0⟩, [], 0⟩
        ([] ++ record.first.text) = record.first.value := fieldRead_eq record.first rfl (by omega)
    have hrest := hgot.values (by omega)
    exact congrArg₂ List.cons hfirst hrest
  · obtain ⟨hfirst, hrest⟩ := List.cons.inj hall
    have hblock : line.block = (firstLine lib realloc record.text).block := by
      by_contra hne
      exact @fieldRead_ne realloc (firstLine lib realloc record.text) _ [] line record.first rfl
        hmoved hfreed hne hfirst
    rw [hstays, hgot.stays hfreed hrest, hblock]

end Scan

/-! ## Files -/

theorem fileText_cons (record : Record) (records : List Record) :
    fileText (record :: records) = record.text ++ newline :: fileText records := by
  rw [fileText, List.flatMap_cons, List.append_assoc]
  rfl

variable {tcl lib}

theorem parsed_iff {record : Record} {read : List Bytes} (hfree : ∀ x ∈ read, NulFree x) :
    Parsed tcl record ⟨record.fields.length, read.foldl tcl.appendElement []⟩ ↔
      read = record.values := by
  have hsplit := tcl.splitList_foldl hfree TclList.white_nil
  rw [List.append_nil] at hsplit
  unfold Parsed
  rw [hsplit, Option.some.injEq, and_iff_right rfl]

/-- **A file is read as expected if its first record is, and then the others.** -/
theorem right_cons {reallocs : Nat → Realloc} {record : Record} {records : List Record}
    {read : List Bytes}
    (hget : csvGet tcl lib (reallocs 0)
        (channelLines (record.text ++ newline :: fileText records)) =
      (⟨record.fields.length, read.foldl tcl.appendElement []⟩, channelLines (fileText records)))
    (hfree : ∀ x ∈ read, NulFree x) : Right tcl lib reallocs (record :: records) ↔
      read = record.values ∧ Right tcl lib (fun k => reallocs (k + 1)) records := by
  have hgets : csvGets tcl lib reallocs ((record :: records).length + 1)
      (channelLines (fileText (record :: records))) =
      ⟨record.fields.length, read.foldl tcl.appendElement []⟩ ::
        csvGets tcl lib (fun k => reallocs (k + 1)) (records.length + 1)
          (channelLines (fileText records)) := by
    rw [fileText_cons, List.length_cons, csvGets, hget]
  unfold Right
  rw [hgets, ← parsed_iff hfree]
  constructor
  · rintro ⟨columns, heq, hparsed⟩
    cases hparsed with
    | cons hfirst hrest =>
        obtain ⟨rfl, hlater⟩ := List.cons.inj heq
        exact ⟨hfirst, _, hlater, hrest⟩
  · rintro ⟨hfirst, columns, heq, hrest⟩
    exact ⟨_ :: columns, by rw [heq, List.cons_append], List.Forall₂.cons hfirst hrest⟩

/-- **The buffer stays for a first record that is read as expected**, with nothing in the blocks
that were given back. -/
theorem stays_of_right (reallocs : Nat → Realloc) {record : Record} {records : List Record}
    (hfreed : ∀ block off, (reallocs 0).freed block off = [])
    (h : Right tcl lib reallocs (record :: records)) : Stays lib (reallocs 0) record := by
  obtain ⟨read, hget, hgot⟩ := csvGet_record tcl lib (reallocs 0) record (fileText records)
  exact hgot.stays hfreed ((right_cons hget hgot.free).mp h).1

/-- **Successive calls give the records, whatever is found in blocks that were given back, exactly
if the buffer of no call moves behind the first line of the record.** -/
theorem csvGet_iff (tcl : TclList) (lib : DStringLib) (reallocs : Nat → Realloc)
    (records : List Record) :
    (∀ freed : Nat → Nat → Nat → Bytes,
        Right tcl lib (fun k => { reallocs k with freed := freed k }) records) ↔
      ∀ k record, records[k]? = some record → Stays lib (reallocs k) record := by
  induction records generalizing reallocs with
  | nil =>
      refine iff_of_true (fun freed => ⟨[], rfl, List.Forall₂.nil⟩) fun k record h => ?_
      exact nomatch h
  | cons record records ih =>
      constructor
      · intro h k record' hrecord
        cases k with
        | zero =>
            obtain rfl := Option.some.inj hrecord
            exact stays_of_right (fun k => { reallocs k with freed := fun _ _ => [] })
              (fun _ _ => rfl) (h fun _ _ _ => [])
        | succ k =>
            refine (ih fun k => reallocs (k + 1)).mp (fun freed => ?_) k record' hrecord
            -- what the first call finds does not matter
            obtain ⟨read, hget, hgot⟩ := csvGet_record tcl lib
              { reallocs 0 with freed := fun _ _ => [] } record (fileText records)
            have hall := h fun k => Nat.casesOn k (fun _ _ => []) freed
            exact ((right_cons hget hgot.free).mp hall).2
      · intro h freed
        obtain ⟨read, hget, hgot⟩ := csvGet_record tcl lib
          { reallocs 0 with freed := freed 0 } record (fileText records)
        refine (right_cons hget hgot.free).mpr ⟨hgot.values (h 0 record rfl), ?_⟩
        exact (ih fun k => reallocs (k + 1)).mpr (fun k => h (k + 1)) fun k => freed (k + 1)

/-! ## A long field -/

theorem notMem_longValue {b : UInt8} (h : b ≠ 97) (h' : b ∉ ([10, 98] : Bytes)) (n : Nat) :
    b ∉ List.replicate n 97 ++ [10, 98] := by
  intro hmem
  rcases List.mem_append.mp hmem with hmem | hmem
  · exact h (List.eq_of_mem_replicate hmem)
  · exact h' hmem

/-- A value of 198 letters and a second line. -/
def longField : Field where
  value := List.replicate 198 97 ++ [10, 98]
  quoted := true
  free := notMem_longValue (by simp) (by simp) 198
  noReturn := notMem_longValue (by simp) (by simp) 198
  plain h := nomatch h

/-- A call in which no block is given back. -/
def noRealloc : Realloc := ⟨fun _ => true, fun _ _ => []⟩

theorem longField_moves : ¬Stays DStringLib.doubling noRealloc ⟨longField, []⟩ := by
  decide +kernel

/-- The line break does not fit the 200 bytes of the structure, and the second line is lost. -/
theorem csvGet_long : Line.init DStringLib.doubling = ⟨[], 200, 0, []⟩ ∧
    ¬Right TclList.simple DStringLib.doubling (fun _ => noRealloc) [⟨longField, []⟩] := by
  have hfreed : ∀ block off, noRealloc.freed block off = [] := fun _ _ => rfl
  refine ⟨rfl, fun hright => longField_moves ?_⟩
  exact stays_of_right (fun _ => noRealloc) hfreed hright

end Nsdci.Csv
