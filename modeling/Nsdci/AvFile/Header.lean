import Nsdci.AvFile
import Mathlib.Data.List.TakeWhile

/-!
# The text of an AV file

The reader looks for the first end mark, a form feed between newlines. The text that the writer
makes has it at its end, and before this only where the name of the file or of the host has it: the
other lines begin with `#`, and the strings of the meta data are cut at a newline (`Plain`).
-/

namespace Nsdci.AvFile

open Lib

variable {env : Env} {junk : Nat → UInt8} {file : CStr} {metaPtr dataPtr : List Pair}
  {ds s t : Bytes}

/-- The end mark is in a name, or in it and the newline behind it. -/
def Marked (s : CStr) : Prop := hdrEnd <:+: s.1 ++ [10]

instance (s : CStr) : Decidable (Marked s) := inferInstanceAs (Decidable (_ <:+: _))

/-- There is no end mark up to here, and the last line is a comment. -/
def Plain (ds : Bytes) : Prop :=
  ∃ pre tail : Bytes, ds = pre ++ 35 :: tail ∧ ¬ hdrEnd <:+: pre ∧ 10 ∉ tail

/-- One newline is too few for an end mark. -/
theorem not_infix_line {line rest : Bytes} (hline : 10 ∉ line) (hrest : 10 ∉ rest) :
    ¬ hdrEnd <:+: line ++ 10 :: rest := by
  intro h
  have hsub : List.count 10 hdrEnd ≤ List.count 10 (line ++ 10 :: rest) := h.sublist.count_le 10
  rw [List.count_append, List.count_cons_self, List.count_eq_zero.mpr hline,
    List.count_eq_zero.mpr hrest] at hsub
  exact absurd hsub (by decide)

namespace Plain

/-- The line goes on. -/
theorem append (h : Plain ds) (ht : 10 ∉ t) : Plain (ds ++ t) := by
  obtain ⟨pre, tail, rfl, hpre, htail⟩ := h
  refine ⟨pre, tail ++ t, by rw [List.append_assoc, List.cons_append], hpre, fun hmem => ?_⟩
  exact (List.mem_append.mp hmem).elim htail ht

/-- A new line. -/
theorem newline (h : Plain ds) (ht : 10 ∉ t) : Plain (ds ++ 10 :: 35 :: t) := by
  obtain ⟨pre, tail, rfl, hpre, htail⟩ := h
  refine ⟨pre ++ 35 :: (tail ++ [10]), t, by simp, fun hmark => ?_, ht⟩
  rcases infix_cut (by decide) hmark with hmark | hmark
  · exact hpre hmark
  · exact not_infix_line htail List.not_mem_nil hmark

/-- Something without an end mark behind a blank, and a new comment. -/
theorem add (h : Plain ds) (hs : ¬ hdrEnd <:+: s) (ht : 10 ∉ t) :
    Plain (ds ++ 32 :: (s ++ 35 :: t)) := by
  obtain ⟨pre, tail, rfl, hpre, htail⟩ := h
  refine ⟨pre ++ 35 :: (tail ++ 32 :: s), t, by simp, fun hmark => ?_, ht⟩
  rcases infix_cut (by decide) hmark with hmark | hmark
  · exact hpre hmark
  · rcases infix_cut (by decide) hmark with hmark | hmark
    · exact not_infix_of_notMem (c := 10) (by decide) htail hmark
    · exact hs hmark

end Plain

/-- Digits have no newline. -/
theorem notMem_decimal {c : UInt8} (hc : c.toNat < 45) (x : Int) : c ∉ decimal x := by
  intro h
  rcases mem_decimal h with rfl | hdigit
  · exact absurd hc (by decide)
  · have := hdigit.1
    omega

/-! ## The lines -/

/-- The text before the names of the file and of the host, and behind them. -/
theorem headerTop_eq (env : Env) (file : CStr) (nmeta nkeys : Nat) :
    headerTop env file nmeta nkeys = ascii "!av" ++ 10 :: 35 :: ascii " ident: $Id$" ++
      10 :: 35 :: ascii " file: " ++ 32 :: (file.1 ++ [10] ++ 35 :: ascii " built:") ++
      32 :: (env.ctime.1 ++ 35 :: ascii " host: ") ++
      32 :: (env.hostname.1 ++ [10] ++ 35 :: ascii " nkeys:") ++
      32 :: (decimal nkeys ++ [10] ++ 35 :: ascii " nmeta:") ++
      32 :: (decimal nmeta ++ [10] ++ 35 :: ascii " meta:") := by
  have hident : ascii "\n# ident: " ++ ascii "$Id$" = 10 :: 35 :: ascii " ident: $Id$" := by decide
  have hfile : ascii "\n# file:  " = 10 :: 35 :: ascii " file: " ++ [32] := by decide
  have hbuilt : ascii "\n# built: " = [10] ++ 35 :: ascii " built:" ++ [32] := by decide
  have hhost : ascii "# host:  " = 35 :: ascii " host: " ++ [32] := by decide
  have hnkeys : ascii "\n# nkeys: " = [10] ++ 35 :: ascii " nkeys:" ++ [32] := by decide
  have hnmeta : ascii "\n# nmeta: " = [10] ++ 35 :: ascii " nmeta:" ++ [32] := by decide
  have hmeta : ascii "\n# meta:" = [10] ++ 35 :: ascii " meta:" := by decide
  rw [headerTop, List.append_assoc (ascii "!av"), hident, hfile, hbuilt, hhost, hnkeys, hnmeta,
    hmeta]
  simp

/-- The first lines have no end mark if the names have none. -/
theorem plain_headerTop (hfile : ¬ Marked file) (hhost : ¬ Marked env.hostname)
    (nmeta nkeys : Nat) :
    Plain (headerTop env file nmeta nkeys) := by
  have hident : Plain (ascii "!av" ++ 10 :: 35 :: ascii " ident: $Id$") :=
    ⟨ascii "!av" ++ [10], ascii " ident: $Id$", by simp, by decide, by decide⟩
  have hctime : ¬ hdrEnd <:+: env.ctime.1 :=
    not_infix_of_notMem (c := 12) (by decide) env.ctime_noFeed
  have hdecimal : ∀ n : Nat, ¬ hdrEnd <:+: decimal n ++ [10] := fun n =>
    not_infix_line (notMem_decimal (by decide) _) List.not_mem_nil
  rw [headerTop_eq]
  exact (((((hident.newline (by decide)).add hfile (by decide)).add hctime (by decide)).add hhost
    (by decide)).add (hdecimal nkeys) (by decide)).add (hdecimal nmeta) (by decide)

/-- `Tcl_DStringStartSublist` appends a brace, behind a blank where there is none. -/
theorem startSublist_eq (ds : Bytes) :
    ∃ t, 10 ∉ t ∧ NulFree t ∧ startSublist ds = ds ++ t := by
  unfold startSublist
  cases hlast : ds.getLast? with
  | none =>
      rw [List.getLast?_eq_none_iff] at hlast
      exact ⟨[123], by decide, by decide, by rw [hlast]; rfl⟩
  | some c =>
      dsimp only
      split_ifs
      · exact ⟨[123], by decide, by decide, rfl⟩
      · exact ⟨[32, 123], by decide, by decide, rfl⟩

/-- What `AppendMeta` takes of a string ends before a newline. -/
theorem appendMeta_take (ds str : Bytes) (max : Nat) :
    ∃ n dots, n ≤ (str.takeWhile (· ≠ 10)).length ∧ (dots = [] ∨ dots = ascii " ...") ∧
      appendMeta ds str max = startSublist ds ++ str.take n ++ dots ++ [125] := by
  have hall : (str.takeWhile (· ≠ 10)).length ≤ str.length :=
    (List.takeWhile_prefix _).length_le
  unfold appendMeta
  dsimp only
  split_ifs
  all_goals
    first
    | refine ⟨_, ascii " ...", ?_, Or.inr rfl, rfl⟩
      omega
    | refine ⟨_, [], ?_, Or.inl rfl, (congrArg (· ++ [125]) (List.append_nil _)).symm⟩
      omega

/-- `AppendMeta` appends to the line. -/
theorem appendMeta_eq (ds : Bytes) (str : CStr) (max : Nat) :
    ∃ t, 10 ∉ t ∧ NulFree t ∧ appendMeta ds str.1 max = ds ++ t := by
  obtain ⟨front, hfront, hfree, hds⟩ := startSublist_eq ds
  obtain ⟨n, dots, hn, hdots, heq⟩ := appendMeta_take ds str.1 max
  have hpre : str.1.take n <+: str.1.takeWhile (· ≠ 10) := by
    refine List.prefix_of_prefix_length_le (List.take_prefix n _) (List.takeWhile_prefix _) ?_
    exact (List.length_take_le n _).trans hn
  have hline : 10 ∉ str.1.take n := fun h => by
    simpa using List.mem_takeWhile_imp (hpre.subset h)
  have hnul : NulFree (str.1.take n) := fun h => str.2 (List.mem_of_mem_take h)
  refine ⟨front ++ str.1.take n ++ dots ++ [125], ?_, ?_, ?_⟩
  · rcases hdots with rfl | rfl <;> simp [hfront, hline, ascii]
  · rcases hdots with rfl | rfl <;> simp [nulFree_append, hfree, hnul] <;> decide
  · rw [heq, hds]
    simp only [List.append_assoc]

/-! ## The whole text -/

/-- The lines of the meta data. -/
theorem metaLines_eq (l : List Pair) (ds : Bytes) :
    ∃ z, NulFree z ∧ (Plain ds → Plain (ds ++ z)) ∧
      l.foldl (fun ds e => appendMeta (appendMeta (ds ++ ascii "\n#  ") e.1.1 20) e.2.1 60) ds =
        ds ++ z := by
  induction l generalizing ds with
  | nil =>
      exact ⟨[], nulFree_nil, fun h => (List.append_nil ds).symm ▸ h, (List.append_nil ds).symm⟩
  | cons e l ih =>
      have hstart : ascii "\n#  " = 10 :: 35 :: [32, 32] := by decide
      obtain ⟨key, hkey, hkeyFree, hkeyEq⟩ := appendMeta_eq (ds ++ ascii "\n#  ") e.1 20
      obtain ⟨value, hvalue, hvalueFree, hvalueEq⟩ :=
        appendMeta_eq (ds ++ ascii "\n#  " ++ key) e.2 60
      obtain ⟨z, hz, hplain, heq⟩ := ih (ds ++ ascii "\n#  " ++ key ++ value)
      refine ⟨ascii "\n#  " ++ key ++ value ++ z, ?_, fun h => ?_, ?_⟩
      · simp only [nulFree_append, hkeyFree, hvalueFree, hz, and_true]
        decide
      · have hline := ((h.newline (t := [32, 32]) (by decide)).append hkey).append hvalue
        rw [← hstart] at hline
        simpa only [List.append_assoc] using hplain hline
      · rw [List.foldl_cons, hkeyEq, hvalueEq, heq]
        simp only [List.append_assoc]

/-- The text is the first lines, lines without an end mark, and the end mark. -/
theorem headerText_eq (env : Env) (file : CStr) (metaPtr dataPtr : List Pair) :
    ∃ z, NulFree z ∧
      (Plain (headerTop env file metaPtr.length dataPtr.length) →
        Plain (headerTop env file metaPtr.length dataPtr.length ++ z)) ∧
      headerText env file metaPtr dataPtr =
        headerTop env file metaPtr.length dataPtr.length ++ z ++ hdrEnd := by
  obtain ⟨z, hz, hplain, heq⟩ :=
    metaLines_eq (metaPtr.take 10) (headerTop env file metaPtr.length dataPtr.length)
  have hmore : ascii "\n#  ..." = 10 :: 35 :: ascii "  ..." := by decide
  have hend : ascii "\n#\n" ++ [12, 10] = 10 :: 35 :: [] ++ hdrEnd := by decide
  rw [headerText, heq, List.append_assoc _ (ascii "\n#\n"), hend]
  split_ifs
  · refine ⟨z ++ ascii "\n#  ..." ++ 10 :: 35 :: [], ?_, fun h => ?_, by simp⟩
    · simp only [nulFree_append, hz, true_and]
      decide
    · have hline := ((hplain h).newline (t := ascii "  ...") (by decide)).newline
        (t := []) List.not_mem_nil
      rw [← hmore] at hline
      simpa only [List.append_assoc] using hline
  · refine ⟨z ++ 10 :: 35 :: [], ?_, fun h => ?_, by simp⟩
    · simp only [nulFree_append, hz, true_and]
      decide
    · simpa only [List.append_assoc] using (hplain h).newline (t := []) List.not_mem_nil

/-- The text has no NUL. -/
theorem nulFree_headerText (env : Env) (file : CStr) (metaPtr dataPtr : List Pair) :
    NulFree (headerText env file metaPtr dataPtr) := by
  obtain ⟨z, hz, -, heq⟩ := headerText_eq env file metaPtr dataPtr
  have hdecimal : ∀ n : Nat, NulFree (decimal n) := fun n => notMem_decimal (by decide) _
  rw [heq, nulFree_append, nulFree_append]
  refine ⟨⟨?_, hz⟩, by decide⟩
  unfold headerTop
  simp only [nulFree_append, file.2, env.ctime.2, env.hostname.2, hdecimal, and_true]
  decide

/-- **Without an end mark in a name the reader finds the end of the text.** -/
theorem strstr_headerText (hfile : ¬ Marked file) (hhost : ¬ Marked env.hostname)
    (metaPtr dataPtr : List Pair) :
    strstr hdrEnd (headerText env file metaPtr dataPtr) =
      some ((headerText env file metaPtr dataPtr).length - 3) := by
  obtain ⟨z, -, hplain, heq⟩ := headerText_eq env file metaPtr dataPtr
  obtain ⟨pre, tail, hsplit, hpre, htail⟩ := hplain (plain_headerTop hfile hhost _ _)
  rw [heq, hsplit]
  have hown : hdrEnd <+: (pre ++ 35 :: tail ++ hdrEnd).drop (pre ++ 35 :: tail).length := by
    rewrite [List.drop_left]
    exact List.prefix_rfl
  obtain ⟨i, hi, hfound⟩ := exists_strstr hown
  have hlen : (pre ++ 35 :: tail ++ hdrEnd).length - 3 = (pre ++ 35 :: tail).length := by
    rw [List.length_append]
    rfl
  rw [hfound, hlen]
  refine congrArg some (le_antisymm hi (Nat.le_of_not_lt fun hlt => ?_))
  -- an end mark before the last one ends before its last newline
  have hbefore : hdrEnd <:+: pre ++ 35 :: (tail ++ [10, 12]) := by
    have hinit : (pre ++ 35 :: tail ++ hdrEnd).take ((pre ++ 35 :: tail).length + 2) =
        pre ++ 35 :: (tail ++ [10, 12]) := by
      rw [List.take_length_add_append]
      simp [hdrEnd]
    have hlong : i + hdrEnd.length ≤ (pre ++ 35 :: tail).length + 2 := by
      show i + 3 ≤ _
      omega
    exact hinit ▸ infix_take (prefix_of_strstr hfound) hlong
  rcases infix_cut (by decide) hbefore with hmark | hmark
  · exact hpre hmark
  · exact not_infix_line htail (show 10 ∉ [12] by decide) hmark

/-- An end mark in a name stands before the numbers of keys and of meta data. -/
theorem headerText_marked (hmarked : Marked file ∨ Marked env.hostname)
    (metaPtr dataPtr : List Pair) :
    ∃ x y z, headerText env file metaPtr dataPtr = x ++ hdrEnd ++ y ++ 35 :: ascii " nkeys:" ++
      32 :: (decimal dataPtr.length ++ [10] ++ 35 :: ascii " nmeta:") ++
      32 :: (decimal metaPtr.length ++ [10] ++ 35 :: ascii " meta:") ++ z := by
  obtain ⟨z, -, -, heq⟩ := headerText_eq env file metaPtr dataPtr
  rw [heq, headerTop_eq]
  rcases hmarked with ⟨x, y, hmark⟩ | ⟨x, y, hmark⟩
  · refine ⟨ascii "!av" ++ 10 :: 35 :: ascii " ident: $Id$" ++ 10 :: 35 ::
      ascii " file: " ++ 32 :: x,
      y ++ 35 :: ascii " built:" ++ 32 :: (env.ctime.1 ++ 35 :: ascii " host: ") ++
        32 :: (env.hostname.1 ++ [10]), z ++ hdrEnd, ?_⟩
    rw [← hmark]
    simp only [List.append_assoc, List.cons_append]
  · refine ⟨ascii "!av" ++ 10 :: 35 :: ascii " ident: $Id$" ++ 10 :: 35 :: ascii " file: " ++
        32 :: (file.1 ++ [10] ++ 35 :: ascii " built:") ++
        32 :: (env.ctime.1 ++ 35 :: ascii " host: ") ++ 32 :: x, y, z ++ hdrEnd, ?_⟩
    rw [← hmark]
    simp only [List.append_assoc, List.cons_append]

end Nsdci.AvFile
