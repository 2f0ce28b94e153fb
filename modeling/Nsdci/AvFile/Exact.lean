import Nsdci.AvFile.Marks

/-!
# When an AV file is read back

`avFile_iff` says which lists of pairs, names of the file and hosts give a file that `AvGet` reads
back. With no end mark in a name it depends on the length of the text (`headerLength`), the size of
an `Av`, and whether there are pairs.
-/

namespace Nsdci.AvFile

open Lib

variable {env : Env} {file : CStr} {metaPtr dataPtr : List Pair}

/-! ## The length of the text -/

/-- How many bytes `AppendMeta` shows of a string. -/
def shownLength (str : Bytes) (max : Nat) : Nat :=
  let n := min (min max str.length) (str.takeWhile (· ≠ 10)).length
  if n < str.length then n + 4 else n

/-- The length of the text, from the names, the numbers of pairs and the first of the meta data. -/
def headerLength (env : Env) (file : CStr) (metaPtr dataPtr : List Pair) : Nat :=
  79 + file.1.length + env.ctime.1.length + env.hostname.1.length +
    (decimal dataPtr.length).length + (decimal metaPtr.length).length +
    ((metaPtr.take 10).map fun e => 9 + shownLength e.1.1 20 + shownLength e.2.1 60).sum +
    if 10 < metaPtr.length then 7 else 0

/-- `AppendMeta` appends what it shows in braces. -/
theorem appendMeta_shown (ds str : Bytes) (max : Nat) :
    ∃ shown, appendMeta ds str max = startSublist ds ++ shown ++ [125] ∧
      shown.length = shownLength str max := by
  have hall : (str.takeWhile (· ≠ 10)).length ≤ str.length :=
    (List.takeWhile_prefix _).length_le
  have hdots : (ascii " ...").length = 4 := by decide
  -- the length that the two `if` leave is the smallest of the three
  have hn : (if (str.takeWhile (· ≠ 10)).length < (if max < str.length then max else str.length)
      then (str.takeWhile (· ≠ 10)).length else if max < str.length then max else str.length) =
        min (min max str.length) (str.takeWhile (· ≠ 10)).length := by
    split_ifs <;> omega
  unfold appendMeta shownLength
  dsimp only
  rw [hn]
  split_ifs with hcut
  · refine ⟨str.take (min (min max str.length) (str.takeWhile (· ≠ 10)).length) ++ ascii " ...",
      ?_, ?_⟩
    · simp only [List.append_assoc]
    · rw [List.length_append, List.length_take, hdots]
      omega
  · refine ⟨str.take (min (min max str.length) (str.takeWhile (· ≠ 10)).length), rfl, ?_⟩
    rw [List.length_take]
    omega

/-- A key and its value are on a line. -/
theorem length_metaLine (ds : Bytes) (e : Pair) :
    (appendMeta (appendMeta (ds ++ ascii "\n#  ") e.1.1 20) e.2.1 60).length =
      ds.length + (9 + shownLength e.1.1 20 + shownLength e.2.1 60) := by
  obtain ⟨key, hkey, hkeyLen⟩ := appendMeta_shown (ds ++ ascii "\n#  ") e.1.1 20
  obtain ⟨value, hvalue, hvalueLen⟩ :=
    appendMeta_shown (appendMeta (ds ++ ascii "\n#  ") e.1.1 20) e.2.1 60
  have hstart : startSublist (ds ++ ascii "\n#  ") = ds ++ ascii "\n#  " ++ [123] := by
    have hsplit : ds ++ ascii "\n#  " = ds ++ [10, 35, 32] ++ [32] := by
      rw [List.append_assoc]
      rfl
    unfold startSublist
    rw [hsplit, List.getLast?_concat]
    rfl
  have hnext : startSublist (appendMeta (ds ++ ascii "\n#  ") e.1.1 20) =
      appendMeta (ds ++ ascii "\n#  ") e.1.1 20 ++ [32, 123] := by
    unfold startSublist
    rw [hkey, List.getLast?_concat]
    rfl
  have hline : (ascii "\n#  ").length = 4 := by decide
  rw [hvalue, hnext, hkey, hstart]
  simp only [List.length_append, List.length_cons, List.length_nil, hline]
  omega

/-- The text is as long as that. -/
theorem textLength_eq (env : Env) (file : CStr) (metaPtr dataPtr : List Pair) :
    textLength env file metaPtr dataPtr = headerLength env file metaPtr dataPtr := by
  have hlines : ∀ (l : List Pair) (ds : Bytes),
      (l.foldl (fun ds e => appendMeta (appendMeta (ds ++ ascii "\n#  ") e.1.1 20) e.2.1 60)
        ds).length =
          ds.length + (l.map fun e => 9 + shownLength e.1.1 20 + shownLength e.2.1 60).sum := by
    intro l ds
    induction l generalizing ds with
    | nil => rfl
    | cons e l ih =>
        rw [List.foldl_cons, ih, length_metaLine, List.map_cons, List.sum_cons, Nat.add_assoc]
  have htop : (headerTop env file metaPtr.length dataPtr.length).length =
      74 + file.1.length + env.ctime.1.length + env.hostname.1.length +
        (decimal dataPtr.length).length + (decimal metaPtr.length).length := by
    simp [headerTop, ascii]
    omega
  have hmore : (ascii "\n#  ...").length = 7 := by decide
  have hend : (ascii "\n#\n").length = 3 := by decide
  unfold textLength headerText headerLength
  dsimp only
  rw [List.length_append, List.length_append, hend]
  split_ifs
  · rw [List.length_append, hlines, htop, hmore]
    simp only [List.length_cons, List.length_nil]
    omega
  · rw [hlines, htop]
    simp only [List.length_cons, List.length_nil]
    omega

/-! ## The condition -/

/-- Without an end mark in a name, the first multiple of 8 behind the beginning of the end mark is
the one behind the text and the size of an `Av`, or there are no pairs and it is where the padding
begins. With one, there are no pairs and the reader begins at -1. -/
def Readable (env : Env) (file : CStr) (metaPtr dataPtr : List Pair) : Prop :=
  let n := headerLength env file metaPtr dataPtr
  (¬ Marked file ∧ ¬ Marked env.hostname ∧
      ((n - 3) / 8 = max n env.sizeofAv / 8 ∨
        metaPtr = [] ∧ dataPtr = [] ∧ max n env.sizeofAv % 8 = 0 ∧ max n env.sizeofAv < n + 6)) ∨
    (Marked file ∨ Marked env.hostname) ∧
      metaPtr = [] ∧ dataPtr = [] ∧ ReadsMinusOne env file metaPtr dataPtr

/-- The file of two sorted lists is read back if and only if it is readable. -/
theorem written_roundTrip (hlen : fileLength env file metaPtr dataPtr < 2 ^ 31)
    (hmeta : metaPtr.Pairwise fun a b => cmpElem a b ≤ 0)
    (hdata : dataPtr.Pairwise fun a b => cmpElem a b ≤ 0) :
    (∀ junk, RoundTrip env (written env junk file metaPtr dataPtr) metaPtr dataPtr) ↔
      Readable env file metaPtr dataPtr := by
  unfold Readable
  rw [← textLength_eq]
  dsimp only
  by_cases hmarked : Marked file ∨ Marked env.hostname
  · rw [marked_iff hlen hmarked]
    have hboth : ¬ (¬ Marked file ∧ ¬ Marked env.hostname) := fun h => hmarked.elim h.1 h.2
    exact ⟨fun h => Or.inr ⟨hmarked, h⟩,
      fun h => h.elim (fun h => absurd ⟨h.1, h.2.1⟩ hboth) fun h => h.2⟩
  · obtain ⟨hfile, hhost⟩ := not_or.mp hmarked
    rw [unmarked_iff hlen hmeta hdata hfile hhost]
    exact ⟨fun h => Or.inl ⟨hfile, hhost, h⟩,
      fun h => h.elim (fun h => h.2.2) fun h => absurd h.1 hmarked⟩

/-- `Dci_ListInit` sorts the pairs by their keys. -/
theorem listInit_spec {splitList : Bytes → Option (List CStr)} {qsort : QSort Pair cmpElem}
    {list : Bytes} {l : List Pair} (h : listInit splitList qsort list = some l) :
    ∃ strs, splitList list = some strs ∧ strs.length % 2 ≠ 1 ∧ l.Perm (pairsOf strs) ∧
      l.Pairwise fun a b => cmpElem a b ≤ 0 := by
  obtain ⟨strs, hstrs, h⟩ := Option.bind_eq_some_iff.mp h
  split_ifs at h with hodd
  obtain rfl := Option.some.inj h
  exact ⟨strs, hstrs, hodd, qsort.perm _, qsort.sorted _⟩

/-- `AvCreateCmd` writes the file of the two lists. -/
theorem avCreateCmd_eq {splitList : Bytes → Option (List CStr)} {qsort : QSort Pair cmpElem}
    {data : Bytes} {metastr : Option Bytes} (hdata : listInit splitList qsort data = some dataPtr)
    (hmeta : listInit splitList qsort (metastr.getD []) = some metaPtr)
    (hlen : fileLength env file metaPtr dataPtr < 2 ^ 31) (junk : Nat → UInt8) :
    avCreateCmd env junk splitList qsort file data metastr =
      some (written env junk file metaPtr dataPtr) := by
  rw [avCreateCmd, hdata, Option.bind_some, hmeta, Option.bind_some, if_pos hlen]

/-- **`AvGet` reads the file of `AvCreateCmd` back if and only if it is readable.** -/
theorem avFile_iff {splitList : Bytes → Option (List CStr)} {qsort : QSort Pair cmpElem}
    {data : Bytes} {metastr : Option Bytes} (hdata : listInit splitList qsort data = some dataPtr)
    (hmeta : listInit splitList qsort (metastr.getD []) = some metaPtr)
    (hlen : fileLength env file metaPtr dataPtr < 2 ^ 31) :
    (∀ junk, ∃ map, avCreateCmd env junk splitList qsort file data metastr = some map ∧
        RoundTrip env map metaPtr dataPtr) ↔
      Readable env file metaPtr dataPtr := by
  obtain ⟨-, -, -, -, hdataSorted⟩ := listInit_spec hdata
  obtain ⟨-, -, -, -, hmetaSorted⟩ := listInit_spec hmeta
  have hcreate := avCreateCmd_eq hdata hmeta hlen
  rw [← written_roundTrip hlen hmetaSorted hdataSorted]
  constructor
  · intro h junk
    obtain ⟨map, hmap, hread⟩ := h junk
    rw [hcreate] at hmap
    exact Option.some.inj hmap ▸ hread
  · exact fun h junk => ⟨_, hcreate junk, h junk⟩

/-! ## Two files of one pair -/

/-- A little-endian host, where an `Av` has 116 bytes. -/
def littleEnv : Env where
  host := .little
  sizeofAv := 116
  hostname := ⟨ascii "h", by decide⟩
  ctime := ⟨ascii "Thu Jan  1 00:00:00 1970\n", by decide⟩
  ctime_noFeed := by decide

/-- A `qsort` for pairs. -/
def byKey : QSort Pair cmpElem :=
  QSort.insertion (fun _ _ => strcmp_total _ _) fun _ _ _ => strcmp_trans

/-- A `Tcl_SplitList`. -/
def splitSimple (list : Bytes) : Option (List CStr) :=
  (TclList.simple.splitList list).map fun strs => strs.map toCStr

/-- A name of 13 bytes. -/
def shortName : CStr := ⟨ascii "/web/nsv/t.av", by decide⟩

/-- A name of 16 bytes. -/
def longName : CStr := ⟨ascii "/web/nsv/test.av", by decide⟩

/-- The pair `color red`. -/
def pairColor : Pair := (⟨ascii "color", by decide⟩, ⟨ascii "red", by decide⟩)

/-- A name without a form feed has no end mark. -/
theorem not_marked {s : CStr} (h : 12 ∉ s.1) : ¬ Marked s := by
  refine not_infix_of_notMem (c := 12) (by decide) fun hmem => ?_
  rcases List.mem_append.mp hmem with hmem | hmem
  · exact h hmem
  · exact absurd hmem (by decide)

/-- The pair as a list, and no meta data. -/
theorem listInit_color : listInit splitSimple byKey (ascii "color red") = some [pairColor] ∧
    listInit splitSimple byKey ((none : Option Bytes).getD []) = some [] := by
  decide

/-- A text of 123 bytes. -/
theorem avFile_color : listInit splitSimple byKey (ascii "color red") = some [pairColor] ∧
    ∀ junk, ∃ map,
      avCreateCmd littleEnv junk splitSimple byKey longName (ascii "color red") none = some map ∧
        RoundTrip littleEnv map [] [pairColor] := by
  refine ⟨listInit_color.1, ?_⟩
  refine (avFile_iff listInit_color.1 listInit_color.2 (by decide +kernel)).mpr ?_
  exact Or.inl ⟨not_marked (by decide), not_marked (by decide), Or.inl (by decide)⟩

/-- A text of 120 bytes: the reader begins at the zeros behind it. -/
theorem avFile_lost : listInit splitSimple byKey (ascii "color red") = some [pairColor] ∧
    listInit splitSimple byKey ((none : Option Bytes).getD []) = some [] ∧
    ¬ ∀ junk, ∃ map,
      avCreateCmd littleEnv junk splitSimple byKey shortName (ascii "color red") none = some map ∧
        RoundTrip littleEnv map [] [pairColor] := by
  refine ⟨listInit_color.1, listInit_color.2, fun h => ?_⟩
  have hlen : fileLength littleEnv shortName [] [pairColor] < 2 ^ 31 := by
    decide +kernel
  have hread : Readable littleEnv shortName [] [pairColor] := by
    refine (written_roundTrip hlen List.Pairwise.nil (List.pairwise_singleton _ _)).mp fun junk =>
      ?_
    obtain ⟨map, hmap, hround⟩ := h junk
    rw [avCreateCmd_eq listInit_color.1 listInit_color.2 hlen] at hmap
    obtain rfl := Option.some.inj hmap
    exact hround
  have hname : ¬ (Marked shortName ∨ Marked littleEnv.hostname) :=
    not_or.mpr ⟨not_marked (by decide), not_marked (by decide)⟩
  rcases hread with ⟨-, -, hread | ⟨-, hnil, -⟩⟩ | ⟨hmarked, -⟩
  · exact absurd hread (by decide)
  · exact absurd hnil (by decide)
  · exact hname hmarked

end Nsdci.AvFile
