import Nsdci.Lib.Search
import Nsdci.Lib.Decimal
import Nsdci.Lib.Word
import Nsdci.Rpc

/-!
# Ranges of sorted records (`brange.c`)

`dci.brange` looks for the records of a file whose key matches a pattern. The records are lines of
one length, sorted by key: the length is that of the first line, and the number of records is the
size of the file, which is an `int`, divided by it.

A division by zero, and a call of `seekAndScan` that does not read a record, are no result here.
`seekAndScan_isSome_iff` says which calls read one.
-/

namespace Nsdci.Brange

open Lib
open Rpc (isSpace)

/-! ## The command -/

/-- The size of the buffers. -/
def bufSize : Nat := 255

/-- `Tcl_Gets`, which returns the number of characters before the end of the line, or -1 at the end
of the file. The characters of the channel are bytes. -/
def tclGets (file : Bytes) : Int :=
  if file = [] then -1 else (file.takeWhile fun c => c ≠ 10 ∧ c ≠ 13).length

/-- The number with that sign and these digits. -/
def signed (sign digits : Bytes) : Int :=
  if sign = [45] then -(digitsValue digits : Int) else digitsValue digits

/-- The sign of a number, if there is one. -/
def signOf (s : Bytes) : Bytes := (s.take 1).filter fun c => c = 43 ∨ c = 45

/-- `%d`, where something stands behind the number. -/
def scanInt (s : Bytes) : Option Int :=
  let sign := signOf s
  let digits := (s.drop sign.length).takeWhile fun c => IsDigit c
  if digits = [] ∨ s.length ≤ sign.length + digits.length then none
  else some (int32 (signed sign digits))

/-- `sscanf(scanbuf, "%s %d", key, val)`. -/
def scanRecord (scanbuf : Bytes) : Option (Bytes × Int) := do
  let text := scanbuf.dropWhile isSpace
  let key := text.takeWhile fun c => !isSpace c && c ≠ 0
  let val ← scanInt ((text.drop key.length).dropWhile isSpace)
  if key = [] then none else some (key, val)

/-- `seekAndScan`. -/
def seekAndScan (file : Bytes) (recSize recNum : Int) : Option (Bytes × Int) :=
  let offset := (recNum - 1) * recSize
  let scanbuf := (file.drop offset.toNat).take recSize.toNat
  if offset < 0 ∨ scanbuf.length < recSize.toNat ∨ bufSize < recSize.toNat then none
  else scanRecord scanbuf

section Command

variable (stringMatch : Bytes → Bytes → Bool) (file pattern : Bytes) (recSize : Int)

/-- `while (1)`, with the turns that `numComp` leaves: the record found, if one is. -/
def search : Nat → Int → Int → Option (Option (Int × Bytes × Int))
  | 0, _, _ => some none
  | n + 1, minRec, maxRec => do
      let curRec := (maxRec + minRec).tdiv 2
      let (key, val) ← seekAndScan file recSize curRec
      if stringMatch key pattern then some (some (curRec, key, val))
      else if maxRec = minRec then some none
      else if strcmp key pattern > 0 then search n minRec (curRec - 1)
      else if strcmp key pattern < 0 then search n (curRec + 1) maxRec
      else some none

/-- The records behind the one found, and what is left of `found`. -/
def scanUp (numRecs : Int) (found : Nat) (curRec : Int) : Option (List (Bytes × Int) × Nat) :=
  if curRec ≤ numRecs then do
    let (key, val) ← seekAndScan file recSize curRec
    if stringMatch key pattern then do
      let (records, left) ← scanUp numRecs found (curRec + 1)
      some ((key, val) :: records, left)
    else some ([], found - 1)
  else some ([], found)
termination_by (numRecs + 1 - curRec).toNat

/-- The records before the one found. -/
def scanDown (found : Nat) (curRec : Int) : Option (List (Bytes × Int)) :=
  if 0 < found ∧ 0 < curRec then do
    let (key, val) ← seekAndScan file recSize curRec
    if stringMatch key pattern then do
      let records ← scanDown found (curRec - 1)
      some ((key, val) :: records)
    else scanDown (found - 1) curRec
  else some []
termination_by (curRec.toNat, found)

/-- `sprintf(buf, "%s %d", key, val)`. -/
def element (record : Bytes × Int) : Bytes := record.1 ++ 32 :: decimal record.2

/-- `brangeCmd`, for a file that is there: the elements of the result. -/
def brangeCmd : Option (List Bytes) := do
  let recSize := tclGets file + 1
  if recSize = 0 then none
  else do
    let numRecs := (int32 file.length).tdiv recSize
    match ← search stringMatch file pattern recSize 65 1 numRecs with
    | none => some []
    | some (curRec, key, val) => do
        let (behind, found) ← scanUp stringMatch file pattern recSize numRecs 1 (curRec + 1)
        let before ← scanDown stringMatch file pattern recSize (found + 1) (curRec - 1)
        some (((key, val) :: (behind ++ before)).map element)

end Command

/-! ## Records -/

/-- White space inside a line. -/
def IsBlank (c : UInt8) : Prop := isSpace c = true ∧ c ≠ 10 ∧ c ≠ 13

/-- A record: a key and the text of an `int`, with white space between them and before them; behind
the number may stand anything. -/
structure Record where
  front : Bytes
  key : Bytes
  between : Bytes
  sign : Bytes
  digits : Bytes
  back : Bytes
  front_blank : ∀ c ∈ front, IsBlank c
  key_ne : key ≠ []
  key_plain : ∀ c ∈ key, isSpace c = false ∧ c ≠ 0
  between_ne : between ≠ []
  between_blank : ∀ c ∈ between, IsBlank c
  sign_cases : sign = [] ∨ sign = [43] ∨ sign = [45]
  digits_ne : digits ≠ []
  digits_digit : ∀ c ∈ digits, IsDigit c
  back_head : ∀ c ∈ back.head?, ¬IsDigit c
  back_line : ∀ c ∈ back, c ≠ 10 ∧ c ≠ 13
  range : -(2 ^ 31) ≤ signed sign digits ∧ signed sign digits < 2 ^ 31

namespace Record

/-- The value of a record. -/
def val (r : Record) : Int := signed r.sign r.digits

/-- What is read from a record. -/
def pair (r : Record) : Bytes × Int := (r.key, r.val)

/-- The record without the newline. -/
def line (r : Record) : Bytes :=
  r.front ++ (r.key ++ (r.between ++ (r.sign ++ (r.digits ++ r.back))))

/-- The text of a record in the file. -/
def text (r : Record) : Bytes := r.line ++ [10]

end Record

/-- A file of records. -/
def fileOf (records : List Record) : Bytes := records.flatMap Record.text

/-- Records of one length, sorted by key, each shorter than the buffer. -/
structure Sorted (records : List Record) (recSize : Nat) : Prop where
  fixed : ∀ r ∈ records, r.text.length = recSize
  short : recSize < bufSize
  sorted : records.Pairwise fun r r' => strcmp r.key r'.key ≤ 0

/-! ## Reading a record -/

theorem takeWhile_append_cons {p : UInt8 → Bool} {s : Bytes} (hs : ∀ c ∈ s, p c = true) {c : UInt8}
    (hc : p c = false) (rest : Bytes) : (s ++ c :: rest).takeWhile p = s := by
  rw [List.takeWhile_append_of_pos hs, List.takeWhile_cons_of_neg (by rw [hc]; simp),
    List.append_nil]

theorem dropWhile_append_cons {p : UInt8 → Bool} {s : Bytes} (hs : ∀ c ∈ s, p c = true) {c : UInt8}
    (hc : p c = false) (rest : Bytes) : (s ++ c :: rest).dropWhile p = c :: rest := by
  rw [List.dropWhile_append_of_pos hs, List.dropWhile_cons_of_neg (by rw [hc]; simp)]

theorem signOf_append {sign : Bytes} (hsign : sign = [] ∨ sign = [43] ∨ sign = [45]) {c : UInt8}
    (hc : IsDigit c) (rest : Bytes) : signOf (sign ++ c :: rest) = sign := by
  have hplus : c ≠ 43 := by
    rintro rfl
    exact absurd hc (by decide)
  have hminus : c ≠ 45 := by
    rintro rfl
    exact absurd hc (by decide)
  obtain rfl | rfl | rfl := hsign
  · show List.filter _ [c] = []
    rw [List.filter_cons_of_neg (by simp [hplus, hminus])]
    rfl
  · rfl
  · rfl

/-- The number of a record is read, whatever stands behind it. -/
theorem scanInt_append (r : Record) {c : UInt8} (hc : ¬IsDigit c) (rest : Bytes) :
    scanInt (r.sign ++ (r.digits ++ c :: rest)) = some r.val := by
  obtain ⟨d, digits, hdigits⟩ := List.exists_cons_of_ne_nil r.digits_ne
  have hd : IsDigit d := r.digits_digit d (by rw [hdigits]; exact List.mem_cons_self)
  have hsign : signOf (r.sign ++ (r.digits ++ c :: rest)) = r.sign := by
    rw [hdigits]
    exact signOf_append r.sign_cases hd _
  have htake : (r.digits ++ c :: rest).takeWhile (fun c => decide (IsDigit c)) = r.digits :=
    takeWhile_append_cons (fun b hb => decide_eq_true (r.digits_digit b hb))
      (decide_eq_false hc) rest
  simp only [scanInt, hsign, List.drop_left, htake]
  rw [if_neg, int32_of_range r.range.1 r.range.2]
  · rfl
  · rintro (hnil | hlen)
    · exact r.digits_ne hnil
    · simp only [List.length_append, List.length_cons] at hlen
      omega

theorem isSpace_of_isDigit {c : UInt8} (h : IsDigit c) : isSpace c = false := by
  obtain ⟨hlo, hhi⟩ := h
  unfold isSpace
  have hne : c ≠ 32 := by
    rintro rfl
    exact absurd hlo (by decide)
  have hgt : ¬c ≤ 13 := by
    intro hle
    have hnat : c.toNat ≤ 13 := UInt8.le_iff_toNat_le.mp hle
    omega
  simp [hne, hgt]

/-- The first character of a number is not white. -/
theorem Record.number_head (r : Record) (rest : Bytes) :
    ∃ c tail, r.sign ++ (r.digits ++ rest) = c :: tail ∧ isSpace c = false := by
  obtain ⟨d, digits, hdigits⟩ := List.exists_cons_of_ne_nil r.digits_ne
  have hd : IsDigit d := r.digits_digit d (by rw [hdigits]; exact List.mem_cons_self)
  rw [hdigits]
  obtain hsign | hsign | hsign := r.sign_cases
  · exact ⟨d, digits ++ rest, by rw [hsign]; rfl, isSpace_of_isDigit hd⟩
  · exact ⟨43, d :: (digits ++ rest), by rw [hsign]; rfl, rfl⟩
  · exact ⟨45, d :: (digits ++ rest), by rw [hsign]; rfl, rfl⟩

/-- A record is read as its key and its value. -/
theorem scanRecord_text (r : Record) : scanRecord r.text = some r.pair := by
  obtain ⟨k, key, hkey⟩ := List.exists_cons_of_ne_nil r.key_ne
  obtain ⟨b, between, hbetween⟩ := List.exists_cons_of_ne_nil r.between_ne
  have hk : isSpace k = false := (r.key_plain k (by rw [hkey]; exact List.mem_cons_self)).1
  have hb : isSpace b = true := (r.between_blank b (by rw [hbetween]; exact List.mem_cons_self)).1
  obtain ⟨c, rest, hback, hc⟩ : ∃ c rest, r.back ++ [10] = c :: rest ∧ ¬IsDigit c := by
    cases hback : r.back with
    | nil => exact ⟨10, [], rfl, by decide⟩
    | cons c back => exact ⟨c, back ++ [10], rfl, r.back_head c (by rw [hback]; rfl)⟩
  have htext : r.text =
      r.front ++ (r.key ++ (r.between ++ (r.sign ++ (r.digits ++ c :: rest)))) := by
    rw [Record.text, Record.line, ← hback]
    simp
  have hfront : r.text.dropWhile isSpace =
      r.key ++ (r.between ++ (r.sign ++ (r.digits ++ c :: rest))) := by
    rw [htext, hkey]
    exact dropWhile_append_cons (fun d hd => (r.front_blank d hd).1) hk _
  have htake : (r.key ++ (r.between ++ (r.sign ++ (r.digits ++ c :: rest)))).takeWhile
      (fun c => !isSpace c && c ≠ 0) = r.key := by
    rw [hbetween]
    refine takeWhile_append_cons (fun d hd => ?_) (by simp [hb]) _
    obtain ⟨hspace, hnul⟩ := r.key_plain d hd
    simp [hspace, hnul]
  have hskip : (r.between ++ (r.sign ++ (r.digits ++ c :: rest))).dropWhile isSpace =
      r.sign ++ (r.digits ++ c :: rest) := by
    obtain ⟨n, tail, htail, hn⟩ := r.number_head (c :: rest)
    rw [htail]
    exact dropWhile_append_cons (fun d hd => (r.between_blank d hd).1) hn _
  simp only [scanRecord, hfront, htake, List.drop_left, hskip, scanInt_append r hc]
  exact if_neg r.key_ne

/-! ## Reading the file -/

/-- The line ends with the record. -/
theorem Record.line_plain (r : Record) : ∀ c ∈ r.line, c ≠ 10 ∧ c ≠ 13 := by
  intro c hc
  simp only [Record.line, List.mem_append] at hc
  have hspace (h : isSpace c = false) : c ≠ 10 ∧ c ≠ 13 := by
    constructor
    · rintro rfl
      exact absurd h (by decide)
    · rintro rfl
      exact absurd h (by decide)
  obtain hc | hc | hc | hc | hc | hc := hc
  · exact (r.front_blank c hc).2
  · exact hspace (r.key_plain c hc).1
  · exact (r.between_blank c hc).2
  · obtain hsign | hsign | hsign := r.sign_cases
    · exact absurd hc (by rw [hsign]; exact List.not_mem_nil)
    · obtain rfl := List.mem_singleton.mp (hsign ▸ hc)
      exact hspace rfl
    · obtain rfl := List.mem_singleton.mp (hsign ▸ hc)
      exact hspace rfl
  · exact hspace (isSpace_of_isDigit (r.digits_digit c hc))
  · exact r.back_line c hc

theorem length_fileOf {records : List Record} {recSize : Nat}
    (h : ∀ r ∈ records, r.text.length = recSize) :
    (fileOf records).length = records.length * recSize := by
  induction records with
  | nil => exact (Nat.zero_mul recSize).symm
  | cons r records ih =>
      obtain ⟨hr, hrecords⟩ := List.forall_mem_cons.mp h
      rw [fileOf, List.flatMap_cons, List.length_append, hr, List.length_cons, Nat.add_mul,
        Nat.one_mul, Nat.add_comm]
      exact congrArg (· + recSize) (ih hrecords)

/-- The size of a record is that of the first line. -/
theorem tclGets_fileOf {records : List Record} {recSize : Nat} (h : Sorted records recSize)
    (hne : records ≠ []) : tclGets (fileOf records) + 1 = recSize := by
  obtain ⟨r, rest, rfl⟩ := List.exists_cons_of_ne_nil hne
  have hfile : fileOf (r :: rest) = r.line ++ 10 :: fileOf rest := by
    rw [fileOf, List.flatMap_cons, Record.text, List.append_assoc]
    rfl
  have htake : (r.line ++ 10 :: fileOf rest).takeWhile (fun c => c ≠ 10 ∧ c ≠ 13) = r.line :=
    takeWhile_append_cons (fun c hc => decide_eq_true (r.line_plain c hc)) (by decide) _
  have hlen : r.line.length + 1 = recSize := by
    rw [← h.fixed r List.mem_cons_self, Record.text, List.length_append]
    rfl
  rw [tclGets, hfile, if_neg (List.append_ne_nil_of_right_ne_nil _ (List.cons_ne_nil _ _)), htake]
  omega

theorem recSize_pos {records : List Record} {recSize : Nat} (h : Sorted records recSize)
    (hne : records ≠ []) : 0 < recSize := by
  obtain ⟨r, rest, rfl⟩ := List.exists_cons_of_ne_nil hne
  rw [← h.fixed r List.mem_cons_self, Record.text, List.length_append]
  exact Nat.succ_pos _

/-- The command takes the file for one with records. -/
theorem recSize_ne {records : List Record} {recSize : Nat} (h : Sorted records recSize)
    (hne : records ≠ []) : (recSize : Int) ≠ 0 :=
  Int.natCast_ne_zero.mpr (recSize_pos h hne).ne'

/-- A record is read under its number. -/
theorem seekAndScan_get {front back : List Record} {r : Record} {recSize : Nat}
    (h : Sorted (front ++ r :: back) recSize) :
    seekAndScan (fileOf (front ++ r :: back)) recSize (front.length + 1) = some r.pair := by
  have hfront : (fileOf front).length = front.length * recSize :=
    length_fileOf fun r' hr' => h.fixed r' (List.mem_append_left _ hr')
  have hr : r.text.length = recSize :=
    h.fixed r (List.mem_append_right _ List.mem_cons_self)
  have hoffset : ((front.length + 1 : Int) - 1) * recSize =
      ((front.length * recSize : Nat) : Int) := by
    rw [Int.add_sub_cancel, Int.natCast_mul]
  have hread : ((fileOf (front ++ r :: back)).drop (front.length * recSize)).take recSize =
      r.text := by
    rw [fileOf, List.flatMap_append, ← hfront, List.flatMap_cons]
    show List.take _ (List.drop (fileOf front).length (fileOf front ++ _)) = _
    rw [List.drop_left, ← hr, List.take_left]
  unfold seekAndScan
  dsimp only
  rw [hoffset, Int.toNat_natCast, Int.toNat_natCast, hread, if_neg, scanRecord_text]
  have hshort := h.short
  omega

/-- **A call of `seekAndScan` reads a record exactly if its number is that of one.** -/
theorem seekAndScan_isSome_iff {records : List Record} {recSize : Nat} (h : Sorted records recSize)
    (recNum : Int) :
    (seekAndScan (fileOf records) recSize recNum).isSome ↔
      1 ≤ recNum ∧ recNum ≤ records.length := by
  obtain rfl | hne := eq_or_ne records []
  · refine iff_of_false ?_ fun hnum => absurd (hnum.1.trans hnum.2) (by decide)
    have hread : seekAndScan (fileOf []) recSize recNum = none := by
      simp [seekAndScan, fileOf, show scanRecord [] = none from rfl]
    rw [hread]
    exact Bool.false_ne_true
  have hpos := recSize_pos h hne
  constructor
  · intro hsome
    unfold seekAndScan at hsome
    dsimp only at hsome
    split_ifs at hsome with hout
    · exact absurd hsome (by simp)
    · push Not at hout
      obtain ⟨hoffset, hread, -⟩ := hout
      have hlo : 0 ≤ recNum - 1 := nonneg_of_mul_nonneg_left hoffset (by omega)
      obtain ⟨n, hn⟩ := Int.eq_ofNat_of_zero_le hlo
      refine ⟨by omega, ?_⟩
      rw [hn, ← Int.natCast_mul, Int.toNat_natCast, Int.toNat_natCast, List.length_take,
        List.length_drop, length_fileOf h.fixed] at hread
      have hlt : n < records.length := by
        by_contra hge
        have hle := Nat.mul_le_mul_right recSize (Nat.le_of_not_lt hge)
        omega
      omega
  · rintro ⟨hlo, hhi⟩
    obtain ⟨n, rfl⟩ : ∃ n : Nat, recNum = n + 1 := ⟨(recNum - 1).toNat, by omega⟩
    have hlt : n < records.length := by omega
    obtain ⟨front, r, back, rfl, rfl⟩ : ∃ front r back,
        records = front ++ r :: back ∧ front.length = n := by
      refine ⟨records.take n, records[n], records.drop (n + 1), ?_, ?_⟩
      · rw [← List.drop_eq_getElem_cons hlt, List.take_append_drop]
      · exact List.length_take_of_le (Nat.le_of_lt hlt)
    rw [seekAndScan_get h]
    rfl

end Nsdci.Brange
