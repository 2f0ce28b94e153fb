import Nsdci.Lib.Numeral
import Nsdci.Lib.Word
import Nsdci.TclList

/-!
# The files of a queue (`quefile.c`)

A file of a queue has its major and its minor number in its name (`qfFormat`). `Dci_QfGetAllCmd`
takes the names of the right length from the directory (`qfFileOk`) and sorts them, and
`Dci_QfGetFirstCmd` looks for the smallest major.

The numbers are padded with zeros, so the names are in the order of the numbers as long as these
fit. A minor number from 1000 on does not, and its file is not taken for one of the queue.
-/

namespace Nsdci.Qf

open Lib

/-- `%.10d` and the like: the digits, with zeros before them. -/
def precision (p : Nat) (x : Int) : Bytes :=
  if x < 0 then 45 :: padded p x.natAbs else padded p x.natAbs

/-- The name of a file: `QF_FORMAT`. -/
def qfFormat (major minor : Int) : Bytes := 113 :: precision 10 major ++ 46 :: precision 3 minor

/-- `QF_FILE_OK`, with `QF_LEN` and `QF_DOT`. -/
def qfFileOk (file : Bytes) : Bool := file[0]? = some 113 && file.length = 15 && file[11]? = some 46

/-- `INT_MAX`. -/
def intMax : Int := 2147483647

/-- `strtol` for a decimal number. -/
def strtol (s : Bytes) : Int :=
  match s.dropWhile isListSpace with
  | 45 :: ds => -digitsValue (ds.takeWhile fun c => 48 ≤ c.toNat ∧ c.toNat < 58)
  | 43 :: ds => digitsValue (ds.takeWhile fun c => 48 ≤ c.toNat ∧ c.toNat < 58)
  | ds => digitsValue (ds.takeWhile fun c => 48 ≤ c.toNat ∧ c.toNat < 58)

/-- The entries that `Dci_QfGetAllCmd` takes: files of the queue, with `current` in the range. -/
def qfTaken (start stop : Option Int) (file : Bytes) : Bool :=
  let current := int32 (strtol (file.drop 1))
  qfFileOk file && (start.getD 0 ≤ current && current ≤ stop.getD intMax)

/-- `Dci_QfGetAllCmd`, for a directory with these entries. -/
def qfGetAllCmd (qsort : QSort Bytes strcmp) (ents : List Bytes) (start stop : Option Int) :
    List Bytes :=
  qsort.sort (ents.filter (qfTaken start stop))

/-- The loop of `Dci_QfGetFirstCmd`. -/
def firstLoop (first : Int) (nfiles : Nat) : List Bytes → Int × Nat
  | [] => (first, nfiles)
  | file :: ents =>
      if qfFileOk file then
        let current := strtol (file.drop 1)
        firstLoop (if current < first then current else first) (nfiles + 1) ents
      else firstLoop first nfiles ents

/-- `Dci_QfGetFirstCmd`, for a directory with these entries. -/
def qfGetFirstCmd (ents : List Bytes) : Int :=
  let loop := firstLoop intMax 0 ents
  if loop.2 ≠ 0 then loop.1 else -1

/-- The loop counts the files and goes down to the smallest major. -/
theorem firstLoop_spec (ents : List Bytes) (first : Int) (nfiles : Nat) :
    (firstLoop first nfiles ents).2 = nfiles + (ents.filter qfFileOk).length ∧
      (firstLoop first nfiles ents).1 ≤ first ∧
      (∀ file ∈ ents.filter qfFileOk,
        (firstLoop first nfiles ents).1 ≤ strtol (file.drop 1)) ∧
      ((firstLoop first nfiles ents).1 = first ∨
        ∃ file ∈ ents.filter qfFileOk, (firstLoop first nfiles ents).1 = strtol (file.drop 1)) := by
  induction ents generalizing first nfiles with
  | nil => exact ⟨rfl, le_refl _, fun _ h => absurd h List.not_mem_nil, Or.inl rfl⟩
  | cons file ents ih =>
      by_cases hok : qfFileOk file = true
      · rw [firstLoop, if_pos hok, List.filter_cons_of_pos hok]
        dsimp only
        obtain ⟨hcount, hle, hall, hsome⟩ :=
          ih (if strtol (file.drop 1) < first then strtol (file.drop 1) else first) (nfiles + 1)
        have hmin : (if strtol (file.drop 1) < first then strtol (file.drop 1) else first) =
            min (strtol (file.drop 1)) first := by
          rw [min_def]
          split_ifs <;> omega
        refine ⟨by rw [hcount, List.length_cons]; omega, by omega, ?_, ?_⟩
        · intro file' hfile'
          rcases List.mem_cons.mp hfile' with rfl | hrest
          · omega
          · exact hall file' hrest
        · rcases hsome with heq | ⟨file', hfile', heq⟩
          · rw [heq]
            split_ifs
            · exact Or.inr ⟨file, List.mem_cons_self, rfl⟩
            · exact Or.inl rfl
          · exact Or.inr ⟨file', List.mem_cons_of_mem _ hfile', heq⟩
      · rw [firstLoop, if_neg hok, List.filter_cons_of_neg hok]
        exact ih first nfiles

/-! ## Names -/

/-- The numbers of a file. The minor number is an `int` that is counted up. -/
structure Number where
  major : Nat
  minor : Int
  major_lt : major < 2 ^ 31
  minor_range : -(2 ^ 31) ≤ minor ∧ minor < 2 ^ 31

/-- The name of a file with these numbers. -/
def Number.name (x : Number) : Bytes := qfFormat x.major x.minor

theorem precision_natCast (p n : Nat) : precision p n = padded p n := by
  rw [precision, if_neg (by omega), Int.natAbs_natCast]

theorem Number.name_eq (x : Number) :
    x.name = ([113] ++ padded 10 x.major) ++ 46 :: precision 3 x.minor := by
  rw [Number.name, qfFormat, precision_natCast]
  rfl

theorem length_major (x : Number) : ([113] ++ padded 10 x.major).length = 11 := by
  have hmajor : (padded 10 x.major).length = 10 :=
    (length_padded (by omega)).mpr (by have := x.major_lt; omega)
  rw [List.length_append, hmajor]
  rfl

/-- A number has three places as long as it is not negative and less than 1000. -/
theorem length_precision (n : Int) : (precision 3 n).length = 3 ↔ 0 ≤ n ∧ n < 1000 := by
  unfold precision
  split_ifs with hneg
  · have hge := length_padded_ge 3 n.natAbs
    rw [List.length_cons]
    exact ⟨fun h => by omega, fun h => by omega⟩
  · rw [length_padded (by omega)]
    omega

/-- The name has the right length as long as the minor number has three places. -/
theorem qfFileOk_name (x : Number) : qfFileOk x.name = true ↔ 0 ≤ x.minor ∧ x.minor < 1000 := by
  have hlen := length_major x
  have hdot : x.name[11]? = some 46 := by
    rw [x.name_eq, List.getElem?_append_right hlen.le, hlen]
    rfl
  have hq : x.name[0]? = some 113 := rfl
  have hname : x.name.length = 12 + (precision 3 x.minor).length := by
    rw [x.name_eq, List.length_append, hlen, List.length_cons]
    omega
  rw [qfFileOk, hdot, hq, hname, ← length_precision]
  simp only [decide_true, Bool.true_and, Bool.and_true, decide_eq_true_eq]
  omega

/-- The major number is read back. -/
theorem strtol_name (x : Number) : strtol (x.name.drop 1) = x.major := by
  have hdrop : x.name.drop 1 = padded 10 x.major ++ 46 :: precision 3 x.minor := by
    rw [x.name_eq]
    rfl
  have hdigit : ∀ c ∈ padded 10 x.major, IsDigit c := fun c => isDigit_of_mem_padded
  have htake : (padded 10 x.major ++ 46 :: precision 3 x.minor).takeWhile
      (fun c => decide (48 ≤ c.toNat ∧ c.toNat < 58)) = padded 10 x.major := by
    rw [List.takeWhile_append_of_pos]
    · exact List.append_nil _
    · exact fun c hc => decide_eq_true (hdigit c hc)
  have hcons : ∃ c ds, padded 10 x.major ++ 46 :: precision 3 x.minor = c :: ds ∧ IsDigit c := by
    have hlen := length_major x
    match hpad : padded 10 x.major with
    | [] =>
        rw [hpad] at hlen
        exact absurd hlen (by simp)
    | c :: ds => exact ⟨c, _, rfl, hdigit c (hpad ▸ List.mem_cons_self)⟩
  obtain ⟨c, ds, heq, hc⟩ := hcons
  -- a digit is no white space and no sign
  have hspace : isListSpace c = false := by
    unfold IsDigit at hc
    unfold isListSpace
    have hne : ∀ b : UInt8, b.toNat < 48 → c ≠ b := by
      rintro b hb rfl
      omega
    have hgt : ¬ c ≤ 13 := by
      rw [UInt8.le_iff_toNat_le]
      exact fun h => absurd hc.1 (by have : (13 : UInt8).toNat = 13 := rfl; omega)
    simp [hne 32 (by decide), hgt]
  rw [hdrop, strtol, heq, List.dropWhile_cons_of_neg (by simp [hspace]), ← heq]
  split
  · next h =>
      rw [heq] at h
      obtain ⟨rfl, -⟩ := List.cons.inj h
      exact absurd hc (by unfold IsDigit; decide)
  · next h =>
      rw [heq] at h
      obtain ⟨rfl, -⟩ := List.cons.inj h
      exact absurd hc (by unfold IsDigit; decide)
  · rw [htake, digitsValue_padded]

theorem padded_inj {width m n : Nat} (h : padded width m = padded width n) : m = n := by
  rw [← digitsValue_padded width m, h, digitsValue_padded]

theorem precision_inj {p : Nat} {m n : Int} (h : precision p m = precision p n) : m = n := by
  have hsign : ∀ k ds, padded p k ≠ 45 :: ds := by
    intro k ds hk
    have hmem : (45 : UInt8) ∈ padded p k := hk ▸ List.mem_cons_self
    have hc := isDigit_of_mem_padded hmem
    exact absurd hc (by unfold IsDigit; decide)
  unfold precision at h
  split_ifs at h with hm hn hn
  · have := padded_inj (List.cons.inj h).2
    omega
  · exact absurd h.symm (hsign _ _)
  · exact absurd h (hsign _ _)
  · have := padded_inj h
    omega

/-- Different files have different names. -/
theorem name_inj {x y : Number} (h : x.name = y.name) : x.major = y.major ∧ x.minor = y.minor := by
  rw [x.name_eq, y.name_eq] at h
  obtain ⟨hmajor, hminor⟩ := List.append_inj h ((length_major x).trans (length_major y).symm)
  exact ⟨padded_inj (List.append_cancel_left hmajor), precision_inj (List.cons.inj hminor).2⟩

/-- **Names that fit are in the order of the numbers.** -/
theorem strcmp_name {x y : Number} (hx : 0 ≤ x.minor ∧ x.minor < 1000)
    (hy : 0 ≤ y.minor ∧ y.minor < 1000) :
    strcmp x.name y.name < 0 ↔ x.major < y.major ∨ x.major = y.major ∧ x.minor < y.minor := by
  have hlenx := length_major x
  have hleny := length_major y
  have hdigits : ∀ {p n : Nat}, ∀ c ∈ padded p n, IsDigit c := fun c => isDigit_of_mem_padded
  have hminor : ∀ {n : Int}, 0 ≤ n → precision 3 n = padded 3 n.toNat := by
    intro n hn
    rw [← precision_natCast, Int.toNat_of_nonneg hn]
  rw [x.name_eq, y.name_eq, strcmp_append (hlenx.trans hleny.symm)]
  split_ifs with heq
  · -- the majors are equal
    have hmajor := padded_inj (List.append_cancel_left heq)
    have hlen3 : ∀ {n : Int}, 0 ≤ n → n < 1000 → (padded 3 n.toNat).length = 3 :=
      fun _ _ => (length_padded (by omega)).mpr (by omega)
    have hdot : ∀ s t : Bytes, strcmp (46 :: s) (46 :: t) = strcmp s t := fun s t => if_pos rfl
    rw [hdot, hminor hx.1, hminor hy.1,
      strcmp_digits hdigits hdigits ((hlen3 hx.1 hx.2).trans (hlen3 hy.1 hy.2).symm),
      digitsValue_padded, digitsValue_padded]
    omega
  · have hne : x.major ≠ y.major := fun h => heq (by rw [h])
    have hcons : ∀ s t : Bytes, strcmp ([113] ++ s) ([113] ++ t) = strcmp s t :=
      fun s t => if_pos rfl
    have hlen : (padded 10 x.major).length = (padded 10 y.major).length := by
      rw [List.length_append] at hlenx hleny
      omega
    rw [hcons, strcmp_digits hdigits hdigits hlen, digitsValue_padded, digitsValue_padded]
    omega

end Nsdci.Qf
