import Nsdci.Brange

/-!
# The search for a range (`brange.c`)

The search halves the records between `minRec` and `maxRec`. The two may cross, when the key looked
for is missing: then the search turns on the spot until `numComp` ends it, unless it is before the
first record, where it calls `seekAndScan` with 0.

`brange_iff` says when `dci.brange` returns the records that match, and that it calls `seekAndScan`
for records only.
-/

namespace Nsdci.Brange

open Lib
open Rpc (isSpace)

/-! ## Patterns -/

/-- A text, or a text and a `*`. The text has no character that is special in a pattern. -/
structure Pattern where
  start : Bytes
  star : Bool
  plain : ∀ c ∈ start, c ≠ 42 ∧ c ≠ 63 ∧ c ≠ 91 ∧ c ≠ 92 ∧ c ≠ 0

namespace Pattern

/-- The pattern as an argument of the command. -/
def text (p : Pattern) : Bytes := if p.star then p.start ++ [42] else p.start

/-- The keys that match. -/
def hits (p : Pattern) (key : Bytes) : Bool :=
  if p.star then p.start.isPrefixOf key else key = p.start

/-- A key before those that match. -/
def Below (p : Pattern) (key : Bytes) : Prop := p.hits key = false ∧ strcmp key p.text < 0

/-- A key behind those that match. -/
def Above (p : Pattern) (key : Bytes) : Prop := p.hits key = false ∧ 0 < strcmp key p.text

theorem hits_text (p : Pattern) : p.hits p.text = true := by
  unfold hits text
  split_ifs with hstar
  · exact List.isPrefixOf_iff_prefix.mpr (List.prefix_append _ _)
  · exact decide_eq_true rfl

/-- A key that does not match compares alike with all that do. -/
theorem strcmp_of_hits {p : Pattern} {a b : Bytes} (ha : p.hits a = false) (hb : p.hits b = true) :
    strcmp a b = strcmp a p.text := by
  unfold hits at ha hb
  unfold text
  split_ifs at ha hb ⊢ with hstar
  · obtain ⟨rest, rfl⟩ := List.isPrefixOf_iff_prefix.mp hb
    refine strcmp_append_of_not_prefix (fun hprefix => ?_) rest [42]
    exact absurd (List.isPrefixOf_iff_prefix.mpr hprefix) (by rw [ha]; simp)
  · rw [of_decide_eq_true hb]

theorem cases (p : Pattern) (key : Bytes) : p.hits key = true ∨ p.Below key ∨ p.Above key := by
  cases hkey : p.hits key with
  | true => exact .inl rfl
  | false =>
      have hne : strcmp key p.text ≠ 0 := by
        intro heq
        rw [(strcmp_eq_zero_iff _ _).mp heq, p.hits_text] at hkey
        exact absurd hkey (by simp)
      obtain hlt | hgt := Int.lt_or_gt_of_ne hne
      · exact .inr (.inl ⟨hkey, hlt⟩)
      · exact .inr (.inr ⟨hkey, hgt⟩)

/-- Keys before one that is too small are too small. -/
theorem Below.of_le {p : Pattern} {a b : Bytes} (h : p.Below b) (hab : strcmp a b ≤ 0) :
    p.Below a := by
  refine ⟨Bool.eq_false_iff.mpr fun ha => ?_, strcmp_lt_of_le_of_lt hab h.2⟩
  have hba : strcmp b a < 0 := (strcmp_of_hits h.1 ha).trans_lt h.2
  have hneg := (strcmp_neg_iff b a).mp hba
  omega

/-- Keys behind one that is too large are too large. -/
theorem Above.of_le {p : Pattern} {a b : Bytes} (h : p.Above a) (hab : strcmp a b ≤ 0) :
    p.Above b := by
  refine ⟨Bool.eq_false_iff.mpr fun hb => ?_, ?_⟩
  · have hba : 0 < strcmp a b := h.2.trans_eq (strcmp_of_hits h.1 hb).symm
    omega
  · exact (strcmp_neg_iff _ _).mp (strcmp_lt_of_lt_of_le ((strcmp_neg_iff _ _).mpr h.2) hab)

end Pattern

/-- `Tcl_StringMatch`, as far as these patterns go. -/
def Globs (stringMatch : Bytes → Bytes → Bool) : Prop :=
  ∀ (pattern : Pattern) (key : Bytes), stringMatch key pattern.text = pattern.hits key

/-- Sorted records: those that are too small, those that match, and those that are too large. -/
theorem exists_split (p : Pattern) {records : List Record}
    (h : records.Pairwise fun r r' => strcmp r.key r'.key ≤ 0) :
    ∃ before hits after, records = before ++ (hits ++ after) ∧ (∀ r ∈ before, p.Below r.key) ∧
      (∀ r ∈ hits, p.hits r.key = true) ∧ ∀ r ∈ after, p.Above r.key := by
  induction records with
  | nil => exact ⟨[], [], [], rfl, by simp, by simp, by simp⟩
  | cons r records ih =>
      obtain ⟨hr, hrecords⟩ := List.pairwise_cons.mp h
      obtain hit | hbelow | habove := p.cases r.key
      · obtain ⟨before, hits, after, rfl, hbefore, hhits, hafter⟩ := ih hrecords
        -- nothing behind a match is too small
        obtain rfl : before = [] := by
          refine List.eq_nil_iff_forall_not_mem.mpr fun r' hr' => ?_
          have hlow := (hbefore r' hr').of_le (hr r' (List.mem_append_left _ hr'))
          exact absurd hit (by rw [hlow.1]; simp)
        exact ⟨[], r :: hits, after, rfl, hbefore, List.forall_mem_cons.mpr ⟨hit, hhits⟩, hafter⟩
      · obtain ⟨before, hits, after, rfl, hbefore, hhits, hafter⟩ := ih hrecords
        exact ⟨r :: before, hits, after, rfl, List.forall_mem_cons.mpr ⟨hbelow, hbefore⟩, hhits,
          hafter⟩
      · refine ⟨[], [], r :: records, rfl, by simp, by simp, ?_⟩
        exact List.forall_mem_cons.mpr ⟨habove, fun r' hr' => habove.of_le (hr r' hr')⟩

/-! ## The binary search -/

/-- What the search sees: up to `lo` the keys are too small, up to `hi` they match, and up to `top`
they are too large. -/
structure Sides (p : Pattern) (file : Bytes) (recSize : Int) (lo hi top : Int) : Prop where
  below : ∀ n, 1 ≤ n → n ≤ lo → ∃ r, seekAndScan file recSize n = some r ∧ p.Below r.1
  hit : ∀ n, lo < n → n ≤ hi → ∃ r, seekAndScan file recSize n = some r ∧ p.hits r.1 = true
  above : ∀ n, hi < n → n ≤ top → ∃ r, seekAndScan file recSize n = some r ∧ p.Above r.1

section Search

variable {stringMatch : Bytes → Bytes → Bool} {file : Bytes} {p : Pattern} {recSize : Int}
  {lo hi top : Int}

/-- A turn, by the record it reads. -/
theorem search_succ (hmatch : Globs stringMatch) (n : Nat) {minRec maxRec : Int}
    {r : Bytes × Int} (hr : seekAndScan file recSize ((maxRec + minRec).tdiv 2) = some r) :
    (p.hits r.1 = true → search stringMatch file p.text recSize (n + 1) minRec maxRec =
        some (some ((maxRec + minRec).tdiv 2, r))) ∧
      (p.Below r.1 → search stringMatch file p.text recSize (n + 1) minRec maxRec =
        if maxRec = minRec then some none
        else search stringMatch file p.text recSize n ((maxRec + minRec).tdiv 2 + 1) maxRec) ∧
      (p.Above r.1 → search stringMatch file p.text recSize (n + 1) minRec maxRec =
        if maxRec = minRec then some none
        else search stringMatch file p.text recSize n minRec ((maxRec + minRec).tdiv 2 - 1)) := by
  obtain ⟨key, val⟩ := r
  simp only [search, hr, Option.bind_eq_bind, Option.bind_some, hmatch p key]
  refine ⟨fun h => if_pos h, fun h => ?_, fun h => ?_⟩
  · have hneg : ¬strcmp key p.text > 0 := Int.not_lt.mpr (Int.le_of_lt h.2)
    rw [if_neg (by rw [h.1]; simp), if_neg hneg, if_pos h.2]
  · rw [if_neg (by rw [h.1]; simp), if_pos h.2]

theorem tdiv_two {x : Int} (h : 0 ≤ x) : x.tdiv 2 = x / 2 := Int.tdiv_eq_ediv_of_nonneg h

/-- A record that matches is found, if there is one. -/
theorem search_found (hmatch : Globs stringMatch) (h : Sides p file recSize lo hi top)
    (hlo : 0 ≤ lo) (hhits : lo < hi) (n : Nat) {minRec maxRec : Int} (hmin : 1 ≤ minRec)
    (hmin' : minRec ≤ lo + 1) (hmax : hi ≤ maxRec) (hmax' : maxRec ≤ top)
    (hn : maxRec - minRec + 1 < 2 ^ n) :
    ∃ curRec r, search stringMatch file p.text recSize n minRec maxRec = some (some (curRec, r)) ∧
      seekAndScan file recSize curRec = some r ∧ lo < curRec ∧ curRec ≤ hi := by
  induction n generalizing minRec maxRec with
  | zero => omega
  | succ n ih =>
      rw [Int.pow_succ] at hn
      have hcur := tdiv_two (show 0 ≤ maxRec + minRec by omega)
      obtain hle | hle := le_or_gt ((maxRec + minRec).tdiv 2) lo
      · obtain ⟨r, hr, hbelow⟩ := h.below _ (show 1 ≤ (maxRec + minRec).tdiv 2 by omega) hle
        rw [(search_succ hmatch n hr).2.1 hbelow, if_neg (by omega)]
        exact ih (by omega) (by omega) hmax hmax' (by omega)
      · obtain hle' | hgt := le_or_gt ((maxRec + minRec).tdiv 2) hi
        · obtain ⟨r, hr, hit⟩ := h.hit _ hle hle'
          exact ⟨_, r, (search_succ hmatch n hr).1 hit, hr, hle, hle'⟩
        · obtain ⟨r, hr, habove⟩ := h.above _ hgt (show (maxRec + minRec).tdiv 2 ≤ top by omega)
          rw [(search_succ hmatch n hr).2.2 habove, if_neg (by omega)]
          exact ih hmin hmin' (by omega) (by omega) (by omega)

/-- No record matches, and some keys are too small: the search ends. -/
theorem search_missing (hmatch : Globs stringMatch) (h : Sides p file recSize lo lo top)
    (hlo : 1 ≤ lo) (n : Nat) {minRec maxRec : Int} (hmin : 1 ≤ minRec) (hmin' : minRec ≤ lo + 1)
    (hmax : lo ≤ maxRec) (hmax' : maxRec ≤ top) :
    search stringMatch file p.text recSize n minRec maxRec = some none := by
  induction n generalizing minRec maxRec with
  | zero => rfl
  | succ n ih =>
      have hcur := tdiv_two (show 0 ≤ maxRec + minRec by omega)
      obtain hle | hgt := le_or_gt ((maxRec + minRec).tdiv 2) lo
      · obtain ⟨r, hr, hbelow⟩ := h.below _ (show 1 ≤ (maxRec + minRec).tdiv 2 by omega) hle
        rw [(search_succ hmatch n hr).2.1 hbelow]
        split_ifs
        · rfl
        · exact ih (by omega) (by omega) hmax hmax'
      · obtain ⟨r, hr, habove⟩ := h.above _ hgt (show (maxRec + minRec).tdiv 2 ≤ top by omega)
        rw [(search_succ hmatch n hr).2.2 habove]
        split_ifs
        · rfl
        · exact ih hmin hmin' (by omega) (by omega)

/-- The number of records, and one more, begins with the binary digits 11. -/
def Crosses (numRecs : Int) : Prop := ∃ k : Nat, 3 * 2 ^ k ≤ numRecs + 1 ∧ numRecs + 1 < 4 * 2 ^ k

/-- A turn halves that number. -/
theorem crosses_half {m : Int} (hm : 3 ≤ m) : Crosses ((m + 1) / 2 - 1) ↔ Crosses m := by
  constructor
  · rintro ⟨k, hlo, hhi⟩
    refine ⟨k + 1, ?_, ?_⟩
    · rw [Int.pow_succ]
      omega
    · rw [Int.pow_succ]
      omega
  · rintro ⟨k, hlo, hhi⟩
    cases k with
    | zero => omega
    | succ k =>
        rw [Int.pow_succ] at hlo hhi
        exact ⟨k, by omega, by omega⟩

theorem not_crosses_one : ¬Crosses 1 := by
  rintro ⟨k, hlo, -⟩
  have hpos : (1 : Int) ≤ 2 ^ k := one_le_pow₀ (by decide)
  omega

theorem crosses_two : Crosses 2 := ⟨0, by decide, by decide⟩

/-- All keys are too large: the search comes to the record before the first, or it ends. -/
theorem search_above (hmatch : Globs stringMatch) (h : Sides p file recSize 0 0 top)
    (hzero : seekAndScan file recSize 0 = none) (n : Nat) {maxRec : Int} (hmax : 0 ≤ maxRec)
    (hmax' : maxRec ≤ top) (hn : maxRec + 1 < 2 ^ n) :
    (maxRec = 0 ∨ Crosses maxRec → search stringMatch file p.text recSize n 1 maxRec = none) ∧
      (¬(maxRec = 0 ∨ Crosses maxRec) →
        search stringMatch file p.text recSize n 1 maxRec = some none) := by
  induction n generalizing maxRec with
  | zero => omega
  | succ n ih =>
      rw [Int.pow_succ] at hn
      have hcur := tdiv_two (show 0 ≤ maxRec + 1 by omega)
      obtain rfl | hpos := eq_or_lt_of_le hmax
      · refine ⟨fun _ => ?_, fun hnot => absurd (.inl rfl) hnot⟩
        have hnone : seekAndScan file recSize ((0 + 1 : Int).tdiv 2) = none := hzero
        simp only [search, hnone, Option.bind_eq_bind, Option.bind_none]
      · obtain ⟨r, hr, habove⟩ := h.above ((maxRec + 1).tdiv 2) (by omega) (by omega)
        rw [(search_succ hmatch n hr).2.2 habove, hcur]
        obtain rfl | hne := eq_or_ne maxRec 1
        · rw [if_pos rfl]
          exact ⟨fun hbad => absurd (hbad.resolve_left (by decide)) not_crosses_one, fun _ => rfl⟩
        · rw [if_neg hne]
          obtain ⟨hbad, hgood⟩ := ih (show 0 ≤ (maxRec + 1) / 2 - 1 by omega) (by omega) (by omega)
          have hiff : ((maxRec + 1) / 2 - 1 = 0 ∨ Crosses ((maxRec + 1) / 2 - 1)) ↔
              (maxRec = 0 ∨ Crosses maxRec) := by
            obtain rfl | hthree : maxRec = 2 ∨ 3 ≤ maxRec := by omega
            · exact iff_of_true (.inl rfl) (.inr crosses_two)
            · rw [crosses_half hthree]
              exact or_congr_left (iff_of_false (by omega) (by omega))
          exact ⟨fun h => hbad (hiff.mpr h), fun h => hgood (mt hiff.mp h)⟩

end Search

/-! ## The records around the one found -/

section Scans

variable {stringMatch : Bytes → Bytes → Bool} {p : Pattern} {recSize : Nat} {records : List Record}

theorem seekAndScan_at (h : Sorted records recSize) {front back : List Record} {r : Record}
    (hrecords : records = front ++ r :: back) {recNum : Int} (hnum : recNum = front.length + 1) :
    seekAndScan (fileOf records) recSize recNum = some r.pair := by
  obtain rfl := hrecords
  rw [hnum, seekAndScan_get h]

/-- Records in a row, by their numbers. -/
theorem exists_seekAndScan (h : Sorted records recSize) {front row back : List Record}
    (hrecords : records = front ++ (row ++ back)) {recNum : Int} (hlo : front.length < recNum)
    (hhi : recNum ≤ front.length + row.length) :
    ∃ r ∈ row, seekAndScan (fileOf records) recSize recNum = some r.pair := by
  obtain ⟨n, hn⟩ : ∃ n : Nat, recNum = front.length + n + 1 :=
    ⟨(recNum - front.length - 1).toNat, by omega⟩
  have hlt : n < row.length := by omega
  refine ⟨row[n], List.getElem_mem hlt, ?_⟩
  have hsplit : row = row.take n ++ row[n] :: row.drop (n + 1) := by
    rw [← List.drop_eq_getElem_cons hlt, List.take_append_drop]
  refine seekAndScan_at h (show records = (front ++ row.take n) ++
    row[n] :: (row.drop (n + 1) ++ back) from ?_) ?_
  · rw [List.append_assoc, ← List.cons_append, ← List.append_assoc (row.take n), ← hsplit, hrecords]
  · rw [List.length_append, List.length_take_of_le (Nat.le_of_lt hlt), hn]
    rfl

/-- The records behind the one found, up to the first that does not match. -/
theorem scanUp_eq (hmatch : Globs stringMatch) (h : Sorted records recSize)
    {front hits after rest : List Record} (hrecords : records = front ++ (hits ++ (after ++ rest)))
    (hhits : ∀ r ∈ hits, p.hits r.key = true) (hafter : ∀ r ∈ after, p.Above r.key) {curRec : Int}
    (hcur : curRec = front.length + 1) :
    ∃ found, scanUp stringMatch (fileOf records) p.text recSize
        (front.length + hits.length + after.length) 1 curRec =
      some (hits.map Record.pair, found) := by
  induction hits generalizing front curRec with
  | nil =>
      rw [scanUp]
      cases after with
      | nil =>
          rw [if_neg (by simp only [List.length_nil]; omega)]
          exact ⟨1, rfl⟩
      | cons r after =>
          have hnone : stringMatch r.pair.1 p.text = false := by
            rw [hmatch]
            exact (hafter r List.mem_cons_self).1
          rw [if_pos (by simp only [List.length_cons]; omega), seekAndScan_at h hrecords hcur]
          simp only [Option.bind_eq_bind, Option.bind_some, hnone]
          exact ⟨0, rfl⟩
  | cons r hits ih =>
      obtain ⟨hit, hhits⟩ := List.forall_mem_cons.mp hhits
      have hmatch' : stringMatch r.pair.1 p.text = true := (hmatch p r.key).trans hit
      have hrecords' : records = (front ++ [r]) ++ (hits ++ (after ++ rest)) := by
        rw [hrecords, List.append_assoc]
        rfl
      have hcur' : curRec + 1 = (front ++ [r]).length + 1 := by
        rw [hcur, List.length_append]
        rfl
      obtain ⟨found, hnext⟩ := ih hrecords' hhits hcur'
      have hlen : ((front ++ [r]).length + hits.length + after.length : Int) =
          front.length + (r :: hits).length + after.length := by
        simp only [List.length_append, List.length_cons, List.length_nil]
        omega
      rw [hlen] at hnext
      rw [scanUp, if_pos (by rw [List.length_cons]; omega), seekAndScan_at h hrecords hcur]
      simp only [Option.bind_eq_bind, Option.bind_some, hmatch', if_true, hnext]
      exact ⟨found, rfl⟩

/-- Nothing matches before the records that do: each turn takes one from `found`. -/
theorem scanDown_before (hmatch : Globs stringMatch) (h : Sorted records recSize)
    {before rest : List Record} (hrecords : records = before ++ rest)
    (hbefore : ∀ r ∈ before, p.Below r.key) (found : Nat) :
    scanDown stringMatch (fileOf records) p.text recSize found before.length = some [] := by
  induction found with
  | zero =>
      rw [scanDown]
      exact if_neg fun hcond => absurd hcond.1 (Nat.lt_irrefl 0)
  | succ found ih =>
      rw [scanDown]
      obtain rfl | ⟨front, r, rfl⟩ := List.eq_nil_or_concat' before
      · exact if_neg fun hcond => absurd hcond.2 (by simp)
      · have hnone : stringMatch r.pair.1 p.text = false := by
          rw [hmatch]
          exact (hbefore r (by simp)).1
        have hrecords' : records = front ++ r :: rest := by
          rw [hrecords, List.append_assoc]
          rfl
        have hcur : ((front ++ [r]).length : Int) = front.length + 1 := by
          rw [List.length_append]
          rfl
        rw [if_pos ⟨Nat.succ_pos _, by omega⟩, seekAndScan_at h hrecords' hcur]
        simp only [Option.bind_eq_bind, Option.bind_some, hnone, Bool.false_eq_true, if_false]
        exact ih

/-- The records before the one found, down to the first that does not match. -/
theorem scanDown_eq (hmatch : Globs stringMatch) (h : Sorted records recSize)
    {before hits rest : List Record} (hrecords : records = before ++ (hits ++ rest))
    (hbefore : ∀ r ∈ before, p.Below r.key) (hhits : ∀ r ∈ hits, p.hits r.key = true) {found : Nat}
    (hfound : 0 < found) {curRec : Int} (hcur : curRec = before.length + hits.length) :
    scanDown stringMatch (fileOf records) p.text recSize found curRec =
      some (hits.reverse.map Record.pair) := by
  induction hits using List.reverseRecOn generalizing rest curRec with
  | nil =>
      rw [hcur, List.length_nil, Int.natCast_zero, Int.add_zero]
      exact scanDown_before hmatch h hrecords hbefore found
  | append_singleton hits r ih =>
      have hit : stringMatch r.pair.1 p.text = true := by
        rw [hmatch]
        exact hhits r (by simp)
      rw [List.length_append, List.length_singleton] at hcur
      have hrecords' : records = (before ++ hits) ++ r :: rest := by
        rw [hrecords]
        simp
      have hnum : curRec = (before ++ hits).length + 1 := by
        rw [hcur, List.length_append]
        omega
      have hhits' : ∀ r' ∈ hits, p.hits r'.key = true := fun r' hr' =>
        hhits r' (List.mem_append_left _ hr')
      have hcur' : curRec - 1 = before.length + hits.length := by omega
      have hnext := ih (hrecords'.trans (List.append_assoc ..)) hhits' hcur'
      rw [scanDown, if_pos ⟨hfound, by omega⟩, seekAndScan_at h hrecords' hnum]
      simp only [Option.bind_eq_bind, Option.bind_some, hit, if_true, hnext]
      rw [List.reverse_append]
      rfl

end Scans

/-! ## The command -/

/-- `numRecs`: the size of the file, which is an `int`, divided by that of a record. -/
def numRecs (recSize count : Nat) : Int := (int32 (count * recSize : Nat)).tdiv recSize

theorem int32_natCast_le (n : Nat) : int32 n ≤ n := by
  by_cases h : n < 2 ^ 31
  · exact (int32_natCast_eq_iff.mpr h).le
  · have hrange := int32_range n
    omega

theorem numRecs_le (recSize count : Nat) : numRecs recSize count ≤ count := by
  have hle := int32_natCast_le (count * recSize)
  unfold numRecs
  generalize int32 (count * recSize : Nat) = size at hle
  obtain rfl | hpos := Nat.eq_zero_or_pos recSize
  · rw [Int.natCast_zero, Int.tdiv_zero]
    exact Int.natCast_nonneg count
  · rw [tdiv_eq_ite]
    split_ifs with hsize
    · rw [Int.natCast_mul] at hle
      exact Int.ediv_le_of_le_mul (Int.natCast_pos.mpr hpos) hle
    · have hdiv : 0 ≤ -size / recSize := Int.ediv_nonneg (by omega) (Int.natCast_nonneg _)
      omega

theorem numRecs_lt (recSize count : Nat) : numRecs recSize count < 2 ^ 31 := by
  have hrange := int32_range (count * recSize : Nat)
  unfold numRecs
  generalize int32 (count * recSize : Nat) = size at hrange
  rw [tdiv_eq_ite]
  split_ifs with hsize
  · exact (Int.ediv_le_self _ hsize).trans_lt hrange.2
  · have hdiv : 0 ≤ -size / recSize := Int.ediv_nonneg (by omega) (Int.natCast_nonneg _)
    omega

section Command

variable {stringMatch : Bytes → Bytes → Bool} {p : Pattern} {recSize : Nat} {records : List Record}

/-- The command, when its search comes to no end, or finds nothing. -/
theorem brangeCmd_of_search {file pattern : Bytes} {size nrec : Int}
    (hsize : tclGets file + 1 = size) (hne : size ≠ 0) (hrec : (int32 file.length).tdiv size = nrec)
    {s : Option (Option (Int × Bytes × Int))}
    (hs : search stringMatch file pattern size 65 1 nrec = s) :
    (s = none → brangeCmd stringMatch file pattern = none) ∧
      (s = some none → brangeCmd stringMatch file pattern = some []) := by
  unfold brangeCmd
  dsimp only
  rw [hsize, if_neg hne, hrec, hs]
  constructor
  · rintro rfl
    rfl
  · rintro rfl
    rfl

/-- The command, when its search finds a record. -/
theorem brangeCmd_of_found {file pattern : Bytes} {size nrec : Int}
    (hsize : tclGets file + 1 = size) (hne : size ≠ 0)
    (hrec : (int32 file.length).tdiv size = nrec) {curRec : Int} {r : Bytes × Int}
    {behind before : List (Bytes × Int)} {found : Nat}
    (hs : search stringMatch file pattern size 65 1 nrec = some (some (curRec, r)))
    (hup : scanUp stringMatch file pattern size nrec 1 (curRec + 1) = some (behind, found))
    (hdown : scanDown stringMatch file pattern size (found + 1) (curRec - 1) = some before) :
    brangeCmd stringMatch file pattern = some ((r :: (behind ++ before)).map element) := by
  unfold brangeCmd
  dsimp only
  rw [hsize, if_neg hne, hrec, hs]
  simp only [Option.bind_eq_bind, Option.bind_some, hup, hdown]

/-- The sizes that the command computes. -/
theorem numRecs_fileOf (h : Sorted records recSize) :
    (int32 (fileOf records).length).tdiv recSize = numRecs recSize records.length := by
  rw [numRecs, length_fileOf h.fixed]

theorem sides_of_split (h : Sorted records recSize) {before hits after rest : List Record}
    (hrecords : records = before ++ (hits ++ (after ++ rest)))
    (hbefore : ∀ r ∈ before, p.Below r.key) (hhits : ∀ r ∈ hits, p.hits r.key = true)
    (hafter : ∀ r ∈ after, p.Above r.key) :
    Sides p (fileOf records) recSize before.length (before.length + hits.length)
      (before.length + hits.length + after.length) := by
  refine ⟨fun n hlo hhi => ?_, fun n hlo hhi => ?_, fun n hlo hhi => ?_⟩
  · have hrecords' : records = [] ++ (before ++ (hits ++ (after ++ rest))) := hrecords
    obtain ⟨r, hr, hread⟩ := exists_seekAndScan h hrecords' (show (0 : Int) < n by omega)
      (by rw [List.length_nil, Int.natCast_zero, Int.zero_add]; exact hhi)
    exact ⟨r.pair, hread, hbefore r hr⟩
  · obtain ⟨r, hr, hread⟩ := exists_seekAndScan h hrecords hlo hhi
    exact ⟨r.pair, hread, hhits r hr⟩
  · have hrecords' : records = (before ++ hits) ++ (after ++ rest) := by
      rw [hrecords, List.append_assoc]
    have hlen : ((before ++ hits).length : Int) = before.length + hits.length := by
      rw [List.length_append, Int.natCast_add]
    obtain ⟨r, hr, hread⟩ := exists_seekAndScan h hrecords' (hlen.trans_lt hlo) (by omega)
    exact ⟨r.pair, hread, hafter r hr⟩

variable {before hits after rest : List Record}

/-- What the command returns if some record matches. -/
theorem brangeCmd_hits (hmatch : Globs stringMatch) (h : Sorted records recSize)
    (hrecords : records = before ++ (hits ++ (after ++ rest)))
    (hnum : numRecs recSize records.length = before.length + hits.length + after.length)
    (hbefore : ∀ r ∈ before, p.Below r.key) (hhits : ∀ r ∈ hits, p.hits r.key = true)
    (hafter : ∀ r ∈ after, p.Above r.key) (hne : hits ≠ []) :
    ∃ found, brangeCmd stringMatch (fileOf records) p.text = some found ∧
      found.Perm ((hits.map Record.pair).map element) := by
  have hlen := List.length_pos_iff.mpr hne
  have hrecords' : records ≠ [] := by
    intro hnil
    rw [hnil] at hrecords
    simp [hne] at hrecords
  have hsides := sides_of_split h hrecords hbefore hhits hafter
  have hlt := numRecs_lt recSize records.length
  obtain ⟨curRec, r, hsearch, hread, hlo, hhi⟩ := search_found hmatch hsides (by omega) (by omega)
    65 (le_refl 1) (by omega) (show _ ≤ numRecs recSize records.length by omega) (by omega)
    (by omega)
  -- the record found is one of those that match
  obtain ⟨n, hn⟩ : ∃ n : Nat, curRec = before.length + n + 1 :=
    ⟨(curRec - before.length - 1).toNat, by omega⟩
  obtain ⟨front, r', back, rfl, rfl⟩ : ∃ front r' back,
      hits = front ++ r' :: back ∧ front.length = n := by
    have hlt : n < hits.length := by omega
    refine ⟨hits.take n, hits[n], hits.drop (n + 1), ?_, List.length_take_of_le (Nat.le_of_lt hlt)⟩
    rw [← List.drop_eq_getElem_cons hlt, List.take_append_drop]
  have hfound : records = (before ++ front) ++ r' :: (back ++ (after ++ rest)) := by
    rw [hrecords]
    simp
  have hup : records = (before ++ front ++ [r']) ++ (back ++ (after ++ rest)) := by
    rw [hfound, List.append_assoc _ [r']]
    rfl
  have hdown : records = before ++ (front ++ r' :: (back ++ (after ++ rest))) := by
    rw [hfound, List.append_assoc]
  obtain rfl : r'.pair = r := by
    have hread' := seekAndScan_at h hfound (show curRec = (before ++ front).length + 1 by
      rw [hn, List.length_append, Int.natCast_add])
    exact Option.some.inj (hread'.symm.trans hread)
  obtain ⟨hfront, hback⟩ := List.forall_mem_append.mp hhits
  obtain ⟨found, hbehind⟩ := scanUp_eq hmatch h hup (List.forall_mem_cons.mp hback).2 hafter
    (show curRec + 1 = (before ++ front ++ [r']).length + 1 by simp; omega)
  have hcount : ((before ++ front ++ [r']).length + back.length + after.length : Int) =
      numRecs recSize records.length := by
    rw [hnum]
    simp
    omega
  rw [hcount] at hbehind
  have hbefore' := scanDown_eq hmatch h hdown hbefore hfront (Nat.succ_pos found)
    (show curRec - 1 = before.length + front.length by omega)
  refine ⟨_, brangeCmd_of_found (tclGets_fileOf h hrecords') (recSize_ne h hrecords')
    (numRecs_fileOf h) hsearch hbehind hbefore', ?_⟩
  have hperm : (r' :: (back ++ front.reverse)).Perm (front ++ r' :: back) := by
    refine List.Perm.trans (List.Perm.cons r' ?_) List.perm_middle.symm
    exact List.perm_append_comm.trans (front.reverse_perm.append_right back)
  have hpairs := hperm.map Record.pair
  rw [List.map_cons, List.map_append] at hpairs
  exact hpairs.map element

/-- What the command returns if no record matches, and some keys are too small. -/
theorem brangeCmd_missing (hmatch : Globs stringMatch) (h : Sorted records recSize)
    (hrecords : records = before ++ (after ++ rest))
    (hnum : numRecs recSize records.length = before.length + after.length)
    (hbefore : ∀ r ∈ before, p.Below r.key) (hafter : ∀ r ∈ after, p.Above r.key)
    (hne : before ≠ []) : brangeCmd stringMatch (fileOf records) p.text = some [] := by
  have hlen := List.length_pos_iff.mpr hne
  have hrecords' : records ≠ [] := by
    intro hnil
    rw [hnil] at hrecords
    simp [hne] at hrecords
  have hsplit : records = before ++ ([] ++ (after ++ rest)) := hrecords
  have hsides := sides_of_split h hsplit hbefore (fun r hr => absurd hr List.not_mem_nil) hafter
  rw [List.length_nil, Int.natCast_zero, Int.add_zero] at hsides
  have hsearch := search_missing hmatch hsides (by omega) 65 (le_refl 1) (by omega)
    (show _ ≤ numRecs recSize records.length by omega) (by omega)
  exact (brangeCmd_of_search (tclGets_fileOf h hrecords') (recSize_ne h hrecords')
    (numRecs_fileOf h) hsearch).2 rfl

/-- What the command returns if all keys are too large. -/
theorem brangeCmd_above (hmatch : Globs stringMatch) (h : Sorted records recSize)
    (hrecords : records = after ++ rest) (hnum : numRecs recSize records.length = after.length)
    (hafter : ∀ r ∈ after, p.Above r.key) (hne : after ≠ []) :
    (Crosses (numRecs recSize records.length) →
        brangeCmd stringMatch (fileOf records) p.text = none) ∧
      (¬Crosses (numRecs recSize records.length) →
        brangeCmd stringMatch (fileOf records) p.text = some []) := by
  have hlen := List.length_pos_iff.mpr hne
  have hrecords' : records ≠ [] := by
    intro hnil
    rw [hnil] at hrecords
    simp [hne] at hrecords
  have hzero : seekAndScan (fileOf records) recSize 0 = none := by
    have hiff := seekAndScan_isSome_iff h 0
    exact Option.not_isSome_iff_eq_none.mp fun hsome => absurd (hiff.mp hsome).1 (by decide)
  have hsplit : records = [] ++ ([] ++ (after ++ rest)) := hrecords
  have hsides := sides_of_split (p := p) h hsplit (fun r hr => absurd hr List.not_mem_nil)
    (fun r hr => absurd hr List.not_mem_nil) hafter
  simp only [List.length_nil, Int.natCast_zero, Int.zero_add] at hsides
  have hlt := numRecs_lt recSize records.length
  obtain ⟨hbad, hgood⟩ := search_above hmatch hsides hzero 65
    (show 0 ≤ numRecs recSize records.length by omega) (by omega) (by omega)
  constructor
  · intro hcross
    exact (brangeCmd_of_search (tclGets_fileOf h hrecords') (recSize_ne h hrecords')
      (numRecs_fileOf h) (hbad (.inr hcross))).1 rfl
  · intro hcross
    refine (brangeCmd_of_search (tclGets_fileOf h hrecords') (recSize_ne h hrecords')
      (numRecs_fileOf h) (hgood fun hbad => ?_)).2 rfl
    exact hcross (hbad.resolve_left (by omega))

/-- No record is seen at all. -/
theorem brangeCmd_nonpos (h : Sorted records recSize)
    (hnum : numRecs recSize records.length ≤ 0) (pattern : Bytes) :
    brangeCmd stringMatch (fileOf records) pattern = none := by
  obtain rfl | hne := eq_or_ne records []
  · rfl
  · have hpos := recSize_pos h hne
    have hcur : (numRecs recSize records.length + 1).tdiv 2 ≤ 0 := by
      rw [tdiv_eq_ite]
      split_ifs <;> omega
    have hnone : seekAndScan (fileOf records) recSize
        ((numRecs recSize records.length + 1).tdiv 2) = none := by
      have hiff := seekAndScan_isSome_iff h ((numRecs recSize records.length + 1).tdiv 2)
      exact Option.not_isSome_iff_eq_none.mp fun hsome => absurd (hiff.mp hsome).1 (by omega)
    have hsearch (n : Nat) : search stringMatch (fileOf records) pattern recSize (n + 1) 1
        (numRecs recSize records.length) = none := by
      simp only [search, hnone, Option.bind_eq_bind, Option.bind_none]
    exact (brangeCmd_of_search (tclGets_fileOf h hne) (by omega) (numRecs_fileOf h)
      (hsearch 64)).1 rfl

/-- What the search for a range sees, and what lies behind it. -/
theorem exists_seen (p : Pattern) (h : Sorted records recSize)
    (hnum : 0 < numRecs recSize records.length) :
    ∃ before hits after rest, records = before ++ (hits ++ (after ++ rest)) ∧
      rest = records.drop (numRecs recSize records.length).toNat ∧
      numRecs recSize records.length = before.length + hits.length + after.length ∧
      (∀ r ∈ before, p.Below r.key) ∧ (∀ r ∈ hits, p.hits r.key = true) ∧
      ∀ r ∈ after, p.Above r.key := by
  have hle := numRecs_le recSize records.length
  generalize numRecs recSize records.length = num at hnum hle ⊢
  obtain ⟨before, hits, after, hsplit, hparts⟩ := exists_split p (h.sorted.take (i := num.toNat))
  refine ⟨before, hits, after, records.drop num.toNat, ?_, rfl, ?_, hparts⟩
  · conv_lhs => rw [← List.take_append_drop num.toNat records, hsplit]
    rw [List.append_assoc, List.append_assoc]
  · have hlen := congrArg List.length hsplit
    rw [List.length_take_of_le (by omega), List.length_append, List.length_append] at hlen
    omega

theorem filter_hits {p : Pattern} (hrecords : records = before ++ (hits ++ (after ++ rest)))
    (hbefore : ∀ r ∈ before, p.Below r.key) (hhits : ∀ r ∈ hits, p.hits r.key = true)
    (hafter : ∀ r ∈ after, p.Above r.key) :
    (records.filter fun r => p.hits r.key) = hits ++ rest.filter fun r => p.hits r.key := by
  have hnone (l : List Record) (hl : ∀ r ∈ l, p.hits r.key = false) :
      (l.filter fun r => p.hits r.key) = [] :=
    List.filter_eq_nil_iff.mpr fun r hr => by rw [hl r hr]; exact Bool.false_ne_true
  rw [hrecords, List.filter_append, List.filter_append, List.filter_append,
    hnone before fun r hr => (hbefore r hr).1, hnone after fun r hr => (hafter r hr).1,
    List.filter_eq_self.mpr hhits]
  rfl

/-- The first key is too large exactly if nothing that is seen matches or is too small. -/
theorem head_above_iff {p : Pattern} (hrecords : records = before ++ (hits ++ (after ++ rest)))
    (hbefore : ∀ r ∈ before, p.Below r.key) (hhits : ∀ r ∈ hits, p.hits r.key = true)
    (hafter : ∀ r ∈ after, p.Above r.key) (hne : before ++ (hits ++ after) ≠ []) :
    (∃ r ∈ records.head?, p.Above r.key) ↔ before = [] ∧ hits = [] := by
  rw [hrecords]
  cases before with
  | cons b before =>
      refine iff_of_false ?_ fun h => List.cons_ne_nil _ _ h.1
      rintro ⟨r, hr, habove⟩
      obtain rfl := Option.some.inj hr
      have hlow := (hbefore b List.mem_cons_self).2
      exact absurd habove.2 (by omega)
  | nil =>
      cases hits with
      | cons b hits =>
          refine iff_of_false ?_ fun h => List.cons_ne_nil _ _ h.2
          rintro ⟨r, hr, habove⟩
          obtain rfl := Option.some.inj hr
          exact absurd (hhits b List.mem_cons_self) (by rw [habove.1]; exact Bool.false_ne_true)
      | nil =>
          obtain ⟨r, after, rfl⟩ := List.exists_cons_of_ne_nil hne
          exact iff_of_true ⟨r, rfl, hafter r List.mem_cons_self⟩ ⟨rfl, rfl⟩

/-- What is returned is right exactly if nothing more matches. -/
theorem returns_iff {result : Option (List Bytes)} {found : List Bytes}
    (hresult : result = some found) (hperm : found.Perm ((hits.map Record.pair).map element))
    (more : List Record) :
    (∃ found, result = some found ∧
        found.Perm (((hits ++ more).map Record.pair).map element)) ↔ more = [] := by
  constructor
  · rintro ⟨found', hresult', hperm'⟩
    obtain rfl := Option.some.inj (hresult.symm.trans hresult')
    have hlen := hperm.length_eq.symm.trans hperm'.length_eq
    simp only [List.length_map, List.length_append] at hlen
    exact List.eq_nil_of_length_eq_zero (by omega)
  · rintro rfl
    rw [List.append_nil]
    exact ⟨found, hresult, hperm⟩

/-- **Ranges of records.** The command returns the records that match, each once, and calls
`seekAndScan` for records only, exactly if the number of records that it computes is positive, no
record behind these matches, and not both is the first key too large and that number one that leads
the search to the record before the first. -/
theorem brange_iff (hmatch : Globs stringMatch) (h : Sorted records recSize) (p : Pattern) :
    (∀ recNum, (seekAndScan (fileOf records) recSize recNum).isSome ↔
        1 ≤ recNum ∧ recNum ≤ records.length) ∧
      ((∃ found, brangeCmd stringMatch (fileOf records) p.text = some found ∧
          found.Perm (((records.filter fun r => p.hits r.key).map Record.pair).map element)) ↔
        0 < numRecs recSize records.length ∧
          (∀ r ∈ records.drop (numRecs recSize records.length).toNat, p.hits r.key = false) ∧
          ¬((∃ r ∈ records.head?, p.Above r.key) ∧ Crosses (numRecs recSize records.length))) := by
  refine ⟨seekAndScan_isSome_iff h, ?_⟩
  obtain hnum | hnum := Int.lt_or_le 0 (numRecs recSize records.length)
  · obtain ⟨before, hits, after, rest, hrecords, hrest, hlen, hbefore, hhits, hafter⟩ :=
      exists_seen p h hnum
    have hbehind : (∀ r ∈ rest, p.hits r.key = false) ↔
        (rest.filter fun r => p.hits r.key) = [] := by
      rw [List.filter_eq_nil_iff]
      simp only [Bool.not_eq_true]
    have hseen : before ++ (hits ++ after) ≠ [] := by
      intro hnil
      simp only [List.append_eq_nil_iff] at hnil
      obtain ⟨rfl, rfl, rfl⟩ := hnil
      exact absurd hlen hnum.ne'
    rw [← hrest, and_iff_right hnum, filter_hits hrecords hbefore hhits hafter, hbehind,
      head_above_iff hrecords hbefore hhits hafter hseen]
    by_cases hempty : before = [] ∧ hits = []
    · obtain ⟨rfl, rfl⟩ := hempty
      simp only [List.length_nil, Int.natCast_zero, Int.zero_add] at hlen
      have hrecords' : records = after ++ rest := hrecords
      obtain ⟨hbad, hgood⟩ := brangeCmd_above hmatch h hrecords' hlen hafter hseen
      by_cases hcross : Crosses (numRecs recSize records.length)
      · rw [hbad hcross]
        exact iff_of_false (by simp) fun h => h.2 ⟨⟨rfl, rfl⟩, hcross⟩
      · rw [returns_iff (hgood hcross) (List.Perm.refl [])]
        exact (and_iff_left fun h => hcross h.2).symm
    · rw [and_iff_left fun h => hempty h.1]
      by_cases hne : hits = []
      · subst hne
        rw [List.length_nil, Int.natCast_zero, Int.add_zero] at hlen
        have hrecords' : records = before ++ (after ++ rest) := hrecords
        have hrun := brangeCmd_missing hmatch h hrecords' hlen hbefore hafter fun hnil =>
          hempty ⟨hnil, rfl⟩
        exact returns_iff hrun (List.Perm.refl []) _
      · obtain ⟨found, hfound, hperm⟩ :=
          brangeCmd_hits hmatch h hrecords hlen hbefore hhits hafter hne
        exact returns_iff hfound hperm _
  · rw [brangeCmd_nonpos h hnum]
    exact iff_of_false (by simp) fun hgood => absurd hgood.1 (by omega)

end Command

/-- `Tcl_StringMatch` for these patterns. -/
def globMatch (key pattern : Bytes) : Bool :=
  if pattern.getLast? = some 42 then pattern.dropLast.isPrefixOf key else key = pattern

theorem globs_globMatch : Globs globMatch := by
  rintro ⟨start, star, hplain⟩ key
  cases star with
  | true =>
      show globMatch key (start ++ [42]) = start.isPrefixOf key
      rw [globMatch, List.getLast?_concat, if_pos rfl, List.dropLast_concat]
  | false =>
      show globMatch key start = decide (key = start)
      refine if_neg fun hlast => ?_
      exact (hplain 42 (List.mem_of_getLast? hlast)).1 rfl

/-- A record of one letter and the number 1. -/
def letter (c : UInt8) (hc : isSpace c = false ∧ c ≠ 0) : Record where
  front := []
  key := [c]
  between := [32]
  sign := []
  digits := [49]
  back := []
  front_blank := fun _ h => absurd h List.not_mem_nil
  key_ne := List.cons_ne_nil _ _
  key_plain := List.forall_mem_singleton.mpr hc
  between_ne := List.cons_ne_nil _ _
  between_blank := List.forall_mem_singleton.mpr ⟨rfl, by decide, by decide⟩
  sign_cases := .inl rfl
  digits_ne := List.cons_ne_nil _ _
  digits_digit := List.forall_mem_singleton.mpr (by decide)
  back_head := fun _ h => absurd h (by simp)
  back_line := fun _ h => absurd h List.not_mem_nil
  range := by decide

/-- `a`. -/
def letterA : Pattern := ⟨[97], false, List.forall_mem_singleton.mpr (by decide)⟩

/-- `b 1`, `c 1`. -/
def twoRecords : List Record := [letter 98 (by decide), letter 99 (by decide)]

theorem sorted_twoRecords : Sorted twoRecords 4 := by
  refine ⟨fun r hr => ?_, by decide, ?_⟩
  · obtain rfl | hr := List.mem_cons.mp hr
    · rfl
    · obtain rfl := List.mem_singleton.mp hr
      rfl
  · exact List.pairwise_pair.mpr (by decide)

/-- `a` is looked for in `b 1`, `c 1`. -/
theorem brange_two :
    Globs globMatch ∧ Sorted twoRecords 4 ∧
      (∀ recNum, (seekAndScan (fileOf twoRecords) 4 recNum).isSome ↔
        1 ≤ recNum ∧ recNum ≤ twoRecords.length) ∧
      ((∃ found, brangeCmd globMatch (fileOf twoRecords) letterA.text = some found ∧
          found.Perm (((twoRecords.filter fun r => letterA.hits r.key).map Record.pair).map
            element)) ↔
        0 < numRecs 4 twoRecords.length ∧
          (∀ r ∈ twoRecords.drop (numRecs 4 twoRecords.length).toNat,
            letterA.hits r.key = false) ∧
          ¬((∃ r ∈ twoRecords.head?, letterA.Above r.key) ∧
            Crosses (numRecs 4 twoRecords.length))) :=
  ⟨globs_globMatch, sorted_twoRecords, brange_iff globs_globMatch sorted_twoRecords letterA⟩

/-- The search for `a` goes on before the first record, `b 1`. In a file with no records, the size
is divided by zero. -/
theorem brange_lost :
    (¬∀ records recSize (p : Pattern), Sorted records recSize →
      ∃ found, brangeCmd globMatch (fileOf records) p.text = some found ∧
        found.Perm (((records.filter fun r => p.hits r.key).map Record.pair).map element)) ∧
    brangeCmd globMatch (fileOf twoRecords) letterA.text = none ∧
    brangeCmd globMatch (fileOf []) letterA.text = none := by
  have hafter : ∀ r ∈ twoRecords, letterA.Above r.key := by
    refine List.forall_mem_cons.mpr ⟨⟨rfl, by decide⟩, List.forall_mem_singleton.mpr ⟨rfl, ?_⟩⟩
    decide
  have hnone : brangeCmd globMatch (fileOf twoRecords) letterA.text = none :=
    (brangeCmd_above globs_globMatch sorted_twoRecords (List.append_nil twoRecords).symm rfl hafter
      (List.cons_ne_nil _ _)).1 crosses_two
  refine ⟨fun h => ?_, hnone, rfl⟩
  obtain ⟨found, hfound, -⟩ := h _ _ letterA sorted_twoRecords
  exact absurd (hnone.symm.trans hfound) (by simp)

end Nsdci.Brange
