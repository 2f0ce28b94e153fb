import Nsdci.Rpc

/-!
# HTTP response headers

`Header` is what a server writes: a status line and fields, each line ended by CR LF, and a
blank line. `HttpResponse` says which headers answer a request with a given result code and
data. The main results: the blank line is found when the header is complete and not before
(`strstr_bytes`, `strstr_take_bytes`), and `rpcParseHttp` reads the code and the length of the
data (`rpcParseHttp_text`).
-/

namespace Nsdci.Rpc

open Lib

/-- A header field. The name has no colon or white space, the value does not leave the line. -/
structure Field where
  name : Bytes
  value : Bytes
  name_ok : ∀ c ∈ name, c ≠ 0 ∧ c ≠ 58 ∧ isSpace c = false
  value_ok : ∀ c ∈ value, c ≠ 0 ∧ c ≠ 10 ∧ c ≠ 13

/-- The line of a field. -/
def Field.line (f : Field) : Bytes := f.name ++ 58 :: f.value

/-- A response header: what follows `HTTP/` on the status line, and the fields. -/
structure Header where
  status : Bytes
  fields : List Field
  status_ok : ∀ c ∈ status, c ≠ 0 ∧ c ≠ 10 ∧ c ≠ 13

namespace Header

/-- The lines of a header. -/
def lines (h : Header) : List Bytes := (ascii "HTTP/" ++ h.status) :: h.fields.map Field.line

/-- The lines as they are written, without the blank line. -/
def text (h : Header) : Bytes := [13, 10].intercalate h.lines

/-- The whole header. -/
def bytes (h : Header) : Bytes := h.text ++ blankLine

/-- The values of the fields of a name, which is given in lower case. -/
def values (fields : List Field) (name : Bytes) : List Bytes :=
  (fields.filter fun f => f.name.map toLower = name).map fun f => strTrim f.value

end Header

/-- A response over HTTP: its header gives the result code and the length of the data, each in
one field; the length may be left out when there is no data. Both fit an `int`, as does the
size of a string that holds the data. -/
structure HttpResponse where
  header : Header
  code : Int
  data : Bytes
  code_ok : -2147483648 ≤ code ∧ code < 2147483648
  data_ok : data.length + 1 < 2147483648
  result_field : Header.values header.fields (ascii "x-dcirpc-result") = [decimal code]
  length_field : Header.values header.fields (ascii "content-length") = [decimal data.length] ∨
    Header.values header.fields (ascii "content-length") = [] ∧ data = []

/-- The bytes of a response. -/
def HttpResponse.bytes (r : HttpResponse) : Bytes := r.header.bytes ++ r.data

/-! ## Lines -/

/-- A line: not empty, and without NUL, CR and LF. -/
def IsLine (l : Bytes) : Prop := l ≠ [] ∧ ∀ c ∈ l, c ≠ 0 ∧ c ≠ 10 ∧ c ≠ 13

theorem Field.isLine (f : Field) : IsLine f.line := by
  refine ⟨by simp [Field.line], fun c hc => ?_⟩
  rcases List.mem_append.mp hc with hname | hvalue
  · obtain ⟨hnul, -, hspace⟩ := f.name_ok c hname
    refine ⟨hnul, ?_, ?_⟩ <;>
      · rintro rfl
        exact absurd hspace (by decide)
  · rcases List.mem_cons.mp hvalue with rfl | hvalue
    · decide
    · exact f.value_ok c hvalue

theorem Header.isLine (h : Header) {l : Bytes} (hl : l ∈ h.lines) : IsLine l := by
  rcases List.mem_cons.mp hl with rfl | hl
  · refine ⟨by simp [ascii], fun c hc => ?_⟩
    rcases List.mem_append.mp hc with hc | hc
    · rw [show ascii "HTTP/" = [72, 84, 84, 80, 47] from rfl] at hc
      simp only [List.mem_cons, List.not_mem_nil, or_false] at hc
      rcases hc with rfl | rfl | rfl | rfl | rfl <;> decide
    · exact h.status_ok c hc
  · obtain ⟨f, -, rfl⟩ := List.mem_map.mp hl
    exact f.isLine

/-- Two lines and more. -/
theorem intercalate_cons_cons (sep a b : Bytes) (ls : List Bytes) :
    sep.intercalate (a :: b :: ls) = a ++ (sep ++ sep.intercalate (b :: ls)) := by
  simp [List.intercalate, List.intersperse]

@[simp] theorem intercalate_single (sep a : Bytes) : sep.intercalate [a] = a := by
  simp [List.intercalate]

/-- Lines start with no CR. -/
theorem head_intercalate {l : Bytes} (hl : IsLine l) (ls : List Bytes) (rest : Bytes) :
    ∃ c s, c ≠ 13 ∧ [13, 10].intercalate (l :: ls) ++ rest = c :: s := by
  obtain ⟨hne, hall⟩ := hl
  obtain ⟨c, s, rfl⟩ := List.exists_cons_of_ne_nil hne
  refine ⟨c, ?_⟩
  cases ls with
  | nil => exact ⟨s ++ rest, (hall c (by simp)).2.2, by simp⟩
  | cons b ls =>
      exact ⟨s ++ ([13, 10] ++ [13, 10].intercalate (b :: ls)) ++ rest,
        (hall c (by simp)).2.2, by simp⟩

/-- A line end that is not followed by another one is passed over. -/
theorem strstr_crlf {c : UInt8} (hc : c ≠ 13) (s : Bytes) :
    strstr blankLine (13 :: 10 :: c :: s) = (strstr blankLine (c :: s)).map (· + 2) := by
  have hfirst : ¬ blankLine <+: 13 :: 10 :: c :: s := by
    simp [blankLine, List.cons_prefix_cons, Ne.symm hc]
  have hsecond : ¬ blankLine <+: 10 :: c :: s := by
    simp [blankLine, List.cons_prefix_cons]
  rw [strstr, if_neg hfirst, strstr, if_neg hsecond, Option.map_map]
  rfl

/-- The first blank line of a text is the one behind its lines. -/
theorem strstr_lines (ls : List Bytes) (hls : ∀ l ∈ ls, IsLine l) (hne : ls ≠ [])
    (rest : Bytes) : strstr blankLine ([13, 10].intercalate ls ++ (blankLine ++ rest)) =
      some ([13, 10].intercalate ls).length := by
  induction ls with
  | nil => exact absurd rfl hne
  | cons l ls ih =>
      have hcr : (13 : UInt8) ∉ l := fun h => ((hls l (by simp)).2 13 h).2.2 rfl
      cases ls with
      | nil =>
          have hfound : strstr blankLine (blankLine ++ rest) = some 0 := by
            simp [blankLine, strstr, List.cons_prefix_cons]
          rw [intercalate_single, show blankLine = 13 :: [10, 13, 10] from rfl,
            strstr_append hcr]
          show (strstr blankLine (blankLine ++ rest)).map _ = _
          rw [hfound]
          simp
      | cons b ls =>
          have hrest := ih (fun l hl => hls l (List.mem_cons_of_mem _ hl)) (by simp)
          obtain ⟨c, s, hc, hs⟩ := head_intercalate (hls b (by simp)) ls (blankLine ++ rest)
          rw [hs] at hrest
          rw [intercalate_cons_cons, List.append_assoc, List.append_assoc, hs,
            show blankLine = 13 :: [10, 13, 10] from rfl, strstr_append hcr]
          show (strstr blankLine (13 :: 10 :: c :: s)).map _ = _
          rw [strstr_crlf hc, hrest]
          simp
          omega

/-- **A complete header ends where the first blank line is found.** -/
theorem Header.strstr_bytes (h : Header) (rest : Bytes) :
    strstr blankLine (h.bytes ++ rest) = some h.text.length := by
  unfold Header.bytes
  rw [List.append_assoc]
  exact strstr_lines h.lines (fun _ => h.isLine) (by simp [Header.lines]) rest

/-- **No blank line is found in a header that is not complete.** -/
theorem Header.strstr_take_bytes (h : Header) {n : Nat} (hn : n < h.bytes.length) :
    strstr blankLine (h.bytes.take n) = none := by
  have hfound := h.strstr_bytes []
  rw [List.append_nil] at hfound
  apply strstr_take (by decide) hfound
  simpa [Header.bytes] using hn

theorem nulFree_intercalate (ls : List Bytes) (hls : ∀ l ∈ ls, IsLine l) :
    NulFree ([13, 10].intercalate ls) := by
  induction ls with
  | nil => simp [NulFree, List.intercalate]
  | cons l ls ih =>
      have hl : NulFree l := fun h => ((hls l (by simp)).2 0 h).1 rfl
      have hrest := ih fun l hl => hls l (List.mem_cons_of_mem _ hl)
      cases ls with
      | nil => simpa using hl
      | cons b ls =>
          rw [intercalate_cons_cons]
          simp only [NulFree, List.mem_append] at hl hrest ⊢
          simpa using ⟨hl, hrest⟩

theorem Header.nulFree_bytes (h : Header) : NulFree h.bytes := by
  have htext := nulFree_intercalate h.lines fun _ => h.isLine
  unfold Header.bytes Header.text
  simp only [NulFree, List.mem_append] at htext ⊢
  simpa [blankLine] using htext

/-! ## Parsing -/

/-- The CR before a line end is trimmed. -/
theorem strTrim_concat_cr (l : Bytes) : strTrim (l ++ [13]) = strTrim l := by
  unfold strTrim
  rw [List.rdropWhile_concat_pos _ _ _ (by decide)]

/-- Trimming stops at a character that is no white space. -/
theorem rdropWhile_append_cons (p : UInt8 → Bool) (as bs : Bytes) {c : UInt8} (hc : p c = false) :
    (as ++ c :: bs).rdropWhile p = as ++ c :: bs.rdropWhile p := by
  induction bs using List.reverseRecOn with
  | nil => simp [List.rdropWhile_concat_neg, hc]
  | append_singleton bs b ih =>
      rw [← List.cons_append, ← List.append_assoc]
      by_cases hb : p b = true
      · rw [List.rdropWhile_concat_pos _ _ _ hb, List.rdropWhile_concat_pos _ _ _ hb, ih]
      · rw [List.rdropWhile_concat_neg _ _ _ hb, List.rdropWhile_concat_neg _ _ _ hb]
        simp

/-- Of a field only the end of its line is trimmed. -/
theorem strTrim_line (f : Field) :
    strTrim f.line = f.name ++ 58 :: f.value.rdropWhile isSpace := by
  unfold strTrim Field.line
  rw [rdropWhile_append_cons _ _ _ (by decide)]
  cases hname : f.name with
  | nil => rfl
  | cons c s =>
      have hspace : isSpace c = false := (f.name_ok c (by simp [hname])).2.2
      simp [hspace]

/-- A name followed by a colon starts a line exactly if it is the line's name. -/
theorem colon_prefix_iff (h n v : Bytes) (hh : 58 ∉ h) (hn : 58 ∉ n) :
    h ++ [58] <+: n ++ 58 :: v ↔ n = h := by
  induction h generalizing n with
  | nil =>
      cases n with
      | nil => simp
      | cons a n =>
          have hne : (58 : UInt8) ≠ a := fun h => hn (by simp [h])
          simp [List.cons_prefix_cons, hne]
  | cons b h ih =>
      have hb : (58 : UInt8) ≠ b := fun h => hh (by simp [h])
      cases n with
      | nil => simp [List.cons_prefix_cons, Ne.symm hb]
      | cons a n =>
          have := ih n (fun h => hh (List.mem_cons_of_mem _ h))
            (fun h => hn (List.mem_cons_of_mem _ h))
          simp [List.cons_prefix_cons, this, eq_comm]

theorem toLower_eq_colon {c : UInt8} (h : toLower c = 58) : c = 58 := by
  unfold toLower at h
  split_ifs at h with hc
  · obtain ⟨hlo, hhi⟩ := hc
    have hnat := congrArg UInt8.toNat h
    rw [UInt8.le_iff_toNat_le] at hlo hhi
    rw [UInt8.toNat_add] at hnat
    simp only [UInt8.reduceToNat] at hlo hhi hnat
    omega
  · exact h

/-- The test for a header name is the comparison of the field's name. -/
theorem hasPrefix_line (f : Field) (h v : Bytes) (hh : 58 ∉ h) :
    hasPrefix (h ++ [58]) (f.name ++ 58 :: v) = decide (f.name.map toLower = h) := by
  have hname : 58 ∉ f.name.map toLower := by
    intro hmem
    obtain ⟨c, hc, heq⟩ := List.mem_map.mp hmem
    exact (f.name_ok c hc).2.1 (toLower_eq_colon heq)
  have hiff := colon_prefix_iff h (f.name.map toLower) (v.map toLower) hh hname
  rw [List.prefix_iff_eq_take] at hiff
  have hmap : (f.name ++ 58 :: v).map toLower = f.name.map toLower ++ 58 :: v.map toLower := by
    simp [show toLower 58 = 58 from rfl]
  unfold hasPrefix
  rw [List.map_take, hmap]
  simpa [eq_comm] using hiff.symm

/-- The value of a field whose name is `h`. -/
theorem strTrim_drop_line (f : Field) {h : Bytes} (hname : f.name.map toLower = h) :
    strTrim ((strTrim f.line).drop (h ++ [58]).length) = strTrim f.value := by
  have hlen : (h ++ [58]).length = (f.name ++ [58]).length := by simp [← hname]
  have hsplit : f.name ++ 58 :: f.value.rdropWhile isSpace =
      (f.name ++ [58]) ++ f.value.rdropWhile isSpace := by simp
  rw [strTrim_line, hlen, hsplit, List.drop_left]
  unfold strTrim
  rw [List.rdropWhile_idempotent]

/-- The last value given, if any. -/
def last (o : Option Bytes) (vs : List Bytes) : Option Bytes := vs.foldl (fun _ v => some v) o

/-- One more field of a name. -/
theorem last_values_cons (o : Option Bytes) (f : Field) (fields : List Field) (name : Bytes) :
    last o (Header.values (f :: fields) name) =
      last (if f.name.map toLower = name then some (strTrim f.value) else o)
        (Header.values fields name) := by
  unfold last Header.values
  by_cases h : f.name.map toLower = name <;> simp [h]

/-- The pointers after a field: the one of its name, if it is one of the three, is moved. -/
theorem line_field (found : Found) (f : Field) :
    found.line f.line =
      { r := if f.name.map toLower = ascii "x-dcirpc-result" then some (strTrim f.value)
          else found.r
        l := if f.name.map toLower = ascii "content-length" then some (strTrim f.value)
          else found.l
        c := if f.name.map toLower = ascii "connection" then some (strTrim f.value)
          else found.c } := by
  have hprefix : ∀ h, 58 ∉ h →
      hasPrefix (h ++ [58]) (strTrim f.line) = decide (f.name.map toLower = h) := by
    intro h hh
    rw [strTrim_line]
    exact hasPrefix_line f h _ hh
  have hrname := hprefix (ascii "x-dcirpc-result") (by decide)
  have hlname := hprefix (ascii "content-length") (by decide)
  have hcname := hprefix (ascii "connection") (by decide)
  have hrl : ascii "x-dcirpc-result" ≠ ascii "content-length" := by decide
  have hrc : ascii "x-dcirpc-result" ≠ ascii "connection" := by decide
  have hlc : ascii "content-length" ≠ ascii "connection" := by decide
  have hvalue := fun h (hname : f.name.map toLower = h) => strTrim_drop_line f hname
  unfold Found.line
  rw [show rhdr = ascii "x-dcirpc-result" ++ [58] from rfl,
    show lhdr = ascii "content-length" ++ [58] from rfl,
    show chdr = ascii "connection" ++ [58] from rfl]
  simp only [hrname, hlname, hcname, decide_eq_true_eq]
  by_cases hr : f.name.map toLower = ascii "x-dcirpc-result"
  · have hl : f.name.map toLower ≠ ascii "content-length" := fun h => hrl (hr.symm.trans h)
    have hc : f.name.map toLower ≠ ascii "connection" := fun h => hrc (hr.symm.trans h)
    rw [if_pos hr, if_pos hr, if_neg hl, if_neg hc, hvalue _ hr]
  by_cases hl : f.name.map toLower = ascii "content-length"
  · have hc : f.name.map toLower ≠ ascii "connection" := fun h => hlc (hl.symm.trans h)
    rw [if_neg hr, if_neg hr, if_pos hl, if_pos hl, if_neg hc, hvalue _ hl]
  by_cases hc : f.name.map toLower = ascii "connection"
  · rw [if_neg hr, if_neg hr, if_neg hl, if_neg hl, if_pos hc, if_pos hc, hvalue _ hc]
  · rw [if_neg hr, if_neg hr, if_neg hl, if_neg hl, if_neg hc, if_neg hc]

/-- The pointers after all fields of a header. -/
theorem foldl_line_fields (found : Found) (fields : List Field) :
    (fields.map Field.line).foldl Found.line found =
      { r := last found.r (Header.values fields (ascii "x-dcirpc-result"))
        l := last found.l (Header.values fields (ascii "content-length"))
        c := last found.c (Header.values fields (ascii "connection")) } := by
  induction fields generalizing found with
  | nil => rfl
  | cons f fields ih =>
      rw [List.map_cons, List.foldl_cons, ih, line_field]
      simp only [last_values_cons]

/-- The status line gives nothing. -/
theorem line_status (found : Found) (status : Bytes) :
    found.line (ascii "HTTP/" ++ status) = found := by
  have htrim : ∃ rest, strTrim (ascii "HTTP/" ++ status) = ascii "HTTP/" ++ rest := by
    refine ⟨status.rdropWhile isSpace, ?_⟩
    unfold strTrim
    rw [show ascii "HTTP/" ++ status = ascii "HTTP" ++ 47 :: status from rfl,
      rdropWhile_append_cons _ _ _ (by decide)]
    rfl
  obtain ⟨rest, hrest⟩ := htrim
  have hno : ∀ hdr : Bytes, hdr.head? ≠ some 104 → hdr ≠ [] →
      hasPrefix hdr (ascii "HTTP/" ++ rest) = false := by
    intro hdr hhead hne
    obtain ⟨b, hdr, rfl⟩ := List.exists_cons_of_ne_nil hne
    have hb : 104 ≠ b := fun h => hhead (by simp [h])
    have hcons : ascii "HTTP/" ++ rest = 72 :: (ascii "TTP/" ++ rest) := rfl
    simp [hasPrefix, hcons, show toLower 72 = 104 from rfl, hb]
  unfold Found.line
  rw [hrest]
  simp [hno rhdr (by decide) (by decide), hno lhdr (by decide) (by decide),
    hno chdr (by decide) (by decide)]

/-- The lines of a text, as the parser cuts them. -/
theorem splitOn_intercalate (l : Bytes) (ls : List Bytes) (hls : ∀ k ∈ l :: ls, IsLine k) :
    (([13, 10].intercalate (l :: ls)).splitOn 10).map strTrim = (l :: ls).map strTrim := by
  induction ls generalizing l with
  | nil =>
      have hlf : ∀ c ∈ l, (c == 10) = false := by
        intro c hc
        simpa using ((hls l (by simp)).2 c hc).2.1
      rw [intercalate_single, List.splitOn, List.splitOnP_eq_singleton hlf]
  | cons b ls ih =>
      have hlf : ∀ c ∈ l ++ [13], (c == 10) = false := by
        intro c hc
        rcases List.mem_append.mp hc with hc | hc
        · simpa using ((hls l (by simp)).2 c hc).2.1
        · obtain rfl : c = 13 := by simpa using hc
          decide
      have hrest := ih b fun k hk => hls k (List.mem_cons_of_mem _ hk)
      have hcut : [13, 10].intercalate (l :: b :: ls) =
          (l ++ [13]) ++ 10 :: [13, 10].intercalate (b :: ls) := by
        rw [intercalate_cons_cons]
        simp
      rw [hcut, List.splitOn, List.splitOnP_append_cons_of_forall_mem hlf 10 (by decide),
        List.map_cons,
        List.map_cons, strTrim_concat_cr]
      exact congrArg _ hrest

/-- The parser sees a line through `Ns_StrTrim`. -/
theorem foldl_line_congr (found : Found) {ls ks : List Bytes}
    (h : ls.map strTrim = ks.map strTrim) :
    ls.foldl Found.line found = ks.foldl Found.line found := by
  have hfold : ∀ (found : Found) (ls : List Bytes), ls.foldl Found.line found =
      (ls.map strTrim).foldl (fun f q =>
        if hasPrefix rhdr q then { f with r := some (strTrim (q.drop rhdr.length)) }
        else if hasPrefix lhdr q then { f with l := some (strTrim (q.drop lhdr.length)) }
        else if hasPrefix chdr q then { f with c := some (strTrim (q.drop chdr.length)) }
        else f) found := by
    intro found ls
    rw [List.foldl_map]
    rfl
  rw [hfold, hfold, h]

/-- **`RpcParseHttp` reads the result code and the length of the data.** -/
theorem rpcParseHttp_text (tcl : TclGetInt) (r : HttpResponse) :
    ∃ keep, rpcParseHttp tcl r.header.text = some ⟨r.code, r.data.length, keep⟩ := by
  have hlines := splitOn_intercalate (ascii "HTTP/" ++ r.header.status)
    (r.header.fields.map Field.line) fun _ => r.header.isLine
  have hcode := tcl.getInt_decimal r.code r.code_ok.1 r.code_ok.2
  have hdata := r.data_ok
  have hlen := tcl.getInt_decimal r.data.length (by omega) (by omega)
  unfold rpcParseHttp
  rw [Header.text, Header.lines, foldl_line_congr {} hlines, List.foldl_cons, line_status,
    foldl_line_fields, r.result_field]
  rcases r.length_field with hfield | ⟨hfield, hnil⟩
  · rw [hfield]
    simp [last, hcode, hlen]
  · rw [hfield]
    simp [last, hcode, hnil]

end Nsdci.Rpc
