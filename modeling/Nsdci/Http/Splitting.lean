import Nsdci.Http.Response
import Mathlib.Data.List.Infix

/-!
# Responses and how they are read

`Blank` says where a blank line begins. Both ends of a header that `HttpProc` looks for are at one,
and `splitHeader` stops at the first. While there is none in what was read, everything stays in
`rbuf` (`foldl_before`), and the read that completes one decides (`foldl_through`). The main result
is `response_split_iff`.
-/

namespace Nsdci.Http

open Lib

/-! ## Blank lines -/

/-- A blank line begins here, in a text that begins at the start of a line or not. -/
def Blank (start : Bool) (s : Bytes) (i : Nat) : Prop :=
  (if i = 0 then start = true else s[i - 1]? = some 10) ∧
    (s[i]? = some 10 ∨ s[i]? = some 13 ∧ s[i + 1]? = some 10)

theorem blank_cons_zero (start : Bool) (c : UInt8) (s : Bytes) :
    Blank start (c :: s) 0 ↔ start = true ∧ (c = 10 ∨ c = 13 ∧ s[0]? = some 10) := by
  simp [Blank]

theorem blank_cons_succ (start : Bool) (c : UInt8) (s : Bytes) (i : Nat) :
    Blank start (c :: s) (i + 1) ↔ Blank (c = 10) s i := by
  cases i <;> simp [Blank]

theorem blank_of_crlfCrlf {s : Bytes} {e : Nat} (h : crlfCrlf <+: s.drop e) :
    Blank true s (e + 2) ∧ s[e]? = some 13 ∧ s[e + 1]? = some 10 ∧ s[e + 2]? = some 13 ∧
      s[e + 3]? = some 10 := by
  obtain ⟨rest, hrest⟩ := h
  have hat : ∀ i, i < 4 → s[e + i]? = crlfCrlf[i]? := by
    intro i hi
    rw [← List.getElem?_drop, ← hrest, List.getElem?_append_left hi]
  have h0 := hat 0 (by omega)
  have h1 := hat 1 (by omega)
  have h2 := hat 2 (by omega)
  have h3 := hat 3 (by omega)
  exact ⟨⟨h1, Or.inr ⟨h2, h3⟩⟩, h0, h1, h2, h3⟩

theorem blank_of_lfLf {s : Bytes} {e : Nat} (h : lfLf <+: s.drop e) :
    Blank true s (e + 1) ∧ s[e]? = some 10 ∧ s[e + 1]? = some 10 := by
  obtain ⟨rest, hrest⟩ := h
  have hat : ∀ i, i < 2 → s[e + i]? = lfLf[i]? := by
    intro i hi
    rw [← List.getElem?_drop, ← hrest, List.getElem?_append_left hi]
  have h0 := hat 0 (by omega)
  have h1 := hat 1 (by omega)
  exact ⟨⟨h0, Or.inl h1⟩, h0, h1⟩

/-- A split is at the first blank line. -/
theorem splitHeader_some {start : Bool} {s header content : Bytes}
    (h : splitHeader start s = some (header, content)) :
    (s = header ++ 10 :: content ∨ s = header ++ 13 :: 10 :: content) ∧
      Blank start s header.length ∧ ∀ i, Blank start s i → header.length ≤ i := by
  induction s generalizing start header with
  | nil => exact nomatch h
  | cons c s ih =>
      rw [splitHeader] at h
      split_ifs at h with hlf hcr
      · obtain ⟨rfl, rfl⟩ := Prod.mk.inj (Option.some.inj h)
        exact ⟨Or.inl (congrArg (· :: s) hlf.2),
          (blank_cons_zero _ _ _).mpr ⟨hlf.1, Or.inl hlf.2⟩, fun i _ => Nat.zero_le i⟩
      · obtain ⟨rfl, rfl⟩ := Prod.mk.inj (Option.some.inj h)
        obtain ⟨hstart, rfl, hhead⟩ := hcr
        obtain ⟨rest, rfl⟩ := List.head?_eq_some_iff.mp hhead
        exact ⟨Or.inr rfl, (blank_cons_zero _ _ _).mpr ⟨hstart, Or.inr ⟨rfl, rfl⟩⟩,
          fun i _ => Nat.zero_le i⟩
      · obtain ⟨⟨front, rest⟩, hrest, heq⟩ := Option.map_eq_some_iff.mp h
        obtain ⟨rfl, rfl⟩ := Prod.mk.inj heq
        obtain ⟨hs, hblank, hfirst⟩ := ih hrest
        refine ⟨?_, (blank_cons_succ _ _ _ _).mpr hblank, fun i hi => ?_⟩
        · rcases hs with hs | hs
          · exact Or.inl (congrArg (c :: ·) hs)
          · exact Or.inr (congrArg (c :: ·) hs)
        · cases i with
          | zero =>
              obtain ⟨hstart, hc | ⟨hc, hhead⟩⟩ := (blank_cons_zero _ _ _).mp hi
              · exact absurd ⟨hstart, hc⟩ hlf
              · exact absurd ⟨hstart, hc, by rwa [List.head?_eq_getElem?]⟩ hcr
          | succ i => exact Nat.succ_le_succ (hfirst i ((blank_cons_succ _ _ _ _).mp hi))

/-- Without a blank line there is no split. -/
theorem not_blank_of_none {start : Bool} {s : Bytes} (h : splitHeader start s = none) (i : Nat) :
    ¬ Blank start s i := by
  induction s generalizing start i with
  | nil => simp [Blank]
  | cons c s ih =>
      rw [splitHeader] at h
      split_ifs at h with hlf hcr
      intro hi
      cases i with
      | zero =>
          obtain ⟨hstart, hc | ⟨hc, hhead⟩⟩ := (blank_cons_zero _ _ _).mp hi
          · exact hlf ⟨hstart, hc⟩
          · exact hcr ⟨hstart, hc, by rwa [List.head?_eq_getElem?]⟩
      | succ i => exact ih (Option.map_eq_none_iff.mp h) i ((blank_cons_succ _ _ _ _).mp hi)

/-! ## What is found in the part that was read -/

/-- A pattern in the C string of the first bytes is there. -/
theorem prefix_drop_of_strstr {pat s : Bytes} {k e : Nat} (hpat : pat ≠ [])
    (h : strstr pat (cstr (s.take k)) = some e) : pat <+: s.drop e ∧ e + pat.length ≤ k := by
  have hpre := prefix_of_strstr h
  have hcstr : cstr (s.take k) <+: s.take k := List.takeWhile_prefix _
  have hlen := hpre.length_le
  have hle := hcstr.length_le
  have hpos := List.length_pos_iff.mpr hpat
  rw [List.length_drop] at hlen
  rw [List.length_take] at hle
  exact ⟨hpre.trans (List.IsPrefix.drop (hcstr.trans (List.take_prefix k s)) e), by omega⟩

/-- What is found is the end of a header. -/
theorem findEoh_spec {s : Bytes} {k e skip : Nat}
    (h : findEoh (cstr (s.take k)) = some (e, skip)) :
    (skip = 2 ∧ crlfCrlf <+: s.drop e ∧ e + 4 ≤ k) ∨
      (skip = 1 ∧ lfLf <+: s.drop e ∧ e + 2 ≤ k) := by
  rw [findEoh] at h
  cases hcrlf : strstr crlfCrlf (cstr (s.take k)) with
  | some eoh =>
      rw [hcrlf] at h
      obtain ⟨rfl, rfl⟩ := Prod.mk.inj (Option.some.inj h)
      exact Or.inl ⟨rfl, prefix_drop_of_strstr (by decide) hcrlf⟩
  | none =>
      rw [hcrlf] at h
      obtain ⟨eoh, hlf, heq⟩ := Option.map_eq_some_iff.mp h
      obtain ⟨rfl, rfl⟩ := Prod.mk.inj heq
      exact Or.inr ⟨rfl, prefix_drop_of_strstr (by decide) hlf⟩

/-- A pattern that is there, with no NUL before its end, is found no later. -/
theorem exists_strstr_cstr {pat s : Bytes} {k e : Nat} (hpat : pat <+: s.drop e)
    (hfree : NulFree (s.take (e + pat.length))) (hk : e + pat.length ≤ k) :
    ∃ e' ≤ e, strstr pat (cstr (s.take k)) = some e' := by
  refine exists_strstr ?_
  have htake : (s.take k).take (e + pat.length) = s.take (e + pat.length) := by
    rw [List.take_take, min_eq_left hk]
  have hinside : pat <+: (s.take (e + pat.length)).drop e := by
    rw [List.drop_take, Nat.add_sub_cancel_left, ← List.prefix_iff_eq_take.mp hpat]
  rw [← List.take_append_drop (e + pat.length) (s.take k), htake, cstr_append hfree]
  exact hinside.trans (List.IsPrefix.drop (List.prefix_append _ _) e)

/-- **What is looked for is found when the blank line is complete.** -/
theorem findEoh_none {s : Bytes} {p k : Nat} (hfirst : ∀ i, Blank true s i → p ≤ i)
    (hk : k ≤ p ∨ k = p + 1 ∧ s[p]? = some 13) : findEoh (cstr (s.take k)) = none := by
  by_contra hne
  obtain ⟨⟨e, skip⟩, hfound⟩ := Option.ne_none_iff_exists'.mp hne
  rcases findEoh_spec hfound with ⟨-, hpat, hle⟩ | ⟨-, hpat, hle⟩
  · have := hfirst _ (blank_of_crlfCrlf hpat).1
    omega
  · obtain ⟨hblank, -, hlf⟩ := blank_of_lfLf hpat
    have hp := hfirst _ hblank
    rcases hk with hk | ⟨rfl, hcr⟩
    · omega
    · obtain rfl : e + 1 = p := by omega
      rw [hlf] at hcr
      exact absurd hcr (by decide)

theorem drop_of_getElem? {s : Bytes} {i : Nat} {c : UInt8} (h : s[i]? = some c) :
    s.drop i = c :: s.drop (i + 1) := by
  obtain ⟨hi, rfl⟩ := List.getElem?_eq_some_iff.mp h
  exact List.drop_eq_getElem_cons hi

/-- With CR on both lines, CR LF CR LF is found. -/
theorem findEoh_crlf {s header content : Bytes} {k : Nat}
    (hs : s = header ++ 13 :: 10 :: content) (hfirst : ∀ i, Blank true s i → header.length ≤ i)
    (hfree : NulFree header) (hcrlf : [13, 10] <:+ header) (hk : header.length + 2 ≤ k) :
    ∃ e, findEoh (cstr (s.take k)) = some (e, 2) ∧ e + 2 = header.length := by
  obtain ⟨front, rfl⟩ := hcrlf
  have hlen : (front ++ [13, 10]).length = front.length + 2 := List.length_append
  have htake : s.take (front.length + 4) = (front ++ [13, 10]) ++ [13, 10] := by
    have hsplit : s = ((front ++ [13, 10]) ++ [13, 10]) ++ content := by
      rw [hs, List.append_assoc (front ++ [13, 10])]
      rfl
    rw [hsplit]
    exact List.take_left' (by rw [List.length_append, hlen]; rfl)
  have hpat : crlfCrlf <+: s.drop front.length := by
    rw [hs, List.append_assoc, List.drop_left]
    exact List.prefix_append _ content
  have hend : front.length + crlfCrlf.length ≤ k := by
    rw [hlen] at hk
    exact hk
  have hfree' : NulFree (s.take (front.length + crlfCrlf.length)) := by
    show NulFree (s.take (front.length + 4))
    rw [htake]
    intro hzero
    rcases List.mem_append.mp hzero with hzero | hzero
    · exact hfree hzero
    · exact absurd hzero (by decide)
  obtain ⟨e, he, hfound⟩ := exists_strstr_cstr hpat hfree' hend
  have hblank := (blank_of_crlfCrlf (prefix_drop_of_strstr (by decide) hfound).1).1
  have hp := hfirst _ hblank
  refine ⟨e, by rw [findEoh, hfound], by omega⟩

/-- With no CR on the blank line, two LF are found, unless CR LF CR LF is in what was read. -/
theorem findEoh_lf {s header content : Bytes} {k : Nat}
    (hs : s = header ++ 10 :: content) (hblank : Blank true s header.length)
    (hfirst : ∀ i, Blank true s i → header.length ≤ i)
    (hfree : NulFree header) (hne : header ≠ []) (hk : header.length + 1 ≤ k)
    (hsafe : ∀ j, strstr crlfCrlf (cstr content) = some j → k < header.length + j + 5) :
    ∃ e, findEoh (cstr (s.take k)) = some (e, 1) ∧ e + 1 = header.length := by
  have hpos := List.length_pos_iff.mpr hne
  have hlf : s[header.length]? = some 10 := by
    rw [hs, List.getElem?_append_right le_rfl, Nat.sub_self]
    rfl
  have hlast : s[header.length - 1]? = some 10 := by
    have hstart := hblank.1
    rwa [if_neg (by omega)] at hstart
  have hfree' : NulFree (header ++ [10]) := by
    intro hzero
    rcases List.mem_append.mp hzero with hzero | hzero
    · exact hfree hzero
    · exact absurd hzero (by decide)
  have hsplit : header ++ 10 :: content = (header ++ [10]) ++ content := by
    rw [List.append_assoc]
    rfl
  have hcrlf : strstr crlfCrlf (cstr (s.take k)) = none := by
    by_contra hsome
    obtain ⟨e, he⟩ := Option.ne_none_iff_exists'.mp hsome
    obtain ⟨hpat, hle⟩ := prefix_drop_of_strstr (by decide) he
    obtain ⟨hblank', h0, h1, h2, -⟩ := blank_of_crlfCrlf hpat
    have hp := hfirst _ hblank'
    have hne0 : e ≠ header.length := by
      rintro rfl
      rw [hlf] at h0
      exact absurd h0 (by decide)
    have hne1 : e ≠ header.length - 1 := by
      rintro rfl
      rw [hlast] at h0
      exact absurd h0 (by decide)
    have hne2 : e + 2 ≠ header.length := by
      intro h
      rw [h, hlf] at h2
      exact absurd h2 (by decide)
    -- so it is behind the blank line, where one read can bring it
    obtain ⟨j, rfl⟩ : ∃ j, e = header.length + 1 + j := ⟨e - (header.length + 1), by omega⟩
    have htake : s.take k = (header ++ [10]) ++ content.take (k - (header.length + 1)) := by
      rw [hs, hsplit, List.take_append, List.take_of_length_le (by simp; omega)]
      simp
    have hinside : crlfCrlf <+: (cstr content).drop j := by
      have hpre := prefix_of_strstr he
      have hwhole : cstr (content.take (k - (header.length + 1))) <+: cstr content := by
        have hfront := cstr_prefix (content.take (k - (header.length + 1)))
          (content.drop (k - (header.length + 1)))
        rwa [List.take_append_drop] at hfront
      have hlen : (header ++ [10]).length = header.length + 1 := List.length_append
      rw [htake, cstr_append hfree', show header.length + 1 + j = (header ++ [10]).length + j by
        rw [hlen], List.drop_length_add_append] at hpre
      exact hpre.trans (List.IsPrefix.drop hwhole j)
    obtain ⟨i, hi, hfound⟩ := exists_strstr hinside
    have hlong := hsafe i hfound
    have hfour : crlfCrlf.length = 4 := rfl
    omega
  have hpat : lfLf <+: s.drop (header.length - 1) := by
    rw [drop_of_getElem? hlast, Nat.sub_add_cancel hpos, drop_of_getElem? hlf]
    exact List.prefix_append [10, 10] _
  have hlen : header.length - 1 + lfLf.length = (header ++ [10]).length := by
    rw [List.length_append]
    show header.length - 1 + 2 = header.length + 1
    omega
  have hend : header.length - 1 + lfLf.length ≤ k := by
    rw [hlen, List.length_append]
    exact hk
  obtain ⟨e, he, hfound⟩ := exists_strstr_cstr hpat
    (by rwa [hlen, hs, hsplit, List.take_left]) hend
  have hblank' := (blank_of_lfLf (prefix_drop_of_strstr (by decide) hfound).1).1
  have hp := hfirst _ hblank'
  refine ⟨e, by rw [findEoh, hcrlf, hfound]; rfl, by omega⟩

/-- What is found in the first bytes is in more of them, or something before it. -/
theorem findEoh_ne_none {s : Bytes} {k k' : Nat} (h : findEoh (cstr (s.take k)) ≠ none)
    (hk : k ≤ k') : findEoh (cstr (s.take k')) ≠ none := by
  have hpre : cstr (s.take k) <+: cstr (s.take k') := by
    have hfront := cstr_prefix ((s.take k').take k) ((s.take k').drop k)
    rwa [List.take_append_drop, List.take_take, min_eq_left hk] at hfront
  intro hnone
  rw [findEoh] at h hnone
  cases hcrlf : strstr crlfCrlf (cstr (s.take k')) with
  | some e =>
      rw [hcrlf] at hnone
      exact nomatch hnone
  | none =>
      rw [hcrlf] at hnone
      have hlf := Option.map_eq_none_iff.mp hnone
      cases hcrlf' : strstr crlfCrlf (cstr (s.take k)) with
      | some e =>
          obtain ⟨i, -, hi⟩ :=
            exists_strstr ((prefix_of_strstr hcrlf').trans (List.IsPrefix.drop hpre e))
          rw [hcrlf] at hi
          exact nomatch hi
      | none =>
          rw [hcrlf'] at h
          obtain ⟨⟨e, skip⟩, he⟩ := Option.ne_none_iff_exists'.mp h
          obtain ⟨e, he, -⟩ := Option.map_eq_some_iff.mp he
          obtain ⟨i, -, hi⟩ :=
            exists_strstr ((prefix_of_strstr he).trans (List.IsPrefix.drop hpre e))
          rw [hlf] at hi
          exact nomatch hi

/-! ## Reads -/

/-- Behind the header, everything is copied. -/
theorem foldl_httpProc_eoh (reads : List Bytes) (rbuf copied : Bytes) :
    reads.foldl httpProc ⟨rbuf, true, copied⟩ = ⟨rbuf, true, copied ++ reads.flatten⟩ := by
  induction reads generalizing copied with
  | nil => exact congrArg (Reply.mk rbuf true) (List.append_nil copied).symm
  | cons buf reads ih =>
      show reads.foldl httpProc ⟨rbuf, true, copied ++ buf⟩ = _
      rw [ih, List.append_assoc]
      rfl

/-- The header is a C string in the buffer. -/
theorem cstr_set_take {r : Bytes} {p t : Nat} (hp : p < t) (ht : t ≤ r.length) :
    cstr ((r.set p 0).take t) = cstr (r.take p) := by
  have hlen : (r.take p).length = p := List.length_take_of_le (by omega)
  obtain ⟨m, hm⟩ : ∃ m, t - p = m + 1 := ⟨t - p - 1, by omega⟩
  rw [List.set_eq_take_append_cons_drop, if_pos (by omega), List.take_append, hlen,
    List.take_of_length_le (by omega), hm, List.take_succ_cons, cstr_append_zero]

/-- The read with which something is found. -/
theorem httpProc_found {s : Bytes} {n e skip : Nat} {buf : Bytes}
    (htake : s.take n ++ buf = s.take (n + buf.length)) (hlen : n + buf.length ≤ s.length)
    (hfound : findEoh (cstr (s.take (n + buf.length))) = some (e, skip)) :
    ∃ rbuf, httpProc ⟨s.take n, false, []⟩ buf =
        ⟨rbuf, true, (s.take (n + buf.length)).drop (e + skip * 2)⟩ ∧
      cstr rbuf = cstr (s.take (e + skip)) ∧ e + skip * 2 ≤ n + buf.length := by
  have hsize : e + skip * 2 ≤ n + buf.length ∧ 0 < skip := by
    rcases findEoh_spec hfound with ⟨rfl, -, hle⟩ | ⟨rfl, -, hle⟩ <;> omega
  refine ⟨((s.take (n + buf.length)).set (e + skip) 0).take (e + skip * 2), ?_, ?_, hsize.1⟩
  · rw [httpProc, if_neg (by simp)]
    dsimp only
    rw [htake, hfound]
    rfl
  · rw [cstr_set_take (by omega) (by rw [List.length_take]; omega), List.take_take,
      min_eq_left (by omega)]

/-- **What the reads of a response come to.** Nothing is found in any part, or what one read
completes decides. -/
theorem foldl_httpProc {s : Bytes} {bufsize n : Nat}
    (hn : findEoh (cstr (s.take n)) = none) (hle : n ≤ s.length) {reads : List Bytes}
    (hflat : reads.flatten = s.drop n) (hsizes : ∀ buf ∈ reads, buf.length ≤ bufsize) :
    (reads.foldl httpProc ⟨s.take n, false, []⟩ = ⟨s, false, []⟩ ∧
        findEoh (cstr (s.take s.length)) = none) ∨
      ∃ n' k e skip, findEoh (cstr (s.take n')) = none ∧ k ≤ n' + bufsize ∧
        findEoh (cstr (s.take k)) = some (e, skip) ∧
        cstr (reads.foldl httpProc ⟨s.take n, false, []⟩).rbuf = cstr (s.take (e + skip)) ∧
        (reads.foldl httpProc ⟨s.take n, false, []⟩).copied = s.drop (e + skip * 2) := by
  induction reads generalizing n with
  | nil =>
      have hall : s.length ≤ n := List.drop_eq_nil_iff.mp hflat.symm
      rw [List.take_of_length_le hall] at hn ⊢
      exact Or.inl ⟨rfl, by rwa [List.take_length]⟩
  | cons buf reads ih =>
      rw [List.flatten_cons] at hflat
      have hlen : n + buf.length ≤ s.length := by
        have hlength := congrArg List.length hflat
        rw [List.length_append, List.length_drop] at hlength
        omega
      have htake : s.take n ++ buf = s.take (n + buf.length) := by
        rw [List.take_add, ← hflat, List.take_left]
      have hdrop : s.drop (n + buf.length) = reads.flatten := by
        rw [← List.drop_drop, ← hflat, List.drop_left]
      obtain ⟨hbuf, hrest⟩ := List.forall_mem_cons.mp hsizes
      rw [List.foldl_cons]
      cases hfound : findEoh (cstr (s.take (n + buf.length))) with
      | none =>
          have hstep : httpProc ⟨s.take n, false, []⟩ buf =
              ⟨s.take (n + buf.length), false, []⟩ := by
            rw [httpProc, if_neg (by simp)]
            dsimp only
            rw [htake, hfound]
          rw [hstep]
          exact ih hfound hlen hdrop.symm hrest
      | some r =>
          obtain ⟨e, skip⟩ := r
          obtain ⟨rbuf, hstep, hrbuf, hsize⟩ := httpProc_found htake hlen hfound
          refine Or.inr ⟨n, n + buf.length, e, skip, hn, by omega, hfound, ?_, ?_⟩
          · rw [hstep, foldl_httpProc_eoh]
            exact hrbuf
          · rw [hstep, foldl_httpProc_eoh, ← hdrop]
            dsimp only
            rw [← List.drop_append_of_le_length (by rw [List.length_take]; omega),
              List.take_append_drop]

/-- The bytes one by one. -/
def singles (s : Bytes) : List Bytes := s.map fun c => [c]

theorem flatten_singles (s : Bytes) : (singles s).flatten = s := by
  induction s with
  | nil => rfl
  | cons c s ih => exact congrArg (c :: ·) ih

theorem reads_singles (bufsize : BufSize) (s : Bytes) : Reads bufsize s (singles s) := by
  refine ⟨flatten_singles s, fun buf hbuf => ?_⟩
  obtain ⟨c, -, rfl⟩ := List.mem_map.mp hbuf
  exact ⟨List.cons_ne_nil c [], bufsize.2⟩

/-- Nothing is found in nothing. -/
theorem findEoh_zero (s : Bytes) : findEoh (cstr (s.take 0)) = none := by
  rw [List.take_zero]
  rfl

section Deliver

variable {H : Type} (nsParseHeader : H → Bytes → Option H) (hdrs : H) {bufsize : BufSize}
  {response : Bytes}

/-- A response without a blank line is all header. -/
theorem deliver_of_none (hsplit : splitHeader true response = none) {reads : List Bytes}
    (hreads : Reads bufsize response reads) :
    deliver nsParseHeader hdrs reads = httpParse nsParseHeader hdrs (cstr response) [] := by
  have hno : ∀ k, findEoh (cstr (response.take k)) = none := by
    intro k
    by_contra hne
    obtain ⟨⟨e, skip⟩, hfound⟩ := Option.ne_none_iff_exists'.mp hne
    rcases findEoh_spec hfound with ⟨-, hpat, -⟩ | ⟨-, hpat, -⟩
    · exact not_blank_of_none hsplit _ (blank_of_crlfCrlf hpat).1
    · exact not_blank_of_none hsplit _ (blank_of_lfLf hpat).1
  rcases foldl_httpProc (hno 0) (Nat.zero_le _) hreads.flatten fun buf hbuf =>
    (hreads.sizes buf hbuf).2 with ⟨hall, -⟩ | ⟨-, k, e, skip, -, -, hfound, -⟩
  · unfold deliver
    rw [show (⟨[], false, []⟩ : Reply) = ⟨response.take 0, false, []⟩ by rw [List.take_zero], hall]
  · rw [hno k] at hfound
    exact nomatch hfound

/-- Where the header of a plain response is found. -/
theorem findEoh_plain (hplain : Plain bufsize response) {header content : Bytes}
    (hsplit : splitHeader true response = some (header, content)) :
    ∃ t, (∀ k, k < t → findEoh (cstr (response.take k)) = none) ∧
      (∀ k, t ≤ k → k < t + bufsize → ∃ e skip, findEoh (cstr (response.take k)) = some (e, skip) ∧
        e + skip = header.length ∧ e + skip * 2 = t) ∧
      t ≤ response.length ∧ response.drop t = content := by
  obtain ⟨hresponse, hblank, hfirst⟩ := splitHeader_some hsplit
  obtain ⟨hfree, hcr, hlf⟩ := hplain header content hsplit
  rcases hresponse with hresponse | hresponse
  · obtain ⟨hne, hsafe⟩ := hlf hresponse
    have hpos := List.length_pos_iff.mpr hne
    refine ⟨header.length + 1, fun k hk => findEoh_none hfirst (Or.inl (by omega)),
      fun k hk hlt => ?_, ?_, ?_⟩
    · obtain ⟨e, hfound, he⟩ := findEoh_lf hresponse hblank hfirst hfree hne hk fun j hj => by
        have := hsafe j hj
        omega
      exact ⟨e, 1, hfound, he, by omega⟩
    · rw [hresponse, List.length_append, List.length_cons]
      omega
    · rw [hresponse, List.drop_length_add_append]
      rfl
  · have hcrlf := hcr hresponse
    have hlast : response[header.length]? = some 13 := by
      rw [hresponse, List.getElem?_append_right le_rfl, Nat.sub_self]
      rfl
    refine ⟨header.length + 2, fun k hk => findEoh_none hfirst ?_, fun k hk hlt => ?_, ?_, ?_⟩
    · rcases Nat.lt_or_ge header.length k with hk' | hk'
      · exact Or.inr ⟨by omega, hlast⟩
      · exact Or.inl hk'
    · obtain ⟨e, hfound, he⟩ := findEoh_crlf hresponse hfirst hfree hcrlf hk
      exact ⟨e, 2, hfound, he, by omega⟩
    · rw [hresponse, List.length_append, List.length_cons, List.length_cons]
      omega
    · rw [hresponse, List.drop_length_add_append]
      rfl

/-- A plain response is split where it should be. -/
theorem deliver_of_split (hplain : Plain bufsize response) {header content : Bytes}
    (hsplit : splitHeader true response = some (header, content)) {reads : List Bytes}
    (hreads : Reads bufsize response reads) :
    deliver nsParseHeader hdrs reads = httpParse nsParseHeader hdrs header content := by
  obtain ⟨t, hbefore, hat, hle, hcontent⟩ := findEoh_plain hplain hsplit
  have hfree := (hplain header content hsplit).1
  have hheader : response.take header.length = header := by
    rcases (splitHeader_some hsplit).1 with h | h <;> rw [h, List.take_left]
  have hpast : ∀ k, t ≤ k → findEoh (cstr (response.take k)) ≠ none := by
    intro k hk
    obtain ⟨e, skip, hfound, -⟩ := hat t le_rfl (Nat.lt_add_of_pos_right bufsize.2)
    exact findEoh_ne_none (by rw [hfound]; exact Option.some_ne_none _) hk
  rcases foldl_httpProc (findEoh_zero response) (Nat.zero_le _) hreads.flatten fun buf hbuf =>
    (hreads.sizes buf hbuf).2 with ⟨-, hnone⟩ | ⟨n, k, e, skip, hn, hk, hfound, hrbuf, hcopied⟩
  · exact absurd hnone (hpast _ hle)
  · have hlt : n < t := by
      by_contra hge
      exact hpast n (by omega) hn
    have hge : t ≤ k := by
      by_contra hlt'
      rw [hbefore k (by omega)] at hfound
      exact nomatch hfound
    obtain ⟨e', skip', hfound', he, ht⟩ := hat k hge (by omega)
    rw [hfound] at hfound'
    obtain ⟨rfl, rfl⟩ := Prod.mk.inj (Option.some.inj hfound')
    rw [List.take_zero] at hrbuf hcopied
    unfold deliver
    dsimp only
    rw [hrbuf, hcopied, he, ht, hheader, cstr_eq_self hfree, hcontent]

/-- What the bytes one by one say about a response that is split right. -/
theorem ends_of_right (h : Right nsParseHeader hdrs bufsize response) {header content : Bytes}
    (hsplit : splitHeader true response = some (header, content)) :
    NulFree header ∧ (response = header ++ 13 :: 10 :: content → [13, 10] <:+ header) ∧
      (response = header ++ 10 :: content → header ≠ []) := by
  obtain ⟨hresponse, hblank, hfirst⟩ := splitHeader_some hsplit
  have hdeliver := h.split header content hsplit _ (reads_singles bufsize response)
  have hcstr : cstr ((singles response).foldl httpProc ⟨[], false, []⟩).rbuf = header :=
    congrArg Delivered.header hdeliver
  have hcopied : ((singles response).foldl httpProc ⟨[], false, []⟩).copied = content :=
    congrArg Delivered.content hdeliver
  have hfree : NulFree header := hcstr ▸ nulFree_cstr _
  refine ⟨hfree, ?_⟩
  have hcases := foldl_httpProc (findEoh_zero response) (Nat.zero_le _) (flatten_singles response)
    fun buf hbuf => ((reads_singles bufsize response).sizes buf hbuf).2
  rw [List.take_zero] at hcases
  rcases hcases with ⟨hall, -⟩ | ⟨n, k, e, skip, -, -, hfound, hrbuf, hcontent⟩
  · -- the whole response is more than its header
    rw [hall] at hcstr
    dsimp only at hcstr
    have hlen := congrArg List.length hcstr
    have hpos : ∀ c : UInt8, c ≠ 0 → ∀ rest, 0 < (cstr (c :: rest)).length := by
      intro c hc rest
      rw [cstr, List.takeWhile_cons_of_pos (by simpa using hc)]
      exact Nat.succ_pos _
    rcases hresponse with hresponse | hresponse
    · have hmore := hpos 10 (by decide) content
      rw [hresponse, cstr_append hfree, List.length_append] at hlen
      omega
    · have hmore := hpos 13 (by decide) (10 :: content)
      rw [hresponse, cstr_append hfree, List.length_append] at hlen
      omega
  · rw [hrbuf] at hcstr
    rw [hcontent] at hcopied
    have hle : header.length ≤ e + skip := by
      have hpre : cstr (response.take (e + skip)) <+: response.take (e + skip) :=
        List.takeWhile_prefix _
      have hlength := hpre.length_le
      rw [hcstr, List.length_take] at hlength
      omega
    have htotal := congrArg List.length hcopied
    rw [List.length_drop] at htotal
    have hheader : header = response.take header.length := by
      rcases hresponse with h | h <;> rw [h, List.take_left]
    rcases findEoh_spec hfound with ⟨rfl, hpat, -⟩ | ⟨rfl, hpat, -⟩
    · have hsize := hpat.length_le
      rw [List.length_drop, show crlfCrlf.length = 4 from rfl] at hsize
      have hp := hfirst _ (blank_of_crlfCrlf hpat).1
      constructor
      · intro hresponse
        have hlen := congrArg List.length hresponse
        rw [List.length_append, List.length_cons, List.length_cons] at hlen
        have hat : header.length = e + 2 := by omega
        refine ⟨response.take e, ?_⟩
        rw [hheader, hat, List.take_add]
        obtain ⟨rest, hrest⟩ := hpat
        rw [← hrest]
        rfl
      · intro hresponse
        have hlen := congrArg List.length hresponse
        rw [List.length_append, List.length_cons] at hlen
        omega
    · have hsize := hpat.length_le
      rw [List.length_drop, show lfLf.length = 2 from rfl] at hsize
      obtain ⟨hblank', h0, -⟩ := blank_of_lfLf hpat
      have hp := hfirst _ hblank'
      constructor
      · intro hresponse
        have hlen := congrArg List.length hresponse
        rw [List.length_append, List.length_cons, List.length_cons] at hlen
        obtain rfl : e = header.length := by omega
        rw [hresponse, List.getElem?_append_right le_rfl, Nat.sub_self] at h0
        exact absurd h0 (by simp)
      · intro hresponse hnil
        have hlen := congrArg List.length hresponse
        rw [List.length_append, List.length_cons] at hlen
        rw [hnil] at hlen
        simp only [List.length_nil] at hlen
        omega

/-- A read that ends with CR LF CR LF behind the blank line: the header is taken to end there. -/
theorem not_right_of_far (h : Right nsParseHeader hdrs bufsize response) {header content : Bytes}
    (hsplit : splitHeader true response = some (header, content))
    (hresponse : response = header ++ 10 :: content) (hfree : NulFree header) {j : Nat}
    (hj : strstr crlfCrlf (cstr content) = some j) : bufsize < j + 5 := by
  by_contra hfar
  obtain ⟨-, -, hfirst⟩ := splitHeader_some hsplit
  have hheader : response.take header.length = header := by rw [hresponse, List.take_left]
  have hbehind : response.drop header.length = 10 :: content := by rw [hresponse, List.drop_left]
  -- no NUL up to the end of CR LF CR LF
  have hpat := prefix_of_strstr hj
  have hinside := hpat.length_le
  rw [List.length_drop, show crlfCrlf.length = 4 from rfl] at hinside
  have hcstr : cstr content <+: content := List.takeWhile_prefix _
  have hlen := hcstr.length_le
  have hsame : content.take (j + 4) = (cstr content).take (j + 4) := by
    obtain ⟨rest, hrest⟩ := hcstr
    conv_lhs => rw [← hrest]
    rw [List.take_append_of_le_length (by omega)]
  have htake : response.take (header.length + (j + 5)) =
      header ++ 10 :: (cstr content).take (j + 4) := by
    rw [hresponse, List.take_length_add_append, List.take_succ_cons, hsame]
  have hfree' : NulFree (response.take (header.length + (j + 5))) := by
    rw [htake]
    intro hzero
    rcases List.mem_append.mp hzero with hzero | hzero
    · exact hfree hzero
    · rcases List.mem_cons.mp hzero with hzero | hzero
      · exact absurd hzero (by decide)
      · exact nulFree_cstr content (List.mem_of_mem_take hzero)
  have hbuf : ((response.drop header.length).take (j + 5)).length = j + 5 := by
    rw [hbehind, List.length_take, List.length_cons]
    omega
  have hsum : header.length + (j + 5) ≤ response.length := by
    rw [hresponse, List.length_append, List.length_cons]
    omega
  -- the header byte by byte, then the blank line with what is behind it
  have hreads : Reads bufsize response (singles header ++
      (response.drop header.length).take (j + 5) ::
        singles (response.drop (header.length + (j + 5)))) := by
    constructor
    · rw [List.flatten_append, List.flatten_cons, flatten_singles, flatten_singles,
        ← List.drop_drop, List.take_append_drop, hbehind, hresponse]
    · intro buf hmem
      rcases List.mem_append.mp hmem with hmem | hmem
      · exact (reads_singles bufsize header).sizes buf hmem
      · rcases List.mem_cons.mp hmem with rfl | hmem
        · exact ⟨fun hnil => by rw [hnil] at hbuf; simp at hbuf, by omega⟩
        · exact (reads_singles bufsize _).sizes buf hmem
  have hfront : (singles header).foldl httpProc ⟨[], false, []⟩ =
      ⟨response.take header.length, false, []⟩ := by
    have hcases := foldl_httpProc (findEoh_zero header) (Nat.zero_le _) (flatten_singles header)
      fun buf hbuf => ((reads_singles bufsize header).sizes buf hbuf).2
    rw [List.take_zero] at hcases
    rcases hcases with ⟨hall, -⟩ | ⟨-, k, e, skip, -, -, hfound, -⟩
    · rw [hall, hheader]
    · rw [← hheader, List.take_take,
        findEoh_none hfirst (Or.inl (Nat.min_le_right k header.length))] at hfound
      exact nomatch hfound
  have hcrlf : crlfCrlf <+: response.drop (header.length + (1 + j)) := by
    rw [← List.drop_drop, hbehind, Nat.add_comm 1 j]
    exact hpat.trans (List.IsPrefix.drop hcstr j)
  have hfour : header.length + (1 + j) + crlfCrlf.length = header.length + (j + 5) := by
    show header.length + (1 + j) + 4 = _
    omega
  obtain ⟨e, he, hfound⟩ := exists_strstr_cstr hcrlf (by rw [hfour]; exact hfree') hfour.le
  obtain ⟨hpate, hle⟩ := prefix_drop_of_strstr (by decide) hfound
  rw [show crlfCrlf.length = 4 from rfl] at hle
  obtain ⟨-, -, -, h2, -⟩ := blank_of_crlfCrlf hpate
  have hwhole : response.take header.length ++ (response.drop header.length).take (j + 5) =
      response.take (header.length + ((response.drop header.length).take (j + 5)).length) := by
    rw [hbuf]
    exact List.take_add.symm
  have hend : findEoh (cstr (response.take (header.length +
      ((response.drop header.length).take (j + 5)).length))) = some (e, 2) := by
    rw [hbuf, findEoh, hfound]
  obtain ⟨rbuf, hstep, hrbuf, -⟩ := httpProc_found hwhole (by rw [hbuf]; exact hsum) hend
  have hdeliver := congrArg Delivered.header (h.split header content hsplit _ hreads)
  unfold deliver httpParse at hdeliver
  dsimp only at hdeliver
  rw [List.foldl_append, List.foldl_cons, hfront, hstep, foldl_httpProc_eoh] at hdeliver
  dsimp only at hdeliver
  -- but the blank line has no CR
  have hshort : NulFree (response.take (e + 2)) := by
    intro hzero
    refine hfree' ?_
    rw [show e + 2 = min (e + 2) (header.length + (j + 5)) by omega, ← List.take_take] at hzero
    exact List.mem_of_mem_take hzero
  rw [hrbuf, cstr_eq_self hshort] at hdeliver
  have hlength := congrArg List.length hdeliver
  rw [List.length_take] at hlength
  rw [show e + 2 = header.length by omega, hresponse, List.getElem?_append_right le_rfl,
    Nat.sub_self] at h2
  exact absurd h2 (by simp)

/-- **A response is delivered the same way however it is read, split at its first blank line,
exactly if it is plain.** -/
theorem response_split_iff :
    Right nsParseHeader hdrs bufsize response ↔ Plain bufsize response := by
  constructor
  · intro h header content hsplit
    obtain ⟨hfree, hcr, hne⟩ := ends_of_right nsParseHeader hdrs h hsplit
    exact ⟨hfree, hcr, fun hresponse => ⟨hne hresponse,
      fun j hj => not_right_of_far nsParseHeader hdrs h hsplit hresponse hfree hj⟩⟩
  · intro hplain
    refine ⟨fun reads reads' hreads hreads' => ?_, fun header content hsplit reads hreads =>
      deliver_of_split nsParseHeader hdrs hplain hsplit hreads⟩
    cases hsplit : splitHeader true response with
    | none =>
        rw [deliver_of_none nsParseHeader hdrs hsplit hreads,
          deliver_of_none nsParseHeader hdrs hsplit hreads']
    | some r =>
        rw [deliver_of_split nsParseHeader hdrs hplain hsplit hreads,
          deliver_of_split nsParseHeader hdrs hplain hsplit hreads']

end Deliver

/-- `A`, two LF and a content `CR LF CR LF B`, in one read: the header is said to be `A`, two LF and
CR LF. -/
theorem far_end_not_right :
    ¬ Right (fun hdrs line => some (hdrs ++ [line])) ([] : List Bytes) ⟨4000, by decide⟩
      [65, 10, 10, 13, 10, 13, 10, 66] := by
  intro h
  have hreads : Reads ⟨4000, by decide⟩ [65, 10, 10, 13, 10, 13, 10, 66]
      [[65, 10, 10, 13, 10, 13, 10, 66]] := by
    refine ⟨rfl, fun buf hbuf => ?_⟩
    rw [List.mem_singleton.mp hbuf]
    exact ⟨List.cons_ne_nil _ _, by decide⟩
  have hsplit := congrArg Delivered.content (h.split [65, 10] [13, 10, 13, 10, 66] rfl _ hreads)
  exact absurd hsplit (by decide)

end Nsdci.Http
