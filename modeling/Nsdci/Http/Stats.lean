import Nsdci.Lib.CString
import Nsdci.Lib.Table
import Nsdci.Lib.Word
import Mathlib.Order.Bounds.Basic

/-!
# HTTP statistics (`http.c`)

`HttpClose` counts a request in the entry of its URL, and `ns_http stats` lists the entries with
their average times. The entry is made at the first close of a URL, and the first time is set then,
whatever the outcome: when the first request of a URL fails there is no time to set and no request
to divide by. The main result is `closes_counted_iff`.
-/

namespace Nsdci.Http

open Lib

/-- `Ns_Time`. -/
structure Time where
  sec : Int
  usec : Int

/-- A service time in milliseconds. -/
def Time.millis (t : Time) : Int := t.sec * 1000 + t.usec.tdiv 1000

/-- `Stats`. -/
structure Stats where
  nerr : UInt32
  nreq : UInt32
  tmin : UInt32
  tmax : UInt32
  ttot : UInt64

/-- What `HttpClose` reads of a request. -/
structure Closed where
  url : CStr
  error : Option Bytes
  dtime : Time

/-- The entry of a URL after a close, from the one before, if it is there. -/
def recorded (entry : Option Stats) (c : Closed) : Stats :=
  let ms := int32 c.dtime.millis
  let stats := entry.getD ⟨0, 0, 0, 0, 0⟩
  if c.error.isSome then { stats with nerr := stats.nerr + 1 }
  else
    let stats := { stats with nreq := stats.nreq + 1 }
    if entry.isNone then
      { stats with tmin := UInt32.ofInt ms, tmax := UInt32.ofInt ms, ttot := UInt64.ofInt ms }
    else
      let stats := if stats.tmin > UInt32.ofInt ms then { stats with tmin := UInt32.ofInt ms }
        else stats
      let stats := if stats.tmax < UInt32.ofInt ms then { stats with tmax := UInt32.ofInt ms }
        else stats
      { stats with ttot := stats.ttot + UInt64.ofInt ms }

/-- The entries, by URL. None is ever evicted. -/
abbrev Table := AList fun _ : CStr => Stats

/-- `HttpClose`. -/
def httpClose (stats : Table) (c : Closed) : Table :=
  stats.insert c.url (recorded (stats.lookup c.url) c)

/-- One line of `ns_http stats`: the entry and the average, undefined for a division by 0. -/
def statsLine (url : CStr) (stats : Stats) : Option (CStr × Stats × UInt32) :=
  if stats.nreq = 0 then none
  else some (url, stats, UInt32.ofNat (stats.ttot.toNat / stats.nreq.toNat))

/-- `ns_http stats` for a pattern. -/
def httpStats (wanted : CStr → Bool) (stats : Table) : Option (List (CStr × Stats × UInt32)) :=
  ((pairs stats).filter fun e => wanted e.1).mapM fun e => statsLine e.1 e.2

/-! ## What the entries are to say -/

/-- The times of the successful requests. -/
def times (cs : List Closed) : List Int :=
  (cs.filter fun c => c.error.isNone).map fun c => c.dtime.millis

/-- The number of failed requests. -/
def failures (cs : List Closed) : Nat := cs.countP fun c => c.error.isSome

/-- The requests to a URL. -/
def toUrl (cs : List Closed) (url : CStr) : List Closed := cs.filter fun c => c.url = url

/-- An entry sums up the requests to its URL. -/
structure Sums (cs : List Closed) (s : Stats) : Prop where
  nreq : s.nreq.toNat = (times cs).length
  nerr : s.nerr.toNat = failures cs
  tmin : times cs ≠ [] → IsLeast {t | t ∈ times cs} (s.tmin.toNat : Int)
  tmax : times cs ≠ [] → IsGreatest {t | t ∈ times cs} (s.tmax.toNat : Int)
  ttot : (s.ttot.toNat : Int) = (times cs).sum

/-- The entries sum up the closed requests, and can be listed. -/
structure Counted (closes : List Closed) (stats : Table) : Prop where
  absent : ∀ url, stats.lookup url = none → toUrl closes url = []
  sums : ∀ url, ∀ s ∈ stats.lookup url, Sums (toUrl closes url) s
  listed : ∀ wanted, (httpStats wanted stats).isSome

/-- The first request to a URL is successful, and the figures fit their words. -/
structure Fit (cs : List Closed) : Prop where
  first : ∀ c ∈ cs.head?, c.error = none
  times : ∀ t ∈ times cs, 0 ≤ t ∧ t < 2 ^ 31
  nreq : (Http.times cs).length < 2 ^ 32
  nerr : failures cs < 2 ^ 32

/-! ## One close -/

theorem toNat_ofInt32 {t : Int} (h0 : 0 ≤ t) (h : t < 2 ^ 31) :
    ((UInt32.ofInt t).toNat : Int) = t := by
  rw [UInt32.ofInt, UInt32.toNat_ofNat']
  omega

theorem toNat_ofInt64 {t : Int} (h0 : 0 ≤ t) (h : t < 2 ^ 31) :
    ((UInt64.ofInt t).toNat : Int) = t := by
  rw [UInt64.ofInt, UInt64.toNat_ofNat']
  omega

theorem times_append (cs : List Closed) (c : Closed) :
    times (cs ++ [c]) = times cs ++ if c.error.isNone then [c.dtime.millis] else [] := by
  rw [times, List.filter_append, List.map_append]
  obtain ⟨url, error, dtime⟩ := c
  cases error <;> rfl

theorem failures_append (cs : List Closed) (c : Closed) :
    failures (cs ++ [c]) = failures cs + if c.error.isSome then 1 else 0 := by
  rw [failures, List.countP_append, List.countP_singleton]
  rfl

/-- The sum of times that are ints. -/
theorem sum_range {ts : List Int} (h : ∀ t ∈ ts, 0 ≤ t ∧ t < 2 ^ 31) :
    0 ≤ ts.sum ∧ ts.sum ≤ ts.length * 2 ^ 31 := by
  induction ts with
  | nil => exact ⟨le_rfl, le_rfl⟩
  | cons t ts ih =>
      obtain ⟨ht, hts⟩ := List.forall_mem_cons.mp h
      have hrest := ih hts
      rw [List.sum_cons, List.length_cons]
      push_cast
      omega

/-- One more time: the least. -/
theorem isLeast_append {ts : List Int} {m t : Int} (h : IsLeast {x | x ∈ ts} m) :
    IsLeast {x | x ∈ ts ++ [t]} (if m > t then t else m) := by
  obtain ⟨hmem, hle⟩ := h
  constructor
  · show _ ∈ ts ++ [t]
    split_ifs
    · exact List.mem_append_right ts List.mem_cons_self
    · exact List.mem_append_left [t] hmem
  · intro x hx
    rcases List.mem_append.mp hx with hx | hx
    · have := hle hx
      split_ifs <;> omega
    · rw [List.mem_singleton.mp hx]
      split_ifs <;> omega

/-- One more time: the greatest. -/
theorem isGreatest_append {ts : List Int} {m t : Int} (h : IsGreatest {x | x ∈ ts} m) :
    IsGreatest {x | x ∈ ts ++ [t]} (if m < t then t else m) := by
  obtain ⟨hmem, hle⟩ := h
  constructor
  · show _ ∈ ts ++ [t]
    split_ifs
    · exact List.mem_append_right ts List.mem_cons_self
    · exact List.mem_append_left [t] hmem
  · intro x hx
    rcases List.mem_append.mp hx with hx | hx
    · have := hle hx
      split_ifs <;> omega
    · rw [List.mem_singleton.mp hx]
      split_ifs <;> omega

/-- The failed requests leave the times alone. -/
theorem recorded_failed (entry : Option Stats) {c : Closed} (hc : c.error.isSome) :
    recorded entry c = { entry.getD ⟨0, 0, 0, 0, 0⟩ with
      nerr := (entry.getD ⟨0, 0, 0, 0, 0⟩).nerr + 1 } := by
  rw [recorded]
  dsimp only
  rw [if_pos hc]

/-- The first request to a URL, when it is successful. -/
theorem recorded_first {c : Closed} (hc : c.error = none) :
    recorded none c = ⟨0, 1, UInt32.ofInt (int32 c.dtime.millis),
      UInt32.ofInt (int32 c.dtime.millis), UInt64.ofInt (int32 c.dtime.millis)⟩ := by
  rw [recorded, hc]
  rfl

/-- A later one. -/
theorem recorded_next (s : Stats) {c : Closed} (hc : c.error = none) :
    recorded (some s) c = ⟨s.nerr, s.nreq + 1,
      if s.tmin > UInt32.ofInt (int32 c.dtime.millis) then UInt32.ofInt (int32 c.dtime.millis)
        else s.tmin,
      if s.tmax < UInt32.ofInt (int32 c.dtime.millis) then UInt32.ofInt (int32 c.dtime.millis)
        else s.tmax,
      s.ttot + UInt64.ofInt (int32 c.dtime.millis)⟩ := by
  rw [recorded, hc]
  dsimp only [Option.getD_some, Option.isNone_some, Option.isSome_none]
  rw [if_neg (by decide), if_neg (by decide)]
  split_ifs <;> rfl

theorem mem_times_append {cs : List Closed} {c : Closed} (hc : c.error = none) :
    c.dtime.millis ∈ times (cs ++ [c]) := by
  rw [times_append, hc]
  exact List.mem_append_right _ List.mem_cons_self

/-- The first request is summed up. -/
theorem sums_first {c : Closed} (hc : c.error = none) (hfit : Fit [c]) :
    Sums [c] (recorded none c) := by
  have hmem : c.dtime.millis ∈ times ([] ++ [c]) := mem_times_append hc
  obtain ⟨h0, h31⟩ := hfit.times _ hmem
  have htimes : times [c] = [c.dtime.millis] := by
    rw [← List.nil_append [c], times_append, hc]
    rfl
  have hfailures : failures [c] = 0 := by
    rw [← List.nil_append [c], failures_append, hc]
    rfl
  have hword := toNat_ofInt32 h0 h31
  rw [recorded_first hc, int32_of_range (by omega) h31]
  refine ⟨?_, ?_, fun _ => ?_, fun _ => ?_, ?_⟩
  · rw [htimes]
    rfl
  · rw [hfailures]
    rfl
  · rw [htimes]
    dsimp only
    rw [hword]
    exact ⟨List.mem_cons_self, fun x hx => (List.mem_singleton.mp hx).ge⟩
  · rw [htimes]
    dsimp only
    rw [hword]
    exact ⟨List.mem_cons_self, fun x hx => (List.mem_singleton.mp hx).le⟩
  · rw [htimes, List.sum_singleton]
    exact toNat_ofInt64 h0 h31

/-- A later request is added to what is summed up. -/
theorem Sums.close {cs : List Closed} {c : Closed} {s : Stats} (hs : Sums cs s)
    (hsome : times cs ≠ []) (hfit : Fit (cs ++ [c])) :
    Sums (cs ++ [c]) (recorded (some s) c) := by
  have hnreq := hfit.nreq
  have hnerr := hfit.nerr
  rw [times_append] at hnreq
  rw [failures_append] at hnerr
  cases hc : c.error with
  | some e =>
      have htimes : times (cs ++ [c]) = times cs := by
        rw [times_append, hc]
        exact List.append_nil _
      rw [hc] at hnerr
      rw [recorded_failed _ (by rw [hc]; rfl), Option.getD_some]
      refine ⟨htimes ▸ hs.nreq, ?_, htimes ▸ hs.tmin, htimes ▸ hs.tmax, htimes ▸ hs.ttot⟩
      rw [failures_append, hc, UInt32.toNat_add, hs.nerr]
      exact Nat.mod_eq_of_lt hnerr
  | none =>
      obtain ⟨h0, h31⟩ := hfit.times _ (mem_times_append hc)
      have hall : ∀ t ∈ times cs, 0 ≤ t ∧ t < 2 ^ 31 := by
        intro t ht
        refine hfit.times t ?_
        rw [times_append]
        exact List.mem_append_left _ ht
      have hsum := sum_range hall
      have hword := toNat_ofInt32 h0 h31
      have hlong := toNat_ofInt64 h0 h31
      have htimes : times (cs ++ [c]) = times cs ++ [c.dtime.millis] := by
        rw [times_append, hc]
        rfl
      rw [hc] at hnreq
      rw [recorded_next s hc, int32_of_range (by omega) h31]
      refine ⟨?_, ?_, fun _ => ?_, fun _ => ?_, ?_⟩
      · rw [htimes, List.length_append, UInt32.toNat_add, hs.nreq]
        rw [List.length_append] at hnreq
        exact Nat.mod_eq_of_lt hnreq
      · rw [failures_append, hc]
        exact hs.nerr
      · rw [htimes]
        have hleast := isLeast_append (t := c.dtime.millis) (hs.tmin hsome)
        dsimp only
        convert hleast using 1
        rw [apply_ite UInt32.toNat, apply_ite Nat.cast, hword]
        refine if_congr ?_ rfl rfl
        rw [gt_iff_lt, UInt32.lt_iff_toNat_lt]
        omega
      · rw [htimes]
        have hgreatest := isGreatest_append (t := c.dtime.millis) (hs.tmax hsome)
        dsimp only
        convert hgreatest using 1
        rw [apply_ite UInt32.toNat, apply_ite Nat.cast, hword]
        refine if_congr ?_ rfl rfl
        rw [UInt32.lt_iff_toNat_lt]
        omega
      · have htotal := hs.ttot
        rw [htimes, List.sum_append, List.sum_singleton]
        dsimp only
        rw [UInt64.toNat_add]
        rw [List.length_append] at hnreq
        omega

theorem Fit.front {cs : List Closed} {c : Closed} (hfit : Fit (cs ++ [c])) : Fit cs := by
  have hnreq := hfit.nreq
  have hnerr := hfit.nerr
  rw [times_append, List.length_append] at hnreq
  rw [failures_append] at hnerr
  refine ⟨fun x hx => ?_, fun t ht => ?_, by omega, by omega⟩
  · refine hfit.first x ?_
    rw [List.head?_append, hx]
    rfl
  · refine hfit.times t ?_
    rw [times_append]
    exact List.mem_append_left _ ht

/-- The entry of a URL. -/
def entryOf (cs : List Closed) : Option Stats :=
  cs.foldl (fun entry c => some (recorded entry c)) none

theorem entryOf_append (cs : List Closed) (c : Closed) :
    entryOf (cs ++ [c]) = some (recorded (entryOf cs) c) := List.foldl_append

/-- The requests to a URL are summed up. -/
theorem sums_of_fit {cs : List Closed} (hne : cs ≠ []) (hfit : Fit cs) :
    times cs ≠ [] ∧ ∃ s, entryOf cs = some s ∧ Sums cs s := by
  induction cs using List.reverseRecOn with
  | nil => exact absurd rfl hne
  | append_singleton cs c ih =>
      by_cases hfirst : cs = []
      · subst hfirst
        have hc := hfit.first c rfl
        exact ⟨List.ne_nil_of_mem (mem_times_append hc), _, rfl, sums_first hc hfit⟩
      · obtain ⟨hsome, s, hentry, hs⟩ := ih hfirst hfit.front
        refine ⟨?_, _, ?_, hs.close hsome hfit⟩
        · rw [times_append]
          exact List.append_ne_nil_of_left_ne_nil hsome _
        · rw [entryOf_append, hentry]

/-- A failed request to a new URL leaves an entry without a request. -/
theorem nreq_first_failed {c : Closed} (hc : c.error ≠ none) : (recorded none c).nreq = 0 := by
  rw [recorded_failed none (Option.isSome_iff_ne_none.mpr hc)]
  rfl

/-- What a successful request adds to the sum. -/
theorem ttot_recorded (entry : Option Stats) {c : Closed} (hc : c.error = none) :
    (recorded entry c).ttot =
      (entry.elim 0 Stats.ttot) + UInt64.ofInt (int32 c.dtime.millis) := by
  cases entry with
  | none =>
      rw [recorded_first hc]
      exact (UInt64.zero_add _).symm
  | some s => rw [recorded_next s hc]; rfl

/-! ## All closes -/

variable (closes : List Closed)

theorem lookup_closes (url : CStr) :
    (closes.foldl httpClose ∅).lookup url = entryOf (toUrl closes url) :=
  lookup_foldl_insert Closed.url recorded closes ∅ url

/-- Every line is defined if all are. -/
theorem isSome_mapM {α β : Type} (f : α → Option β) (l : List α) :
    (l.mapM f).isSome ↔ ∀ x ∈ l, (f x).isSome := by
  induction l with
  | nil => exact ⟨fun _ x hx => absurd hx List.not_mem_nil, fun _ => rfl⟩
  | cons x l ih =>
      rw [List.mapM_cons, List.forall_mem_cons, ← ih]
      cases f x with
      | none => exact ⟨fun h => (nomatch h), fun h => (nomatch h.1)⟩
      | some y =>
          cases l.mapM f with
          | none => exact ⟨fun h => (nomatch h), fun h => (nomatch h.2)⟩
          | some ys => exact ⟨fun _ => ⟨rfl, rfl⟩, fun _ => rfl⟩

/-- The statistics can be listed when no entry is without a request. -/
theorem httpStats_isSome_iff (stats : Table) :
    (∀ wanted, (httpStats wanted stats).isSome) ↔
      ∀ url, ∀ s ∈ stats.lookup url, s.nreq ≠ 0 := by
  constructor
  · intro h url s hs hzero
    have hall := (isSome_mapM _ _).mp (h fun _ => true) (url, s)
      (List.mem_filter.mpr ⟨mem_pairs.mpr (AList.mem_lookup_iff.mp hs), rfl⟩)
    rw [statsLine, if_pos hzero] at hall
    exact nomatch hall
  · intro h wanted
    refine (isSome_mapM _ _).mpr fun e he => ?_
    have hmem := mem_pairs.mp (List.mem_of_mem_filter he)
    rw [statsLine, if_neg (h e.1 e.2 (AList.mem_lookup_iff.mpr hmem))]
    rfl

/-- The requests to a URL, up to one of them. -/
theorem exists_front {url : CStr} {cs : List Closed} {c : Closed} {rest : List Closed}
    (h : toUrl closes url = cs ++ c :: rest) :
    ∃ front, front ++ [c] <+: closes ∧ toUrl front url = cs ∧
      toUrl (front ++ [c]) url = cs ++ [c] := by
  obtain ⟨l, l', rfl, hcs, hrest⟩ := List.filter_eq_append_iff.mp h
  obtain ⟨m, m', rfl, hother, hc, -⟩ := List.filter_eq_cons_iff.mp hrest
  have hfront : toUrl (l ++ m) url = cs := by
    rw [toUrl, List.filter_append, hcs, List.filter_eq_nil_iff.mpr hother, List.append_nil]
  refine ⟨l ++ m, ⟨m', by simp only [List.append_assoc, List.singleton_append]⟩, hfront, ?_⟩
  have hone : toUrl [c] url = [c] := List.filter_cons_of_pos hc
  rw [toUrl, List.filter_append]
  exact congrArg₂ (· ++ ·) hfront hone

theorem entryOf_eq_none_iff (cs : List Closed) : entryOf cs = none ↔ cs = [] := by
  rcases List.eq_nil_or_concat' cs with rfl | ⟨front, c, rfl⟩
  · exact ⟨fun _ => rfl, fun _ => rfl⟩
  · rw [entryOf_append]
    exact ⟨fun h => (nomatch h), fun h => absurd h (by simp)⟩

theorem Fit.of_append {cs more : List Closed} (hfit : Fit (cs ++ more)) : Fit cs := by
  induction more using List.reverseRecOn with
  | nil => exact List.append_nil cs ▸ hfit
  | append_singleton more c ih =>
      rw [← List.append_assoc] at hfit
      exact ih hfit.front

/-- Fitting requests are summed up, and the statistics can be listed. -/
theorem counted_of_fit (h : ∀ url, Fit (toUrl closes url)) :
    Counted closes (closes.foldl httpClose ∅) := by
  have hentry : ∀ url, ∀ s ∈ (closes.foldl httpClose ∅).lookup url,
      s.nreq ≠ 0 ∧ Sums (toUrl closes url) s := by
    intro url s hs
    rw [lookup_closes] at hs
    have hne : toUrl closes url ≠ [] := by
      intro hnil
      rw [(entryOf_eq_none_iff _).mpr hnil] at hs
      exact nomatch hs
    obtain ⟨hsome, s', hs', hsums⟩ := sums_of_fit hne (h url)
    obtain rfl : s' = s := Option.some.inj (hs'.symm.trans hs)
    refine ⟨fun hzero => ?_, hsums⟩
    have hlen := hsums.nreq
    rw [hzero] at hlen
    exact hsome (List.eq_nil_of_length_eq_zero hlen.symm)
  refine ⟨fun url hnone => ?_, fun url s hs => (hentry url s hs).2, ?_⟩
  · rw [lookup_closes] at hnone
    exact (entryOf_eq_none_iff _).mp hnone
  · exact (httpStats_isSome_iff _).mpr fun url s hs => (hentry url s hs).1

/-- What the entry of a URL says after one more request. -/
theorem sums_of_counted (h : ∀ front, front <+: closes → Counted front (front.foldl httpClose ∅))
    {url : CStr} {cs : List Closed} {c : Closed} {rest : List Closed}
    (hcs : toUrl closes url = cs ++ c :: rest) :
    (recorded (entryOf cs) c).nreq ≠ 0 ∧ Sums (cs ++ [c]) (recorded (entryOf cs) c) ∧
      ∀ s ∈ entryOf cs, Sums cs s := by
  obtain ⟨front, hpre, hfront, hnext⟩ := exists_front closes hcs
  have hbefore := h front ((List.prefix_append front [c]).trans hpre)
  have hafter := h (front ++ [c]) hpre
  have hlookup : ((front ++ [c]).foldl httpClose ∅).lookup url =
      some (recorded (entryOf cs) c) := by
    rw [lookup_closes, hnext, entryOf_append]
  refine ⟨?_, ?_, fun s hs => ?_⟩
  · exact (httpStats_isSome_iff _).mp hafter.listed url _ hlookup
  · exact hnext ▸ hafter.sums url _ hlookup
  · refine hfront ▸ hbefore.sums url s ?_
    rw [lookup_closes, hfront]
    exact hs

/-- A time that is summed up fits an int. -/
theorem time_fits {cs : List Closed} {c : Closed} (hc : c.error = none)
    (hbefore : ∀ s ∈ entryOf cs, Sums cs s)
    (hafter : Sums (cs ++ [c]) (recorded (entryOf cs) c)) :
    0 ≤ c.dtime.millis ∧ c.dtime.millis < 2 ^ 31 := by
  have hmem : c.dtime.millis ∈ times (cs ++ [c]) := mem_times_append hc
  have hleast := (hafter.tmin (List.ne_nil_of_mem hmem)).2 hmem
  have hgreatest := (hafter.tmax (List.ne_nil_of_mem hmem)).2 hmem
  have hword := (recorded (entryOf cs) c).tmax.toNat_lt
  -- the sum before is that of the entry, which is 0 when there is none
  have hsum : (((entryOf cs).elim 0 Stats.ttot).toNat : Int) = (times cs).sum := by
    cases hentry : entryOf cs with
    | none =>
        rw [(entryOf_eq_none_iff cs).mp hentry]
        rfl
    | some s => exact (hbefore s hentry).ttot
  have htotal := hafter.ttot
  rw [ttot_recorded _ hc, times_append, hc, UInt64.toNat_add, UInt64.ofInt, UInt64.toNat_ofNat',
    List.sum_append] at htotal
  have hrange := int32_range c.dtime.millis
  have hcongr : int32 c.dtime.millis % 4294967296 = c.dtime.millis % 4294967296 := Int.bmod_emod
  have hone : (if (none : Option Bytes).isNone then [c.dtime.millis] else []).sum =
      c.dtime.millis := List.sum_singleton
  rw [hone] at htotal
  omega

/-- **The entries are right after every close exactly if, for every URL, the first request is
successful** and the figures fit their words. -/
theorem closes_counted_iff :
    (∀ front, front <+: closes → Counted front (front.foldl httpClose ∅)) ↔
      ∀ url, Fit (toUrl closes url) := by
  constructor
  · intro h url
    have hcount : ∀ cs, toUrl closes url = cs →
        (times cs).length < 2 ^ 32 ∧ failures cs < 2 ^ 32 := by
      intro cs hcs
      rcases List.eq_nil_or_concat' cs with rfl | ⟨front, c, rfl⟩
      · exact ⟨Nat.two_pow_pos 32, Nat.two_pow_pos 32⟩
      · obtain ⟨-, hsums, -⟩ := sums_of_counted closes h hcs
        rw [← hsums.nreq, ← hsums.nerr]
        exact ⟨UInt32.toNat_lt _, UInt32.toNat_lt _⟩
    refine ⟨fun c hc => ?_, fun t ht => ?_, (hcount _ rfl).1, (hcount _ rfl).2⟩
    · obtain ⟨rest, hcs⟩ : ∃ rest, toUrl closes url = [] ++ c :: rest := by
        cases hcs : toUrl closes url with
        | nil =>
            rw [hcs] at hc
            exact nomatch hc
        | cons x rest =>
            rw [hcs] at hc
            exact ⟨rest, congrArg (· :: rest) (Option.some.inj hc)⟩
      obtain ⟨hnreq, -⟩ := sums_of_counted closes h hcs
      by_contra herror
      exact hnreq (nreq_first_failed herror)
    · obtain ⟨c, hc, rfl⟩ := List.mem_map.mp ht
      obtain ⟨hmem, herror⟩ := List.mem_filter.mp hc
      obtain ⟨cs, rest, hcs⟩ := List.append_of_mem hmem
      obtain ⟨-, hafter, hbefore⟩ := sums_of_counted closes h hcs
      exact time_fits (Option.isNone_iff_eq_none.mp herror) hbefore hafter
  · rintro h front ⟨back, rfl⟩
    refine counted_of_fit front fun url => ?_
    have hurl : Fit (toUrl front url ++ toUrl back url) := by
      rw [toUrl, toUrl, ← List.filter_append]
      exact h url
    exact hurl.of_append

/-- A URL whose first request fails: the statistics divide by 0. -/
theorem first_failed_not_counted :
    ¬ Counted [⟨toCStr [97], some [], 0, 0⟩]
      ([⟨toCStr [97], some [], 0, 0⟩].foldl httpClose ∅) := by
  intro h
  exact absurd (h.listed fun _ => true) (by decide)

end Nsdci.Http
