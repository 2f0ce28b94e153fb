import Nsdci.Rpc
import Nsdci.TclList

/-!
# Allowed tags (`misc.c`)

`TagCheckCmd` goes through a text from `<` to the next `>` and compares the name of each tag with a
list. It stops at a `<` without a `>` behind it, as at the end of the text: what stands there is no
tag to it (`checkTags_open`).
-/

namespace Nsdci.Misc

open Lib
open Rpc (isSpace toLower)

/-- The loops with `isupper` and `tolower`. -/
def lower (s : Bytes) : Bytes := s.map toLower

/-- The name in a tag, if the tag is not blank. -/
def tagName (tag : Bytes) : Option Bytes :=
  match tag.dropWhile isSpace with
  | [] => none
  | c :: start =>
      some (lower ((if c = 47 then start else c :: start).takeWhile fun c => !isSpace c))

/-- The body of the loop, for what stands between `<` and `>`. -/
def checkTag (tagv : List Bytes) (tag : Bytes) : Bool :=
  match tagName tag with
  | none => true
  | some name => tagv.any fun t => name = t

/-- The loop from `p` on. -/
def checkTags (tagv : List Bytes) (p : Bytes) : Bool :=
  match _hstart : strchr 60 p with
  | none => true
  | some start =>
      match strchr 62 (p.drop start) with
      | none => true
      | some stop =>
          if checkTag tagv ((p.drop start).take stop).tail then
            checkTags tagv ((p.drop start).drop (stop + 1))
          else false
termination_by p.length
decreasing_by
  have hlt : start < p.length := (List.idxOf?_eq_some_iff.mp _hstart).1
  simp only [List.length_drop]
  omega

/-- `TagCheckCmd`: its result, when the list can be split. -/
def tagCheckCmd (tcl : TclList) (html goodTagList : CStr) : Option Bool :=
  (tcl.splitList goodTagList.1).map fun tagv => checkTags (tagv.map lower) html.1

/-! ## Tags of a text -/

/-- In a tag or not, behind a character. -/
def inTag (open_ : Bool) (c : UInt8) : Bool := if open_ then c ≠ 62 else c = 60

/-- A tag of a text: from a `<` that is in no tag to the next `>`. -/
def IsTag (text tag : Bytes) : Prop :=
  ∃ before after, text = before ++ 60 :: (tag ++ 62 :: after) ∧
    before.foldl inTag false = false ∧ 62 ∉ tag

/-- What begins with a `<` that is in no tag, when there is no `>` behind it. -/
def IsOpenTag (text tag : Bytes) : Prop :=
  ∃ before, text = before ++ 60 :: tag ∧ before.foldl inTag false = false ∧ 62 ∉ tag

/-- White space only. -/
def Blank (tag : Bytes) : Prop := ∀ c ∈ tag, isSpace c = true

/-- A tag with this name: behind white space and one slash, if there is one, and up to white space
or the end of the tag. -/
def HasName (tag name : Bytes) : Prop :=
  ∃ white slash rest, tag = white ++ (slash ++ (name ++ rest)) ∧ Blank white ∧
    (slash = [47] ∨ slash = [] ∧ name ≠ [] ∧ name.head? ≠ some 47) ∧
    (∀ c ∈ name, isSpace c = false) ∧ ∀ c ∈ rest.head?, isSpace c = true

/-- The tag is blank, or its name is an allowed one in some case. -/
def Allowed (tagv : List Bytes) (tag : Bytes) : Prop :=
  Blank tag ∨ ∃ name, HasName tag name ∧ ∃ t ∈ tagv, lower name = lower t

/-! ## The name of a tag -/

theorem tagName_eq_none (tag : Bytes) : tagName tag = none ↔ Blank tag := by
  have hnil : tag.dropWhile isSpace = [] ↔ Blank tag := List.dropWhile_eq_nil_iff
  rw [← hnil, tagName]
  cases tag.dropWhile isSpace with
  | nil => exact iff_of_true rfl rfl
  | cons c start => exact iff_of_false (by simp) (by simp)

theorem takeWhile_name {name rest : Bytes} (hname : ∀ c ∈ name, isSpace c = false)
    (hrest : ∀ c ∈ rest.head?, isSpace c = true) :
    (name ++ rest).takeWhile (fun c => !isSpace c) = name := by
  rw [List.takeWhile_append_of_pos fun c hc => by rw [hname c hc]; rfl]
  cases rest with
  | nil => simp
  | cons c rest => simp [hrest c rfl]

theorem tagName_cons {tag start : Bytes} {c : UInt8} (h : tag.dropWhile isSpace = c :: start) :
    tagName tag =
      some (lower ((if c = 47 then start else c :: start).takeWhile fun c => !isSpace c)) := by
  rw [tagName, h]

/-- The name in a tag is the name it has. -/
theorem tagName_of_hasName {tag name : Bytes} (h : HasName tag name) :
    tagName tag = some (lower name) := by
  obtain ⟨white, slash, rest, rfl, hwhite, hslash, hname, hrest⟩ := h
  have htake := takeWhile_name hname hrest
  rcases hslash with rfl | ⟨rfl, hne, hfirst⟩
  · have hdrop : (white ++ (47 :: (name ++ rest))).dropWhile isSpace = 47 :: (name ++ rest) := by
      rw [List.dropWhile_append_of_pos hwhite]
      rfl
    rw [List.singleton_append, tagName_cons hdrop, if_pos rfl, htake]
  · obtain ⟨c, more, rfl⟩ := List.exists_cons_of_ne_nil hne
    have hc := hname c List.mem_cons_self
    have hslash : c ≠ 47 := fun heq => hfirst (congrArg some heq)
    have hdrop : (white ++ (c :: (more ++ rest))).dropWhile isSpace = c :: (more ++ rest) := by
      rw [List.dropWhile_append_of_pos hwhite]
      exact List.dropWhile_cons_of_neg (by rw [hc]; exact Bool.false_ne_true)
    rw [List.nil_append, List.cons_append, tagName_cons hdrop, if_neg hslash]
    exact congrArg (fun s => some (lower s)) htake

theorem head_dropWhile {p : UInt8 → Bool} {s : Bytes} :
    ∀ c ∈ (s.dropWhile p).head?, p c = false := by
  intro c hc
  have hhead := List.head?_dropWhile_not p s
  rw [Option.mem_def.mp hc] at hhead
  simpa using hhead

/-- A tag that is not blank has a name. -/
theorem exists_hasName {tag : Bytes} (h : ¬Blank tag) : ∃ name, HasName tag name := by
  have hsplit : tag.takeWhile isSpace ++ tag.dropWhile isSpace = tag :=
    List.takeWhile_append_dropWhile
  have hwhite : Blank (tag.takeWhile isSpace) := fun c hc => List.mem_takeWhile_imp hc
  have hname (s : Bytes) : ∀ c ∈ s.takeWhile fun c => !isSpace c, isSpace c = false :=
    fun c hc => by simpa using List.mem_takeWhile_imp hc
  have hrest (s : Bytes) : ∀ c ∈ (s.dropWhile fun c => !isSpace c).head?, isSpace c = true :=
    fun c hc => by simpa using head_dropWhile c hc
  cases hdrop : tag.dropWhile isSpace with
  | nil => exact absurd (List.dropWhile_eq_nil_iff.mp hdrop) h
  | cons c start =>
      have hc : isSpace c = false := head_dropWhile c (by rw [hdrop]; rfl)
      by_cases hslash : c = 47
      · refine ⟨start.takeWhile fun c => !isSpace c, tag.takeWhile isSpace, [47],
          start.dropWhile fun c => !isSpace c, ?_, hwhite, Or.inl rfl, hname start, hrest start⟩
        rw [List.takeWhile_append_dropWhile, List.singleton_append, ← hslash, ← hdrop, hsplit]
      · have htake : (c :: start).takeWhile (fun c => !isSpace c) =
            c :: start.takeWhile fun c => !isSpace c :=
          List.takeWhile_cons_of_pos (by rw [hc]; rfl)
        refine ⟨(c :: start).takeWhile fun c => !isSpace c, tag.takeWhile isSpace, [],
          (c :: start).dropWhile fun c => !isSpace c, ?_, hwhite, Or.inr ⟨rfl, ?_, ?_⟩,
          hname (c :: start), hrest (c :: start)⟩
        · rw [List.takeWhile_append_dropWhile, List.nil_append, ← hdrop, hsplit]
        · rw [htake]
          exact List.cons_ne_nil _ _
        · rw [htake]
          exact fun heq => hslash (Option.some.inj heq)

/-- **The body of the loop accepts the tags that are allowed.** -/
theorem checkTag_iff (tagv : List Bytes) (tag : Bytes) :
    checkTag (tagv.map lower) tag = true ↔ Allowed tagv tag := by
  by_cases hblank : Blank tag
  · refine iff_of_true ?_ (Or.inl hblank)
    rw [checkTag, (tagName_eq_none tag).mpr hblank]
  · obtain ⟨name, hname⟩ := exists_hasName hblank
    have hfound := tagName_of_hasName hname
    have hcheck : checkTag (tagv.map lower) tag = true ↔ ∃ t ∈ tagv, lower name = lower t := by
      rw [checkTag, hfound]
      simp
    rw [hcheck]
    constructor
    · exact fun h => Or.inr ⟨name, hname, h⟩
    · intro h
      obtain ⟨other, hother, t, ht, heq⟩ := h.resolve_left hblank
      have hsame := Option.some.inj (hfound.symm.trans (tagName_of_hasName hother))
      exact ⟨t, ht, hsame.trans heq⟩

/-! ## The tags of a text -/

theorem foldl_outside {s : Bytes} (h : 60 ∉ s) : s.foldl inTag false = false := by
  induction s with
  | nil => rfl
  | cons c s ih =>
      have hc : c ≠ 60 := fun heq => h (heq ▸ List.mem_cons_self)
      rw [List.foldl_cons, show inTag false c = false from by simpa [inTag] using hc]
      exact ih fun hmem => h (List.mem_cons_of_mem _ hmem)

theorem foldl_inside {s : Bytes} (h : 62 ∉ s) : s.foldl inTag true = true := by
  induction s with
  | nil => rfl
  | cons c s ih =>
      have hc : c ≠ 62 := fun heq => h (heq ▸ List.mem_cons_self)
      rw [List.foldl_cons, show inTag true c = true from by simpa [inTag] using hc]
      exact ih fun hmem => h (List.mem_cons_of_mem _ hmem)

/-- A text without `<` has no tags. -/
theorem not_isTag {p : Bytes} (h : 60 ∉ p) (tag : Bytes) : ¬IsTag p tag := by
  rintro ⟨before, after, rfl, -⟩
  exact h (List.mem_append_right _ List.mem_cons_self)

/-- A tag of a text with a `<` is the first tag, or begins behind that `<`. -/
theorem isTag_cons {before rest tag : Bytes} (h : 60 ∉ before) :
    IsTag (before ++ 60 :: rest) tag ↔ 62 ∉ tag ∧ ((∃ after, rest = tag ++ 62 :: after) ∨
      ∃ more after, rest = more ++ 60 :: (tag ++ 62 :: after) ∧
        more.foldl inTag true = false) := by
  constructor
  · rintro ⟨front, after, htext, hout, htag⟩
    refine ⟨htag, ?_⟩
    rcases List.append_eq_append_iff.mp htext with ⟨u, hfront, hrest⟩ | ⟨u, hbefore, hrest⟩
    · cases u with
      | nil => exact Or.inl ⟨after, (List.cons.inj hrest).2⟩
      | cons c u =>
          obtain ⟨rfl, htail⟩ := List.cons.inj hrest
          refine Or.inr ⟨u, after, htail, ?_⟩
          rw [hfront, List.foldl_append, foldl_outside h] at hout
          exact hout
    · cases u with
      | nil => exact Or.inl ⟨after, (List.cons.inj hrest).2.symm⟩
      | cons c u =>
          obtain ⟨rfl, -⟩ := List.cons.inj hrest
          exact absurd (hbefore ▸ List.mem_append_right _ List.mem_cons_self) h
  · rintro ⟨htag, ⟨after, rfl⟩ | ⟨more, after, rfl, hout⟩⟩
    · exact ⟨before, after, rfl, foldl_outside h, htag⟩
    · refine ⟨before ++ 60 :: more, after, by simp, ?_, htag⟩
      rw [List.foldl_append, foldl_outside h]
      exact hout

/-- No tag begins in a tag without end. -/
theorem not_isTag_open {before rest : Bytes} (hbefore : 60 ∉ before) (hrest : 62 ∉ rest)
    (tag : Bytes) : ¬IsTag (before ++ 60 :: rest) tag := by
  intro h
  obtain ⟨-, ⟨after, rfl⟩ | ⟨more, after, rfl, -⟩⟩ := (isTag_cons hbefore).mp h
  · exact hrest (List.mem_append_right _ List.mem_cons_self)
  · exact hrest (by simp)

/-- The tags of a text are the first tag and those behind it. -/
theorem isTag_step {before tag rest : Bytes} (hbefore : 60 ∉ before) (htag : 62 ∉ tag)
    (other : Bytes) :
    IsTag (before ++ 60 :: (tag ++ 62 :: rest)) other ↔ other = tag ∨ IsTag rest other := by
  rw [isTag_cons hbefore]
  constructor
  · rintro ⟨hother, ⟨after, heq⟩ | ⟨more, after, heq, hout⟩⟩
    · -- both end with the first `>`
      have hfirst := strchr_behind htag rest
      rw [heq, strchr_behind hother] at hfirst
      exact Or.inl (List.append_inj heq (Option.some.inj hfirst).symm).1.symm
    · -- the tag ends in `more`, which is outside at its end
      rcases List.append_eq_append_iff.mp heq with ⟨u, hmore, hrest⟩ | ⟨u, htag', -⟩
      · cases u with
        | nil => exact absurd (List.cons.inj hrest).1 (by decide)
        | cons c u =>
            obtain ⟨rfl, htail⟩ := List.cons.inj hrest
            refine Or.inr ⟨u, after, htail, ?_, hother⟩
            rw [hmore, List.foldl_append, foldl_inside htag] at hout
            exact hout
      · have hin : more.foldl inTag true = true := foldl_inside fun hmem =>
          htag (htag' ▸ List.mem_append_left _ hmem)
        exact absurd (hin.symm.trans hout) (by decide)
  · rintro (rfl | ⟨more, after, rfl, hout, hother⟩)
    · exact ⟨htag, Or.inl ⟨rest, rfl⟩⟩
    · refine ⟨hother, Or.inr ⟨tag ++ 62 :: more, after, by simp, ?_⟩⟩
      rw [List.foldl_append, foldl_inside htag]
      exact hout

/-! ## The loop -/

theorem strchr_eq_none {c : UInt8} {s : Bytes} (h : c ∉ s) : strchr c s = none :=
  List.idxOf?_eq_none_iff.mpr h

theorem checkTags_plain {p : Bytes} (h : 60 ∉ p) (tagv : List Bytes) : checkTags tagv p = true := by
  rw [checkTags]
  split
  · rfl
  · exact absurd ((strchr_eq_none h).symm.trans ‹_›) (by simp)

/-- A `<` without a `>` behind it ends the loop. -/
theorem checkTags_open {before rest : Bytes} (hbefore : 60 ∉ before) (hrest : 62 ∉ rest)
    (tagv : List Bytes) : checkTags tagv (before ++ 60 :: rest) = true := by
  have hstart := strchr_behind hbefore rest
  have hstop : strchr 62 (60 :: rest) = none :=
    strchr_eq_none fun h => hrest ((List.mem_cons.mp h).resolve_left (by decide))
  rw [checkTags]
  split
  · rfl
  · obtain rfl := Option.some.inj (hstart.symm.trans ‹_›)
    rw [List.drop_left, hstop]

theorem checkTags_step {before tag rest : Bytes} (hbefore : 60 ∉ before) (htag : 62 ∉ tag)
    (tagv : List Bytes) : checkTags tagv (before ++ 60 :: (tag ++ 62 :: rest)) =
      (checkTag tagv tag && checkTags tagv rest) := by
  have hstart := strchr_behind hbefore (tag ++ 62 :: rest)
  have hstop : strchr 62 (60 :: (tag ++ 62 :: rest)) = some (tag.length + 1) :=
    @strchr_behind 62 (60 :: tag) (fun h =>
      htag ((List.mem_cons.mp h).resolve_left (by decide))) rest
  rw [checkTags]
  split
  · exact absurd (hstart.symm.trans ‹_›) (by simp)
  · obtain rfl := Option.some.inj (hstart.symm.trans ‹_›)
    rw [List.drop_left, hstop]
    have htake : ((60 :: (tag ++ 62 :: rest)).take (tag.length + 1)).tail = tag := by simp
    have hdrop : (60 :: (tag ++ 62 :: rest)).drop (tag.length + 1 + 1) = rest := by
      rw [List.drop_succ_cons, ← List.drop_drop, List.drop_left]
      rfl
    simp only [htake, hdrop]
    cases checkTag tagv tag
    · rfl
    · rfl

/-- **The loop accepts the texts whose tags are all allowed.** -/
theorem checkTags_iff (tagv : List Bytes) (p : Bytes) :
    checkTags (tagv.map lower) p = true ↔ ∀ tag, IsTag p tag → Allowed tagv tag := by
  induction hn : p.length using Nat.strong_induction_on generalizing p with
  | _ n ih =>
  by_cases hlt : 60 ∈ p
  · obtain ⟨before, rest, rfl, hbefore⟩ := List.eq_append_cons_of_mem hlt
    by_cases hgt : 62 ∈ rest
    · obtain ⟨tag, rest, rfl, htag⟩ := List.eq_append_cons_of_mem hgt
      have hless : rest.length < n := by
        rw [← hn]
        simp only [List.length_append, List.length_cons]
        omega
      rw [checkTags_step hbefore htag, Bool.and_eq_true, checkTag_iff, ih _ hless rest rfl]
      simp only [isTag_step hbefore htag]
      constructor
      · rintro ⟨hfirst, hmore⟩ other (rfl | hother)
        · exact hfirst
        · exact hmore other hother
      · exact fun h => ⟨h tag (Or.inl rfl), fun other hother => h other (Or.inr hother)⟩
    · exact iff_of_true (checkTags_open hbefore hgt _) fun tag htag =>
        absurd htag (not_isTag_open hbefore hgt tag)
  · exact iff_of_true (checkTags_plain hlt _) fun tag htag => absurd htag (not_isTag hlt tag)

/-! ## The command -/

/-- **Allowed tags.** The result is 1 exactly if all tags from a `<` to a `>` are allowed, and an
error exactly if the list of names cannot be split. -/
theorem tagCheckCmd_iff (tcl : TclList) (html goodTagList : CStr) :
    (tagCheckCmd tcl html goodTagList = none ↔ tcl.splitList goodTagList.1 = none) ∧
      (tagCheckCmd tcl html goodTagList = some true ↔ ∃ tagv,
        tcl.splitList goodTagList.1 = some tagv ∧
          ∀ tag, IsTag html.1 tag → Allowed tagv tag) := by
  rw [tagCheckCmd]
  cases tcl.splitList goodTagList.1 with
  | none => exact ⟨iff_of_true rfl rfl, iff_of_false (by simp) (by simp)⟩
  | some tagv =>
      refine ⟨iff_of_false (by simp) (by simp), ?_⟩
      show some (checkTags (tagv.map lower) html.1) = some true ↔ _
      rw [Option.some.injEq, checkTags_iff]
      constructor
      · exact fun h => ⟨tagv, rfl, h⟩
      · rintro ⟨_, heq, h⟩
        obtain rfl := Option.some.inj heq
        exact h

/-- `<script`. -/
def openScript : CStr := ⟨60 :: ascii "script", by decide⟩

/-- A tag without end is not looked at: `<script` is accepted although no name is allowed. -/
theorem tagCheckCmd_open :
    tagCheckCmd TclList.simple openScript ⟨[], nulFree_nil⟩ = some true ∧
      TclList.simple.splitList [] = some [] ∧ IsOpenTag openScript.1 (ascii "script") ∧
      ¬Allowed [] (ascii "script") := by
  have hsplit : TclList.simple.splitList [] = some [] := rfl
  have hopen : checkTags [] openScript.1 = true :=
    @checkTags_open [] (ascii "script") List.not_mem_nil (by decide) []
  refine ⟨?_, hsplit, ⟨[], rfl, rfl, by decide⟩, ?_⟩
  · rw [tagCheckCmd, hsplit]
    exact congrArg some hopen
  · rintro (hblank | ⟨name, -, t, ht, -⟩)
    · exact absurd (hblank 115 (by decide)) (by decide)
    · exact absurd ht List.not_mem_nil

end Nsdci.Misc
