import Nsdci.Links
import Nsdci.Misc.TagPairs

/-!
# Texts with link elements (`dciadmin/links.c`)

A promotion is plain text with complete `<link …>…</link>` elements in it. What
`Dci_WriteLinksCmd` makes of one: a table of links (`Promo.table`), each once, and a record for each
piece of text, in their order (`Promo.records`).

`writeLinksCmd_promo` says that the records are read back from the data and the table from
`linksVar`. The page of an element with a name but no page is empty.
-/

namespace Nsdci.Links

open Lib
open Misc (Att)
open Rpc (strTrim)

/-! ## Promotions -/

/-- Text without elements. -/
structure Plain (s : Bytes) : Prop where
  free : NulFree s
  no_open : ¬linkOpen <:+: s
  no_close : ¬linkClose <:+: s

/-- An element: its attributes, and its text. -/
structure Element where
  atts : List Att
  text : Bytes
  distinct : (atts.map Att.name).Nodup
  no_gt : ∀ a ∈ atts, 62 ∉ a.name ∧ 62 ∉ a.value
  filled : ∀ a ∈ atts, a.value ≠ []
  trimmed : ∀ a ∈ atts, strTrim a.value = a.value
  plain : Plain text

/-- The attributes, each behind one space. -/
def Element.attText (e : Element) : Bytes := e.atts.flatMap fun a => 32 :: a.text

/-- The element as it is written. -/
def Element.source (e : Element) : Bytes :=
  linkOpen ++ (e.attText ++ 62 :: (e.text ++ linkClose))

/-- Elements, each behind some plain text, and the plain text behind the last. -/
structure Promo where
  pieces : List ({ s : Bytes // Plain s } × Element)
  last : { s : Bytes // Plain s }

/-- The text of a promotion. -/
def Promo.source (d : Promo) : Bytes :=
  (d.pieces.flatMap fun p => p.1.1 ++ p.2.source) ++ d.last.1

/-- The value of the attribute with a name. -/
def Element.value? (e : Element) (name : Bytes) : Option Bytes :=
  (e.atts.find? fun a => a.name = name).map Att.value

/-- The attributes beside `name` and `page`. -/
def Element.hrefAtts (e : Element) : Bytes :=
  (e.atts.filter fun a => a.name ≠ nameKey ∧ a.name ≠ pageKey).flatMap fun a => a.text ++ [32]

/-- The link of an element. The default page is for one without a name. -/
def Element.linkWith (e : Element) (deflink defpage : Bytes) : Link where
  link := (e.value? nameKey).getD deflink
  page := (e.value? pageKey).getD (if (e.value? nameKey).isSome then [] else defpage)
  hrefAtts := e.hrefAtts

/-- The table: the default link, and the links of the elements while there is room. -/
def Promo.table (d : Promo) (deflink defpage : Bytes) : List Link :=
  internAll promoMaxlink [⟨deflink, defpage, []⟩]
    (d.pieces.map fun p => p.2.linkWith deflink defpage)

/-! ## Records -/

/-- A record of the data: a text, or a text with the place of its link. -/
inductive Record where
  | text (s : Bytes)
  | link (index : Nat) (s : Bytes)
  deriving DecidableEq

/-- Read a record. -/
def readRecord : Bytes → Option (Record × Bytes)
  | [] => none
  | t :: bs =>
      if t = 116 then (readCStr bs).map fun r => (.text r.1, r.2)
      else if t = 108 then bs.head?.bind fun c =>
        (readCStr bs.tail).map fun r => (.link c.toNat r.1, r.2)
      else none

/-- Read all records, up to the NUL that ends the data. -/
def readRecords : Nat → Bytes → Option (List Record)
  | 0, _ => none
  | n + 1, bs =>
      if bs = [0] then some []
      else (readRecord bs).bind fun r => (readRecords n r.2).map (r.1 :: ·)

/-- The record of a text with a link, by the table. -/
def linkRecord (table : List Link) (l : Link) (s : Bytes) : Record :=
  if l ∈ table then .link (table.idxOf l) s else .text s

/-- The records of a promotion by a table: all its texts in order. -/
def Promo.records (d : Promo) (table : List Link) (deflink defpage : Bytes) : List Record :=
  (d.pieces.flatMap fun p =>
    [.text p.1.1, linkRecord table (p.2.linkWith deflink defpage) p.2.text]) ++ [.text d.last.1]

/-! ## Reading records -/

/-- A record as it is written. -/
def Record.bytes : Record → Bytes
  | .text s => 116 :: asciz s
  | .link index s => 108 :: UInt8.ofNat index :: asciz s

/-- The record can be read back. -/
def Record.Fits : Record → Prop
  | .text s => NulFree s
  | .link index s => index < 256 ∧ NulFree s

theorem readRecord_bytes {r : Record} (h : r.Fits) (rest : Bytes) :
    readRecord (r.bytes ++ rest) = some (r, rest) := by
  cases r with
  | text s =>
      show (readCStr (asciz s ++ rest)).map _ = _
      rw [readCStr_asciz h]
      rfl
  | link index s =>
      obtain ⟨hlt, hfree⟩ := h
      show (readCStr (asciz s ++ rest)).map _ = _
      rw [readCStr_asciz hfree]
      show some (Record.link (UInt8.ofNat index).toNat s, rest) = _
      rw [UInt8.toNat_ofNat_of_lt' hlt]

/-- **Records are read back.** -/
theorem readRecords_bytes {rs : List Record} (h : ∀ r ∈ rs, r.Fits) {n : Nat} (hn : rs.length < n) :
    readRecords n (rs.flatMap Record.bytes ++ [0]) = some rs := by
  induction rs generalizing n with
  | nil =>
      obtain ⟨n, rfl⟩ := Nat.exists_eq_succ_of_ne_zero (Nat.ne_zero_of_lt hn)
      rfl
  | cons r rs ih =>
      obtain ⟨hr, hrs⟩ := List.forall_mem_cons.mp h
      obtain ⟨n, rfl⟩ := Nat.exists_eq_succ_of_ne_zero (Nat.ne_zero_of_lt hn)
      have hmore : r.bytes ++ (rs.flatMap Record.bytes ++ [0]) ≠ [0] := by
        cases r <;> simp [Record.bytes]
      rw [List.flatMap_cons, List.append_assoc, readRecords, if_neg hmore, readRecord_bytes hr]
      show (readRecords n _).map _ = _
      rw [ih hrs (Nat.lt_of_succ_lt_succ hn)]
      rfl

/-! ## Attributes of an element -/

namespace Element

variable (e : Element)

theorem gt_notMem : 62 ∉ e.attText := by
  intro h
  obtain ⟨a, ha, hmem⟩ := List.mem_flatMap.mp h
  obtain ⟨hname, hvalue⟩ := e.no_gt a ha
  have htext : 62 ∈ a.text := by simpa using hmem
  simp only [Att.text, List.mem_append, List.mem_cons] at htext
  rcases htext with h | h | h | h | h
  · exact hname h
  · exact absurd h (by decide)
  · exact absurd h (by decide)
  · exact hvalue h
  · exact absurd h (by decide)

/-- `</link` is not at the end of the attributes: that is a quote. -/
theorem close_not_suffix : ¬linkClose.dropLast <:+ e.attText := by
  intro h
  have hlast : e.attText.getLast? = some 107 := by
    obtain ⟨s, hs⟩ := h
    rw [← hs, List.getLast?_append]
    rfl
  rcases List.eq_nil_or_concat e.atts with hnil | ⟨atts, a, hatts⟩
  · rw [attText, hnil] at hlast
    exact nomatch hlast
  · have hquote : e.attText = (atts.flatMap fun a => 32 :: a.text) ++
        (32 :: (a.name ++ 61 :: 34 :: a.value)) ++ [34] := by
      rw [attText, hatts, List.concat_eq_append, List.flatMap_append]
      simp [Att.text]
    rw [hquote, List.getLast?_concat] at hlast
    exact absurd hlast (by decide)

/-- The attributes with the white space before them. -/
theorem attText_eq : e.attText = Misc.tagText (e.atts.map fun a => ([32], a)) := by
  rw [attText, Misc.tagText, List.flatMap_map]
  rfl

theorem white : ∀ p ∈ e.atts.map fun a => (([32] : Bytes), a), ∀ c ∈ p.1, Rpc.isSpace c = true := by
  intro p hp c hc
  obtain ⟨a, -, rfl⟩ := List.mem_map.mp hp
  obtain rfl := List.mem_singleton.mp hc
  rfl

theorem nulFree_attText : NulFree e.attText := by
  rw [attText_eq]
  exact Misc.nulFree_tagText e.white

theorem tidy : Misc.Tidy (e.atts.map fun a => ([32], a)) := by
  refine ⟨fun p hp => ?_, fun p hp => ?_, fun p hp => ?_⟩
  · obtain ⟨a, -, rfl⟩ := List.mem_map.mp (List.mem_of_mem_tail hp)
    exact List.mem_singleton_self _
  · obtain ⟨a, ha, rfl⟩ := List.mem_map.mp hp
    exact e.trimmed a ha
  · obtain ⟨a, ha, rfl⟩ := List.mem_map.mp (List.mem_of_mem_dropLast hp)
    exact e.filled a ha

theorem findTagAtts_attText :
    Misc.findTagAtts e.attText = some (e.atts.map fun a => (a.name, a.value)) := by
  have hwhite := e.white
  have htidy := e.tidy
  rw [attText_eq]
  cases hatts : e.atts with
  | nil => rfl
  | cons a atts =>
      rw [hatts] at hwhite htidy
      rw [List.map_cons, Misc.findTagAtts_tagText hwhite, (Misc.foundAtts_iff _ _ _).mpr htidy]
      simp [Misc.attPair]

/-! ## Its place in a text -/

/-- The first `</link>` is the one behind the text. -/
theorem strstr_close (rest : Bytes) :
    strstr linkClose (e.attText ++ 62 :: (e.text ++ (linkClose ++ rest))) =
      some (e.attText.length + 1 + e.text.length) := by
  have hno : ¬linkClose <:+: e.attText ++ 62 :: e.text := by
    intro h
    rcases @infix_concat 62 linkClose.dropLast _ _ e.gt_notMem (by decide) h with h | h
    · exact e.close_not_suffix h
    · exact e.plain.no_close h
  have hfound := strstr_behind (by decide) hno rest
  have hsplit : e.attText ++ 62 :: (e.text ++ (linkClose ++ rest)) =
      (e.attText ++ 62 :: e.text) ++ (linkClose ++ rest) := by simp
  have hlen : (e.attText ++ 62 :: e.text).length = e.attText.length + 1 + e.text.length := by
    rw [List.length_append, List.length_cons]
    omega
  rw [hsplit, ← hlen]
  exact hfound

/-- **An element is found behind plain text.** -/
theorem findElement_source {s : Bytes} (hs : Plain s) (rest : Bytes) :
    ∃ behind, findElement (s ++ (e.source ++ rest)) =
      some ⟨s, e.attText ++ 0 :: behind, e.text, rest⟩ := by
  have hopen : strstr linkOpen (s ++ (e.source ++ rest)) = some s.length := by
    rw [source, List.append_assoc]
    exact strstr_behind (by decide) hs.no_open _
  have hbody : (s ++ (e.source ++ rest)).drop (s.length + 5) =
      e.attText ++ 62 :: (e.text ++ (linkClose ++ rest)) := by
    rw [← List.drop_drop, List.drop_left, source]
    simp [linkOpen]
  have hgt := strchr_behind e.gt_notMem (e.text ++ (linkClose ++ rest))
  have hlt : e.attText.length < e.attText.length + 1 + e.text.length := by omega
  -- the pieces of the element
  have hfront : e.attText ++ 62 :: (e.text ++ (linkClose ++ rest)) =
      (e.attText ++ 62 :: e.text) ++ (linkClose ++ rest) := by simp
  have hlen : (e.attText ++ 62 :: e.text).length = e.attText.length + 1 + e.text.length := by
    rw [List.length_append, List.length_cons]
    omega
  have htext : ((e.attText ++ 62 :: (e.text ++ (linkClose ++ rest))).take
      (e.attText.length + 1 + e.text.length)).drop (e.attText.length + 1) = e.text := by
    rw [hfront, ← hlen, List.take_left, ← List.drop_drop, List.drop_left]
    rfl
  have hrest : (e.attText ++ 62 :: (e.text ++ (linkClose ++ rest))).drop
      (e.attText.length + 1 + e.text.length + 7) = rest := by
    rw [hfront, ← List.drop_drop, ← hlen, List.drop_left]
    exact List.drop_left' rfl
  have hmemory : (((e.attText ++ 62 :: (e.text ++ (linkClose ++ rest))).take
      (e.attText.length + 1 + e.text.length + 7)).set e.attText.length 0).set
        (e.attText.length + 1 + e.text.length) 0 =
      e.attText ++ 0 :: (e.text ++ linkClose).set e.text.length 0 := by
    have htake : (e.attText ++ 62 :: (e.text ++ (linkClose ++ rest))).take
        (e.attText.length + 1 + e.text.length + 7) =
        e.attText ++ 62 :: (e.text ++ linkClose) := by
      rw [hfront, ← hlen, ← List.append_assoc]
      rw [List.take_left' (by rw [List.length_append]; rfl)]
      simp
    rw [htake, List.set_append_right _ _ le_rfl, Nat.sub_self, List.set_cons_zero, Nat.add_assoc,
      List.set_append_right _ _ (Nat.le_add_right _ _), Nat.add_sub_cancel_left, Nat.add_comm 1,
      List.set_cons_succ]
  refine ⟨(e.text ++ linkClose).set e.text.length 0, ?_⟩
  simp only [findElement, hopen, hbody, e.strstr_close, hgt, if_pos hlt, hmemory, htext, hrest,
    List.take_left, Option.bind_eq_bind, Option.bind_some]

end Element

/-! ## The link of an element -/

theorem find_none {atts : List Att} {name : Bytes} (h : name ∉ atts.map Att.name) :
    atts.find? (fun a => a.name = name) = none := by
  rw [List.find?_eq_none]
  intro a ha heq
  exact h (List.mem_map.mpr ⟨a, ha, by simpa using heq⟩)

/-- What the loop over the attributes leaves. -/
theorem foldl_onAtt {atts : List Att} (h : (atts.map Att.name).Nodup) (v : AttVars) :
    (atts.map fun a => (a.name, a.value)).foldl AttVars.onAtt v =
      ⟨((atts.find? fun a => a.name = nameKey).map Att.value).or v.link,
        ((atts.find? fun a => a.name = pageKey).map Att.value).or v.page,
        v.dsHrefAtts ++ (atts.filter fun a => a.name ≠ nameKey ∧ a.name ≠ pageKey).flatMap
          fun a => a.text ++ [32]⟩ := by
  induction atts generalizing v with
  | nil => simp
  | cons a atts ih =>
      rw [List.map_cons, List.nodup_cons] at h
      obtain ⟨hnew, hatts⟩ := h
      have hne : nameKey ≠ pageKey := by decide
      rw [List.map_cons, List.foldl_cons, ih hatts]
      by_cases hname : a.name = nameKey
      · have hpage : a.name ≠ pageKey := hname ▸ hne
        have hlater := find_none (hname ▸ hnew)
        simp [AttVars.onAtt, hname, hne, hlater]
      · by_cases hpage : a.name = pageKey
        · have hlater := find_none (hpage ▸ hnew)
          simp [AttVars.onAtt, hpage, hne.symm, hlater]
        · simp [AttVars.onAtt, hname, hpage, Att.text]

theorem linkOf_atts (e : Element) (deflink defpage : Bytes) :
    linkOf deflink defpage (e.atts.map fun a => (a.name, a.value)) =
      e.linkWith deflink defpage := by
  rw [linkOf, foldl_onAtt e.distinct, Element.linkWith, Element.value?, Element.value?,
    Element.hrefAtts]
  simp only [Option.or_none, List.nil_append]
  cases (e.atts.find? fun a => a.name = nameKey).map Att.value <;> rfl

/-! ## The run -/

/-- The record of an element is that of the final table. -/
theorem writeElement_source (deflink defpage : Bytes) (out : Out) (s rest behind : Bytes)
    (e : Element) (later : List Link) :
    writeElement deflink defpage out ⟨s, e.attText ++ 0 :: behind, e.text, rest⟩ =
      some ⟨out.ds ++ [Record.text s, linkRecord
          (internAll promoMaxlink out.links (e.linkWith deflink defpage :: later))
          (e.linkWith deflink defpage) e.text].flatMap Record.bytes,
        (intern promoMaxlink out.links (e.linkWith deflink defpage)).1⟩ := by
  have hset := Misc.findTagAtts_append_zero e.nulFree_attText e.findTagAtts_attText behind
  have hplace := @intern_internAll _ _ promoMaxlink out.links later
    (e.linkWith deflink defpage)
  rw [writeElement, hset, Option.bind_eq_bind, Option.bind_some, linkOf_atts]
  simp only [findLink, hplace, linkRecord]
  split_ifs with hmem
  · simp [Record.bytes, appendText]
  · simp [Record.bytes, appendText]

theorem writeElements_some {deflink defpage p : Bytes} {f : Found} (h : findElement p = some f)
    (out : Out) : writeElements deflink defpage out p =
      (writeElement deflink defpage out f).bind fun out =>
        writeElements deflink defpage out f.rest := by
  rw [writeElements]
  split
  · exact absurd (h.symm.trans ‹_›) (by simp)
  · obtain rfl := Option.some.inj (h.symm.trans ‹_›)
    rfl

theorem writeElements_plain {p : Bytes} (h : Plain p) (deflink defpage : Bytes) (out : Out) :
    writeElements deflink defpage out p = some { out with ds := appendText out.ds p } := by
  have hnone : findElement p = none := by
    rw [findElement, strstr_eq_none h.no_open]
    rfl
  rw [writeElements]
  split
  · rfl
  · exact absurd (hnone.symm.trans ‹_›) (by simp)

/-- **The loop.** -/
theorem writeElements_source (d : Promo) (deflink defpage : Bytes) (out : Out) :
    writeElements deflink defpage out d.source = some
      ⟨out.ds ++ (d.records (internAll promoMaxlink out.links
          (d.pieces.map fun p => p.2.linkWith deflink defpage)) deflink defpage).flatMap
            Record.bytes,
        internAll promoMaxlink out.links (d.pieces.map fun p => p.2.linkWith deflink defpage)⟩ := by
  obtain ⟨pieces, last⟩ := d
  induction pieces generalizing out with
  | nil =>
      rw [Promo.source, List.flatMap_nil, List.nil_append, writeElements_plain last.2]
      simp [Promo.records, Record.bytes, appendText, internAll]
  | cons p pieces ih =>
      have hsource : Promo.source ⟨p :: pieces, last⟩ =
          p.1.1 ++ (p.2.source ++ Promo.source ⟨pieces, last⟩) := by
        simp [Promo.source]
      obtain ⟨behind, hfound⟩ := p.2.findElement_source p.1.2 (Promo.source ⟨pieces, last⟩)
      rw [hsource, writeElements_some hfound, writeElement_source deflink defpage out _ _ behind p.2
        (pieces.map fun p => p.2.linkWith deflink defpage), Option.bind_some, ih]
      simp [Promo.records, internAll]

/-! ## What is in the table -/

/-- A link whose strings have no NUL. -/
def Link.Free (l : Link) : Prop := ∀ s ∈ l.elements, NulFree s

theorem Element.nulFree_value (e : Element) {name s : Bytes} (h : e.value? name = some s) :
    NulFree s := by
  obtain ⟨a, ha, rfl⟩ := Option.map_eq_some_iff.mp h
  exact fun h0 => (a.value_plain 0 h0).2 rfl

theorem nulFree_text (a : Att) : NulFree a.text := by
  have hname : NulFree a.name := fun h0 => (a.name_plain 0 h0).2 rfl
  have hvalue : NulFree a.value := fun h0 => (a.value_plain 0 h0).2 rfl
  rw [Att.text, nulFree_append]
  refine ⟨hname, ?_⟩
  simpa [NulFree] using hvalue

theorem Element.free_linkWith (e : Element) {deflink defpage : Bytes} (hlink : NulFree deflink)
    (hpage : NulFree defpage) : (e.linkWith deflink defpage).Free := by
  have hatts : NulFree e.hrefAtts := by
    intro h0
    obtain ⟨a, -, hmem⟩ := List.mem_flatMap.mp h0
    exact nulFree_append.mpr ⟨nulFree_text a, by decide⟩ hmem
  have hname : NulFree ((e.value? nameKey).getD deflink) := by
    cases hvalue : e.value? nameKey with
    | none => exact hlink
    | some s => exact e.nulFree_value hvalue
  have hpages : NulFree ((e.value? pageKey).getD
      (if (e.value? nameKey).isSome then [] else defpage)) := by
    cases hvalue : e.value? pageKey with
    | none =>
        show NulFree (if _ then _ else _)
        split_ifs
        · exact nulFree_nil
        · exact hpage
    | some s => exact e.nulFree_value hvalue
  exact List.forall_mem_cons.mpr ⟨hname, List.forall_mem_cons.mpr
    ⟨hpages, List.forall_mem_singleton.mpr hatts⟩⟩

theorem Promo.free_table (d : Promo) {deflink defpage : Bytes} (hlink : NulFree deflink)
    (hpage : NulFree defpage) : ∀ l ∈ d.table deflink defpage, l.Free := by
  intro l hl
  rcases mem_of_mem_internAll hl with hl | hl
  · obtain rfl := List.mem_singleton.mp hl
    exact List.forall_mem_cons.mpr ⟨hlink, List.forall_mem_cons.mpr
      ⟨hpage, List.forall_mem_singleton.mpr nulFree_nil⟩⟩
  · obtain ⟨p, -, rfl⟩ := List.mem_map.mp hl
    exact p.2.free_linkWith hlink hpage

theorem Promo.length_table (d : Promo) (deflink defpage : Bytes) :
    (d.table deflink defpage).length ≤ promoMaxlink :=
  length_internAll (Nat.le_add_left 1 126) _

/-- The records of a table with few links can be read back. -/
theorem fits_linkRecord {table : List Link} (htable : table.length ≤ promoMaxlink) (l : Link)
    {s : Bytes} (hs : NulFree s) : (linkRecord table l s).Fits := by
  unfold linkRecord
  split_ifs with hmem
  · have hlt := List.idxOf_lt_length_of_mem hmem
    exact ⟨by unfold promoMaxlink at htable; omega, hs⟩
  · exact hs

theorem Promo.fits_records (d : Promo) {table : List Link} (htable : table.length ≤ promoMaxlink)
    (deflink defpage : Bytes) : ∀ r ∈ d.records table deflink defpage, r.Fits := by
  intro r hr
  rcases List.mem_append.mp hr with hr | hr
  · obtain ⟨p, -, hr⟩ := List.mem_flatMap.mp hr
    rcases List.mem_cons.mp hr with rfl | hr
    · exact p.1.2.free
    · obtain rfl := List.mem_singleton.mp hr
      exact fits_linkRecord htable _ p.2.plain.free
  · obtain rfl := List.mem_singleton.mp hr
    exact d.last.2.free

/-- The record of a text with a link names the place of the link, or the link is one too many. -/
def Placed (table : List Link) (l : Link) (s : Bytes) (r : Record) : Prop :=
  (∃ i, r = .link i s ∧ table[i]? = some l) ∨
    (r = .text s ∧ table.length = promoMaxlink ∧ l ∉ table)

theorem placed_linkRecord {table : List Link} {l : Link} (s : Bytes)
    (h : l ∈ table ∨ table.length = promoMaxlink) : Placed table l s (linkRecord table l s) := by
  unfold linkRecord
  split_ifs with hmem
  · refine Or.inl ⟨table.idxOf l, rfl, ?_⟩
    have hlt := List.idxOf_lt_length_of_mem hmem
    rw [List.getElem?_eq_getElem hlt, List.getElem_idxOf]
  · exact Or.inr ⟨rfl, h.resolve_left hmem, hmem⟩

/-! ## The command -/

theorem Element.nulFree_source (e : Element) : NulFree e.source := by
  simp only [source, nulFree_append]
  refine ⟨by decide, e.nulFree_attText, ?_⟩
  have htext := nulFree_append.mpr ⟨e.plain.free, (by decide : NulFree linkClose)⟩
  simpa [NulFree] using htext

theorem Promo.nulFree_source (d : Promo) : NulFree d.source := by
  rw [source, nulFree_append]
  refine ⟨fun h0 => ?_, d.last.2.free⟩
  obtain ⟨p, -, hmem⟩ := List.mem_flatMap.mp h0
  exact nulFree_append.mpr ⟨p.1.2.free, p.2.nulFree_source⟩ hmem

/-- The promotion as a C string. -/
def Promo.text (d : Promo) : CStr := ⟨d.source, d.nulFree_source⟩

/-- A default that may be absent. -/
def orEmpty (s : Option CStr) : Bytes := (s.map Subtype.val).getD []

theorem nulFree_orEmpty (s : Option CStr) : NulFree (orEmpty s) := by
  cases s with
  | none => exact nulFree_nil
  | some s => exact s.2

theorem writeLinksCmd_eq {tcl : TclList} (subs : TclSublists tcl) (d : Promo)
    (deflink defpage : Option CStr) : writeLinksCmd subs d.text deflink defpage = some
      ⟨subs.sublists ((d.table (orEmpty deflink) (orEmpty defpage)).map Link.elements),
        (d.records (d.table (orEmpty deflink) (orEmpty defpage)) (orEmpty deflink)
          (orEmpty defpage)).flatMap Record.bytes ++ [0]⟩ := by
  have hrun := writeElements_source d (orEmpty deflink) (orEmpty defpage)
    ⟨[], [⟨orEmpty deflink, orEmpty defpage, []⟩]⟩
  show (writeElements (orEmpty deflink) (orEmpty defpage)
    ⟨[], [⟨orEmpty deflink, orEmpty defpage, []⟩]⟩ d.source).bind _ = _
  rw [hrun]
  rfl

/-- The data has room for all records. -/
theorem length_records (rs : List Record) : rs.length ≤ (rs.flatMap Record.bytes).length := by
  induction rs with
  | nil => exact le_rfl
  | cons r rs ih =>
      have hone : 1 ≤ r.bytes.length := by
        cases r <;> exact Nat.succ_le_succ (Nat.zero_le _)
      rw [List.flatMap_cons, List.length_cons, List.length_append]
      omega

/-- **The links of a promotion.** The records of the data are its texts in order, with one NUL
behind them, and `linksVar` has the table: each link once, the default first, up to its limit. The
record of an element names the place of its link, or is a text when the table is full without it. -/
theorem writeLinksCmd_promo {tcl : TclList} (subs : TclSublists tcl) (d : Promo)
    (deflink defpage : Option CStr) :
    ∃ (out : Written) (table : List Link) (rs : List Record),
      writeLinksCmd subs d.text deflink defpage = some out ∧
      out.data = rs.flatMap Record.bytes ++ [0] ∧
      readRecords out.data.length out.data = some rs ∧
      rs = d.records table (orEmpty deflink) (orEmpty defpage) ∧
      readLists tcl out.linksVar = some (table.map Link.elements) ∧
      table.Nodup ∧ table.length ≤ promoMaxlink ∧
      table.head? = some ⟨orEmpty deflink, orEmpty defpage, []⟩ ∧
      ∀ p ∈ d.pieces, Placed table (p.2.linkWith (orEmpty deflink) (orEmpty defpage)) p.2.text
        (linkRecord table (p.2.linkWith (orEmpty deflink) (orEmpty defpage)) p.2.text) := by
  obtain ⟨table, htable⟩ : ∃ table, table = d.table (orEmpty deflink) (orEmpty defpage) := ⟨_, rfl⟩
  have hlength : table.length ≤ promoMaxlink := htable ▸ d.length_table _ _
  have hfree : ∀ es ∈ table.map Link.elements, ∀ s ∈ es, NulFree s := by
    intro es hes
    obtain ⟨l, hl, rfl⟩ := List.mem_map.mp hes
    exact d.free_table (nulFree_orEmpty deflink) (nulFree_orEmpty defpage) l (htable ▸ hl)
  obtain ⟨more, hmore⟩ := prefix_internAll promoMaxlink
    [⟨orEmpty deflink, orEmpty defpage, []⟩]
    (d.pieces.map fun p => p.2.linkWith (orEmpty deflink) (orEmpty defpage))
  refine ⟨_, table, d.records table (orEmpty deflink) (orEmpty defpage),
    writeLinksCmd_eq subs d deflink defpage, ?_, ?_, rfl, ?_, ?_, hlength, ?_, ?_⟩
  · rw [htable]
  · have hfits := d.fits_records hlength (orEmpty deflink) (orEmpty defpage)
    rw [← htable]
    refine readRecords_bytes hfits ?_
    rw [List.length_append]
    exact Nat.lt_succ_of_le (length_records _)
  · rw [← htable]
    exact subs.readLists_sublists _ hfree
  · rw [htable]
    exact nodup_internAll (List.nodup_singleton _) _
  · rw [htable, Promo.table, ← hmore]
    rfl
  · intro p hp
    refine placed_linkRecord _ ?_
    rw [htable]
    exact mem_internAll _ _ (List.mem_map_of_mem hp)

theorem plain_nil : Plain [] := ⟨nulFree_nil, by decide, by decide⟩

theorem plain_x : Plain [120] := ⟨by decide, by decide, by decide⟩

theorem nameKey_plain : ∀ c ∈ nameKey, Misc.isKeyEnd c = false ∧ c ≠ 0 := by
  intro c hc
  simp only [nameKey, List.mem_cons, List.not_mem_nil, or_false] at hc
  rcases hc with rfl | rfl | rfl | rfl
  all_goals exact ⟨rfl, by decide⟩

theorem value_plain : ∀ c ∈ ([97] : Bytes), c ≠ 34 ∧ c ≠ 0 :=
  List.forall_mem_singleton.mpr ⟨by decide, by decide⟩

/-- `name="a"`. -/
def attA : Att := ⟨nameKey, [97], List.cons_ne_nil _ _, nameKey_plain, value_plain⟩

theorem attA_no_gt : ∀ a ∈ [attA], 62 ∉ a.name ∧ 62 ∉ a.value :=
  List.forall_mem_singleton.mpr ⟨by decide, by decide⟩

theorem attA_trimmed : ∀ a ∈ [attA], strTrim a.value = a.value :=
  List.forall_mem_singleton.mpr rfl

/-- `<link name="a">x</link>`. -/
def elementA : Element :=
  ⟨[attA], [120], List.nodup_singleton _, attA_no_gt,
    List.forall_mem_singleton.mpr (List.cons_ne_nil _ _), attA_trimmed, plain_x⟩

/-- That element and nothing else. -/
def pageless : Promo := ⟨[(⟨[], plain_nil⟩, elementA)], ⟨[], plain_nil⟩⟩

/-- The page `p`. -/
def pageP : CStr := ⟨[112], by decide⟩

/-- `<link ="v">x</link>`. -/
def nameless : CStr := ⟨linkOpen ++ [32, 61, 34, 118, 34, 62, 120] ++ linkClose, by decide⟩

/-- The default page `p` is not that of an element with the name `a`; and for an attribute without a
name the buffer is read before its beginning. -/
theorem writeLinksCmd_pageless :
    (∃ out, writeLinksCmd (TclSublists.nested TclList.simple) pageless.text none (some pageP) =
        some out ∧
      readRecords out.data.length out.data = some [.text [], .link 1 [120], .text []] ∧
      readLists TclList.simple out.linksVar = some [[[], [112], []], [[97], [], []]]) ∧
    writeLinksCmd (TclSublists.nested TclList.simple) nameless none none = none := by
  have hrun := writeLinksCmd_eq (TclSublists.nested TclList.simple) pageless none (some pageP)
  have hfound : findElement nameless.1 =
      some ⟨[], [32, 61, 34, 118, 34, 0, 120, 0, 47, 108, 105, 110, 107, 62], [120], []⟩ := rfl
  refine ⟨⟨_, hrun, by decide, by decide⟩, ?_⟩
  show (writeElements _ _ _ nameless.1).bind _ = none
  rw [writeElements_some hfound]
  rfl

end Nsdci.Links
