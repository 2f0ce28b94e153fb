import Nsdci.Lib.Intern
import Nsdci.Misc.TagAtts
import Nsdci.TclList

/-!
# Promotion links (`dciadmin/links.c`)

`Dci_WriteLinksCmd` cuts a text at its `<link …>…</link>` elements. What is between them, and the
text of each, goes into the data as records; an element whose link is in the table becomes an `l`
record with the place of the link, any other record is a `t`. The table goes into `linksVar`.
-/

namespace Nsdci.Links

open Lib

/-- `PROMO_MAXLINK`. -/
def promoMaxlink : Nat := 127

/-- `Link`. -/
structure Link where
  link : Bytes
  page : Bytes
  hrefAtts : Bytes
  deriving DecidableEq

/-- The elements of its sublist in `linksVar`. -/
def Link.elements (l : Link) : List Bytes := [l.link, l.page, l.hrefAtts]

/-- `FindLink`: the place of a link, which is put into the table when it has room. -/
def findLink (links : List Link) (l : Link) : List Link × Option Nat := intern promoMaxlink links l

/-- `AppendText`. -/
def appendText (ds text : Bytes) : Bytes := ds ++ 116 :: asciz text

/-! ## Elements -/

/-- `<link`. -/
def linkOpen : Bytes := [60, 108, 105, 110, 107]

/-- `</link>`. -/
def linkClose : Bytes := [60, 47, 108, 105, 110, 107, 62]

/-- What the loop cuts out at an element: the text before it, its bytes from the attributes on with
the two NULs among them, its text, and what is behind it. -/
structure Found where
  before : Bytes
  atts : Bytes
  text : Bytes
  rest : Bytes

/-- The condition of the loop, and the cuts. -/
def findElement (p : Bytes) : Option Found := do
  let s ← strstr linkOpen p
  let body := p.drop (s + 5)
  let e ← strstr linkClose body
  let t ← strchr 62 body
  if t < e then
    some ⟨p.take s, ((body.take (e + 7)).set t 0).set e 0, (body.take e).drop (t + 1),
      body.drop (e + 7)⟩
  else none

theorem length_rest {p : Bytes} {f : Found} (h : findElement p = some f) :
    f.rest.length < p.length := by
  obtain ⟨s, hs, h⟩ := Option.bind_eq_some_iff.mp h
  obtain ⟨e, he, h⟩ := Option.bind_eq_some_iff.mp h
  obtain ⟨t, -, h⟩ := Option.bind_eq_some_iff.mp h
  have hopen := (prefix_of_strstr hs).length_le
  split_ifs at h
  obtain rfl := Option.some.inj h
  show ((p.drop (s + 5)).drop (e + 7)).length < p.length
  rw [List.length_drop, List.length_drop]
  rw [List.length_drop, show linkOpen.length = 5 from rfl] at hopen
  omega

/-- The variables of the loop over the attributes. -/
structure AttVars where
  link : Option Bytes
  page : Option Bytes
  dsHrefAtts : Bytes

/-- `name`. -/
def nameKey : Bytes := [110, 97, 109, 101]

/-- `page`. -/
def pageKey : Bytes := [112, 97, 103, 101]

/-- The body of that loop. -/
def AttVars.onAtt (v : AttVars) (att : Bytes × Bytes) : AttVars :=
  if att.1 = nameKey then { v with link := some att.2 }
  else if att.1 = pageKey then { v with page := some att.2 }
  else { v with dsHrefAtts := v.dsHrefAtts ++ (att.1 ++ [61, 34] ++ att.2 ++ [34, 32]) }

/-- The link of an element, by its attributes. A page is defaulted with the link only. -/
def linkOf (deflink defpage : Bytes) (set : List (Bytes × Bytes)) : Link :=
  let v := set.foldl AttVars.onAtt ⟨none, none, []⟩
  match v.link with
  | none => ⟨deflink, v.page.getD defpage, v.dsHrefAtts⟩
  | some link => ⟨link, v.page.getD [], v.dsHrefAtts⟩

/-! ## The command -/

/-- The data, and the table. -/
structure Out where
  ds : Bytes
  links : List Link
  deriving DecidableEq

/-- The body of the loop. A read outside the attributes is no result. -/
def writeElement (deflink defpage : Bytes) (out : Out) (f : Found) : Option Out := do
  let ds := appendText out.ds f.before
  let set ← Misc.findTagAtts f.atts
  let found := findLink out.links (linkOf deflink defpage set)
  match found.2 with
  | none => some ⟨appendText ds f.text, found.1⟩
  | some index => some ⟨ds ++ 108 :: UInt8.ofNat index :: asciz f.text, found.1⟩

/-- The loop, and the text behind the last element. -/
def writeElements (deflink defpage : Bytes) (out : Out) (p : Bytes) : Option Out :=
  match _h : findElement p with
  | none => some { out with ds := appendText out.ds p }
  | some f => (writeElement deflink defpage out f).bind fun out =>
      writeElements deflink defpage out f.rest
termination_by p.length
decreasing_by exact length_rest _h

/-- A list of lists, from its text. -/
def readLists (tcl : TclList) (text : Bytes) : Option (List (List Bytes)) :=
  (tcl.splitList text).bind fun lists => lists.mapM tcl.splitList

/-- `Tcl_DStringStartSublist` and `Tcl_DStringEndSublist`: the text of a list whose elements are
lists. -/
structure TclSublists (tcl : TclList) where
  sublists : List (List Bytes) → Bytes
  readLists_sublists : ∀ lists, (∀ es ∈ lists, ∀ e ∈ es, NulFree e) →
    readLists tcl (sublists lists) = some lists

theorem mapM_splitList (tcl : TclList) {lists : List (List Bytes)}
    (h : ∀ es ∈ lists, ∀ e ∈ es, NulFree e) :
    (lists.map fun es => es.foldl tcl.appendElement []).mapM tcl.splitList = some lists := by
  induction lists with
  | nil => rfl
  | cons es lists ih =>
      obtain ⟨hes, hlists⟩ := List.forall_mem_cons.mp h
      have hone := tcl.splitList_foldl hes TclList.white_nil
      rw [List.append_nil] at hone
      rw [List.map_cons, List.mapM_cons, hone, ih hlists]
      rfl

/-- The lists as elements of a list. -/
def TclSublists.nested (tcl : TclList) : TclSublists tcl where
  sublists lists := (lists.map fun es => es.foldl tcl.appendElement []).foldl tcl.appendElement []
  readLists_sublists lists h := by
    have hfree : ∀ sub ∈ lists.map fun es => es.foldl tcl.appendElement [], NulFree sub := by
      intro sub hsub
      obtain ⟨es, hes, rfl⟩ := List.mem_map.mp hsub
      exact tcl.foldl_free (h es hes)
    have hsplit := tcl.splitList_foldl hfree TclList.white_nil
    rw [List.append_nil] at hsplit
    rw [readLists, hsplit]
    exact mapM_splitList tcl h

/-- What goes into `linksVar`, and the bytes for the channel. -/
structure Written where
  linksVar : Bytes
  data : Bytes

/-- `Dci_WriteLinksCmd` with a text and the defaults, up to `Tcl_SetVar` and `DciWriteChan`. -/
def writeLinksCmd {tcl : TclList} (subs : TclSublists tcl) (text : CStr)
    (deflink defpage : Option CStr) : Option Written := do
  let deflink := (deflink.map Subtype.val).getD []
  let defpage := (defpage.map Subtype.val).getD []
  let out ← writeElements deflink defpage ⟨[], (findLink [] ⟨deflink, defpage, []⟩).1⟩ text.1
  some ⟨subs.sublists (out.links.map Link.elements), out.ds ++ [0]⟩

end Nsdci.Links
