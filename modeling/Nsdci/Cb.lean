import Nsdci.Rpc
import Nsdci.TclList

/-!
# Comment boards (`cbapi.c`)

A board is a text: a list of posts, the oldest first, and each post is a list of five elements with
the number of the post in front. `cbPost` and `cbDelete` edit the text of a board.

The numbers of the posts of a board grow (`Numbered`), and both functions keep that, so no two posts
of a board have one number.
-/

namespace Nsdci.Cb

open Lib

/-- What boards use of Tcl. The text of an element has no newline at its end. -/
structure Tcl where
  list : TclList
  int : Rpc.TclGetInt
  element_last : ∀ e, NulFree e → (list.element e).getLast? ≠ some 10

/-- Simple lists, and decimal numbers only. -/
def Tcl.simple : Tcl :=
  ⟨TclList.simple, Rpc.TclGetInt.decimal, fun e _ => TclList.last_simpleElement e⟩

variable (tcl : Tcl)

/-- `CbGetId`. -/
def cbGetId (post : Bytes) : Int :=
  match tcl.list.splitList post with
  | some [id, _, _, _, _] => ((tcl.int.getInt id).map int32).getD (-1)
  | _ => -1

/-- The elements of a post as a list. -/
def newPost (id time : Int) (user msg fields : CStr) : Bytes :=
  [decimal id, decimal time, user.1, msg.1, fields.1].foldl tcl.list.appendElement []

/-- An element and a newline appended to a string. -/
def appendLine (ds post : Bytes) : Bytes := tcl.list.appendElement ds post ++ [10]

/-- The `while` loop that takes the newlines from the end of a string. -/
def dropNewlines (ds : Bytes) : Bytes := (ds.reverse.dropWhile (· = 10)).reverse

/-- The number of the next post, when that of the last one can be read. -/
def nextId (argv : List Bytes) : Option Int :=
  match argv.getLast? with
  | none => some 0
  | some post => if cbGetId tcl post < 0 then none else some (int32 (cbGetId tcl post + 1))

/-- The posts that stay when one more comes. -/
def kept (maxposts : Int) (argv : List Bytes) : List Bytes :=
  if maxposts ≤ argv.length then argv.drop (argv.length - maxposts + 1).toNat else argv

/-- One newline at the end of a string that is not empty. -/
def endLine (ds : Bytes) : Bytes := if dropNewlines ds = [] then [] else dropNewlines ds ++ [10]

/-- The string a new post is appended to: as it was, or made anew of the posts that stay. -/
def oldPosts (maxposts : Int) (ds : Bytes) (argv : List Bytes) : Bytes :=
  endLine (if maxposts ≤ argv.length then (kept maxposts argv).foldl (appendLine tcl) [] else ds)

/-- `Dci_CbPost`: the text with the post in it, or `none` for `NS_ERROR`. -/
def cbPost (ds : Bytes) (time : Int) (user msg fields : CStr) (maxposts : Int) : Option Bytes :=
  (tcl.list.splitList (cstr ds)).bind fun argv =>
    (nextId tcl argv).map fun id =>
      appendLine tcl (oldPosts tcl maxposts ds argv)
        (newPost tcl id (int32 time) user msg fields)

/-- The posts without the first one that has the number. `none` when there is one before it that
has none. -/
def withoutPost (id : Int) : List Bytes → Option (List Bytes)
  | [] => some []
  | post :: argv =>
      if cbGetId tcl post < 0 then none
      else if cbGetId tcl post = id then some argv
      else (withoutPost id argv).map (post :: ·)

/-- `Dci_CbDelete`. -/
def cbDelete (ds : Bytes) (id : Int) : Option Bytes :=
  (tcl.list.splitList (cstr ds)).bind fun argv =>
    (withoutPost tcl id argv).map fun posts => posts.foldl (appendLine tcl) []

/-- An edit of a board. -/
inductive Edit where
  | post (user msg fields : CStr)
  | delete (id : Int)
  deriving DecidableEq

/-- The text after an edit. -/
def Edit.apply (maxposts : Int) (e : Edit) (time : Int) (ds : Bytes) : Option Bytes :=
  match e with
  | .post user msg fields => cbPost tcl ds time user msg fields maxposts
  | .delete id => cbDelete tcl ds id

/-! ## Texts of boards -/

/-- The text is that of a board with these posts. -/
def Board (text : Bytes) (posts : List Bytes) : Prop :=
  ∃ (parts : Parts) (tail : Bytes), Spaced parts ∧ White tail ∧ parts.map Prod.snd = posts ∧
    text = listText tcl.list.element parts ++ tail

/-- The first post has a number, and a lower one than the second; but the second may have none. -/
def Before (post post' : Bytes) : Prop :=
  0 ≤ cbGetId tcl post ∧ (cbGetId tcl post < cbGetId tcl post' ∨ cbGetId tcl post' < 0)

/-- The numbers grow from post to post. Only the last post may have no number any more. -/
def Numbered (posts : List Bytes) : Prop := posts.Pairwise (Before tcl)

variable {tcl}

/-- **No two posts have one number.** -/
theorem Numbered.nodup {posts : List Bytes} (h : Numbered tcl posts) :
    (posts.map (cbGetId tcl)).Nodup := by
  rw [List.Nodup, List.pairwise_map]
  refine h.imp ?_
  intro post post' hbefore heq
  obtain ⟨hpos, hlt | hneg⟩ := hbefore
  · omega
  · omega

/-- The posts of a board are strings. -/
theorem Board.free {text : Bytes} {posts : List Bytes} (h : Board tcl text posts) :
    ∀ post ∈ posts, NulFree post := by
  obtain ⟨parts, tail, hspaced, -, rfl, -⟩ := h
  intro post hpost
  obtain ⟨p, hp, rfl⟩ := List.mem_map.mp hpost
  exact hspaced.free p hp

theorem nulFree_white {s : Bytes} (h : White s) : NulFree s := by
  intro h0
  exact absurd (h 0 h0) (by decide)

theorem nulFree_append {s t : Bytes} (hs : NulFree s) (ht : NulFree t) : NulFree (s ++ t) := by
  intro h
  rcases List.mem_append.mp h with h | h
  · exact hs h
  · exact ht h

theorem white_append {s t : Bytes} (hs : White s) (ht : White t) : White (s ++ t) := by
  intro c hc
  rcases List.mem_append.mp hc with h | h
  · exact hs c h
  · exact ht c h

/-- A text of elements is a string. -/
theorem nulFree_listText {parts : Parts} (h : Spaced parts) :
    NulFree (listText tcl.list.element parts) := by
  intro h0
  obtain ⟨p, hp, h0⟩ := List.mem_flatMap.mp h0
  exact nulFree_append (nulFree_white (h.white p hp))
    (tcl.list.element_free p.2 (h.free p hp)) h0

/-- A board is split into its posts. -/
theorem Board.split {text : Bytes} {posts : List Bytes} (h : Board tcl text posts) :
    tcl.list.splitList (cstr text) = some posts := by
  obtain ⟨parts, tail, hspaced, htail, rfl, rfl⟩ := h
  have hfree : NulFree (listText tcl.list.element parts ++ tail) :=
    nulFree_append (nulFree_listText hspaced) (nulFree_white htail)
  rw [cstr_eq_self hfree, tcl.list.splitList_listText parts tail hspaced htail]

theorem board_nil : Board tcl [] [] :=
  ⟨[], [], ⟨by simp, by simp, by simp⟩, TclList.white_nil, rfl, rfl⟩

/-- White space behind a board is nothing. -/
theorem Board.append_white {text tail : Bytes} {posts : List Bytes} (h : Board tcl text posts)
    (htail : White tail) : Board tcl (text ++ tail) posts := by
  obtain ⟨parts, tail', hspaced, htail', hposts, rfl⟩ := h
  exact ⟨parts, tail' ++ tail, hspaced, white_append htail' htail, hposts, by simp⟩

/-- The elements of a board do not end with a newline. -/
theorem last_listText (tcl : Tcl) {parts : Parts} (h : Spaced parts) :
    (listText tcl.list.element parts).getLast? ≠ some 10 := by
  rcases List.eq_nil_or_concat parts with rfl | ⟨front, p, rfl⟩
  · simp [listText]
  · have hfree : NulFree p.2 := h.free p (by simp)
    have hne : tcl.list.element p.2 ≠ [] := tcl.list.element_ne_nil hfree
    have hlast : (listText tcl.list.element (front ++ [p])).getLast? =
        (tcl.list.element p.2).getLast? := by
      simp [listText, List.getLast?_append, List.getLast?_eq_some_getLast hne]
    rw [List.concat_eq_append, hlast]
    exact tcl.element_last p.2 hfree

/-- Only white space behind the elements goes when newlines are taken from the end. -/
theorem dropNewlines_listText {parts : Parts} (h : Spaced parts) (tail : Bytes) :
    dropNewlines (listText tcl.list.element parts ++ tail) =
      listText tcl.list.element parts ++ dropNewlines tail := by
  have hlast := last_listText tcl h
  generalize listText tcl.list.element parts = s at hlast
  unfold dropNewlines
  rw [List.reverse_append, List.dropWhile_append]
  split_ifs with hall
  · have hstop : s.reverse.dropWhile (fun c => decide (c = 10)) = s.reverse := by
      rw [List.getLast?_eq_head?_reverse] at hlast
      cases hrev : s.reverse with
      | nil => rfl
      | cons c cs =>
          have hc : c ≠ 10 := fun h => hlast (by rw [hrev, h, List.head?_cons])
          simp [hc]
    have hnone : tail.reverse.dropWhile (fun c => decide (c = 10)) = [] := by simpa using hall
    rw [hstop, hnone]
    simp
  · simp

theorem white_dropNewlines {s : Bytes} (h : White s) : White (dropNewlines s) := by
  intro c hc
  have hmem := (List.dropWhile_suffix _).subset (List.mem_reverse.mp hc)
  exact h c (List.mem_reverse.mp hmem)

/-- A board stays one when newlines are taken from its end. -/
theorem Board.dropNewlines {text : Bytes} {posts : List Bytes} (h : Board tcl text posts) :
    Board tcl (dropNewlines text) posts := by
  obtain ⟨parts, tail, hspaced, htail, hposts, rfl⟩ := h
  rw [dropNewlines_listText hspaced]
  exact ⟨parts, Cb.dropNewlines tail, hspaced, white_dropNewlines htail, hposts, rfl⟩

theorem Board.endLine {text : Bytes} {posts : List Bytes} (h : Board tcl text posts) :
    Board tcl (endLine text) posts := by
  have hdrop := h.dropNewlines
  unfold Cb.endLine
  split_ifs with hnil
  · rwa [hnil] at hdrop
  · exact hdrop.append_white TclList.white_newline

/-- A line appended to a board is one more post. -/
theorem Board.appendLine {text post : Bytes} {posts : List Bytes} (h : Board tcl text posts)
    (hpost : NulFree post) :
    Board tcl (appendLine tcl text post) (posts ++ [post]) := by
  have hnewline : White [10] := TclList.white_newline
  obtain ⟨parts, tail, hspaced, htail, rfl, rfl⟩ := h
  by_cases hnil : listText tcl.list.element parts ++ tail = []
  · -- the text is empty, so the post is the first
    have hparts : parts = [] := by
      cases parts with
      | nil => rfl
      | cons p parts =>
          have hne := tcl.list.element_ne_nil (hspaced.free p (by simp))
          simp [listText, hne] at hnil
    subst hparts
    refine ⟨[([], post)], [10], ⟨?_, ?_, ?_⟩, hnewline, rfl, ?_⟩
    · simpa using TclList.white_nil
    · simpa using hpost
    · simp
    · rw [Cb.appendLine, TclList.appendElement, if_pos hnil]
      simp [listText]
  · refine ⟨parts ++ [(tail ++ [32], post)], [10], ⟨?_, ?_, ?_⟩, hnewline, by simp, ?_⟩
    · intro p hp
      rcases List.mem_append.mp hp with hp | hp
      · exact hspaced.white p hp
      · obtain rfl : p = (tail ++ [32], post) := by simpa using hp
        exact white_append htail TclList.white_space
    · intro p hp
      rcases List.mem_append.mp hp with hp | hp
      · exact hspaced.free p hp
      · obtain rfl : p = (tail ++ [32], post) := by simpa using hp
        exact hpost
    · intro p hp
      cases parts with
      | nil => simp at hp
      | cons q parts =>
          rw [List.cons_append, List.tail_cons] at hp
          rcases List.mem_append.mp hp with hp | hp
          · exact hspaced.apart p hp
          · obtain rfl : p = (tail ++ [32], post) := by simpa using hp
            simp
    · rw [Cb.appendLine, TclList.appendElement, if_neg hnil]
      simp [listText]

/-- Posts appended line by line are a board. -/
theorem board_lines {posts : List Bytes} (h : ∀ post ∈ posts, NulFree post) :
    Board tcl (posts.foldl (Cb.appendLine tcl) []) posts := by
  have hmore : ∀ (posts done : List Bytes) (ds : Bytes), (∀ post ∈ posts, NulFree post) →
      Board tcl ds done → Board tcl (posts.foldl (Cb.appendLine tcl) ds) (done ++ posts) := by
    intro posts
    induction posts with
    | nil => intro done ds _ hds; simpa using hds
    | cons post posts ih =>
        intro done ds hfree hds
        have hline := hds.appendLine (hfree post (by simp))
        simpa using ih _ _ (fun p hp => hfree p (List.mem_cons_of_mem _ hp)) hline
  simpa using hmore posts [] [] h board_nil

/-! ## Edits -/

theorem nulFree_decimal (x : Int) : NulFree (decimal x) := by
  intro h
  rcases mem_decimal h with h | h
  · exact absurd h (by decide)
  · exact absurd h (by decide)

/-- The elements of a post are strings. -/
theorem newPost_elements (id time : Int) (user msg fields : CStr) :
    ∀ e ∈ [decimal id, decimal time, user.1, msg.1, fields.1], NulFree e := by
  intro e he
  simp only [List.mem_cons, List.not_mem_nil, or_false] at he
  obtain rfl | rfl | rfl | rfl | rfl := he
  · exact nulFree_decimal id
  · exact nulFree_decimal time
  · exact user.2
  · exact msg.2
  · exact fields.2

/-- The number of a post is read back. -/
theorem cbGetId_newPost (tcl : Tcl) {id : Int} (hlo : -2147483648 ≤ id) (hhi : id < 2147483648)
    (time : Int)
    (user msg fields : CStr) : cbGetId tcl (newPost tcl id time user msg fields) = id := by
  have hsplit : tcl.list.splitList (newPost tcl id time user msg fields) =
      some [decimal id, decimal time, user.1, msg.1, fields.1] := by
    have h := tcl.list.splitList_foldl (newPost_elements id time user msg fields)
      TclList.white_nil
    rwa [List.append_nil] at h
  unfold cbGetId
  rw [hsplit]
  show ((tcl.int.getInt (decimal id)).map int32).getD (-1) = id
  rw [tcl.int.getInt_decimal id hlo hhi, Option.map_some, Option.getD_some]
  exact int32_of_range (by omega) (by omega)

theorem kept_suffix (maxposts : Int) (argv : List Bytes) : kept maxposts argv <:+ argv := by
  unfold kept
  split_ifs
  · exact List.drop_suffix _ _
  · exact List.suffix_refl _

/-- The string a post is appended to is a board of the posts that stay. -/
theorem Board.oldPosts {text : Bytes} {posts : List Bytes} (h : Board tcl text posts)
    (maxposts : Int) : Board tcl (oldPosts tcl maxposts text posts) (kept maxposts posts) := by
  unfold Cb.oldPosts
  apply Board.endLine
  split_ifs with hmax
  · exact board_lines fun post hpost => h.free post ((kept_suffix maxposts posts).subset hpost)
  · rwa [kept, if_neg hmax]

/-- **A post is appended to the posts that stay**, with the next number. -/
theorem Board.cbPost {ds text : Bytes} {posts : List Bytes} (h : Board tcl ds posts) {time : Int}
    {user msg fields : CStr} {maxposts : Int}
    (hpost : cbPost tcl ds time user msg fields maxposts = some text) :
    ∃ id, nextId tcl posts = some id ∧ Board tcl text
      (kept maxposts posts ++ [newPost tcl id (int32 time) user msg fields]) := by
  rw [Cb.cbPost, h.split, Option.bind_some] at hpost
  obtain ⟨id, hid, rfl⟩ := Option.map_eq_some_iff.mp hpost
  refine ⟨id, hid, (h.oldPosts maxposts).appendLine ?_⟩
  exact tcl.list.foldl_free (newPost_elements id _ user msg fields)

/-- What `nextId` gives fits an `int`. -/
theorem nextId_range {argv : List Bytes} {id : Int} (h : nextId tcl argv = some id) :
    -2147483648 ≤ id ∧ id < 2147483648 := by
  unfold nextId at h
  split at h
  · obtain rfl : 0 = id := by simpa using h
    omega
  · split_ifs at h with hneg
    obtain rfl := Option.some.inj h
    exact int32_range _

theorem cbGetId_range (tcl : Tcl) (post : Bytes) : -2147483648 ≤ cbGetId tcl post ∧
    cbGetId tcl post < 2147483648 := by
  unfold cbGetId
  split
  · rename_i id _ _ _ _ _
    cases tcl.int.getInt id with
    | none => simp
    | some x => simpa using int32_range x
  · omega

/-- Every post stands before one that gets the next number. -/
theorem before_next {posts : List Bytes} (h : Numbered tcl posts) {id : Int}
    (hid : nextId tcl posts = some id) {post new : Bytes} (hpost : post ∈ posts)
    (hnew : cbGetId tcl new = id) : Before tcl post new := by
  rcases List.eq_nil_or_concat posts with rfl | ⟨front, last, rfl⟩
  · exact absurd hpost List.not_mem_nil
  · rw [List.concat_eq_append] at *
    unfold nextId at hid
    rw [List.getLast?_concat] at hid
    dsimp only at hid
    split_ifs at hid with hneg
    have hlast := cbGetId_range tcl last
    have hle : 0 ≤ cbGetId tcl post ∧ cbGetId tcl post ≤ cbGetId tcl last := by
      rcases List.mem_append.mp hpost with hfront | hfront
      · obtain ⟨hpos, hlt⟩ := (List.pairwise_append.mp h).2.2 post hfront last (by simp)
        omega
      · obtain rfl : post = last := by simpa using hfront
        omega
    refine ⟨hle.1, ?_⟩
    rw [hnew, ← Option.some.inj hid]
    -- the number after the largest `int` is the smallest one
    by_cases hmax : cbGetId tcl last + 1 < 2147483648
    · rw [int32_of_range (by omega) (by omega)]
      omega
    · have hwrap : cbGetId tcl last + 1 = 2147483648 := by omega
      rw [hwrap]
      right
      decide

/-- **The numbers still grow when a post is appended.** -/
theorem Numbered.post {posts : List Bytes} (h : Numbered tcl posts) {id : Int}
    (hid : nextId tcl posts = some id) (maxposts time : Int) (user msg fields : CStr) :
    Numbered tcl (kept maxposts posts ++ [newPost tcl id time user msg fields]) := by
  obtain ⟨hlo, hhi⟩ := nextId_range hid
  have hnew := cbGetId_newPost tcl hlo hhi time user msg fields
  have hsub := (kept_suffix maxposts posts).sublist
  refine List.pairwise_append.mpr ⟨h.sublist hsub, List.pairwise_singleton _ _, ?_⟩
  intro post hpost new hmem
  obtain rfl : new = newPost tcl id time user msg fields := by simpa using hmem
  exact before_next h hid (hsub.subset hpost) hnew

/-- What a delete leaves was there before. -/
theorem withoutPost_sublist {id : Int} {argv posts : List Bytes}
    (h : withoutPost tcl id argv = some posts) : posts.Sublist argv := by
  induction argv generalizing posts with
  | nil =>
      obtain rfl : [] = posts := by simpa [withoutPost] using h
      exact List.Sublist.slnil
  | cons post argv ih =>
      rw [withoutPost] at h
      split_ifs at h with hneg heq
      · obtain rfl := Option.some.inj h
        exact List.sublist_cons_self _ _
      · obtain ⟨rest, hrest, rfl⟩ := Option.map_eq_some_iff.mp h
        exact (ih hrest).cons_cons _

/-- **A delete leaves a board without the post.** -/
theorem Board.cbDelete {ds text : Bytes} {posts : List Bytes} (h : Board tcl ds posts) {id : Int}
    (hdelete : cbDelete tcl ds id = some text) :
    ∃ left, withoutPost tcl id posts = some left ∧ Board tcl text left := by
  rw [Cb.cbDelete, h.split, Option.bind_some] at hdelete
  obtain ⟨left, hleft, rfl⟩ := Option.map_eq_some_iff.mp hdelete
  refine ⟨left, hleft, board_lines ?_⟩
  intro post hpost
  exact h.free post ((withoutPost_sublist hleft).subset hpost)

/-- The text is that of a board whose numbers grow. -/
def NumberedBoard (tcl : Tcl) (text : Bytes) : Prop :=
  ∃ posts, Board tcl text posts ∧ Numbered tcl posts

/-- **An edit keeps the numbers of a board in order.** -/
theorem NumberedBoard.apply {ds text : Bytes} (h : NumberedBoard tcl ds) {maxposts time : Int}
    {e : Edit} (happly : e.apply tcl maxposts time ds = some text) : NumberedBoard tcl text := by
  obtain ⟨posts, hboard, hnumbered⟩ := h
  cases e with
  | post user msg fields =>
      obtain ⟨id, hid, htext⟩ := hboard.cbPost happly
      exact ⟨_, htext, hnumbered.post hid maxposts _ user msg fields⟩
  | delete id =>
      obtain ⟨left, hleft, htext⟩ := hboard.cbDelete happly
      exact ⟨left, htext, hnumbered.sublist (withoutPost_sublist hleft)⟩

end Nsdci.Cb
