import Nsdci.Cb
import Nsdci.Lib.BoundedQueue

/-!
# A comment board is a bounded queue

The text that `Dci_CbPost` and `Dci_CbDelete` make of an empty board is that of a queue of
comments under their ids. A post pushes a comment under a new id and a delete takes out the one
with the id, for all sequences of calls, so long as no id on the board comes near the largest `int`.
-/

namespace Nsdci.Cb

open Lib

/-- What a post says, and when it was made. -/
structure Comment where
  time : Int
  user : CStr
  msg : CStr
  fields : CStr

/-- Comments under their ids. -/
abbrev Comments := BoundedQueue Int Comment

/-- A call on a board, with the maximum of posts and the time it comes at. -/
structure Call where
  edit : Edit
  maxposts : Int
  time : Int
  deriving DecidableEq

variable (tcl : Tcl)

/-- The text after a call, or `none` for `NS_ERROR`. -/
def Call.run (ds : Bytes) (c : Call) : Option Bytes := c.edit.apply tcl c.maxposts c.time ds

/-- The texts of the board over some calls, so long as they succeed. -/
def texts : Bytes → List Call → List Bytes
  | ds, [] => [ds]
  | ds, c :: calls =>
      ds :: match c.run tcl ds with
        | some ds' => texts ds' calls
        | none => []

/-- All ids in the text are below the largest `int`. -/
def BelowMax (ds : Bytes) : Prop :=
  ∀ post ∈ (tcl.list.splitList (cstr ds)).getD [], cbGetId tcl post < 2147483647

instance (ds : Bytes) : Decidable (BelowMax tcl ds) :=
  inferInstanceAs (Decidable (∀ post ∈ _, _))

/-- **What the calls do to the comments**: a post appends under an id above all on the board and
drops the oldest comments beyond the maximum, and a delete takes out the comment with the id. -/
inductive Comments.After : List Call → Comments → Prop
  | start : After [] .empty
  | post {calls : List Call} {q : Comments} (h : After calls q) (id : Int) (hid : q.Fresh id)
      (user msg fields : CStr) (maxposts time : Int) :
      After (calls ++ [⟨.post user msg fields, maxposts, time⟩])
        (q.push maxposts.toNat id hid ⟨int32 time, user, msg, fields⟩)
  | delete {calls : List Call} {q : Comments} (h : After calls q) (id maxposts time : Int) :
      After (calls ++ [⟨.delete id, maxposts, time⟩]) (q.delete id)

/-- A comment under its id as a post. -/
def postText (e : Int × Comment) : Bytes := newPost tcl e.1 e.2.time e.2.user e.2.msg e.2.fields

/-- The posts of a queue of comments. -/
def posts (q : Comments) : List Bytes := q.entries.map (postText tcl)

/-- The text of a queue of comments. -/
def boardText (q : Comments) : Bytes := (posts tcl q).foldl (appendLine tcl) []

/-- All ids are of use: none is negative, and the next one is an `int`. -/
def Usable (q : Comments) : Prop := ∀ id ∈ q.keys, 0 ≤ id ∧ id < 2147483647

variable {tcl}

/-! ## The text of a queue -/

/-- A post is a string. -/
theorem nulFree_postText (e : Int × Comment) : NulFree (postText tcl e) :=
  tcl.list.foldl_free (newPost_elements e.1 e.2.time e.2.user e.2.msg e.2.fields)

/-- The text of a queue is a board of its posts. -/
theorem board_boardText (q : Comments) : Board tcl (boardText tcl q) (posts tcl q) := by
  refine board_lines fun post hpost => ?_
  obtain ⟨e, -, rfl⟩ := List.mem_map.mp hpost
  exact nulFree_postText e

/-- **The posts are read back from the text**, and from each of them its id and the comment. -/
theorem splitList_boardText (q : Comments) :
    tcl.list.splitList (cstr (boardText tcl q)) = some (posts tcl q) :=
  (board_boardText q).split

/-- The id of a post is read back. -/
theorem cbGetId_postText {e : Int × Comment} (hlo : 0 ≤ e.1) (hhi : e.1 < 2147483647) :
    cbGetId tcl (postText tcl e) = e.1 :=
  cbGetId_newPost tcl (by omega) (by omega) _ _ _ _

/-- The ids in the text are those of the queue. -/
theorem Usable.cbGetId (tcl : Tcl) {q : Comments} (h : Usable q) {e : Int × Comment}
    (he : e ∈ q.entries) :
    cbGetId tcl (postText tcl e) = e.1 := by
  have hid := h e.1 (List.mem_map.mpr ⟨e, he, rfl⟩)
  exact cbGetId_postText hid.1 hid.2

/-- The line a post ends with is its only one at the end. -/
theorem endLine_appendLine (tcl : Tcl) (ds : Bytes) {post : Bytes} (hpost : NulFree post) :
    endLine (appendLine tcl ds post) = appendLine tcl ds post := by
  have hne : tcl.list.element post ≠ [] := tcl.list.element_ne_nil hpost
  have hlast := tcl.element_last post hpost
  have hds : tcl.list.appendElement ds post ≠ [] := by
    unfold TclList.appendElement
    split_ifs
    · exact hne
    · simp
  have hds_last : (tcl.list.appendElement ds post).getLast? ≠ some 10 := by
    unfold TclList.appendElement
    split_ifs
    · exact hlast
    · rw [List.getLast?_append, List.getLast?_cons, List.getLast?_eq_some_getLast hne]
      rw [List.getLast?_eq_some_getLast hne] at hlast
      simpa using hlast
  have hdrop : dropNewlines (appendLine tcl ds post) = tcl.list.appendElement ds post := by
    unfold dropNewlines appendLine
    generalize tcl.list.appendElement ds post = s at hds hds_last
    obtain ⟨c, cs, hs⟩ := List.exists_cons_of_ne_nil (List.reverse_ne_nil_iff.mpr hds)
    have hc : c ≠ 10 := by
      intro hc
      apply hds_last
      rw [List.getLast?_eq_head?_reverse, hs, hc, List.head?_cons]
    obtain rfl : s = (c :: cs).reverse := by rw [← hs, List.reverse_reverse]
    simp [hc]
  unfold endLine
  rw [hdrop, if_neg hds]
  rfl

/-- The text of a queue has one newline at its end, if it is not empty. -/
theorem endLine_boardText (tcl : Tcl) (q : Comments) :
    endLine (boardText tcl q) = boardText tcl q := by
  unfold boardText posts
  rcases List.eq_nil_or_concat q.entries with hnil | ⟨front, e, hconcat⟩
  · rw [hnil]
    rfl
  · rw [hconcat, List.concat_eq_append, List.map_append, List.foldl_append]
    exact endLine_appendLine tcl _ (nulFree_postText e)

/-! ## The calls -/

/-- The next id is above all on the board. -/
theorem Usable.nextId (tcl : Tcl) {q : Comments} (h : Usable q) :
    ∃ id, nextId tcl (posts tcl q) = some id ∧ q.Fresh id ∧ 0 ≤ id := by
  rcases List.eq_nil_or_concat q.entries with hnil | ⟨front, e, hconcat⟩
  · refine ⟨0, ?_, ?_, le_rfl⟩
    · rw [posts, hnil]
      rfl
    · intro j hj
      rw [BoundedQueue.keys, hnil] at hj
      exact absurd hj List.not_mem_nil
  · rw [List.concat_eq_append] at hconcat
    have he : e ∈ q.entries := by simp [hconcat]
    have hid := h e.1 (List.mem_map.mpr ⟨e, he, rfl⟩)
    have hget := h.cbGetId tcl he
    refine ⟨e.1 + 1, ?_, ?_, by omega⟩
    · rw [Cb.nextId, posts, hconcat, List.map_append, List.map_singleton, List.getLast?_concat]
      dsimp only
      rw [hget, if_neg (by omega), int32_of_range (by omega) (by omega)]
    · -- the last entry has the largest key
      intro j hj
      have hincreasing := q.increasing
      rw [hconcat, List.map_append] at hincreasing
      rw [BoundedQueue.keys, hconcat, List.map_append] at hj
      rcases List.mem_append.mp hj with hj | hj
      · have hlt := (List.pairwise_append.mp hincreasing).2.2 j hj e.1 (by simp)
        omega
      · obtain rfl : j = e.1 := by simpa using hj
        omega

/-- The posts that stay are the newest, one less than the maximum. -/
theorem kept_posts (q : Comments) (n : Nat) :
    kept ((n : Int) + 1) (posts tcl q) = (q.entries.rtake n).map (postText tcl) := by
  have hlength : (posts tcl q).length = q.entries.length := List.length_map _
  rw [List.rtake, List.map_drop]
  unfold kept
  split_ifs with hmax
  · have hcount : (((posts tcl q).length : Int) - (n + 1) + 1).toNat = q.entries.length - n := by
      omega
    rw [hcount]
    rfl
  · have hzero : q.entries.length - n = 0 := by omega
    rw [hzero, List.drop_zero]
    rfl

/-- **A post is a push.** -/
theorem cbPost_boardText {q : Comments} {id : Int} (hnext : nextId tcl (posts tcl q) = some id)
    (hfresh : q.Fresh id) (time : Int) (user msg fields : CStr) {maxposts : Int}
    (hmax : 1 ≤ maxposts) :
    cbPost tcl (boardText tcl q) time user msg fields maxposts =
      some (boardText tcl (q.push maxposts.toNat id hfresh ⟨int32 time, user, msg, fields⟩)) := by
  obtain ⟨n, rfl⟩ : ∃ n : Nat, maxposts = (n : Int) + 1 := ⟨(maxposts - 1).toNat, by omega⟩
  have hold : oldPosts tcl ((n : Int) + 1) (boardText tcl q) (posts tcl q) =
      ((q.entries.rtake n).map (postText tcl)).foldl (appendLine tcl) [] := by
    rw [← kept_posts]
    unfold oldPosts
    split_ifs with hfull
    · have hpart := endLine_boardText tcl (q.newest n)
      rw [kept_posts]
      exact hpart
    · rw [endLine_boardText, kept, if_neg hfull]
      rfl
  have htoNat : ((n : Int) + 1).toNat = n + 1 := by omega
  rw [cbPost, splitList_boardText, Option.bind_some, hnext, Option.map_some, hold, boardText, posts,
    htoNat, BoundedQueue.entries_push, List.map_append, List.foldl_append]
  rfl

/-- The loop of `Dci_CbDelete` takes out the post with the id. -/
theorem withoutPost_map {entries : List (Int × Comment)}
    (hget : ∀ e ∈ entries, 0 ≤ e.1 ∧ cbGetId tcl (postText tcl e) = e.1)
    (hnodup : (entries.map Prod.fst).Nodup) (id : Int) :
    withoutPost tcl id (entries.map (postText tcl)) =
      some ((entries.filter (·.1 ≠ id)).map (postText tcl)) := by
  induction entries with
  | nil => rfl
  | cons e entries ih =>
      obtain ⟨hpos, hid⟩ := hget e (by simp)
      rw [List.map_cons, List.nodup_cons] at hnodup
      rw [List.map_cons, withoutPost, hid, if_neg (by omega)]
      by_cases heq : e.1 = id
      · -- the ids are distinct, so the rest has no more of it
        have hrest : entries.filter (·.1 ≠ id) = entries := by
          refine List.filter_eq_self.mpr fun e' he' => ?_
          have hne : e'.1 ≠ id := fun h =>
            hnodup.1 (List.mem_map.mpr ⟨e', he', h.trans heq.symm⟩)
          simpa using hne
        rw [if_pos heq, List.filter_cons_of_neg (by simpa using heq), hrest]
      · rw [if_neg heq, ih (fun e' he' => hget e' (List.mem_cons_of_mem _ he')) hnodup.2,
          List.filter_cons_of_pos (by simpa using heq)]
        rfl

/-- **A delete of an id is a delete.** -/
theorem cbDelete_boardText {q : Comments} (h : Usable q) (id : Int) :
    cbDelete tcl (boardText tcl q) id = some (boardText tcl (q.delete id)) := by
  have hwithout : withoutPost tcl id (posts tcl q) = some (posts tcl (q.delete id)) := by
    refine withoutPost_map (fun e he => ?_) q.nodup_keys id
    exact ⟨(h e.1 (List.mem_map.mpr ⟨e, he, rfl⟩)).1, h.cbGetId tcl he⟩
  rw [cbDelete, splitList_boardText, Option.bind_some, hwithout]
  rfl

/-- A text whose ids are all below the largest `int` is that of a usable queue. -/
theorem usable_of_belowMax {q : Comments}
    (hrange : ∀ id ∈ q.keys, 0 ≤ id ∧ id < 2147483648)
    (hbelow : BelowMax tcl (boardText tcl q)) : Usable q := by
  intro id hid
  obtain ⟨hlo, hhi⟩ := hrange id hid
  refine ⟨hlo, ?_⟩
  obtain ⟨e, he, rfl⟩ := List.mem_map.mp hid
  unfold BelowMax at hbelow
  rw [splitList_boardText] at hbelow
  have hpost := hbelow (postText tcl e) (List.mem_map.mpr ⟨e, he, rfl⟩)
  rwa [show cbGetId tcl (postText tcl e) = e.1 from
    cbGetId_newPost tcl (by omega) (by omega) _ _ _ _] at hpost

/-- What a call does to a usable queue. -/
theorem run_boardText {calls : List Call} {q : Comments} (hafter : Comments.After calls q)
    (husable : Usable q) (c : Call) (hmax : 1 ≤ c.maxposts) :
    ∃ q' : Comments, Comments.After (calls ++ [c]) q' ∧
      c.run tcl (boardText tcl q) = some (boardText tcl q') ∧
      (∀ id ∈ q'.keys, 0 ≤ id ∧ id < 2147483648) ∧
      (q'.entries.length : Int) ≤ max (q.entries.length : Int) c.maxposts := by
  obtain ⟨edit, maxposts, time⟩ := c
  cases edit with
  | post user msg fields =>
      obtain ⟨id, hnext, hfresh, hpos⟩ := husable.nextId tcl
      refine ⟨_, .post hafter id hfresh user msg fields maxposts time,
        cbPost_boardText hnext hfresh time user msg fields hmax, ?_, ?_⟩
      · intro j hj
        rcases BoundedQueue.mem_keys_push hj with hold | rfl
        · have := husable j hold
          omega
        · exact ⟨hpos, (nextId_range hnext).2⟩
      · have hlength := q.length_push_le maxposts.toNat id hfresh ⟨int32 time, user, msg, fields⟩
        dsimp only at hmax ⊢
        omega
  | delete id =>
      refine ⟨_, .delete hafter id maxposts time, cbDelete_boardText husable id, ?_, ?_⟩
      · intro j hj
        have := husable j (BoundedQueue.mem_keys_delete hj)
        omega
      · have hlength := q.length_delete_le id
        omega

/-- The calls go on from the text of a queue as they do from the queue. -/
theorem runs_boardText (todo : List Call) :
    ∀ {done : List Call} {q : Comments}, Comments.After done q →
      (∀ id ∈ q.keys, 0 ≤ id ∧ id < 2147483648) → (∀ c ∈ todo, 1 ≤ c.maxposts) →
      (∀ ds ∈ texts tcl (boardText tcl q) todo, BelowMax tcl ds) →
      ∃ q' : Comments, Comments.After (done ++ todo) q' ∧
        todo.foldlM (Call.run tcl) (boardText tcl q) = some (boardText tcl q') ∧
        ∀ M : Nat, q.entries.length ≤ M → (∀ c ∈ todo, c.maxposts ≤ M) →
          q'.entries.length ≤ M := by
  induction todo with
  | nil =>
      intro done q hafter _ _ _
      exact ⟨q, by simpa using hafter, rfl, fun M hM _ => hM⟩
  | cons c todo ih =>
      intro done q hafter hrange hmax hbelow
      have husable : Usable q := usable_of_belowMax hrange (hbelow _ (by simp [texts]))
      obtain ⟨q', hafter', hrun, hrange', hlength'⟩ :=
        run_boardText hafter husable c (hmax c (by simp))
      have hbelow' : ∀ ds ∈ texts tcl (boardText tcl q') todo, BelowMax tcl ds := by
        intro ds hds
        refine hbelow ds ?_
        rw [texts, hrun]
        exact List.mem_cons_of_mem _ hds
      obtain ⟨q'', hafter'', hrun', hlength''⟩ :=
        ih hafter' hrange' (fun c' hc' => hmax c' (List.mem_cons_of_mem _ hc')) hbelow'
      refine ⟨q'', by simpa using hafter'', ?_, ?_⟩
      · rw [List.foldlM_cons, hrun]
        exact hrun'
      · intro M hM hall
        have hc := hall c (by simp)
        exact hlength'' M (by omega) fun c' hc' => hall c' (List.mem_cons_of_mem _ hc')

/-- **A comment board is a bounded queue.** Over all posts and deletes of an empty board, so long as
ids stay below the largest `int`, every call succeeds and the text is that of the comments the
calls leave. Their ids grow, and there are never more than the maximum. -/
theorem board_refines_queue {calls : List Call} (hmax : ∀ c ∈ calls, 1 ≤ c.maxposts)
    (hids : ∀ ds ∈ texts tcl [] calls, BelowMax tcl ds) :
    ∃ q : Comments, Comments.After calls q ∧
      calls.foldlM (Call.run tcl) [] = some (boardText tcl q) ∧
      q.keys.Pairwise (· < ·) ∧
      ∀ M : Nat, (∀ c ∈ calls, c.maxposts ≤ M) → q.entries.length ≤ M := by
  have hempty : ∀ id ∈ (BoundedQueue.empty : Comments).keys, 0 ≤ id ∧ id < 2147483648 :=
    fun id hid => absurd hid List.not_mem_nil
  obtain ⟨q, hafter, hrun, hlength⟩ := runs_boardText calls .start hempty hmax hids
  exact ⟨q, hafter, hrun, q.increasing, fun M hM => hlength M (Nat.zero_le M) hM⟩

/-- Some calls on a board for two posts: three posts and a delete of the last. -/
def fourCalls : List Call :=
  [⟨.post (toCStr [97]) (toCStr [98, 32]) (toCStr []), 2, 7⟩,
    ⟨.post (toCStr [97]) (toCStr [99]) (toCStr []), 2, 8⟩,
    ⟨.post (toCStr [97]) (toCStr [100]) (toCStr []), 2, 9⟩, ⟨.delete 2, 2, 10⟩]

/-- The board of these calls. -/
theorem board_refines_queue_four : ∃ q : Comments, Comments.After fourCalls q ∧
    fourCalls.foldlM (Call.run Tcl.simple) [] = some (boardText Tcl.simple q) ∧
    q.keys.Pairwise (· < ·) ∧
    ∀ M : Nat, (∀ c ∈ fourCalls, c.maxposts ≤ M) → q.entries.length ≤ M :=
  board_refines_queue (by decide) (by decide +kernel)

end Nsdci.Cb
