import Nsdci.Cb.Queue
import Nsdci.Lib.Transition
import Mathlib.Data.List.Nodup

/-!
# Ids over the life of a comment board

The id of a new post is one more than that of the last post on the board, so a post that comes
after the newest one was deleted takes an id that was given before. The ids over a board's life
are distinct exactly if no post comes while the newest is not on the board, and then a delete for
an id read at any time before takes out the post it was read from or none.
-/

namespace Nsdci.Cb

open Lib

variable (tcl : Tcl)

/-- A board, and all posts ever made on it, the newest last. -/
structure Life where
  text : Bytes
  posted : List Bytes
  deriving DecidableEq

/-- The posts on the board. -/
def Life.board (s : Life) : List Bytes := (tcl.list.splitList (cstr s.text)).getD []

/-- The post a call makes. -/
def Call.newPost (argv : List Bytes) : Call → Option Bytes
  | ⟨.post user msg fields, _, time⟩ =>
      (nextId tcl argv).map fun id => Cb.newPost tcl id (int32 time) user msg fields
  | ⟨.delete _, _, _⟩ => none

/-- A call on the board. The text stays when it fails. -/
def Life.call (s : Life) (c : Call) : Life :=
  match c.run tcl s.text with
  | some text => ⟨text, s.posted ++ (c.newPost tcl (s.board tcl)).toList⟩
  | none => s

/-- A call as a step. -/
def Life.step (s : Life) (c : Call) : Option Life := some (s.call tcl c)

/-- A board without posts, at the start of its life. -/
def Life.start : Life := ⟨[], []⟩

/-- The life of a board after some calls. -/
def life (calls : List Call) : Life := calls.foldl (Life.call tcl) .start

/-- A post comes when the newest one is still on the board. -/
def NewestThere (s : Life) (c : Call) : Prop :=
  match c.edit with
  | .post _ _ _ => ∀ post ∈ s.posted.getLast?, post ∈ s.board tcl
  | .delete _ => True

/-- **No id was given twice**, and a delete for the id of a post takes out that post or none. -/
structure UniqueIds (s : Life) : Prop where
  nodup : (s.posted.map (cbGetId tcl)).Nodup
  delete : ∀ post ∈ s.posted, ∀ text, cbDelete tcl s.text (cbGetId tcl post) = some text →
    tcl.list.splitList (cstr text) = some ((s.board tcl).filter (· ≠ post))

/-- The ids of the posts are the first numbers. After the largest `int` comes the smallest, once. -/
inductive Counted (s : Life) : Prop
  | up (n : Nat) (hn : n ≤ 2147483648)
      (hids : s.posted.map (cbGetId tcl) = (List.range n).map Int.ofNat)
  | wrapped (hids : s.posted.map (cbGetId tcl) =
        (List.range 2147483648).map Int.ofNat ++ [-2147483648])
      (hlast : (s.board tcl).getLast? = s.posted.getLast?)

/-- What holds over the life of a board while posts come with the newest one there. -/
structure Counting (s : Life) : Prop where
  board : Board tcl s.text (s.board tcl)
  sublist : (s.board tcl).Sublist s.posted
  counted : Counted tcl s

variable {tcl}

theorem Board.life {s : Life} {posts : List Bytes} (h : Board tcl s.text posts) :
    s.board tcl = posts := by
  rw [Life.board, h.split, Option.getD_some]

theorem nodup_numbers (n : Nat) : ((List.range n).map Int.ofNat).Nodup :=
  List.Nodup.map Int.ofNat_injective List.nodup_range

theorem mem_numbers {n : Nat} {x : Int} :
    x ∈ (List.range n).map Int.ofNat ↔ 0 ≤ x ∧ x < n := by
  constructor
  · intro hx
    obtain ⟨i, hi, rfl⟩ := List.mem_map.mp hx
    have := List.mem_range.mp hi
    show 0 ≤ (i : Int) ∧ (i : Int) < n
    omega
  · intro hx
    refine List.mem_map.mpr ⟨x.toNat, List.mem_range.mpr (by omega), ?_⟩
    exact Int.toNat_of_nonneg hx.1

/-- Counted ids are distinct. -/
theorem Counted.nodup {s : Life} (h : Counted tcl s) : (s.posted.map (cbGetId tcl)).Nodup := by
  cases h with
  | up n hn hids =>
      rw [hids]
      exact nodup_numbers n
  | wrapped hids hlast =>
      rw [hids]
      refine List.Nodup.append (nodup_numbers _) (List.nodup_singleton _) ?_
      intro x hx hx'
      obtain rfl : x = -2147483648 := by simpa using hx'
      have := (mem_numbers.mp hx).1
      omega

theorem counting_start (tcl : Tcl) : Counting tcl .start := by
  have hboard : Life.start.board tcl = [] := board_nil.life
  refine ⟨?_, ?_, .up 0 (by omega) rfl⟩
  · rw [hboard]
    exact board_nil
  · rw [hboard]
    exact List.Sublist.slnil

/-- What a post does to a board that can take one. -/
theorem Counting.call_post {s : Life} (h : Counting tcl s) (user msg fields : CStr)
    (maxposts time : Int) {id : Int} (hid : nextId tcl (s.board tcl) = some id) :
    ∃ new, cbGetId tcl new = id ∧
      (s.call tcl ⟨.post user msg fields, maxposts, time⟩).posted = s.posted ++ [new] ∧
      Board tcl (s.call tcl ⟨.post user msg fields, maxposts, time⟩).text
        (kept maxposts (s.board tcl) ++ [new]) := by
  obtain ⟨hlo, hhi⟩ := nextId_range hid
  have hrun : ∃ text, cbPost tcl s.text time user msg fields maxposts = some text := by
    rw [cbPost, h.board.split, Option.bind_some, hid]
    exact ⟨_, rfl⟩
  obtain ⟨text, htext⟩ := hrun
  obtain ⟨id', hid', hboard⟩ := h.board.cbPost htext
  obtain rfl : id = id' := Option.some.inj (hid.symm.trans hid')
  have hcall : s.call tcl ⟨.post user msg fields, maxposts, time⟩ =
      ⟨text, s.posted ++ [Cb.newPost tcl id (int32 time) user msg fields]⟩ := by
    simp [Life.call, Call.run, Edit.apply, htext, Call.newPost, hid]
  rw [hcall]
  exact ⟨_, cbGetId_newPost tcl hlo hhi _ _ _ _, rfl, hboard⟩

/-- A post that cannot come changes nothing. -/
theorem Counting.call_post_none {s : Life} (h : Counting tcl s) {user msg fields : CStr}
    {maxposts time : Int} (hid : nextId tcl (s.board tcl) = none) :
    s.call tcl ⟨.post user msg fields, maxposts, time⟩ = s := by
  have hnone : cbPost tcl s.text time user msg fields maxposts = none := by
    rw [cbPost, h.board.split, Option.bind_some, hid, Option.map_none]
  simp [Life.call, Call.run, Edit.apply, hnone]

/-- The next id, when there is a newest post on the board. -/
theorem nextId_of_last {posts : List Bytes} {last : Bytes} (hlast : posts.getLast? = some last) :
    nextId tcl posts =
      if cbGetId tcl last < 0 then none else some (int32 (cbGetId tcl last + 1)) := by
  rw [nextId, hlast]

/-- The id of the last post on the board, while the ids go up. -/
theorem Counting.last {s : Life} (h : Counting tcl s) {n : Nat}
    (hids : s.posted.map (cbGetId tcl) = (List.range n).map Int.ofNat) {last : Bytes}
    (hlast : (s.board tcl).getLast? = some last) :
    0 ≤ cbGetId tcl last ∧ cbGetId tcl last < n ∧
      ∀ post ∈ s.board tcl, cbGetId tcl post ≤ cbGetId tcl last := by
  have hmem : last ∈ s.board tcl := List.mem_of_getLast? hlast
  have hrange : cbGetId tcl last ∈ (List.range n).map Int.ofNat := by
    rw [← hids]
    exact List.mem_map.mpr ⟨last, h.sublist.subset hmem, rfl⟩
  obtain ⟨hpos, hlt⟩ := mem_numbers.mp hrange
  refine ⟨hpos, hlt, ?_⟩
  -- the ids on the board are some of the numbers, in their order
  have hsorted : ((s.board tcl).map (cbGetId tcl)).Pairwise (· < ·) := by
    refine List.Pairwise.sublist (h.sublist.map _) ?_
    rw [hids, List.pairwise_map]
    exact List.pairwise_lt_range.imp fun hlt => Int.ofNat_lt.mpr hlt
  obtain ⟨front, hfront⟩ := List.getLast?_eq_some_iff.mp hlast
  intro post hpost
  rw [hfront] at hpost hsorted
  rcases List.mem_append.mp hpost with hpost | hpost
  · rw [List.map_append] at hsorted
    have hlt := (List.pairwise_append.mp hsorted).2.2 _ (List.mem_map.mpr ⟨post, hpost, rfl⟩)
      (cbGetId tcl last) (by simp)
    omega
  · obtain rfl : post = last := by simpa using hpost
    exact le_rfl

/-- A post keeps the board part of what was posted. -/
theorem sublist_post {s : Life} (h : Counting tcl s) (maxposts : Int) (new : Bytes) :
    (kept maxposts (s.board tcl) ++ [new]).Sublist (s.posted ++ [new]) :=
  ((kept_suffix maxposts _).sublist.trans h.sublist).append (List.Sublist.refl _)

/-- What `nextId` says while the ids go up: the number of posts, exactly if the newest is there. -/
theorem Counting.nextId_up {s : Life} (h : Counting tcl s) {n : Nat} (hn : n ≤ 2147483648)
    (hids : s.posted.map (cbGetId tcl) = (List.range n).map Int.ofNat) :
    ((∀ post ∈ s.posted.getLast?, post ∈ s.board tcl) → nextId tcl (s.board tcl) = some (int32 n)) ∧
    (¬ (∀ post ∈ s.posted.getLast?, post ∈ s.board tcl) →
      ∃ id, nextId tcl (s.board tcl) = some id ∧ 0 ≤ id ∧ id < n) := by
  have hlength : s.posted.length = n := by
    have := congrArg List.length hids
    simpa using this
  -- the newest post has the largest id
  have hnewest : ∀ post ∈ s.posted.getLast?, cbGetId tcl post = (n : Int) - 1 ∧ 0 < n := by
    intro post hpost
    obtain ⟨front, hfront⟩ := List.getLast?_eq_some_iff.mp hpost
    obtain ⟨m, rfl⟩ : ∃ m, n = m + 1 := ⟨front.length, by simp [← hlength, hfront]⟩
    have hlast := congrArg List.getLast? hids
    rw [List.range_succ, List.map_append, List.map_singleton, List.getLast?_concat,
      List.getLast?_map, hpost] at hlast
    have hid : cbGetId tcl post = (m : Int) := Option.some.inj hlast
    omega
  constructor
  · intro hthere
    cases hlast : (s.board tcl).getLast? with
    | none =>
        -- nothing is on the board, so nothing was posted
        have hnil : s.board tcl = [] := List.getLast?_eq_none_iff.mp hlast
        have hposted : s.posted.getLast? = none := by
          cases hp : s.posted.getLast? with
          | none => rfl
          | some post =>
              have := hthere post hp
              rw [hnil] at this
              exact absurd this List.not_mem_nil
        have hzero : n = 0 := by
          rw [← hlength, List.getLast?_eq_none_iff.mp hposted]
          rfl
        rw [hzero, hnil]
        rfl
    | some last =>
        obtain ⟨hpos, hlt, hmax⟩ := h.last hids hlast
        obtain ⟨post, hpost⟩ : ∃ post, s.posted.getLast? = some post := by
          cases hp : s.posted.getLast? with
          | none =>
              have hnone := List.getLast?_eq_none_iff.mp hp
              have hmem := h.sublist.subset (List.mem_of_getLast? hlast)
              rw [hnone] at hmem
              exact absurd hmem List.not_mem_nil
          | some post => exact ⟨post, rfl⟩
        obtain ⟨hid, -⟩ := hnewest post hpost
        have hle := hmax post (hthere post hpost)
        have heq : cbGetId tcl last + 1 = n := by omega
        rw [nextId_of_last hlast, if_neg (by omega), heq]
  · intro hnot
    have hpost : ∃ post, s.posted.getLast? = some post ∧ post ∉ s.board tcl := by
      by_contra hall
      apply hnot
      intro post hpost
      by_contra hmem
      exact hall ⟨post, hpost, hmem⟩
    obtain ⟨post, hpost, hmem⟩ := hpost
    obtain ⟨hid, hn0⟩ := hnewest post hpost
    cases hlast : (s.board tcl).getLast? with
    | none =>
        have hnil : s.board tcl = [] := List.getLast?_eq_none_iff.mp hlast
        rw [hnil]
        exact ⟨0, rfl, le_rfl, by omega⟩
    | some last =>
        obtain ⟨hpos, hlt, -⟩ := h.last hids hlast
        have hlast_mem := List.mem_of_getLast? hlast
        -- the last post on the board is another one, with another id
        have hne : cbGetId tcl last ≠ (n : Int) - 1 := by
          intro heq
          have hnodup : (s.posted.map (cbGetId tcl)).Nodup := by
            rw [hids]
            exact nodup_numbers n
          have hsame : last = post := List.inj_on_of_nodup_map hnodup
            (h.sublist.subset hlast_mem) (List.mem_of_getLast? hpost) (heq.trans hid.symm)
          exact hmem (hsame ▸ hlast_mem)
        rw [nextId_of_last hlast, if_neg (by omega), int32_of_range (by omega) (by omega)]
        exact ⟨_, rfl, by omega, by omega⟩

/-- **A post with the newest one there gets the next number.** -/
theorem Counting.post {s : Life} (h : Counting tcl s) {user msg fields : CStr}
    {maxposts time : Int}
    (hthere : ∀ post ∈ s.posted.getLast?, post ∈ s.board tcl) :
    Counting tcl (s.call tcl ⟨.post user msg fields, maxposts, time⟩) := by
  cases h.counted with
  | up n hn hids =>
      have hnext := (h.nextId_up hn hids).1 hthere
      obtain ⟨new, hnew, hposted, hboard⟩ :=
        h.call_post user msg fields maxposts time hnext
      have hlife := hboard.life
      refine ⟨by rwa [hlife], by rw [hlife, hposted]; exact sublist_post h _ _, ?_⟩
      have hids' : (s.posted ++ [new]).map (cbGetId tcl) =
          (List.range n).map Int.ofNat ++ [int32 n] := by
        rw [List.map_append, hids, List.map_singleton, hnew]
      by_cases hmax : n < 2147483648
      · refine .up (n + 1) (by omega) ?_
        rw [hposted, hids', int32_of_range (by omega) (by omega), List.range_succ,
          List.map_append, List.map_singleton]
        rfl
      · -- the number after the largest `int` is the smallest one
        obtain rfl : n = 2147483648 := by omega
        refine .wrapped ?_ ?_
        · rw [hposted, hids']
          rfl
        · rw [hlife, hposted, List.getLast?_concat, List.getLast?_concat]
  | wrapped hids hlast =>
      have hnone : nextId tcl (s.board tcl) = none := by
        obtain ⟨post, hpost⟩ : ∃ post, s.posted.getLast? = some post := by
          cases hp : s.posted.getLast? with
          | none =>
              rw [List.getLast?_eq_none_iff.mp hp] at hids
              simp at hids
          | some post => exact ⟨post, rfl⟩
        have hid : cbGetId tcl post = -2147483648 := by
          have hmap := congrArg List.getLast? hids
          rw [List.getLast?_map, hpost, List.getLast?_concat] at hmap
          exact Option.some.inj hmap
        rw [nextId_of_last (hlast.trans hpost), hid, if_pos (by omega)]
      rw [h.call_post_none hnone]
      exact h

/-- What a delete that cannot pass the last post leaves ends with it. -/
theorem withoutPost_last {id : Int} {argv left : List Bytes} {last : Bytes}
    (h : withoutPost tcl id argv = some left) (hlast : argv.getLast? = some last)
    (hneg : cbGetId tcl last < 0) : left.getLast? = some last := by
  induction argv generalizing left with
  | nil => simp at hlast
  | cons post argv ih =>
      rw [withoutPost] at h
      split_ifs at h with hpost heq
      · obtain rfl := Option.some.inj h
        cases hargv : argv with
        | nil =>
            rw [hargv] at hlast
            obtain rfl : post = last := by simpa using hlast
            exact absurd hneg hpost
        | cons post' argv' =>
            rw [hargv, List.getLast?_cons_cons] at hlast
            exact hlast
      · obtain ⟨rest, hrest, rfl⟩ := Option.map_eq_some_iff.mp h
        cases hargv : argv with
        | nil =>
            rw [hargv] at hlast
            obtain rfl : post = last := by simpa using hlast
            exact absurd hneg hpost
        | cons post' argv' =>
            rw [hargv, List.getLast?_cons_cons, ← hargv] at hlast
            rw [List.getLast?_cons, ih hrest hlast]
            rfl

/-- **A delete keeps the count.** -/
theorem Counting.delete {s : Life} (h : Counting tcl s) (id maxposts time : Int) :
    Counting tcl (s.call tcl ⟨.delete id, maxposts, time⟩) := by
  cases hrun : cbDelete tcl s.text id with
  | none =>
      have hcall : s.call tcl ⟨.delete id, maxposts, time⟩ = s := by
        simp [Life.call, Call.run, Edit.apply, hrun]
      rwa [hcall]
  | some text =>
      have hcall : s.call tcl ⟨.delete id, maxposts, time⟩ = ⟨text, s.posted⟩ := by
        simp [Life.call, Call.run, Edit.apply, hrun, Call.newPost]
      obtain ⟨left, hleft, hboard⟩ := h.board.cbDelete hrun
      have hlife : Life.board tcl ⟨text, s.posted⟩ = left := Board.life hboard
      rw [hcall]
      refine ⟨by rwa [hlife], by rw [hlife]; exact (withoutPost_sublist hleft).trans h.sublist, ?_⟩
      cases h.counted with
      | up n hn hids => exact .up n hn hids
      | wrapped hids hlast =>
          refine .wrapped hids ?_
          cases hp : s.posted.getLast? with
          | none =>
              rw [List.getLast?_eq_none_iff.mp hp] at hids
              simp at hids
          | some post =>
              have hmap := congrArg List.getLast? hids
              rw [List.getLast?_map, hp, List.getLast?_concat] at hmap
              have hid : cbGetId tcl post = -2147483648 := Option.some.inj hmap
              show (Life.board tcl ⟨text, s.posted⟩).getLast? = some post
              rw [hlife]
              exact withoutPost_last hleft (hlast.trans hp) (by omega)

/-- A call that comes with the newest post there keeps the count. -/
theorem Counting.step {s s' : Life} {c : Call} (h : Counting tcl s) (hok : NewestThere tcl s c)
    (hstep : s.step tcl c = some s') : Counting tcl s' := by
  obtain rfl : s.call tcl c = s' := Option.some.inj hstep
  obtain ⟨edit, maxposts, time⟩ := c
  cases edit with
  | post user msg fields => exact h.post hok
  | delete id => exact h.delete id maxposts time

/-- **A post without the newest one there takes an id that was given before.** -/
theorem Counting.given_twice {s : Life} {c : Call} (h : Counting tcl s)
    (hnot : ¬ NewestThere tcl s c) : ¬ ((s.call tcl c).posted.map (cbGetId tcl)).Nodup := by
  obtain ⟨edit, maxposts, time⟩ := c
  cases edit with
  | delete id => exact absurd trivial hnot
  | post user msg fields =>
      cases h.counted with
      | up n hn hids =>
          obtain ⟨id, hnext, hpos, hlt⟩ := (h.nextId_up hn hids).2 hnot
          obtain ⟨new, hnew, hposted, -⟩ :=
            h.call_post user msg fields maxposts time hnext
          rw [hposted, List.map_append, hids, List.map_singleton, hnew]
          intro hnodup
          have hdisjoint := List.disjoint_of_nodup_append hnodup
          exact hdisjoint (mem_numbers.mpr ⟨hpos, hlt⟩) (List.mem_singleton.mpr rfl)
      | wrapped hids hlast =>
          refine absurd ?_ hnot
          intro post hpost
          rw [← hlast] at hpost
          exact List.mem_of_getLast? hpost

/-- Ids given stay given. -/
theorem nodup_of_call {s : Life} {c : Call}
    (h : ((s.call tcl c).posted.map (cbGetId tcl)).Nodup) : (s.posted.map (cbGetId tcl)).Nodup := by
  unfold Life.call at h
  split at h
  · rw [List.map_append] at h
    exact h.of_append_left
  · exact h

/-- The run of a life. -/
theorem run_life (tcl : Tcl) (calls : List Call) (s : Life) :
    run (Life.step tcl) s calls = some (calls.foldl (Life.call tcl) s) := by
  induction calls generalizing s with
  | nil => rfl
  | cons c calls ih => exact ih (s.call tcl c)

/-- A delete takes out the only post with the id. -/
theorem withoutPost_eq_filter {post : Bytes} {argv left : List Bytes}
    (h : withoutPost tcl (cbGetId tcl post) argv = some left) (hnodup : argv.Nodup)
    (hsame : ∀ p ∈ argv, cbGetId tcl p = cbGetId tcl post → p = post) :
    left = argv.filter (· ≠ post) := by
  induction argv generalizing left with
  | nil => simpa [withoutPost] using h.symm
  | cons p argv ih =>
      rw [List.nodup_cons] at hnodup
      rw [withoutPost] at h
      split_ifs at h with hneg heq
      · obtain rfl := Option.some.inj h
        obtain rfl : p = post := hsame p (by simp) heq
        rw [List.filter_cons_of_neg (by simp), List.filter_eq_self.mpr]
        intro p' hp'
        have hne : p' ≠ p := fun h => hnodup.1 (h ▸ hp')
        simpa using hne
      · obtain ⟨rest, hrest, rfl⟩ := Option.map_eq_some_iff.mp h
        have hne : p ≠ post := fun h => heq (by rw [h])
        rw [List.filter_cons_of_pos (by simpa using hne),
          ← ih hrest hnodup.2 fun p' hp' => hsame p' (List.mem_cons_of_mem _ hp')]

/-- With distinct ids, a delete that succeeds takes out the post with the id or none. -/
theorem Counting.deleted {s : Life} (h : Counting tcl s) {post text : Bytes}
    (hpost : post ∈ s.posted) (hdelete : cbDelete tcl s.text (cbGetId tcl post) = some text) :
    tcl.list.splitList (cstr text) = some ((s.board tcl).filter (· ≠ post)) := by
  have hnodup := h.counted.nodup
  have hboard_nodup : (s.board tcl).Nodup := (List.Nodup.of_map _ hnodup).sublist h.sublist
  obtain ⟨left, hleft, hboard⟩ := h.board.cbDelete hdelete
  rw [hboard.split, withoutPost_eq_filter hleft hboard_nodup]
  intro p hp heq
  exact List.inj_on_of_nodup_map hnodup (h.sublist.subset hp) hpost heq

/-- **The ids over the life of a board are unique exactly if every post comes when the newest one
made is still on the board.** -/
theorem ids_unique_iff (calls : List Call) :
    UniqueIds tcl (life tcl calls) ↔ Along (Life.step tcl) (NewestThere tcl) .start calls := by
  have hrun := run_life tcl calls .start
  have hnodup : ((life tcl calls).posted.map (cbGetId tcl)).Nodup ↔
      Along (Life.step tcl) (NewestThere tcl) .start calls := by
    refine run_iff_along (P := fun s : Life => (s.posted.map (cbGetId tcl)).Nodup)
      (fun s c s' h hok hstep => h.step hok hstep) (fun s h => h.counted.nodup) ?_ ?_
      (counting_start tcl) hrun
    · intro s c s' h hnot hstep
      obtain rfl : s.call tcl c = s' := Option.some.inj hstep
      exact h.given_twice hnot
    · intro s c s' hstep hs'
      obtain rfl : s.call tcl c = s' := Option.some.inj hstep
      exact nodup_of_call hs'
  constructor
  · intro h
    exact hnodup.mp h.nodup
  · intro halong
    have hcounting : Counting tcl (life tcl calls) :=
      run_invariant (fun s c s' h hok hstep => h.step hok hstep) (counting_start tcl) halong hrun
    exact ⟨hcounting.counted.nodup, fun post hpost text => hcounting.deleted hpost⟩

/-- A post, a delete of it, and another post. -/
def reusingCalls : List Call :=
  [⟨.post (toCStr [97]) (toCStr [98]) (toCStr []), 5, 7⟩, ⟨.delete 0, 5, 8⟩,
    ⟨.post (toCStr [97]) (toCStr [99]) (toCStr []), 5, 9⟩]

/-- The id of the post that was deleted is given again, and a delete for it takes out the post
that has it now. -/
theorem id_given_twice : ¬ UniqueIds Tcl.simple (life Tcl.simple reusingCalls) ∧
    (life Tcl.simple reusingCalls).posted.map (cbGetId Tcl.simple) = [0, 0] ∧
    cbDelete Tcl.simple (life Tcl.simple reusingCalls).text 0 = some [] := by
  have hids : (life Tcl.simple reusingCalls).posted.map (cbGetId Tcl.simple) = [0, 0] := by
    decide +kernel
  refine ⟨fun h => ?_, hids, by decide +kernel⟩
  have hnodup := h.nodup
  rw [hids] at hnodup
  simp at hnodup

end Nsdci.Cb
