import Nsdci.TclList

/-!
# Windows of a board (`cbapi.c`)

A client splits the text of a board into posts, the newest first (`Dci_CbParse`), and `Dci_CbGet`
makes a list of the posts from a first one to a last one. Both bounds may be anything.

`cbGet_window` says that the list has those posts whose number, from the newest on, is between the
bounds, and that windows one after another have every post once.
-/

namespace Nsdci.CbApi

open Lib

/-! ## The functions -/

/-- What a board uses of the list functions of Tcl. `Tcl_ScanElement` says how much room an element
needs and with which flags `Tcl_ConvertElement` writes it. -/
structure TclScan extends TclList where
  scanElement : Bytes → Nat × Nat
  convertElement : Bytes → Nat → Bytes
  convert_scan : ∀ e, convertElement e (scanElement e).2 = element e
  length_le : ∀ e, (element e).length ≤ (scanElement e).1

/-- A `Post` of a `Board`. -/
structure Post where
  content : CStr
  length : Nat
  flags : Nat

/-- A `Board`: the posts, the newest first. -/
structure Board where
  post : List Post

/-- `npost`. -/
def Board.npost (board : Board) : Nat := board.post.length

variable (tcl : TclScan)

/-- The body of the loop of `Dci_CbParse`. -/
def scanPost (content : CStr) : Post :=
  ⟨content, (tcl.scanElement content).1 + 1, (tcl.scanElement content).2⟩

/-- The `for` loop of `Dci_CbParse`, which counts down. -/
def parseLoop (argv : List Bytes) : Nat → List Post
  | 0 => []
  | argc + 1 => (argv[argc]?.map fun content => scanPost tcl (toCStr content)).toList ++
      parseLoop argv argc

/-- `Dci_CbParse`. -/
def cbParse (msgs : Bytes) : Option Board :=
  (tcl.splitList msgs).map fun argv => ⟨parseLoop tcl argv argv.length⟩

/-- The first `for` loop of `Dci_CbGet`. No result stands for a post that is not there. -/
def lenLoop (board : Board) (i : Nat) : Nat → Nat → Option Nat
  | 0, len => some len
  | n + 1, len => do
      let post ← board.post[i]?
      lenLoop board (i + 1) n (len + post.length)

/-- The second `for` loop of `Dci_CbGet`, which writes the elements. No result stands for a byte
that is written behind `msgs`. -/
def convertLoop (board : Board) (size i : Nat) : Nat → Bytes → Option Bytes
  | 0, dst => some dst
  | n + 1, dst => do
      let post ← board.post[i]?
      let dst := dst ++ tcl.convertElement post.content post.flags ++ [32]
      if dst.length ≤ size then convertLoop board size (i + 1) n dst else none

/-- A bound, between 0 and the number of posts. -/
def clamp (nposts : Nat) (bound : Int) : Int :=
  if bound < 0 then 0 else if bound > nposts then nposts else bound

/-- `Dci_CbGet`: the list of posts and their number. -/
def cbGet (board : Board) (first last : Int) : Option (Bytes × Nat) := do
  let nposts := board.npost
  let first := clamp nposts first
  let last := clamp nposts last
  let last := if last < first then first else last
  let len ← lenLoop board first.toNat (last - first).toNat 1
  let dst ← convertLoop tcl board len first.toNat (last - first).toNat []
  -- the last blank makes room for the NUL
  some (dst.dropLast, nposts)

/-! ## What they should do -/

/-- The posts with numbers from `first` to before `last`, counted from the newest. -/
def window (posts : List Bytes) (first last : Int) : List Bytes :=
  (posts.reverse.zipIdx.filter fun p => first ≤ p.2 ∧ (p.2 : Int) < last).map Prod.fst

/-- The posts of windows one after another, each with its own size. -/
def windows (board : Board) : Nat → List Nat → Option (List Bytes)
  | _, [] => some []
  | first, size :: sizes => do
      let text ← cbGet tcl board first (first + size : Nat)
      let posts ← tcl.splitList text.1
      let rest ← windows board (first + size) sizes
      some (posts ++ rest)

/-! ## Slices -/

/-- The elements whose numbers are between two bounds. -/
theorem filter_zipIdx {α : Type*} (l : List α) (k : Nat) (first last : Int) :
    ((l.zipIdx k).filter fun p => first ≤ p.2 ∧ (p.2 : Int) < last).map Prod.fst =
      (l.take (last - k).toNat).drop (first - k).toNat := by
  induction l generalizing k with
  | nil => rw [List.take_nil, List.drop_nil]; rfl
  | cons p l ih =>
      have hih := ih (k + 1)
      rw [List.zipIdx_cons, List.filter_cons]
      by_cases hlast : (k : Int) < last
      · obtain ⟨b, hb⟩ : ∃ b, (last - k).toNat = b + 1 := ⟨(last - k).toNat - 1, by omega⟩
        rw [show (last - (k + 1 : Nat)).toNat = b by omega] at hih
        rw [hb, List.take_succ_cons]
        by_cases hfirst : first ≤ k
        · rw [if_pos (by simp [hfirst, hlast]), List.map_cons, hih,
            show (first - (k + 1 : Nat)).toNat = 0 by omega, show (first - k).toNat = 0 by omega]
          rfl
        · obtain ⟨a, ha⟩ : ∃ a, (first - k).toNat = a + 1 := ⟨(first - k).toNat - 1, by omega⟩
          rw [if_neg (by simp [hfirst]), hih, show (first - (k + 1 : Nat)).toNat = a by omega, ha,
            List.drop_succ_cons]
      · rw [if_neg (by simp [hlast]), hih, show (last - (k + 1 : Nat)).toNat = 0 by omega,
          show (last - k).toNat = 0 by omega, List.take_zero, List.take_zero, List.drop_nil,
          List.drop_nil]

theorem toNat_clamp (nposts : Nat) (bound : Int) :
    (clamp nposts bound).toNat = min bound.toNat nposts ∧ 0 ≤ clamp nposts bound := by
  unfold clamp
  split_ifs <;> omega

/-- A window is the slice between the clamped bounds. -/
theorem window_eq (posts : List Bytes) (first last : Int) :
    window posts first last =
      (posts.reverse.drop (clamp posts.length first).toNat).take
        (clamp posts.length last - clamp posts.length first).toNat := by
  obtain ⟨hfirst, hpos⟩ := toNat_clamp posts.length first
  obtain ⟨hlast, -⟩ := toNat_clamp posts.length last
  have hlen : (clamp posts.length last - clamp posts.length first).toNat =
      min last.toNat posts.length - min first.toNat posts.length := by omega
  rw [window, filter_zipIdx, List.drop_take, hlen, hfirst, Nat.cast_zero, Int.sub_zero,
    Int.sub_zero]
  apply List.ext_getElem?
  intro i
  rw [List.getElem?_take, List.getElem?_take, List.getElem?_drop, List.getElem?_drop]
  by_cases hi : first.toNat + i < posts.length
  · rw [Nat.min_eq_left (show first.toNat ≤ posts.length by omega)]
    exact if_congr (by omega) rfl rfl
  · -- behind the last post, there is nothing on either side
    rw [if_neg (show ¬i < min last.toNat posts.length - min first.toNat posts.length by omega),
      List.getElem?_eq_none (by rw [List.length_reverse]; omega), ite_self]

/-- A window of a size. -/
theorem window_size (posts : List Bytes) (first size : Nat) :
    window posts first (first + size : Nat) = (posts.reverse.drop first).take size := by
  rw [window, filter_zipIdx, List.drop_take]
  congr 2
  omega

/-! ## The loops -/

/-- The posts of the board, as `Dci_CbParse` has them. -/
def boardOf (posts : List CStr) : Board := ⟨posts.reverse.map (scanPost tcl)⟩

theorem parseLoop_eq (argv : List Bytes) {argc : Nat} (h : argc ≤ argv.length) :
    parseLoop tcl argv argc = ((argv.take argc).map toCStr).reverse.map (scanPost tcl) := by
  induction argc with
  | zero => rfl
  | succ argc ih =>
      have hget : argv[argc]? = some argv[argc] := List.getElem?_eq_getElem h
      rw [parseLoop, ih (Nat.le_of_succ_le h), hget, List.take_add_one, hget, List.map_append,
        List.reverse_append]
      rfl

theorem cbParse_eq {msgs : Bytes} {argv : List Bytes} (h : tcl.splitList msgs = some argv) :
    cbParse tcl msgs = some (boardOf tcl (argv.map toCStr)) := by
  rw [cbParse, h, Option.map_some, parseLoop_eq tcl argv le_rfl, List.take_length]
  rfl

theorem lenLoop_eq (board : Board) {i n : Nat} (h : i + n ≤ board.npost) (len : Nat) :
    lenLoop board i n len =
      some (len + (((board.post.drop i).take n).map Post.length).sum) := by
  induction n generalizing i len with
  | zero => rfl
  | succ n ih =>
      have hi : i < board.post.length := Nat.lt_of_lt_of_le (by omega) h
      rw [lenLoop, List.getElem?_eq_getElem hi, List.drop_eq_getElem_cons hi, List.take_succ_cons,
        List.map_cons, List.sum_cons, ← Nat.add_assoc]
      exact ih (by omega) _

/-- The elements of posts, each with a blank behind it. -/
def lines (posts : List Post) : Bytes :=
  posts.flatMap fun post => tcl.convertElement post.content post.flags ++ [32]

theorem convertLoop_eq (board : Board) {size i n : Nat} (h : i + n ≤ board.npost) {dst : Bytes}
    (hsize : (dst ++ lines tcl ((board.post.drop i).take n)).length ≤ size) :
    convertLoop tcl board size i n dst = some (dst ++ lines tcl ((board.post.drop i).take n)) := by
  induction n generalizing i dst with
  | zero => exact congrArg some (List.append_nil dst).symm
  | succ n ih =>
      have hi : i < board.post.length := Nat.lt_of_lt_of_le (by omega) h
      rw [List.drop_eq_getElem_cons hi, List.take_succ_cons, lines, List.flatMap_cons,
        ← List.append_assoc, ← List.append_assoc] at hsize ⊢
      have hroom := (List.prefix_append _ _).length_le.trans hsize
      rw [convertLoop, List.getElem?_eq_getElem hi]
      show (if _ then _ else _) = _
      rw [if_pos hroom]
      exact ih (by omega) hsize

/-- The room that is counted is enough. -/
theorem length_lines (posts : List CStr) :
    (lines tcl (posts.map (scanPost tcl))).length ≤
      ((posts.map (scanPost tcl)).map Post.length).sum := by
  induction posts with
  | nil => exact le_rfl
  | cons content posts ih =>
      have hle := tcl.length_le content
      rw [List.map_cons, lines, List.flatMap_cons, List.length_append, List.map_cons, List.sum_cons]
      refine Nat.add_le_add ?_ ih
      rw [scanPost, tcl.convert_scan, List.length_append]
      exact Nat.succ_le_succ hle

/-- A blank behind each element is one before each but the first, and one at the end. -/
theorem lines_eq (content : CStr) (posts : List CStr) :
    lines tcl ((content :: posts).map (scanPost tcl)) =
      listText tcl.element (TclList.blanks ((content :: posts).map Subtype.val)) ++ [32] := by
  have hline (content : CStr) : lines tcl [scanPost tcl content] = tcl.element content ++ [32] := by
    rw [lines, List.flatMap_cons, List.flatMap_nil, List.append_nil, scanPost, tcl.convert_scan]
  induction posts generalizing content with
  | nil =>
      refine (hline content).trans (congrArg (· ++ [32]) ?_)
      exact (List.append_nil _).symm
  | cons next posts ih =>
      show lines tcl ([scanPost tcl content] ++ (next :: posts).map (scanPost tcl)) = _
      rw [lines, List.flatMap_append]
      show lines tcl _ ++ lines tcl _ = _
      rw [hline, ih next]
      simp [TclList.blanks, listText]

/-- Without the last blank, the elements are a list. -/
theorem dropLast_lines (posts : List CStr) :
    (lines tcl (posts.map (scanPost tcl))).dropLast =
      listText tcl.element (TclList.blanks (posts.map Subtype.val)) := by
  cases posts with
  | nil => rfl
  | cons content posts => rw [lines_eq, List.dropLast_concat]

/-- The list of some posts is split into them. -/
theorem splitList_lines (posts : List CStr) :
    tcl.splitList (lines tcl (posts.map (scanPost tcl))).dropLast =
      some (posts.map Subtype.val) := by
  have hfree : ∀ e ∈ posts.map Subtype.val, NulFree e := by
    intro e he
    obtain ⟨content, -, rfl⟩ := List.mem_map.mp he
    exact content.2
  have hsplit := tcl.splitList_listText _ [] (TclList.spaced_blanks hfree) TclList.white_nil
  rwa [List.append_nil, TclList.blanks_snd, ← dropLast_lines] at hsplit

/-- What `Dci_CbGet` returns. -/
theorem cbGet_eq (posts : List CStr) (first last : Int) :
    ∃ text, cbGet tcl (boardOf tcl posts) first last = some (text, posts.length) ∧
      tcl.splitList text = some (window (posts.map Subtype.val) first last) := by
  have hnpost : (boardOf tcl posts).npost = posts.length := by
    rw [Board.npost, boardOf, List.length_map, List.length_reverse]
  obtain ⟨hfirst, hpos⟩ := toNat_clamp posts.length first
  obtain ⟨hlast, -⟩ := toNat_clamp posts.length last
  -- bounds in the wrong order are an empty window
  have hcount : ∀ a b : Int, ((if b < a then a else b) - a).toNat = (b - a).toNat := by
    intro a b
    split_ifs <;> omega
  have hbound : (clamp posts.length first).toNat +
      (clamp posts.length last - clamp posts.length first).toNat ≤ (boardOf tcl posts).npost := by
    omega
  have hslice : ((boardOf tcl posts).post.drop (clamp posts.length first).toNat).take
      (clamp posts.length last - clamp posts.length first).toNat =
      ((posts.reverse.drop (clamp posts.length first).toNat).take
        (clamp posts.length last - clamp posts.length first).toNat).map (scanPost tcl) := by
    rw [boardOf, List.map_take, List.map_drop]
  have hwindow := window_eq (posts.map Subtype.val) first last
  rw [List.length_map, ← List.map_reverse, ← List.map_drop, ← List.map_take] at hwindow
  refine ⟨_, ?_, hwindow ▸ splitList_lines tcl _⟩
  unfold cbGet
  dsimp only
  rw [hnpost, hcount, lenLoop_eq _ hbound, hslice]
  show (convertLoop tcl _ _ _ _ _).bind _ = _
  rw [convertLoop_eq tcl _ hbound, hslice]
  · rfl
  · rw [hslice, List.nil_append]
    exact (length_lines tcl _).trans (Nat.le_add_left _ _)

/-- Windows one after another have the posts in order. -/
theorem windows_eq (posts : List CStr) (first : Nat) (sizes : List Nat) :
    windows tcl (boardOf tcl posts) first sizes =
      some (((posts.map Subtype.val).reverse.drop first).take sizes.sum) := by
  induction sizes generalizing first with
  | nil => rfl
  | cons size sizes ih =>
      obtain ⟨text, hget, hsplit⟩ := cbGet_eq tcl posts first (first + size : Nat)
      rw [windows, hget]
      show (tcl.splitList text).bind _ = _
      rw [hsplit, Option.bind_some, ih, window_size]
      show some (_ ++ _) = _
      rw [← List.drop_drop, ← List.take_add, List.sum_cons]

/-- **Windows of a board.** A list made of a board has the posts whose numbers, from the newest on,
are between the two bounds, and windows one after another that are large enough together have every
post once, the newest first. -/
theorem cbGet_window {msgs : Bytes} {argv : List Bytes} (h : tcl.splitList msgs = some argv) :
    ∃ board, cbParse tcl msgs = some board ∧
      (∀ first last, ∃ text, cbGet tcl board first last = some (text, argv.length) ∧
        tcl.splitList text = some (window (argv.map cstr) first last)) ∧
      ∀ sizes : List Nat, argv.length ≤ sizes.sum →
        windows tcl board 0 sizes = some (argv.map cstr).reverse := by
  have hposts : (argv.map toCStr).map Subtype.val = argv.map cstr := by
    rw [List.map_map]
    rfl
  refine ⟨_, cbParse_eq tcl h, ?_, ?_⟩
  · intro first last
    obtain ⟨text, hget, hsplit⟩ := cbGet_eq tcl (argv.map toCStr) first last
    rw [List.length_map] at hget
    exact ⟨text, hget, hposts ▸ hsplit⟩
  · intro sizes hsizes
    rw [windows_eq, hposts, List.drop_zero, List.take_of_length_le]
    rwa [List.length_reverse, List.length_map]

/-! ## A library -/

/-- Simple lists, with just the room that an element needs. -/
def TclScan.simple : TclScan where
  toTclList := TclList.simple
  scanElement e := ((TclList.simple.element e).length, 0)
  convertElement e _ := TclList.simple.element e
  convert_scan _ := rfl
  length_le _ := le_rfl

/-- A board of two posts. -/
theorem cbGet_window_two :
    ∃ board, cbParse .simple [97, 32, 98] = some board ∧
      (∀ first last, ∃ text, cbGet .simple board first last = some (text, 2) ∧
        TclScan.simple.splitList text = some (window [[97], [98]] first last)) ∧
      ∀ sizes : List Nat, 2 ≤ sizes.sum → windows .simple board 0 sizes = some [[98], [97]] :=
  cbGet_window .simple (show TclScan.simple.splitList [97, 32, 98] = some [[97], [98]] by decide)

end Nsdci.CbApi
