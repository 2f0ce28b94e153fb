import Nsdci.Lib.Medium
import Nsdci.Lib.Outcome

/-!
# The space of a GDBM file

`falloc.c` of the GNU dbm library, which is linked into the program. Free space is on a list in the
header of the file, on a list in each bucket, and in blocks in the file that half of the list in
the header has been put into when it was full. An allocation looks at the list of the current
bucket first, then at that of the header, and last adds blocks to the file.

A computation stops when a size or an address is no `int` any more. Where `off_t` is longer the
source goes on with a file that large, whose elements may then be merged to sizes that are no
`int`; that is not modelled. `Stop.undefined` stands for what the source must not do: to read as a
block of free space what was not written as one, to write behind the end of a table, to call itself
without end.
-/

namespace Nsdci.Gdbm

open Lib

/-- `IGNORE_SIZE` -/
def ignoreSize : Nat := 4

/-- `BUCKET_AVAIL` -/
def maxBucketAvail : Nat := 6

/-- From here on, sizes and addresses are no `int`. -/
def intLimit : Nat := 2 ^ 31

/-- What does not change while a file is open: the sizes of `avail_elem`, `avail_block` and
`gdbm_file_header`, and the options of `gdbm_setopt`. -/
structure Conf where
  availElem : Nat
  availBlock : Nat
  fileHeader : Nat
  centralFree : Bool
  coalesceBlocks : Bool

/-- Why a computation does not come to its end. -/
inductive Stop where
  | size
  | undefined
  deriving DecidableEq

/-- `avail_elem` -/
structure AvailElem where
  size : Nat
  adr : Nat
  deriving DecidableEq

/-- `avail_block`; its `count` is the length of the table. -/
structure AvailBlock where
  size : Nat
  nextBlock : Nat
  table : List AvailElem
  deriving DecidableEq

/-- `gdbm_file_header`, as far as space is concerned. -/
structure Header where
  blockSize : Nat
  nextBlock : Nat
  avail : AvailBlock
  deriving DecidableEq

/-- The file. The records in it that are read here are blocks of free space. -/
abbrev File := Medium AvailBlock

/-- What is worked on: the header, the list of the current bucket, and the file. -/
structure Space where
  header : Header
  bucketAvail : List AvailElem
  file : File
  headerChanged : Bool

/-- The list in the header. -/
def Space.table (s : Space) : List AvailElem := s.header.avail.table

/-- Its capacity. -/
def Space.capacity (s : Space) : Nat := s.header.avail.size

def Space.setTable (s : Space) (table : List AvailElem) : Space :=
  { s with header := { s.header with avail := { s.header.avail with table := table } } }

def Space.setNextAvail (s : Space) (adr : Nat) : Space :=
  { s with header := { s.header with avail := { s.header.avail with nextBlock := adr } } }

/-- The size of a block of free space, `av_size`. -/
def blockBytes (c : Conf) (capacity : Nat) : Nat :=
  capacity * c.availElem / 2 + c.availBlock

/-- `get_elem`: the first element that is large enough; if there is none, one of size 0. -/
def getAvElem (size : Nat) : List AvailElem → AvailElem × List AvailElem
  | [] => (⟨0, 0⟩, [])
  | e :: es =>
      if e.size < size then ((getAvElem size es).1, e :: (getAvElem size es).2) else (e, es)

/-- The search of `_gdbm_put_av_elem` for an element to merge with. -/
def mergeAvElem (new : AvailElem) : List AvailElem → Option (List AvailElem)
  | [] => none
  | e :: es =>
      if e.adr + e.size = new.adr then some (⟨e.size + new.size, e.adr⟩ :: es)
      else if new.adr + new.size = e.adr then some (⟨e.size + new.size, new.adr⟩ :: es)
      else (mergeAvElem new es).map (e :: ·)

/-- The place of a new element is before the first that is not smaller. -/
def insertAvElem (new : AvailElem) : List AvailElem → List AvailElem
  | [] => [new]
  | e :: es => if e.size < new.size then e :: insertAvElem new es else new :: e :: es

/-- `_gdbm_put_av_elem` -/
def putAvElem (new : AvailElem) (table : List AvailElem) (canMerge : Bool) : List AvailElem :=
  if new.size ≤ ignoreSize then table
  else ((if canMerge then mergeAvElem new table else none)).getD (insertAvElem new table)

/-- It does not look whether there is room in the table. -/
def putInto (capacity : Nat) (new : AvailElem) (table : List AvailElem) (canMerge : Bool) :
    Except Stop (List AvailElem) :=
  if (putAvElem new table canMerge).length ≤ capacity then .ok (putAvElem new table canMerge)
  else .error .undefined

/-- The loop of `get_block`. -/
def coverBlocks (blockSize size : Nat) : Nat → Nat → Nat
  | 0, n => n
  | fuel + 1, n => if n < size then coverBlocks blockSize size fuel (n + blockSize) else n

/-- The size of the blocks that are enough; each covers a byte that is missing. -/
def blocksFor (h : Header) (size : Nat) : Nat := coverBlocks h.blockSize size size h.blockSize

/-- `get_block` -/
def getBlock (size : Nat) (s : Space) : Except Stop (AvailElem × Space) :=
  if intLimit ≤ s.header.nextBlock + blocksFor s.header size then .error .size
  else .ok (⟨blocksFor s.header size, s.header.nextBlock⟩,
    { s with header := { s.header with
               nextBlock := s.header.nextBlock + blocksFor s.header size },
             headerChanged := true })

/-- An element that was found, or blocks. -/
def orBlock (size : Nat) (el : AvailElem) (s : Space) : Except Stop (AvailElem × Space) :=
  if el.size = 0 then getBlock size s else .ok (el, s)

/-- The loop of `adjust_bucket_avail`; it takes an element from the bucket each time. -/
def adjustLoop (c : Conf) : Nat → Space → Except Stop Space
  | 0, s => .ok s
  | fuel + 1, s =>
      if maxBucketAvail - maxBucketAvail / 3 < s.bucketAvail.length ∧
          s.table.length < s.capacity then
        putInto s.capacity (getAvElem 0 s.bucketAvail).1 s.table c.coalesceBlocks >>= fun table =>
          adjustLoop c fuel { s.setTable table with
            bucketAvail := (getAvElem 0 s.bucketAvail).2 }
      else .ok s

/-- `adjust_bucket_avail` -/
def adjustBucketAvail (c : Conf) (s : Space) : Except Stop Space :=
  if s.bucketAvail.length < maxBucketAvail / 3 then
    match s.table.getLast? with
    | none => .ok s
    | some el =>
        putInto maxBucketAvail el s.bucketAvail c.coalesceBlocks >>= fun table =>
          .ok { s.setTable s.table.dropLast with bucketAvail := table }
  else adjustLoop c s.bucketAvail.length s

/-- The elements at the odd and at the even places, in pairs. -/
def halves : List AvailElem → List AvailElem × List AvailElem
  | [] => ([], [])
  | [_] => ([], [])
  | a :: b :: es => (b :: (halves es).1, a :: (halves es).2)

/-- The new block has one half of the list, and the other stays in the header. -/
def splitHeader (adr : Nat) (s : Space) : AvailBlock × Space :=
  (⟨s.capacity, s.header.avail.nextBlock, (halves s.table).1⟩,
    (s.setNextAvail adr).setTable (halves s.table).2)

/-- `push_avail_block`, with the `_gdbm_free` it calls. -/
def pushAvailBlock (c : Conf) (free : Space → Nat → Nat → Except Stop Space) (s : Space) :
    Except Stop Space :=
  let avSize := blockBytes c s.capacity
  let el := getAvElem avSize s.table
  orBlock avSize el.1 (s.setTable el.2) >>= fun newLoc =>
    let temp := splitHeader newLoc.1.adr newLoc.2
    free temp.2 (newLoc.1.adr + avSize) (newLoc.1.size - avSize) >>= fun s =>
      .ok { s with file := putRecord s.file newLoc.1.adr avSize temp.1 }

/-- `push_avail_block` when the list in the header is full. -/
def pushIfFull (c : Conf) (free : Space → Nat → Nat → Except Stop Space) (s : Space) :
    Except Stop Space :=
  if s.table.length = s.capacity then pushAvailBlock c free s else .ok s

/-- An element for the list in the header. -/
def freeToHeader (c : Conf) (free : Space → Nat → Nat → Except Stop Space) (el : AvailElem)
    (s : Space) : Except Stop Space :=
  pushIfFull c free s >>= fun s =>
    putInto s.capacity el s.table c.coalesceBlocks >>= fun table =>
      .ok { s.setTable table with headerChanged := true }

/-- An element for the list of the current bucket. -/
def freeToBucket (c : Conf) (el : AvailElem) (s : Space) : Except Stop Space :=
  putInto maxBucketAvail el s.bucketAvail c.coalesceBlocks >>= fun table =>
    .ok { s with bucketAvail := table }

/-- `_gdbm_free`. It can call itself by way of `push_avail_block`; `depth` bounds how often. -/
def freeAt (c : Conf) : Nat → Space → Nat → Nat → Except Stop Space
  | 0, _, _, _ => .error .undefined
  | depth + 1, s, adr, n =>
      if n ≤ ignoreSize then .ok s
      else
        (if s.header.blockSize ≤ n ∨ c.centralFree = true then
          freeToHeader c (freeAt c depth) ⟨n, adr⟩ s
        else if s.bucketAvail.length < maxBucketAvail then freeToBucket c ⟨n, adr⟩ s
        else freeToHeader c (freeAt c depth) ⟨n, adr⟩ s) >>= fun s =>
          if s.headerChanged then adjustBucketAvail c s else .ok s

/-- `_gdbm_free` -/
def gdbmFree (c : Conf) (s : Space) (adr n : Nat) : Except Stop Space := freeAt c 2 s adr n

/-- The loop of `pop_avail_block` over the elements of the block. -/
def popLoop (c : Conf) : List AvailElem → Space → Except Stop Space
  | [], s => .ok s
  | el :: els, s =>
      putInto s.capacity el s.table true >>= fun table =>
        pushIfFull c (gdbmFree c) (s.setTable table) >>= fun s => popLoop c els s

/-- `pop_avail_block` behind the read of the block. -/
def popBlock (c : Conf) (newEl : AvailElem) (newBlk : AvailBlock) (s : Space) :
    Except Stop Space :=
  popLoop c newBlk.table s >>= fun s =>
    pushIfFull c (gdbmFree c) { s.setNextAvail newBlk.nextBlock with headerChanged := true } >>=
      fun s => putInto s.capacity newEl s.table true >>= fun table => .ok (s.setTable table)

/-- `pop_avail_block` -/
def popAvailBlock (c : Conf) (s : Space) : Except Stop Space :=
  pushIfFull c (gdbmFree c) s >>= fun s =>
    match getRecord s.file s.header.avail.nextBlock (blockBytes c s.capacity) with
    | some newBlk => popBlock c ⟨blockBytes c s.capacity, s.header.avail.nextBlock⟩ newBlk s
    | none => .error .undefined

/-- A block comes back when the list in the header is less than half full. -/
def popIfLow (c : Conf) (s : Space) : Except Stop Space :=
  if s.table.length ≤ s.capacity / 2 ∧ s.header.avail.nextBlock ≠ 0 then popAvailBlock c s
  else .ok s

/-- What `_gdbm_alloc` does when the current bucket has no space. -/
def allocFromHeader (c : Conf) (n : Nat) (s : Space) : Except Stop (AvailElem × Space) :=
  popIfLow c s >>= fun s =>
    let el := getAvElem n s.table
    orBlock n el.1 (s.setTable el.2) >>= fun got =>
      .ok (got.1, { got.2 with headerChanged := true })

/-- An element that was found in the bucket, or one of the header. -/
def orHeader (c : Conf) (n : Nat) (el : AvailElem) (s : Space) : Except Stop (AvailElem × Space) :=
  if el.size = 0 then allocFromHeader c n s else .ok (el, s)

/-- `_gdbm_alloc` -/
def gdbmAlloc (c : Conf) (s : Space) (n : Nat) : Except Stop (Nat × Space) :=
  let el := getAvElem n s.bucketAvail
  orHeader c n el.1 { s with bucketAvail := el.2 } >>= fun got =>
    gdbmFree c got.2 (got.1.adr + n) (got.1.size - n) >>= fun s => .ok (got.1.adr, s)

end Nsdci.Gdbm
