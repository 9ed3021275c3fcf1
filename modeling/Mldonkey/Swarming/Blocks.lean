import Mldonkey.Swarming.Types
import Mldonkey.Lib.Effects

namespace Mldonkey.Swarming

open Effects

namespace Store

def blockAt (s : Store) (i : Nat) : BlockV := s.blocks.getD i .emptyBlock

def setBlockAt (s : Store) (i : Nat) (b : BlockV) : Store := { s with blocks := s.blocks.set i b }

def modifyBlock (s : Store) (b : BlockId) (f : Block → Block) : Store :=
  { s with block := Function.update s.block b (f (s.block b)) }

def modifyRange (s : Store) (r : RangeId) (f : Range → Range) : Store :=
  { s with range := Function.update s.range r (f (s.range r)) }

def allocBlock (s : Store) (b : Block) : Store :=
  { s with block := Function.update s.block s.nextBlock b, nextBlock := s.nextBlock + 1 }

def allocRange (s : Store) (r : Range) : Store :=
  { s with range := Function.update s.range s.nextRange r, nextRange := s.nextRange + 1 }

def computeBlockEnd (s : Store) (i : Nat) : Int :=
  if s.blockPos.length = i + 1 then s.size else s.blockPos.getD (i + 1) 0

def computeBlockBegin (s : Store) (i : Nat) : Int := s.blockPos.getD i 0

def computeRangeSize (s : Store) (r : RangeId) : Int :=
  (s.range r).rangeEnd - (s.range r).rangeBegin

-- The recursive search of compute_block_num. Each call narrows max - min, so
-- the number of blocks is enough fuel.
def searchBlock (b : List Int) (chunkPos : Int) : Nat → Nat → Nat → Nat
  | 0, min, _ => min
  | fuel + 1, min, max =>
      if min = max then min
      else
        let medium := (min + max) / 2
        if min < medium then
          if chunkPos < b.getD medium 0 then searchBlock b chunkPos fuel min (medium - 1)
          else searchBlock b chunkPos fuel medium max
        else if chunkPos < b.getD max 0 then min else max

def blockNum (s : Store) (chunkPos : Int) : Nat :=
  searchBlock s.blockPos chunkPos s.blockPos.length 0 (s.blockPos.length - 1)

-- The arguments iter_intervals passes on for one block.
structure Piece where
  num : Nat
  blockBegin : Int
  blockEnd : Int
  intervalBegin : Int
  intervalEnd : Int
  deriving DecidableEq, Repr

-- iter_blocks, where `left` counts the blocks from `i` to the end.
def iterBlocks (s : Store) (intervalEnd : Int) : Nat → Nat → Int → Int → List Piece
  | 0, _, _, _ => []
  | left + 1, i, blockBegin, intervalBegin =>
      if blockBegin < intervalEnd then
        let blockEnd := s.computeBlockEnd i
        ⟨i, blockBegin, blockEnd, intervalBegin, min blockEnd intervalEnd⟩ ::
          iterBlocks s intervalEnd left (i + 1) blockEnd blockEnd
      else []

-- The blocks one interval meets, the interval clipped to the size.
def pieces (s : Store) (interval : Int × Int) : List Piece :=
  let intervalBegin := min interval.1 s.size
  let intervalEnd := min interval.2 s.size
  if intervalBegin < intervalEnd then
    let i := s.blockNum intervalBegin
    s.iterBlocks intervalEnd (s.blocks.length - i) i (s.computeBlockBegin i) intervalBegin
  else []

-- The range that range_next of `r` points to.
def nextIn (r : RangeId) : List RangeId → Option RangeId
  | x :: y :: l => if x = r then some y else nextIn r (y :: l)
  | _ => none

def rangeNext (s : Store) (r : RangeId) : Option RangeId :=
  nextIn r (s.block (s.range r).block).ranges

def insertAfter (r new : RangeId) : List RangeId → List RangeId
  | [] => []
  | x :: l => if x = r then x :: new :: l else x :: insertAfter r new l

-- Split a range at `cutPos`, if that lies inside; both halves stay linked.
def splitRange (s : Store) (r : RangeId) (cutPos : Int) : Store :=
  let old := s.range r
  if old.rangeBegin < cutPos ∧ cutPos < old.rangeEnd then
    ((s.allocRange { old with rangeBegin := cutPos, nuploading := 0 }).modifyRange r
      fun x => { x with rangeEnd := cutPos }).modifyBlock old.block
        fun b => { b with ranges := insertAfter r s.nextRange b.ranges }
  else s

-- Do the ranges cover their block from `pos` on?
def coversFrom (s : Store) (blockEnd : Int) : Int → List RangeId → Bool
  | pos, [] => pos = blockEnd
  | pos, r :: l => (s.range r).rangeBegin = pos && s.coversFrom blockEnd (s.range r).rangeEnd l

def blockIsEmpty (s : Store) (b : BlockId) : Bool :=
  s.coversFrom (s.block b).blockEnd (s.block b).blockBegin (s.block b).ranges

def blockIsFull (s : Store) (b : BlockId) : Bool :=
  match (s.block b).ranges with
  | [r] => (s.range r).rangeBegin = (s.range r).rangeEnd
  | _ => false

def appendInterval (interval : Int × Int) (intervals : List (Int × Int)) : List (Int × Int) :=
  if interval.1 = interval.2 then intervals
  else
    match intervals with
    | [] => [interval]
    | last :: others =>
        if last.2 < interval.1 then interval :: intervals else (last.1, interval.2) :: others

-- The bytes of a block that its ranges leave out, added to the reversed list
-- of intervals.
def appendBlock (s : Store) (acc : List (Int × Int)) (i : Nat) : List (Int × Int) :=
  match s.blockAt i with
  | .emptyBlock => acc
  | .completeBlock | .verifiedBlock =>
      appendInterval (s.computeBlockBegin i, s.computeBlockEnd i) acc
  | .partialBlock b =>
      let (acc, lastIntervalEnd) := (s.block b).ranges.foldl
        (fun (acc, lie) r =>
          (appendInterval (lie, (s.range r).rangeBegin) acc, (s.range r).rangeEnd))
        (acc, s.computeBlockBegin i)
      appendInterval (lastIntervalEnd, s.computeBlockEnd i) acc

def presentIntervals (s : Store) : List (Int × Int) :=
  ((List.range s.blocks.length).foldl s.appendBlock []).reverse

end Store

-- 0 <= chunkPos < size is asserted.
def computeBlockNum (chunkPos : Int) : Act Nat := do
  let s ← get
  check (0 ≤ chunkPos ∧ chunkPos < s.size) (.assertFailure .computeBlockNum)
  return s.blockNum chunkPos

-- Run `f` on each piece of each interval, in order. What `f` does leaves the
-- positions of the blocks alone.
def iterIntervals (f : Store.Piece → Act Unit) (intervals : List (Int × Int)) : Act Unit :=
  forM intervals fun interval => do
    let s ← get
    if min interval.1 s.size < min interval.2 s.size then do
      let _ ← computeBlockNum (min interval.1 s.size)
      forM (s.pieces interval) f
    else pure ()

end Mldonkey.Swarming
