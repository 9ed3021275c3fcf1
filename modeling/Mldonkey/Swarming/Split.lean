import Mldonkey.Swarming.Verification

namespace Mldonkey.Swarming

open Effects

def PRIORITY_ZERO : Nat := 0

namespace Store

-- The void_range of cut_ranges_after, assigned to block `b`.
def voidRange (s : Store) (b : BlockId) (pos : Int) : Store := s.allocRange ⟨b, pos, pos, 0⟩

-- The walk of cut_ranges_after along the ranges of a block: the ranges that
-- stay before `cutPos` and those that go after it.
def cutRanges (b : BlockId) (cutPos : Int) (s : Store) :
    List RangeId → Store × List RangeId × List RangeId
  | [] => (s, [], [])
  | r :: rest =>
      if cutPos ≤ (s.range r).rangeBegin then (s, [], r :: rest)
      else if (s.range r).rangeEnd ≤ cutPos then
        match rest with
        | [] => (s.voidRange b cutPos, [r], [s.nextRange])
        | _ :: _ =>
            let (s, left, right) := cutRanges b cutPos s rest
            (s, r :: left, right)
      else
        -- both halves keep range_nuploading
        ((s.allocRange { s.range r with rangeBegin := cutPos }).modifyRange r
          fun x => { x with rangeEnd := cutPos }, [r], s.nextRange :: rest)

def ownRanges (s : Store) (b : BlockId) (ranges : List RangeId) : Store :=
  ranges.foldl (fun s r => s.modifyRange r fun x => { x with block := b }) s

-- Move the ranges of `b1` that lie after `cutPos` to `b2`.
def cutRangesAfter (s : Store) (b1 b2 : BlockId) (cutPos : Int) : Store :=
  let (s, left, right) := cutRanges b2 cutPos s (s.block b1).ranges
  let (s, left) :=
    if left = [] then (s.voidRange b1 cutPos, [s.nextRange]) else (s, left)
  ((s.modifyBlock b1 fun x => { x with ranges := left }).ownRanges b2 right).modifyBlock b2
    fun x => { x with ranges := right }

-- Split the partial block `b1` in two; the new block is the part after `cutPos`.
-- Its number and its sums are fixed below.
def cutPartial (s : Store) (b1 : BlockId) (cutPos : Int) : Store :=
  let b2 := s.nextBlock
  ((s.allocBlock
    { num := 0
      blockBegin := cutPos
      blockEnd := (s.block b1).blockEnd
      ranges := (s.block b1).ranges
      remaining := 0
      unselectedRemaining := 0 }).cutRangesAfter b1 b2 cutPos).modifyBlock b1
        fun x => { x with blockEnd := cutPos }

def markPriority (s : Store) (bitmap : List Nat) (intervalBegin intervalEnd priority : Int) :
    List Nat :=
  if intervalBegin < intervalEnd ∧ intervalEnd ≤ s.size ∧ 0 ≤ intervalBegin then
    if priority = 0 then bitmap
    else
      let iBegin := s.blockNum intervalBegin
      let iEnd := s.blockNum (intervalEnd - 1)
      bitmap.mapIdx fun i c =>
        if iBegin ≤ i ∧ i ≤ iEnd then (max 0 (min priority 255)).toNat else c
  else bitmap

def markPriorities (s : Store) (bitmap : List Nat) : List (Int × Int) → List Nat
  | (iBegin, priority) :: (iEnd, p) :: tail =>
      s.markPriorities (s.markPriority bitmap iBegin iEnd priority) ((iEnd, p) :: tail)
  | [(iBegin, priority)] => s.markPriority bitmap iBegin s.size priority
  | [] => bitmap

end Store

-- A block that split_blocks puts in its result: the block, where it begins and
-- its character.
structure NewBlock where
  block : BlockV
  pos : Int
  state : PartState
  deriving DecidableEq, Repr

namespace State

def swarmerRecomputePrioritiesBitmap (s : State) : State :=
  { s with
    prioritiesBitmap := s.markPriorities
      (List.replicate s.prioritiesBitmap.length PRIORITY_ZERO) s.prioritiesIntervals }

-- The left part of the partial block `b1` that was cut at `cutPos`.
def leftBlock (s : State) (i : Nat) (b1 : BlockId) (blockBegin : Int) : NewBlock :=
  if s.blockIsFull b1 then ⟨.completeBlock, blockBegin, .stateComplete⟩
  else if s.blockIsEmpty b1 then ⟨.emptyBlock, blockBegin, .stateMissing⟩
  else ⟨.partialBlock b1, blockBegin, s.bit i⟩

-- The right part takes the place of `b1` in the arrays.
def setRightBlock (s : State) (i : Nat) (b2 : BlockId) : State :=
  if s.blockIsFull b2 then
    (s.withStore (·.setBlockAt i .completeBlock)).setBit i .stateComplete
  else if s.blockIsEmpty b2 then
    (s.withStore (·.setBlockAt i .emptyBlock)).setBit i .stateMissing
  else s.withStore (·.setBlockAt i (.partialBlock b2))

-- The first `iter` of split_blocks. Every call moves on to the next block or to
-- the next chunk.
def splitIter (chunkSize : Int) :
    Nat → State → Nat → Int → List NewBlock → State × List NewBlock
  | 0, s, _, _, newBlocks => (s, newBlocks.reverse)
  | fuel + 1, s, i, chunkBegin, newBlocks =>
      if i = s.blocks.length then (s, newBlocks.reverse)
      else
        let blockBegin := s.computeBlockBegin i
        let blockEnd := s.computeBlockEnd i
        let chunkEnd := min (chunkBegin + chunkSize) s.size
        if blockEnd < chunkEnd then
          splitIter chunkSize fuel s (i + 1) chunkBegin
            (⟨s.blockAt i, blockBegin, s.bit i⟩ :: newBlocks)
        else if chunkEnd = blockEnd then
          splitIter chunkSize fuel s (i + 1) chunkEnd
            (⟨s.blockAt i, blockBegin, s.bit i⟩ :: newBlocks)
        else
          let s := s.withStore fun st => { st with blockPos := st.blockPos.set i chunkEnd }
          match s.blockAt i with
          | .partialBlock b1 =>
              let b2 := s.nextBlock
              let s := s.withStore (·.cutPartial b1 chunkEnd)
              splitIter chunkSize fuel (s.setRightBlock i b2) i chunkEnd
                (s.leftBlock i b1 blockBegin :: newBlocks)
          | b =>
              splitIter chunkSize fuel s i chunkEnd (⟨b, blockBegin, s.bit i⟩ :: newBlocks)

-- The second `iter` of split_blocks. The new s_block_pos is filled while the
-- sizes are computed from it: the entries from `i` on are still zero.
def rebuildFrom (s : State) (i : Nat) : List NewBlock → State
  | [] => s
  | new :: tail =>
      let s := match new.block with
        | .partialBlock b =>
            let blockSize := s.computeBlockEnd i - s.computeBlockBegin i
            let (remaining, unselected) := (s.block b).ranges.foldl
              (fun (racc, uracc) r =>
                (racc - s.computeRangeSize r,
                  if (s.range r).nuploading = 0 then uracc - s.computeRangeSize r else uracc))
              (blockSize, blockSize)
            s.withStore (·.modifyBlock b fun x =>
              { x with num := i, remaining := remaining, unselectedRemaining := unselected })
        | _ => s
      rebuildFrom
        { s with
          blocks := s.blocks.set i new.block
          verifiedBitmap := VB.set s.verifiedBitmap i new.state
          blockPos := s.blockPos.set i new.pos } (i + 1) tail

-- Split the existing blocks at the multiples of `chunkSize`.
def splitBlocks (s : State) (chunkSize : Int) : State :=
  let (s, blocks) := splitIter chunkSize
    (s.blocks.length + (s.size.tdiv chunkSize).toNat + 1) s 0 0 []
  let nblocks := blocks.length
  (rebuildFrom
    { s with
      blocks := List.replicate nblocks .emptyBlock
      verifiedBitmap := VB.create nblocks .stateMissing
      prioritiesBitmap := List.replicate nblocks PRIORITY_ZERO
      blockPos := List.replicate nblocks 0
      availability := List.replicate nblocks 0
      nuploading := List.replicate nblocks 0 } 0 blocks).swarmerRecomputePrioritiesBitmap

end State

-- The mappings between the chunks of a frontend and the blocks. A block is put
-- in front of the earlier ones of its chunk.
def Frontend.mapBlocks (st : Store) (t : Frontend) : Frontend :=
  let nblocks := st.blocks.length
  let chunk := fun i => ((st.computeBlockBegin i).tdiv t.chunkSize).toNat
  { t with
    chunkOfBlock := (List.range nblocks).map chunk
    blocksOfChunk := (List.range t.convertedVerifiedBitmap.length).map fun j =>
      ((List.range nblocks).filter fun i => chunk i = j).reverse }

namespace State

-- `associate` for a frontend whose file has the swarmer's size. A secondary's
-- file starts again from no downloaded bytes and uses the primary's descriptor.
def associate (s : State) (t : Frontend) (file : File) : State :=
  let file := if s.networks = [] then file else { file with downloaded := 0 }
  let t :=
    { t with
      convertedVerifiedBitmap := VB.create t.nchunks .stateMissing
      fd := if s.networks = [] then t.fd else (s.frontend 0).fd }
  let s := { s with networks := s.networks ++ [t], files := s.files ++ [file] }
  let s := s.splitBlocks t.chunkSize
  { s with networks := s.networks.map (Frontend.mapBlocks s.toStore) }

end State

-- create_swarmer for a name that no swarmer has yet.
def createSwarmer (fileSize : Nat) : State :=
  let megabyte : Int := 1024 * 1024
  let roundUp := fun x y : Int => (x + y - 1).tdiv y * y
  let diskAllocationBlockSize :=
    min (megabyte * 10) (roundUp (max 1 ((fileSize : Int).tdiv 200)) megabyte)
  let ndiskblocks := 1 + ((fileSize - 1 : Int).tdiv diskAllocationBlockSize)
  State.swarmerRecomputePrioritiesBitmap
    { size := fileSize
      blocks := [.emptyBlock]
      blockPos := [0]
      block := fun _ => ⟨0, 0, 0, [], 0, 0⟩
      range := fun _ => ⟨0, 0, 0, 0⟩
      nextBlock := 0
      nextRange := 0
      diskAllocationBlockSize := diskAllocationBlockSize
      networks := []
      files := []
      strategy := .advancedStrategy
      verifiedBitmap := VB.create 1 .stateMissing
      prioritiesBitmap := [PRIORITY_ZERO]
      prioritiesIntervals := [(0, 1)]
      diskAllocated := List.replicate ndiskblocks.toNat false
      availability := [0]
      nuploading := [0]
      uploaders := []
      written := [] }

-- The frontend record of `create`. Without a chunk, its association would raise
-- on the first block. The descriptor of the first file is named 0.
def createFrontend (fileSize chunkSize : Nat) : Except Exn Frontend :=
  if chunkSize = 0 then .error .divisionByZero
  else
    let nchunks := (1 + ((fileSize - 1 : Int).tdiv chunkSize)).toNat
    if nchunks = 0 then .error .invalidArgument
    else .ok
      { chunkSize := chunkSize
        nchunks := nchunks
        convertedVerifiedBitmap := VB.create nchunks .stateMissing
        ncompleteChunks := 0
        nverifiedChunks := 0
        verifier := .noVerification
        blocksOfChunk := List.replicate nchunks []
        chunkOfBlock := []
        fd := 0 }

-- A primary frontend on a swarmer without frontends; the network then sets its
-- verifier.
def create (ss : State) (fileSize chunkSize : Nat) (verifier : Verifier) (fileState : FileState) :
    Except Exn State := do
  let t ← createFrontend fileSize chunkSize
  return ss.associate { t with verifier := verifier } ⟨fileSize, 0, fileState⟩

-- What `merge` takes over from the second file, which is the only one of its
-- swarmer and not being downloaded.
structure MergedFile where
  size : Nat
  chunkSize : Nat
  verifier : Verifier
  ncompleteChunks : Int
  nverifiedChunks : Int
  downloaded : Int
  state : FileState
  fd : Nat

def merge (f2 : MergedFile) : Act Unit := do
  let s ← get
  check (s.size = f2.size) (.failure "Files don't have the same size")
  let t ← (match createFrontend f2.size f2.chunkSize with
    | .ok t => pure t
    | .error e => throw e : Act Frontend)
  match s.networks with
  | [] => throw (.assertFailure .noFrontend)
  | t1 :: _ =>
      check (t1.verifier ≠ .noVerification ∧ t1.verifier ≠ .verificationNotAvailable)
        (.failure "Cannot use first file as a primary for swarming (no verification scheme)")
      check (∀ n ∈ s.nuploading, n = 0) (.failure "First file is currently being downloaded")
      modify (·.associate
        { t with
          verifier := f2.verifier
          ncompleteChunks := f2.ncompleteChunks
          nverifiedChunks := f2.nverifiedChunks
          fd := f2.fd } ⟨f2.size, f2.downloaded, f2.state⟩)

def setVerifier (k : Nat) (f : Verifier) : Act Unit := do
  modify (·.modifyFrontend k fun t => { t with verifier := f })
  let s ← get
  setChunksVerifiedBitmap k (s.frontend k).convertedVerifiedBitmap

-- insert_prio_interval; `new` is its interval and priority.
def insertPrioEnd (lastEnd newEnd newPrio : Int) (prevPrio : Int) :
    List (Int × Int) → Except Exn (List (Int × Int))
  | [] =>
      .ok (if newEnd = lastEnd then []
        else if newPrio ≠ prevPrio then [(newEnd, prevPrio)] else [])
  | (pos, prio) :: tail =>
      if pos < newEnd then insertPrioEnd lastEnd newEnd newPrio prio tail
      else if newEnd < pos then
        .ok (if newPrio ≠ prevPrio then (newEnd, prevPrio) :: (pos, prio) :: tail
          else (pos, prio) :: tail)
      else if prio = prevPrio then .error (.assertFailure .insertPrioInterval)
      else .ok (if newPrio ≠ prio then (pos, prio) :: tail else tail)

def insertPrio (lastEnd newStart newEnd newPrio : Int) (prevPrio : Int) :
    List (Int × Int) → Except Exn (List (Int × Int))
  | [] => do
      let rest ← insertPrioEnd lastEnd newEnd newPrio prevPrio []
      return if newPrio ≠ prevPrio then (newStart, newPrio) :: rest else rest
  | (pos, prio) :: tail =>
      if pos < newStart then do
        return (pos, prio) :: (← insertPrio lastEnd newStart newEnd newPrio prio tail)
      else if newStart < pos then do
        let rest ← insertPrioEnd lastEnd newEnd newPrio prevPrio ((pos, prio) :: tail)
        return if newPrio ≠ prevPrio then (newStart, newPrio) :: rest else rest
      else if prio = prevPrio then .error (.assertFailure .insertPrioInterval)
      else do
        let rest ← insertPrioEnd lastEnd newEnd newPrio prio tail
        return if newPrio ≠ prevPrio then (newStart, newPrio) :: rest else rest

def insertPrioInterval (intervals : List (Int × Int)) (lastEnd newStart newEnd newPrio : Int) :
    Except Exn (List (Int × Int)) :=
  if newStart < newEnd ∧ newEnd ≤ lastEnd then
    insertPrio lastEnd newStart newEnd newPrio (-1) intervals
  else .error (.assertFailure .insertPrioInterval)

def swarmerSetInterval (newStart newEnd newPrio : Int) : Act Unit := do
  let s ← get
  match insertPrioInterval s.prioritiesIntervals s.size newStart newEnd newPrio with
  | .ok intervals =>
      modify fun s =>
        State.swarmerRecomputePrioritiesBitmap { s with prioritiesIntervals := intervals }
  | .error e => throw e

def validateIntervals (limit : Int) : List (Int × Int) → Bool
  | (p1, prio1) :: (p2, prio2) :: tail =>
      prio1 ≠ prio2 && p1 < p2 && validateIntervals limit ((p2, prio2) :: tail)
  | [(p, _)] => p < limit
  | [] => false

end Mldonkey.Swarming
