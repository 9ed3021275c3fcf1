import Mldonkey.Swarming.Split

namespace Mldonkey.Swarming

open Effects

instance : Inhabited Uploader :=
  ⟨{ t := 0
     declared := false
     intervals := .availableIntervals []
     completeBlocks := []
     ncomplete := 0
     partialBlocks := []
     npartial := 0
     blocks := []
     ranges := [] }⟩

namespace Store

-- One uploader less selects the range.
def releaseRange (s : Store) (r : RangeId) : Store :=
  let s := s.modifyRange r fun x => { x with nuploading := x.nuploading - 1 }
  if (s.range r).nuploading = 0 then
    s.modifyBlock (s.range r).block fun x =>
      { x with unselectedRemaining := x.unselectedRemaining + s.computeRangeSize r }
  else s

end Store

namespace State

def uploader (s : State) (up : Nat) : Uploader := s.uploaders.getD up default

def modifyUploader (s : State) (up : Nat) (f : Uploader → Uploader) : State :=
  { s with uploaders := s.uploaders.modify up f }

def incrAvailability (s : State) (i : Nat) : State :=
  { s with availability := s.availability.modify i (· + 1) }

-- A counter that is zero stays zero, with a message in the log.
def decrAvailability (s : State) (i : Nat) : State :=
  { s with availability := s.availability.modify i (· - 1) }

def incrNuploading (s : State) (num : Nat) : State :=
  { s with nuploading := s.nuploading.modify num (· + 1) }

def decrNuploading (s : State) (num : Nat) : State :=
  { s with nuploading := s.nuploading.modify num (· - 1) }

def releaseRange (s : State) (r : RangeId) : State := s.withStore (·.releaseRange r)

def clearUploaderRanges (s : State) (up : Nat) : State :=
  ((s.uploader up).ranges.foldl (fun s key => s.releaseRange key.2.2) s).modifyUploader up
    fun u => { u with ranges := [] }

-- The ranges in which bytes are still missing stay with the uploader.
def removeCompletedUploaderRanges (s : State) (up : Nat) : State :=
  let live := fun key : Int × Int × RangeId =>
    decide ((s.range key.2.2).rangeBegin < (s.range key.2.2).rangeEnd)
  let completed := (s.uploader up).ranges.filter fun key => !live key
  let s := s.modifyUploader up fun u => { u with ranges := u.ranges.filter live }
  completed.foldl (fun s key => s.releaseRange key.2.2) s

-- The selected blocks are counted out of s_nuploading.
def clearUploaderBlocks (s : State) (up : Nat) : State :=
  ((s.uploader up).blocks.foldl (fun s b => s.decrNuploading (s.block b.block).num) s).modifyUploader
    up fun u => { u with blocks := [] }

def clearUploaderIntervals (s : State) (up : Nat) : State :=
  let u := s.uploader up
  if u.declared then
    let s := u.completeBlocks.foldl decrAvailability s
    let s := u.partialBlocks.foldl (fun s b => s.decrAvailability b.1) s
    let s := s.modifyUploader up fun u =>
      { u with completeBlocks := [], ncomplete := 0, partialBlocks := [], npartial := 0 }
    (s.clearUploaderBlocks up).modifyUploader up fun u => { u with declared := false }
  else s

-- The blocks that an interval declaration adds to the two lists, each put in
-- front of the earlier ones. Complete and verified blocks are left out.
def declareBlock (s : State) (lists : List Nat × List (Nat × Int × Int)) (p : Store.Piece) :
    List Nat × List (Nat × Int × Int) :=
  match s.blockAt p.num with
  | .completeBlock | .verifiedBlock => lists
  | .emptyBlock | .partialBlock _ =>
      if p.blockBegin = p.intervalBegin ∧ p.blockEnd = p.intervalEnd then
        (p.num :: lists.1, lists.2)
      else (lists.1, (p.num, p.intervalBegin, p.intervalEnd) :: lists.2)

def bitvTrue (bitmap : List Bool) : List Nat :=
  (List.range bitmap.length).filter fun i => bitmap.getD i false

-- What set_uploader_intervals collects: complete_blocks and partial_blocks.
def declaredBlocks (s : State) (t : Nat) : Intervals → List Nat × List (Nat × Int × Int)
  | .availableIntervals intervals => (intervals.flatMap s.pieces).foldl s.declareBlock ([], [])
  | .availableBitv bitmap => (((bitvTrue bitmap).flatMap (s.frontend t).blockNums).reverse, [])

end State

-- Counting a block, then the frontend's table for the chunk, out of its bounds
-- for a bitmap that is too long.
def countIntervals (t : Nat) : Intervals → Act Unit
  | .availableIntervals intervals => iterIntervals (fun p => modify (·.incrAvailability p.num)) intervals
  | .availableBitv bitmap =>
      forM (State.bitvTrue bitmap) fun j => do
        let s ← get
        check (j < (s.frontend t).blocksOfChunk.length) .invalidArgument
        forM ((s.frontend t).blockNums j) fun i => modify (·.incrAvailability i)

def setUploaderIntervals (up : Nat) (intervals : Intervals) : Act Unit := do
  let s ← get
  let u := s.uploader up
  if u.declared then pure ()
  else do
    countIntervals u.t intervals
    let lists := s.declaredBlocks u.t intervals
    modify (·.modifyUploader up fun u =>
      { u with
        intervals := intervals
        completeBlocks := lists.1
        ncomplete := lists.1.length
        partialBlocks := lists.2
        npartial := lists.2.length
        blocks := []
        declared := true })

def registerUploader (t : Nat) (intervals : Intervals) : Act Unit := do
  let s ← get
  modify fun s =>
    { s with
      uploaders := s.uploaders ++
        [{ t := t
           declared := false
           intervals := intervals
           completeBlocks := []
           ncomplete := 0
           partialBlocks := []
           npartial := 0
           blocks := []
           ranges := [] }] }
  setUploaderIntervals s.uploaders.length intervals

def updateUploaderIntervals (up : Nat) (intervals : Intervals) : Act Unit := do
  modify (·.clearUploaderIntervals up)
  setUploaderIntervals up intervals

namespace State

def unregisterUploader (s : State) (up : Nat) : State :=
  (s.clearUploaderIntervals up).clearUploaderRanges up

end State

-- An array read that raises outside the array's bounds.
def readAt {α : Type} (a : List α) (i : Nat) : Act α :=
  match a[i]? with
  | some x => pure x
  | none => throw .invalidArgument

-- The uploader_block for the whole of block record `b`.
def wholeBlock (s : State) (b : BlockId) : UploaderBlock :=
  ⟨b, (s.block b).blockBegin, (s.block b).blockEnd⟩

-- The nth block leaves the first ncomplete ones by changing places with the
-- last of them.
def permuteAndReturn (up n : Nat) : Act UploaderBlock := do
  let s ← get
  let u := s.uploader up
  check (n + 1 ≤ u.ncomplete) (.assertFailure .permuteAndReturn)
  let b ← readAt u.completeBlocks n
  let last ← readAt u.completeBlocks (u.ncomplete - 1)
  modify (·.modifyUploader up fun u =>
    { u with
      completeBlocks := (u.completeBlocks.set n last).set (u.ncomplete - 1) b
      ncomplete := u.ncomplete - 1 })
  match ← readAt s.blocks b with
  | .emptyBlock => do
      modify (·.newBlock b)
      let s' ← get
      return wholeBlock s' s.nextBlock
  | .partialBlock b => return wholeBlock s b
  | .verifiedBlock | .completeBlock => throw (.assertFailure .permuteAndReturn)

-- The walk down up_partial_blocks; `n` is up_npartial.
def linearSelectPartial (up : Nat) : Nat → Act (Nat × List UploaderBlock)
  | 0 => throw .notFound
  | n + 1 => do
      let s ← get
      let (b, blockBegin, blockEnd) ← readAt (s.uploader up).partialBlocks n
      modify (·.modifyUploader up fun u => { u with npartial := n })
      if (← readAt s.prioritiesBitmap b) = PRIORITY_ZERO then linearSelectPartial up n
      else do
        let chunk ← readAt (s.frontend (s.uploader up).t).chunkOfBlock b
        match ← readAt s.blocks b with
        | .completeBlock | .verifiedBlock => linearSelectPartial up n
        | .partialBlock b => return (chunk, [⟨b, blockBegin, blockEnd⟩])
        | .emptyBlock => do
            modify (·.newBlock b)
            return (chunk, [⟨s.nextBlock, blockBegin, blockEnd⟩])

-- The walk down up_complete_blocks; `n` is up_ncomplete.
def linearSelectComplete (up : Nat) : Nat → Act (Nat × List UploaderBlock)
  | 0 => do
      let s ← get
      linearSelectPartial up <| Uploader.npartial (s.uploader up)
  | n + 1 => do
      let s ← get
      let b ← readAt (s.uploader up).completeBlocks n
      modify (·.modifyUploader up fun u => { u with ncomplete := n })
      if (← readAt s.prioritiesBitmap b) = PRIORITY_ZERO then linearSelectComplete up n
      else do
        let chunk ← readAt (s.frontend (s.uploader up).t).chunkOfBlock b
        match ← readAt s.blocks b with
        | .completeBlock | .verifiedBlock => linearSelectComplete up n
        | .partialBlock b => return (chunk, [wholeBlock s b])
        | .emptyBlock => do
            modify (·.newBlock b)
            let s' ← get
            return (chunk, [wholeBlock s' s.nextBlock])

def linearSelectBlocks (up : Nat) : Act (Nat × List UploaderBlock) := do
  let s ← get
  linearSelectComplete up (s.uploader up).ncomplete

def isMissingOrPartial (c : PartState) : Bool := c = .stateMissing ∨ c = .statePartial

-- A complete block may be verified on the way.
def shouldDownloadBlock (fileVerify : FileVerify) (n : Nat) : Act Bool := do
  let s ← get
  match ← readAt s.verifiedBitmap n with
  | .stateMissing | .statePartial => return true
  | .stateComplete =>
      match s.networks with
      | [] => throw (.assertFailure .noFrontend)
      | t :: _ => do
          let j := t.chunkNum n
          if t.chunk j = .stateComplete then
            tryCatch (verifyChunk fileVerify 0 j) fun e =>
              match e with
              | .verifierNotReady => pure ()
              | e => throw e
          else pure ()
          let s ← get
          return isMissingOrPartial (s.bit n)
  | .stateVerified => return false

structure Choice where
  num : Nat
  block : Nat
  userPriority : Nat
  remaining : Int
  unselectedRemaining : Int
  preallocated : Bool
  deriving Repr

def dummyChoice : Choice := ⟨0, 0, 0, 0, 0, false⟩

-- The memo table of remaining_blocks_in_chunks: once computed, a count is not
-- computed again during the selection.
abbrev Memo := List (Nat × Nat)

-- What select_blocks computes before it looks at the blocks.
structure Selection where
  verificationAvailable : Bool
  severalFrontends : Bool
  meanAvailability : Nat
  dataPerSource : Int
  needToComplete : Bool

namespace State

-- The missing or partial blocks that share a chunk of some frontend with block
-- `i`, counted once for each frontend.
def remainingBlocks (s : State) (i : Nat) : Nat :=
  (s.networks.map fun t =>
    (t.blockNums (t.chunkNum i)).countP fun b => b ≠ i ∧ isMissingOrPartial (s.bit b)).sum

def remainingBlocksInChunks (s : State) (memo : Memo) (i : Nat) : Nat × Memo :=
  match memo.lookup i with
  | some n => (n, memo)
  | none => (s.remainingBlocks i, (i, s.remainingBlocks i) :: memo)

def choiceNuploaders (s : State) (c : Choice) : Nat := s.nuploading.getD c.block 0

def choiceAvailability (s : State) (c : Choice) : Nat := s.availability.getD c.block 0

def choiceSaturated (s : State) (sel : Selection) (c : Choice) : Bool :=
  c.unselectedRemaining ≤ s.choiceNuploaders c * sel.dataPerSource

end State

def compareInt (x y : Int) : Int := if x < y then -1 else if y < x then 1 else 0

def compareBool (x y : Bool) : Int :=
  match x, y with
  | true, false => 1
  | false, true => -1
  | _, _ => 0

-- The first test that tells the two choices apart decides.
def firstOf : List Int → Int
  | [] => 0
  | c :: l => if c ≠ 0 then c else firstOf l

namespace State

-- The tests of compare_choices before the one on the siblings.
def compareRules (s : State) (sel : Selection) (c1 c2 : Choice) : Int :=
  firstOf
    [ compareBool (c1.unselectedRemaining ≠ 0) (c2.unselectedRemaining ≠ 0),
      compareBool (s.choiceSaturated sel c2) (s.choiceSaturated sel c1),
      compareInt c1.userPriority c2.userPriority,
      if !sel.needToComplete ∧ sel.meanAvailability > 5 ∧
          (s.choiceAvailability c1 ≤ 3 ∨ s.choiceAvailability c2 ≤ 3) then
        compareInt (s.choiceAvailability c2) (s.choiceAvailability c1)
      else 0 ]

-- The tests after it.
def compareRest (c1 c2 : Choice) : Int :=
  firstOf
    [ compareInt c2.unselectedRemaining c1.unselectedRemaining,
      compareBool c1.preallocated c2.preallocated ]

-- Positive when `c1` is best, negative when `c2` is.
def compareChoices (s : State) (sel : Selection) (memo : Memo) (c1 c2 : Choice) : Int × Memo :=
  let cmp := s.compareRules sel c1 c2
  if cmp ≠ 0 then (cmp, memo)
  else if sel.verificationAvailable ∧ sel.severalFrontends then
    let (n1, memo) := s.remainingBlocksInChunks memo c1.block
    let (n2, memo) := s.remainingBlocksInChunks memo c2.block
    let cmp := compareInt n2 n1
    if cmp ≠ 0 then (cmp, memo) else (compareRest c1 c2, memo)
  else (compareRest c1 c2, memo)

end State

def createChoice (n b : Nat) : Act Choice := do
  let s ← get
  let size := s.computeBlockEnd b - s.computeBlockBegin b
  let (remaining, unselectedRemaining) := match s.blockAt b with
    | .emptyBlock => (size, size)
    | .partialBlock b => ((s.block b).remaining, (s.block b).unselectedRemaining)
    | .completeBlock | .verifiedBlock => (0, 0)
  let preallocated ← isFullyPreallocated (s.computeBlockBegin b) (s.computeBlockEnd b)
  return {
    num := n
    block := b
    userPriority := ← readAt s.prioritiesBitmap b
    remaining := remaining
    unselectedRemaining := unselectedRemaining
    preallocated := preallocated }

-- The best choice among the blocks of one chunk, starting from `acc`.
def chunkSpecimen (sel : Selection) (up : Nat) :
    List Nat → Choice → Memo → Act (Choice × Memo)
  | [], acc, memo => return (acc, memo)
  | n :: q, acc, memo => do
      let s ← get
      let choice ← createChoice n (← readAt (s.uploader up).completeBlocks n)
      check (choice.block < s.verifiedBitmap.length) (.assertFailure .remainingBlocksInChunks)
      let (cmp, memo) := s.compareChoices sel memo choice acc
      chunkSpecimen sel up q (if cmp ≤ 0 then acc else choice) memo

-- The chunks compared so far: the lists of indexes of the best ones, a choice
-- of one of them, and the memo table.
structure Best where
  choices : List (List Nat)
  specimen : Choice
  memo : Memo

def keepBestChunks (sel : Selection) (up : Nat) (chunkBlocks : List Nat) (best : Best) :
    Act Best :=
  match chunkBlocks with
  | [] => return best
  | h :: q => do
      let s ← get
      let first ← createChoice h (← readAt (s.uploader up).completeBlocks h)
      let (specimen, memo) ← chunkSpecimen sel up q first best.memo
      check (specimen.block < s.verifiedBitmap.length) (.assertFailure .remainingBlocksInChunks)
      let (cmp, memo) := s.compareChoices sel memo specimen best.specimen
      return (
        if cmp < 0 then { best with memo := memo }
        else if 0 < cmp then ⟨[chunkBlocks], specimen, memo⟩
        else { best with choices := chunkBlocks :: best.choices, memo := memo })

-- The accumulator of the fold over the uploader's complete blocks: the chunk
-- being collected (none for -1), its indexes, and the best chunks before it.
structure Scan where
  chunkNum : Option Nat
  chunkBlocks : List Nat
  best : Best

def scanBlock (fileVerify : FileVerify) (sel : Selection) (up : Nat) (acc : Scan) (n b : Nat) :
    Act Scan := do
  let s ← get
  if (← readAt s.prioritiesBitmap b) = PRIORITY_ZERO then return acc
  else if !(← shouldDownloadBlock fileVerify b) then return acc
  else do
    let s ← get
    let chunkNum ← readAt (s.frontend (s.uploader up).t).chunkOfBlock b
    if some chunkNum = acc.chunkNum then
      return { acc with chunkBlocks := n :: acc.chunkBlocks }
    else
      match acc.chunkBlocks with
      | [] => return { acc with chunkNum := some chunkNum, chunkBlocks := [n] }
      | _ :: _ => do
          let best ← keepBestChunks sel up acc.chunkBlocks acc.best
          return ⟨some chunkNum, [n], best⟩

-- Array2.subarray_fold_lefti over the array's indexes from 0 to `last`.
def subarrayFoldLefti {β : Type} (f : β → Nat → Nat → Act β) (x : β) (a : List Nat) (last : Int) :
    Act β := do
  check (0 < a.length) (.assertFailure .subarrayFoldLefti)
  check (0 ≤ last ∧ last < a.length) (.assertFailure .subarrayFoldLefti)
  (List.range (last.toNat + 1)).foldlM (fun r i => f r i (a.getD i 0)) x

-- The best chunk's blocks, or Not_found without one.
def selectBestBlocks (fileVerify : FileVerify) (sel : Selection) (random : Nat → Nat) (up : Nat) :
    Act (Nat × List UploaderBlock) := do
  let s ← get
  let u := s.uploader up
  let scan ← subarrayFoldLefti (scanBlock fileVerify sel up) ⟨none, [], ⟨[], dummyChoice, []⟩⟩
    u.completeBlocks ((u.ncomplete : Int) - 1)
  let best ← keepBestChunks sel up scan.chunkBlocks scan.best
  tryCatch (do
      let blocks ← (match best.choices with
        | [] => throw .notFound
        | [choice] => pure choice
        | choices => pure (choices.getD (random choices.length % choices.length) []) :
          Act (List Nat))
      let s ← get
      let chunk ← (match blocks with
        | [] => throw (.assertFailure .selectBlocks)
        | n :: _ => do
            readAt (s.frontend u.t).chunkOfBlock (← readAt (s.uploader up).completeBlocks n) :
          Act Nat)
      return (chunk, ← blocks.mapM (permuteAndReturn up)))
    fun e =>
      match e with
      | .notFound => linearSelectBlocks up
      | e => throw e

def selectBlocks (fileVerify : FileVerify) (sourcesPerChunk : Int) (random : Nat → Nat) (up : Nat) :
    Act (Nat × List UploaderBlock) := do
  let s ← get
  match s.strategy with
  | .linearStrategy => linearSelectBlocks up
  | .advancedStrategy => do
      let u := s.uploader up
      let t := s.frontend u.t
      check (¬(u.ncomplete = 0 ∧ u.npartial = 0)) .notFound
      check (s.blocks.length ≠ 0) .divisionByZero
      check (sourcesPerChunk ≠ 0) .divisionByZero
      let myT := if t.verifier ≠ .noVerification then t else s.frontend 0
      let verificationAvailable := decide (myT.verifier ≠ .noVerification)
      selectBestBlocks fileVerify
        { verificationAvailable := verificationAvailable
          severalFrontends := 1 < s.networks.length
          meanAvailability := s.availability.sum / s.blocks.length
          dataPerSource := Int.tdiv 9728000 sourcesPerChunk
          needToComplete := verificationAvailable ∧ t.nverifiedChunks < 2 } random up

-- The files whose blocks find_blocks and find_range hand out.
def FileState.downloads : FileState → Bool
  | .fileDownloading | .fileQueued => true
  | _ => false

def findBlocks (fileVerify : FileVerify) (sourcesPerChunk : Int) (random : Nat → Nat) (up : Nat) :
    Act (Nat × List UploaderBlock) := do
  let s ← get
  check ((s.file (s.uploader up).t).state.downloads = true) .notFound
  modify (·.clearUploaderBlocks up)
  let (chunk, blocks) ← selectBlocks fileVerify sourcesPerChunk random up
  modify fun s => blocks.foldl (fun s b => s.incrNuploading (s.block b.block).num) s
  modify (·.modifyUploader up fun u => { u with blocks := blocks })
  return (chunk, blocks)

end Mldonkey.Swarming
