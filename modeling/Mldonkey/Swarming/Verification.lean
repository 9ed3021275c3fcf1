import Mldonkey.Swarming.Blocks

namespace Mldonkey.Swarming

open Effects

namespace Store

-- The part of `b` that a range covers is no longer missing; the range is void.
def closeRange (s : Store) (b : BlockId) (r : RangeId) : Store :=
  let added := s.computeRangeSize r
  (s.modifyBlock b fun x =>
    { x with
      remaining := x.remaining - added
      unselectedRemaining :=
        if (s.range r).nuploading = 0 then x.unselectedRemaining - added
        else x.unselectedRemaining }).modifyRange r fun x => { x with rangeBegin := x.rangeEnd }

end Store

namespace Frontend

def chunk (t : Frontend) (j : Nat) : PartState := VB.get t.convertedVerifiedBitmap j

def setChunk (t : Frontend) (j : Nat) (c : PartState) : Frontend :=
  { t with convertedVerifiedBitmap := VB.set t.convertedVerifiedBitmap j c }

-- t_chunk_of_block.(i) and t_blocks_of_chunk.(j)
def chunkNum (t : Frontend) (i : Nat) : Nat := t.chunkOfBlock.getD i 0

def blockNums (t : Frontend) (j : Nat) : List Nat := t.blocksOfChunk.getD j []

end Frontend

namespace State

def frontend (s : State) (k : Nat) : Frontend := s.networks.getD k default

def file (s : State) (k : Nat) : File := s.files.getD k default

def bit (s : State) (i : Nat) : PartState := VB.get s.verifiedBitmap i

def setBit (s : State) (i : Nat) (c : PartState) : State :=
  { s with verifiedBitmap := VB.set s.verifiedBitmap i c }

def modifyFrontend (s : State) (k : Nat) (f : Frontend → Frontend) : State :=
  { s with networks := s.networks.modify k f }

def modifyFile (s : State) (k : Nat) (f : File → File) : State :=
  { s with files := s.files.modify k f }

def withStore (s : State) (f : Store → Store) : State := { s with toStore := f s.toStore }

-- List.for_all (fun i -> VB.get s.s_verified_bitmap i = c) t.t_blocks_of_chunk.(j)
def allBlocks (s : State) (t : Frontend) (j : Nat) (c : PartState) : Bool :=
  (t.blockNums j).all fun i => s.bit i = c

-- The primary's file, and that of `maybeT` if it is another frontend.
def addFileDownloaded (s : State) (maybeT : Option Nat) (n : Int) : State :=
  let add := fun f : File => { f with downloaded := f.downloaded + n }
  match maybeT with
  | some (k + 1) => (s.modifyFile 0 add).modifyFile (k + 1) add
  | _ => s.modifyFile 0 add

-- Close one range of block `b`.
def closeRange (maybeT : Option Nat) (b : BlockId) (s : State) (r : RangeId) : State :=
  (s.addFileDownloaded maybeT (s.computeRangeSize r)).withStore (·.closeRange b r)

-- Every range loses its links; block_ranges still names the first.
def closeBlockRanges (s : State) (maybeT : Option Nat) (b : BlockId) : State :=
  ((s.block b).ranges.foldl (closeRange maybeT b) s).withStore fun st =>
    st.modifyBlock b fun x => { x with ranges := x.ranges.take 1 }

def setSwarmerStateMissing (s : State) (i : Nat) : State :=
  match s.bit i with
  | .stateComplete | .stateVerified =>
      let s := s.setBit i .stateMissing
      { s with networks := s.networks.map fun t =>
          match t.chunk (t.chunkNum i) with
          | .statePartial =>
              if s.allBlocks t (t.chunkNum i) .stateMissing then
                t.setChunk (t.chunkNum i) .stateMissing
              else t
          | _ => t }
  | .stateMissing | .statePartial => s

def setSwarmerStatePartial (s : State) (i : Nat) : State :=
  match s.bit i with
  | .stateMissing =>
      let s := s.setBit i .statePartial
      { s with networks := s.networks.map fun t =>
          match t.chunk (t.chunkNum i) with
          | .stateMissing => t.setChunk (t.chunkNum i) .statePartial
          | _ => t }
  | _ => s

-- Only the primary's chunk may follow.
def setSwarmerStateComplete (s : State) (i : Nat) : State :=
  match s.bit i with
  | .stateMissing | .statePartial =>
      let s := s.setBit i .stateComplete
      s.modifyFrontend 0 fun t =>
        match t.chunk (t.chunkNum i) with
        | .stateMissing | .statePartial =>
            if s.allBlocks t (t.chunkNum i) .stateComplete then
              { t.setChunk (t.chunkNum i) .stateComplete with
                ncompleteChunks := t.ncompleteChunks + 1 }
            else t
        | .stateComplete | .stateVerified => t
  | .stateComplete => s
  | .stateVerified =>
      (s.setBit i .stateComplete).modifyFrontend 0 fun t =>
        match t.chunk (t.chunkNum i) with
        | .stateVerified =>
            { t.setChunk (t.chunkNum i) .stateComplete with
              nverifiedChunks := t.nverifiedChunks - 1 }
        | _ => t

-- What a secondary does when one of its blocks was verified by the primary.
def verifySecondary (s : State) (i : Nat) (t : Frontend) : Frontend :=
  let j := t.chunkNum i
  if s.allBlocks t j .stateVerified then
    match t.verifier with
    | .noVerification | .verificationNotAvailable =>
        match t.chunk j with
        | .stateMissing | .statePartial =>
            { t.setChunk j .stateVerified with
              ncompleteChunks := t.ncompleteChunks + 1
              nverifiedChunks := t.nverifiedChunks + 1 }
        | .stateComplete =>
            { t.setChunk j .stateVerified with nverifiedChunks := t.nverifiedChunks + 1 }
        | .stateVerified => t
    | .forceVerification | .verification _ =>
        match t.chunk j with
        | .stateMissing | .statePartial =>
            { t.setChunk j .stateComplete with ncompleteChunks := t.ncompleteChunks + 1 }
        | .stateComplete | .stateVerified => t
  else t

def verifySecondaries (s : State) (i : Nat) : State :=
  { s with networks := s.networks.take 1 ++ (s.networks.drop 1).map (s.verifySecondary i) }

def setCompletedBlock (s : State) (maybeT : Option Nat) (i : Nat) : State :=
  match s.blockAt i with
  | .completeBlock | .verifiedBlock => s
  | .emptyBlock =>
      ((s.addFileDownloaded maybeT (s.computeBlockEnd i - s.computeBlockBegin i)
        ).setSwarmerStateComplete i).withStore (·.setBlockAt i .completeBlock)
  | .partialBlock b =>
      ((s.closeBlockRanges maybeT b).setSwarmerStateComplete i).withStore
        (·.setBlockAt i .completeBlock)

def mustVerifyBlock (s : State) (i : Nat) : State := s.setSwarmerStateComplete i

-- The bitmap is read character by character while the loop changes it.
def verifyAllChunks (s : State) : State :=
  (List.range s.verifiedBitmap.length).foldl (fun s i =>
    match s.bit i with
    | .stateVerified => s.mustVerifyBlock i
    | .stateMissing =>
        (s.addFileDownloaded none (s.computeBlockEnd i - s.computeBlockBegin i)).mustVerifyBlock i
    | .statePartial | .stateComplete => s) s

def setFrontendStateComplete (s : State) (k j : Nat) : State :=
  match (s.frontend k).chunk j with
  | .stateMissing | .statePartial =>
      ((s.frontend k).blockNums j).foldl (fun s i => s.setCompletedBlock none i) s
  | .stateComplete | .stateVerified => s

end State

def setSwarmerStateVerified (i : Nat) : Act Unit := do
  match (← get).bit i with
  | .stateVerified => pure ()
  | _ => do
      modify (·.setBit i .stateVerified)
      let s ← get
      match s.networks with
      | [] => throw (.assertFailure .noFrontend)
      | tprim :: _ =>
          match tprim.verifier with
          | .noVerification | .verificationNotAvailable => pure ()
          | .forceVerification | .verification _ => do
              check (tprim.chunk (tprim.chunkNum i) = .stateVerified)
                (.assertFailure .setSwarmerStateVerified)
              modify (·.verifySecondaries i)

def setVerifiedBlock (i : Nat) : Act Unit := do
  match (← get).blockAt i with
  | .verifiedBlock => pure ()
  | _ => do
      modify (·.setCompletedBlock none i)
      modify (·.withStore (·.setBlockAt i .verifiedBlock))
      setSwarmerStateVerified i

-- The reset of one block of a chunk that failed its verification.
def resetBlock (i : Nat) : Act Unit := do
  let s ← get
  match s.blockAt i with
  | .emptyBlock => modify (·.setSwarmerStateMissing i)
  | .partialBlock _ => modify (·.setSwarmerStatePartial i)
  | .completeBlock => do
      modify (·.addFileDownloaded none (s.computeBlockBegin i - s.computeBlockEnd i))
      modify (·.withStore (·.setBlockAt i .emptyBlock))
      modify (·.setSwarmerStateMissing i)
  | .verifiedBlock => throw (.assertFailure .setFrontendStateMissing)

def setFrontendStateMissing (k j : Nat) : Act Unit := do
  let s ← get
  let t := s.frontend k
  check (t.chunk j = .stateComplete) (.assertFailure .setFrontendStateMissing)
  check (∀ i ∈ t.blockNums j, s.bit i ≠ .stateVerified) (.assertFailure .setFrontendStateMissing)
  modify (·.modifyFrontend k fun t => { t with ncompleteChunks := t.ncompleteChunks - 1 })
  if s.allBlocks t j .stateComplete then do
    modify (·.modifyFrontend k (·.setChunk j .stateMissing))
    forM (t.blockNums j) resetBlock
  else
    modify (·.modifyFrontend k (·.setChunk j .statePartial))

-- Only the primary hands its verified chunks on to the blocks.
def markVerified (k j : Nat) : Act Unit := do
  modify (·.modifyFrontend k (·.setChunk j .stateVerified))
  if k = 0 then do
    let s ← get
    forM ((s.frontend k).blockNums j) setVerifiedBlock
  else pure ()

def setFrontendStateVerified (k j : Nat) : Act Unit := do
  match ((← get).frontend k).chunk j with
  | .stateMissing | .statePartial => do
      modify (·.modifyFrontend k fun t =>
        { t with
          ncompleteChunks := t.ncompleteChunks + 1
          nverifiedChunks := t.nverifiedChunks + 1 })
      markVerified k j
  | .stateComplete => do
      modify (·.modifyFrontend k fun t => { t with nverifiedChunks := t.nverifiedChunks + 1 })
      markVerified k j
  | .stateVerified => pure ()

-- A bitmap longer than the frontend's raises at its first set character past
-- the end, where the frontend's own character is read.
def setChunksVerifiedBitmap (k : Nat) (bitmap : VerificationBitmap) : Act Unit :=
  forM (List.range bitmap.length) fun j =>
    match VB.get bitmap j with
    | .stateMissing | .statePartial => pure ()
    | .stateComplete => do
        let s ← get
        check (j < (s.frontend k).convertedVerifiedBitmap.length) .invalidArgument
        modify (·.setFrontendStateComplete k j)
    | .stateVerified => do
        let s ← get
        check (j < (s.frontend k).convertedVerifiedBitmap.length) .invalidArgument
        setFrontendStateVerified k j

-- What file_verify answers for a hash and the bytes from one offset to another.
abbrev FileVerify := Uid → Int → Int → Except VerifyError Bool

-- The branch of verify_chunk for one hash for each chunk.
def verifyOneHash (fileVerify : FileVerify) (k j : Nat) (uids : List Uid) : Act Unit := do
  let s ← get
  let t := s.frontend k
  let chunkBegin := t.chunkSize * j
  let chunkEnd := min (chunkBegin + t.chunkSize) s.size
  match fileVerify (uids.getD j []) chunkBegin chunkEnd with
  | .ok true => setFrontendStateVerified k j
  | .ok false => setFrontendStateMissing k j
  | .error .verifierNotReady => pure ()
  | .error e => throw e.exn

-- The branch of verify_chunk for one hash for the whole file.
def verifyWholeFile (fileVerify : FileVerify) (k : Nat) (uid : Uid) : Act Unit := do
  let s ← get
  let t := s.frontend k
  let chunks := List.range t.convertedVerifiedBitmap.length
  if t.convertedVerifiedBitmap.all fun c => c = .stateComplete ∨ c = .stateVerified then
    match fileVerify uid 0 s.size with
    | .ok true => forM chunks (setFrontendStateVerified k)
    | .ok false =>
        forM chunks fun j => do
          let s ← get
          if (s.frontend k).chunk j = .stateComplete then setFrontendStateMissing k j
          else pure ()
    | .error .verifierNotReady => pure ()
    | .error e => throw e.exn
  else pure ()

def verifyChunk (fileVerify : FileVerify) (k j : Nat) : Act Unit := do
  let s ← get
  let t := s.frontend k
  if t.chunk j = .stateComplete then
    match t.verifier with
    | .noVerification | .verificationNotAvailable => pure ()
    | .forceVerification => setFrontendStateVerified k j
    | .verification uids =>
        if uids.length = t.convertedVerifiedBitmap.length then
          verifyOneHash fileVerify k j uids
        else do
          check (uids.length = 1) (.assertFailure .verifyChunk)
          verifyWholeFile fileVerify k (uids.getD 0 [])
  else pure ()

def verifyAllChunksImmediately (fileVerify : FileVerify) (k : Nat) : Act Unit := do
  modify State.verifyAllChunks
  let s ← get
  forM (List.range (s.frontend k).convertedVerifiedBitmap.length) (verifyChunk fileVerify k)

def computeBitmap (fileVerify : FileVerify) (k : Nat) : Act Unit := do
  let s ← get
  let t := s.frontend k
  if t.nverifiedChunks < t.ncompleteChunks then
    forM (List.range t.convertedVerifiedBitmap.length) fun j => do
      let s ← get
      if (s.frontend k).chunk j = .stateComplete then verifyChunk fileVerify k j
      else pure ()
  else pure ()

-- The first frontend with a complete chunk gets its first one verified.
def verifyOneChunk (fileVerify : FileVerify) : Act Unit := do
  let s ← get
  match (List.range s.networks.length).findSome? fun k =>
      ((List.range (s.frontend k).convertedVerifiedBitmap.length).find? fun j =>
        (s.frontend k).chunk j = .stateComplete).map (k, ·) with
  | some (k, j) => verifyChunk fileVerify k j
  | none => pure ()

namespace Store

-- The PartialBlock that new_block puts at `i`: one range covers it.
def addBlock (s : Store) (i : Nat) : Store :=
  let blockBegin := s.computeBlockBegin i
  let blockEnd := s.computeBlockEnd i
  ((s.allocRange ⟨s.nextBlock, blockBegin, blockEnd, 0⟩).allocBlock
    { num := i
      blockBegin := blockBegin
      blockEnd := blockEnd
      ranges := [s.nextRange]
      remaining := blockEnd - blockBegin
      unselectedRemaining := blockEnd - blockBegin }).setBlockAt i (.partialBlock s.nextBlock)

-- The part of range_received that moves the beginning of a range.
def advanceRange (s : Store) (r : RangeId) (newBegin : Int) : Store :=
  let old := s.range r
  let downloaded := newBegin - old.rangeBegin
  (s.modifyBlock old.block fun x =>
    { x with
      remaining := x.remaining - downloaded
      unselectedRemaining :=
        if old.nuploading = 0 then x.unselectedRemaining - downloaded
        else x.unselectedRemaining }).modifyRange r fun x => { x with rangeBegin := newBegin }

end Store

namespace State

def newBlock (s : State) (i : Nat) : State :=
  let s := s.withStore (·.addBlock i)
  if s.bit i = .stateMissing then s.setSwarmerStatePartial i else s

def advanceRange (s : State) (maybeT : Option Nat) (r : RangeId) (newBegin : Int) : State :=
  (s.addFileDownloaded maybeT (newBegin - (s.range r).rangeBegin)).withStore
    (·.advanceRange r newBegin)

end State

-- The last range of its block was completed.
def blockReceived (num : Nat) : Act Unit := do
  let s ← get
  match s.blockAt num with
  | .partialBlock _ | .emptyBlock =>
      match s.networks with
      | [] => throw (.assertFailure .noFrontend)
      | t :: _ =>
          match t.verifier with
          | .noVerification => setVerifiedBlock num
          | _ => do
              modify (·.setCompletedBlock (some 0) num)
              modify (·.mustVerifyBlock num)
  | .completeBlock | .verifiedBlock => pure ()

-- A range outside its block's list has no links, as the last one in the list.
def rangeReceived (maybeT : Option Nat) (r : RangeId) (intervalBegin intervalEnd : Int) :
    Act Unit := do
  let s ← get
  let old := s.range r
  if intervalBegin ≤ old.rangeBegin ∧ old.rangeBegin < intervalEnd then do
    let newBegin := max (min intervalEnd old.rangeEnd) old.rangeBegin
    modify (·.advanceRange maybeT r newBegin)
    if newBegin = old.rangeEnd then
      let b := s.block old.block
      if r ∈ b.ranges ∧ b.ranges ≠ [r] then
        modify (·.withStore (·.modifyBlock old.block fun x => { x with ranges := x.ranges.erase r }))
      else blockReceived b.num
    else pure ()
  else pure ()

-- iter_block_ranges reads the link to the next range before it visits one, so
-- neither loop visits a range that it creates.
def setPresentBlock (b : BlockId) (intervalBegin intervalEnd : Int) : Act Unit := do
  modify fun s => (s.block b).ranges.foldl
    (fun s r => s.withStore (·.splitRange r intervalBegin)) s
  let s ← get
  forM (s.block b).ranges fun r => rangeReceived none r intervalBegin intervalEnd

def setPresentPiece (p : Store.Piece) : Act Unit := do
  let s ← get
  match s.blockAt p.num with
  | .emptyBlock =>
      if p.intervalBegin ≤ p.blockBegin ∧ p.blockEnd ≤ p.intervalEnd then do
        modify (·.withStore (·.setBlockAt p.num .completeBlock))
        modify (·.mustVerifyBlock p.num)
        modify (·.addFileDownloaded none (p.blockEnd - p.blockBegin))
      else do
        modify (·.newBlock p.num)
        setPresentBlock s.nextBlock p.intervalBegin p.intervalEnd
  | .partialBlock b => setPresentBlock b p.intervalBegin p.intervalEnd
  | .completeBlock | .verifiedBlock => pure ()

-- The disk blocks from one offset to another, as iter_disk_space visits them.
def diskBlocks (intervalBegin intervalEnd : Int) : Act (List Nat) := do
  let s ← get
  if intervalBegin < intervalEnd then do
    check (0 ≤ intervalBegin ∧ intervalBegin < s.size) (.assertFailure .iterDiskSpace)
    check (0 ≤ intervalEnd - 1 ∧ intervalEnd - 1 < s.size) (.assertFailure .iterDiskSpace)
    let first := (intervalBegin.tdiv s.diskAllocationBlockSize).toNat
    let last := ((intervalEnd - 1).tdiv s.diskAllocationBlockSize).toNat
    return List.range' first (last + 1 - first)
  else return []

def setDiskAllocated (n : Nat) : Act Unit := do
  let s ← get
  check (n < s.diskAllocated.length) .invalidArgument
  modify fun s => { s with diskAllocated := s.diskAllocated.set n true }

def markDiskSpacePreallocated (intervalBegin intervalEnd : Int) : Act Unit := do
  forM (← diskBlocks intervalBegin intervalEnd) setDiskAllocated

-- Copying a disk block over itself changes no byte; `copyChunk` says for which
-- ones it works.
def preallocateDiskSpace (copyChunk : Nat → Bool) (intervalBegin intervalEnd : Int) :
    Act Unit := do
  forM (← diskBlocks intervalBegin intervalEnd) fun n => do
    let s ← get
    check (n < s.diskAllocated.length) .invalidArgument
    check (s.diskAllocated.getD n false ∨ copyChunk n) .unixError
    setDiskAllocated n

def allDiskAllocated : List Nat → Act Bool
  | [] => return true
  | n :: l => do
      let s ← get
      check (n < s.diskAllocated.length) .invalidArgument
      if s.diskAllocated.getD n false then allDiskAllocated l else return false

def isFullyPreallocated (intervalBegin intervalEnd : Int) : Act Bool := do
  allDiskAllocated (← diskBlocks intervalBegin intervalEnd)

def setPresent (intervals : List (Int × Int)) : Act Unit := do
  iterIntervals setPresentPiece intervals
  let s ← get
  match s.networks with
  | [] => throw (.assertFailure .noFrontend)
  | _ :: _ => forM intervals fun i => markDiskSpacePreallocated i.1 i.2

def complementary (acc : List (Int × Int)) (setBegin setEnd : Int) :
    List (Int × Int) → List (Int × Int)
  | [] => (if setBegin = setEnd then acc else (setBegin, setEnd) :: acc).reverse
  | interval :: others =>
      complementary (if setBegin = interval.1 then acc else (setBegin, interval.1) :: acc)
        interval.2 setEnd others

def setAbsent (listAbsent : List (Int × Int)) : Act Unit := do
  let s ← get
  setPresent (complementary [] 0 s.size listAbsent)

end Mldonkey.Swarming
