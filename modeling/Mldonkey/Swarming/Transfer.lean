import Mldonkey.Swarming.Select
import Mldonkey.Lib.Runs

namespace Mldonkey.Swarming

open Effects

-- `ranges` is in reverse order; a dummy cluster has none.
structure Cluster where
  ranges : List RangeId
  nuploading : Nat
  size : Int
  deriving Repr

def dummyRangesCluster : Cluster := ⟨[], 0, 0⟩

namespace State

def inUploaderRanges (r : RangeId) (list : List (Int × Int × RangeId)) : Bool :=
  list.any fun key => key.2.2 = r

def correctRange (s : State) (u : Uploader) (b : UploaderBlock) (r : RangeId) : Bool :=
  !inUploaderRanges r u.ranges &&
    (s.range r).rangeBegin < (s.range r).rangeEnd &&
    b.blockBegin ≤ (s.range r).rangeBegin &&
    (s.range r).rangeBegin < b.blockEnd

-- iter_cluster: `r` and the adjacent unselected ranges after it, until the
-- cluster is as large as asked for.
def iterCluster (s : State) (u : Uploader) (b : UploaderBlock) (rangeSize : Int) (r : RangeId)
    (rest : List RangeId) (cluster : Cluster) : Cluster :=
  let cluster := { cluster with
    ranges := r :: cluster.ranges
    size := cluster.size + s.computeRangeSize r }
  if rangeSize ≤ cluster.size then cluster
  else
    match rest with
    | [] => cluster
    | rr :: rest =>
        if (s.range rr).rangeBegin = (s.range r).rangeEnd && s.correctRange u b rr &&
            (s.range rr).nuploading = 0 then
          iterCluster s u b rangeSize rr rest cluster
        else cluster

-- The cluster that starts at `r`, if it is at least as good as `acc`.
def bestCluster (s : State) (u : Uploader) (b : UploaderBlock) (rangeSize : Int) (acc : Cluster)
    (r : RangeId) (rest : List RangeId) : Cluster :=
  if s.correctRange u b r then
    let cluster := s.iterCluster u b rangeSize r rest
      { dummyRangesCluster with nuploading := (s.range r).nuploading }
    if acc.ranges = [] then cluster
    else if acc.nuploading < cluster.nuploading then acc
    else cluster
  else acc

-- The walk along the ranges of one block; a cluster without uploaders ends the
-- whole search.
def searchRanges (s : State) (u : Uploader) (b : UploaderBlock) (rangeSize : Int) :
    Cluster → List RangeId → Cluster × Bool
  | acc, [] => (acc, false)
  | acc, r :: rest =>
      let best := s.bestCluster u b rangeSize acc r rest
      if best.ranges ≠ [] ∧ best.nuploading = 0 then (best, true)
      else searchRanges s u b rangeSize best rest

-- The block returned is the last one that was searched.
def searchBlocks (s : State) (u : Uploader) (rangeSize : Int) (acc : Cluster) (b : UploaderBlock)
    (moreBlocks : List UploaderBlock) : UploaderBlock × Cluster :=
  let (best, found) := s.searchRanges u b rangeSize acc (s.block b.block).ranges
  if found then (b, best)
  else
    match moreBlocks with
    | [] => (b, best)
    | b :: moreBlocks => searchBlocks s u rangeSize best b moreBlocks

end State

namespace Store

def canMerge (s : Store) (r r2 : RangeId) : Bool :=
  s.rangeNext r = some r2 && (s.range r2).rangeBegin ≤ (s.range r).rangeEnd &&
    (s.range r2).nuploading = 0

-- `r` takes over the range after it.
def mergeRanges (s : Store) (r r2 : RangeId) : Store :=
  (s.modifyBlock (s.range r).block fun x => { x with ranges := x.ranges.erase r2 }).modifyRange r
    fun x => { x with rangeEnd := (s.range r2).rangeEnd }

-- List.for_all stops at the first range that does not merge.
def mergeAll (r : RangeId) (s : Store) : List RangeId → Store
  | [] => s
  | r2 :: q => if s.canMerge r r2 then mergeAll r (s.mergeRanges r r2) q else s

-- One more uploader selects the range.
def addUploader (s : Store) (r : RangeId) : Store :=
  (if (s.range r).nuploading = 0 then
    s.modifyBlock (s.range r).block fun x =>
      { x with unselectedRemaining := x.unselectedRemaining - s.computeRangeSize r }
  else s).modifyRange r fun x => { x with nuploading := x.nuploading + 1 }

end Store

namespace State

-- The range is given to the uploader.
def selectRange (s : State) (up : Nat) (r : RangeId) : State :=
  let old := s.range r
  (s.modifyUploader up fun u =>
    { u with ranges := u.ranges ++ [(old.rangeBegin, old.rangeEnd, r)] }).withStore (·.addUploader r)

-- What find_range does with the ranges of the cluster it picked.
def takeCluster (s : State) (up : Nat) (r : RangeId) (q : List RangeId) (rangeSize : Int)
    (blockEnd : Int) : State :=
  let s := s.withStore (Store.mergeAll r · q)
  let s := s.withStore (·.splitRange r (min ((s.range r).rangeBegin + rangeSize) blockEnd))
  s.selectRange up r

end State

-- Is there something better among the uploader's blocks that are not selected?
def checkOtherBlocks (fileVerify : FileVerify) (u : Uploader) : List Nat → Act Unit
  | [] => pure ()
  | i :: l => do
      let block ← readAt u.completeBlocks i
      let s ← get
      if u.blocks.any fun b => (s.block b.block).num = block then checkOtherBlocks fileVerify u l
      else if (← readAt s.prioritiesBitmap block) ≠ PRIORITY_ZERO then do
        if ← shouldDownloadBlock fileVerify block then do
          let s ← get
          match ← readAt s.blocks block with
          | .emptyBlock => throw .notFound
          | .completeBlock | .verifiedBlock => checkOtherBlocks fileVerify u l
          | .partialBlock b =>
              if 0 < (s.block b).unselectedRemaining then throw .notFound
              else checkOtherBlocks fileVerify u l
        else checkOtherBlocks fileVerify u l
      else checkOtherBlocks fileVerify u l

-- The end of find_range: the uploader gets the cluster that was picked.
def pickCluster (up : Nat) (rangeSize blockEnd : Int) (ranges : List RangeId) :
    Act (Int × Int × RangeId) :=
  match ranges with
  | [] => throw .notFound
  | r :: q => do
      modify (·.takeCluster up r q rangeSize blockEnd)
      let s ← get
      return ((s.range r).rangeBegin, (s.range r).rangeEnd, r)

def findRange (fileVerify : FileVerify) (up : Nat) (rangeSize : Int) :
    Act (Int × Int × RangeId) := do
  modify (·.removeCompletedUploaderRanges up)
  let s ← get
  let u := s.uploader up
  match u.blocks with
  | [] => throw .notFound
  | b :: moreBlocks => do
      let file := s.file u.t
      check (file.state.downloads = true) .notFound
      let (bestBlock, best) := s.searchBlocks u rangeSize dummyRangesCluster b moreBlocks
      if best.ranges ≠ [] ∧ 0 < best.nuploading ∧ file.downloaded < (file.size * 98).tdiv 100 then
        checkOtherBlocks fileVerify u (List.range u.ncomplete)
      else pure ()
      pickCluster up rangeSize bestBlock.blockEnd best.ranges.reverse

-- Whether copying a disk block and writing at an offset work.
structure Disk where
  copyChunk : Nat → Bool
  write : Int → Bool

def fileWrite (disk : Disk) (offset : Int) (bytes : List UInt8) : Act Unit := do
  check (disk.write offset) .unixError
  modify fun s => { s with written := s.written ++ [⟨offset, bytes⟩] }

-- The data for one of the uploader's ranges. `fileBegin` is where the peer says
-- the data begins, `fileEnd` the clipped end.
def receivedRange (disk : Disk) (t : Nat) (fileBegin fileEnd : Int) (str : List UInt8)
    (stringBegin : Nat) (r : RangeId) : Act Unit := do
  let s ← get
  let rangeBegin := (s.range r).rangeBegin
  if fileBegin ≤ rangeBegin ∧ rangeBegin < fileEnd then
    let fileEnd := min fileEnd (s.range r).rangeEnd
    let stringPos := stringBegin + (rangeBegin - fileBegin).toNat
    let stringLength := (fileEnd - rangeBegin).toNat
    if 0 < stringLength then
      match s.networks with
      | [] => throw (.assertFailure .noFrontend)
      | _ :: _ => do
          tryCatch (preallocateDiskSpace disk.copyChunk rangeBegin fileEnd) fun _ => pure ()
          fileWrite disk rangeBegin ((str.drop stringPos).take stringLength)
          rangeReceived (some t) r rangeBegin fileEnd
    else pure ()
  else pure ()

-- The peer chooses `fileBegin`, so the end of its data may wrap around.
def received (disk : Disk) (up : Nat) (fileBegin : Int64) (str : List UInt8)
    (stringBegin stringLen : Nat) : Act Unit := do
  check (stringBegin + stringLen ≤ str.length) (.assertFailure .received)
  if 0 < stringLen then do
    let s ← get
    let u := s.uploader up
    let fileEnd := min (fileBegin + Int64.ofNat stringLen).toInt s.size
    if (s.file u.t).state = .fileDownloading then
      tryCatch (do
          forM u.ranges fun key =>
            receivedRange disk u.t fileBegin.toInt fileEnd str stringBegin key.2.2
          modify (·.removeCompletedUploaderRanges up))
        fun e => do
          modify (·.removeCompletedUploaderRanges up)
          throw e
    else pure ()
  else pure ()

open Runs

-- What the networks and their clients ask of a swarmer, with the answers of
-- file_verify, the disk and the random generator during the call.
inductive Op
  | setPresent (intervals : List (Int × Int))
  | setAbsent (listAbsent : List (Int × Int))
  | registerUploader (t : Nat) (intervals : Intervals)
  | updateUploaderIntervals (up : Nat) (intervals : Intervals)
  | clearUploaderIntervals (up : Nat)
  | clearUploaderRanges (up : Nat)
  | unregisterUploader (up : Nat)
  | findBlocks (fileVerify : FileVerify) (sourcesPerChunk : Int) (random : Nat → Nat) (up : Nat)
  | findRange (fileVerify : FileVerify) (up : Nat) (rangeSize : Int)
  | received (disk : Disk) (up : Nat) (fileBegin : Int64) (str : List UInt8)
      (stringBegin stringLen : Nat)
  | verifyChunk (fileVerify : FileVerify) (k j : Nat)
  | verifyOneChunk (fileVerify : FileVerify)
  | computeBitmap (fileVerify : FileVerify) (k : Nat)
  | verifyAllChunks
  | verifyAllChunksImmediately (fileVerify : FileVerify) (k : Nat)
  | setChunksVerifiedBitmap (k : Nat) (bitmap : VerificationBitmap)
  | setVerifier (k : Nat) (f : Verifier)
  | setStrategy (strategy : Strategy)
  | setFileState (k : Nat) (state : FileState)
  | swarmerSetInterval (newStart newEnd newPrio : Int)
  | merge (f2 : MergedFile)

namespace Op

-- The frontend or the uploader that an operation is called on exists.
def Valid (s : State) : Op → Prop
  | registerUploader t _ => t < s.networks.length
  | updateUploaderIntervals up _ | clearUploaderIntervals up | clearUploaderRanges up
  | unregisterUploader up | findBlocks _ _ _ up | findRange _ up _ | received _ up _ _ _ _ =>
      up < s.uploaders.length
  | verifyChunk _ k j =>
      k < s.networks.length ∧ j < (s.frontend k).convertedVerifiedBitmap.length
  | computeBitmap _ k | verifyAllChunksImmediately _ k | setChunksVerifiedBitmap k _
  | setVerifier k _ | setFileState k _ => k < s.networks.length
  | _ => True

def run : Op → Act Unit
  | setPresent intervals => Swarming.setPresent intervals
  | setAbsent listAbsent => Swarming.setAbsent listAbsent
  | registerUploader t intervals => Swarming.registerUploader t intervals
  | updateUploaderIntervals up intervals => Swarming.updateUploaderIntervals up intervals
  | clearUploaderIntervals up => modify (·.clearUploaderIntervals up)
  | clearUploaderRanges up => modify (·.clearUploaderRanges up)
  | unregisterUploader up => modify (·.unregisterUploader up)
  | findBlocks fileVerify sourcesPerChunk random up => do
      let _ ← Swarming.findBlocks fileVerify sourcesPerChunk random up
  | findRange fileVerify up rangeSize => do
      let _ ← Swarming.findRange fileVerify up rangeSize
  | received disk up fileBegin str stringBegin stringLen =>
      Swarming.received disk up fileBegin str stringBegin stringLen
  | verifyChunk fileVerify k j => Swarming.verifyChunk fileVerify k j
  | verifyOneChunk fileVerify => Swarming.verifyOneChunk fileVerify
  | computeBitmap fileVerify k => Swarming.computeBitmap fileVerify k
  | verifyAllChunks => modify State.verifyAllChunks
  | verifyAllChunksImmediately fileVerify k => Swarming.verifyAllChunksImmediately fileVerify k
  | setChunksVerifiedBitmap k bitmap => Swarming.setChunksVerifiedBitmap k bitmap
  | setVerifier k f => Swarming.setVerifier k f
  | setStrategy strategy => modify fun s => { s with strategy := strategy }
  | setFileState k state => modify (·.modifyFile k fun f => { f with state := state })
  | swarmerSetInterval newStart newEnd newPrio =>
      Swarming.swarmerSetInterval newStart newEnd newPrio
  | merge f2 => Swarming.merge f2

-- The state after an operation, also when it raises: the caller goes on with
-- what was changed before the exception.
def next (op : Op) (s : State) : State := after op.run s

end Op

-- A swarmer of some size with one frontend, which has chunks of some size and
-- the verifier its network gave it.
def Fresh (verifiers : Verifier → Prop) (s : State) : Prop :=
  ∃ size chunkSize verifier fileState, verifiers verifier ∧
    create (createSwarmer size) size chunkSize verifier fileState = .ok s

-- The states that runs reach whose operations all meet the condition `ok`.
def Reachable (verifiers : Verifier → Prop) (ok : State → Op → Prop) : State → Prop :=
  Reach Op.next (Fresh verifiers) fun s op => op.Valid s ∧ ok s op

end Mldonkey.Swarming
