import Mathlib

namespace Mldonkey.Swarming

-- The part_state of a block or of a chunk in a VerificationBitmap.
inductive PartState
  | stateMissing
  | statePartial
  | stateComplete
  | stateVerified
  deriving DecidableEq, Repr, Inhabited

-- A VerificationBitmap is a string with one character for each block or chunk.
abbrev VerificationBitmap := List PartState

namespace VB

def create (n : Nat) (c : PartState) : VerificationBitmap := List.replicate n c

def get (x : VerificationBitmap) (i : Nat) : PartState := x.getD i .stateMissing

def set (x : VerificationBitmap) (i : Nat) (c : PartState) : VerificationBitmap := List.set x i c

def stateToChar : PartState → Char
  | .stateMissing => '0'
  | .statePartial => '1'
  | .stateComplete => '2'
  | .stateVerified => '3'

def charToState : Char → Option PartState
  | '0' => some .stateMissing
  | '1' => some .statePartial
  | '2' => some .stateComplete
  | '3' => some .stateVerified
  | _ => none

end VB

-- The assert of the source that failed.
inductive Site
  | checkSwarmer
  | computeBlockNum
  | insertPrioInterval
  | iterDiskSpace
  | noFrontend
  | permuteAndReturn
  | received
  | remainingBlocksInChunks
  | selectBlocks
  | setFrontendStateMissing
  | setSwarmerStateVerified
  | subarrayFoldLefti
  | verifyChunk
  deriving DecidableEq, Repr

inductive Exn
  | assertFailure (site : Site)
  | divisionByZero
  | failure (message : String)
  | invalidArgument
  | notFound
  | unixError
  | verifierNotReady
  deriving DecidableEq, Repr

-- How file_verify may end without an answer: VerifierNotReady, Not_found for a
-- kind of hash it cannot compute, or a disk error while it flushes the file.
inductive VerifyError
  | verifierNotReady
  | notFound
  | unixError
  deriving DecidableEq, Repr

def VerifyError.exn : VerifyError → Exn
  | .verifierNotReady => .verifierNotReady
  | .notFound => .notFound
  | .unixError => .unixError

-- A uid_type is only handed to file_verify, which compares it.
abbrev Uid := List UInt8

inductive Verifier
  | noVerification
  | verificationNotAvailable
  | forceVerification
  | verification (uids : List Uid)
  deriving DecidableEq, Repr, Inhabited

inductive FileState
  | fileDownloading
  | fileQueued
  | filePaused
  | fileDownloaded
  | fileShared
  | fileCancelled
  | fileNew
  | fileAborted (message : String)
  deriving DecidableEq, Repr, Inhabited

inductive Strategy
  | linearStrategy
  | advancedStrategy
  deriving DecidableEq, Repr

-- What swarming uses of a file record. The records are kept apart from the
-- frontends, whose t_file points to them.
structure File where
  size : Int
  downloaded : Int
  state : FileState
  deriving Repr, Inhabited

-- The source's type t. A frontend is named by its place in s_networks, which
-- stands for t_num: the primary is frontend 0, and frontends are only added at
-- the end. `fd` names the Unix32.t that t_file has open.
structure Frontend where
  chunkSize : Int
  nchunks : Nat
  convertedVerifiedBitmap : VerificationBitmap
  ncompleteChunks : Int
  nverifiedChunks : Int
  verifier : Verifier
  blocksOfChunk : List (List Nat)
  chunkOfBlock : List Nat
  fd : Nat
  deriving Repr, Inhabited

-- Records that are shared by reference are named by their address.
abbrev BlockId := Nat
abbrev RangeId := Nat

inductive BlockV
  | emptyBlock
  | partialBlock (b : BlockId)
  | completeBlock
  | verifiedBlock
  deriving DecidableEq, Repr, Inhabited

-- `ranges` lists what the links range_next reach from block_ranges, in order.
structure Block where
  num : Nat
  blockBegin : Int
  blockEnd : Int
  ranges : List RangeId
  remaining : Int
  unselectedRemaining : Int
  deriving Repr

structure Range where
  block : BlockId
  rangeBegin : Int
  rangeEnd : Int
  nuploading : Nat
  deriving Repr

inductive Intervals
  | availableIntervals (intervals : List (Int × Int))
  | availableBitv (bitmap : List Bool)
  deriving Repr

structure UploaderBlock where
  block : BlockId
  blockBegin : Int
  blockEnd : Int
  deriving DecidableEq, Repr

structure Uploader where
  t : Nat
  declared : Bool
  intervals : Intervals
  completeBlocks : List Nat
  ncomplete : Nat
  partialBlocks : List (Nat × Int × Int)
  npartial : Nat
  blocks : List UploaderBlock
  ranges : List (Int × Int × RangeId)
  deriving Repr

-- A call of file_write: the file offset and the bytes handed over.
structure FileWrite where
  offset : Int
  bytes : List UInt8
  deriving DecidableEq, Repr

-- The blocks of a swarmer: the arrays s_blocks and s_block_pos, and the block
-- and range records that were allocated, those no longer in s_blocks included.
structure Store where
  size : Int
  blocks : List BlockV
  blockPos : List Int
  block : BlockId → Block
  range : RangeId → Range
  nextBlock : Nat
  nextRange : Nat

-- A swarmer with the frontends, files and uploaders that refer to it.
structure State extends Store where
  diskAllocationBlockSize : Int
  networks : List Frontend
  files : List File
  strategy : Strategy
  verifiedBitmap : VerificationBitmap
  prioritiesBitmap : List Nat
  prioritiesIntervals : List (Int × Int)
  diskAllocated : List Bool
  availability : List Nat
  nuploading : List Nat
  uploaders : List Uploader
  written : List FileWrite

abbrev Act := EStateM Exn State

end Mldonkey.Swarming
