import Mathlib

-- The slots of the clients that upload, and the clients that wait for one.
namespace Mldonkey.UploadSlots

inductive SlotKind
  | noSlot
  | friendSlot
  | releaseSlot
  | smallFileSlot
  | normalSlot
  | prioSlot (dir : String)
  deriving DecidableEq

structure Shared where
  sharedDir : String
  sharedSize : ℤ

-- What is read of the clients, the files and the priorities of directories (where a directory
-- that is not listed has 0)
structure World (φ : Type) where
  clientUpload : ℕ → Option φ
  isFriend : ℕ → Bool
  fileShared : φ → Option Shared
  fileRelease : φ → Bool
  dirnamesPrio : String → ℤ

-- What the user sets. `maxReleaseSlots` is the number that the percentage of the slots gives.
structure Options where
  maxUploadSlots : ℤ
  maxReleaseSlots : ℤ
  friendsUploadSlot : Bool
  smallFilesSlotLimit : ℤ

-- The maps of clients are the lists of their numbers, in ascending order.
structure State where
  clientSlot : ℕ → SlotKind
  connected : ℕ → Bool
  uploaders : List ℕ
  pendingSlotsMap : List ℕ
  notSaturatedCount : ℤ
  allocationCluster : ℤ

namespace State

def initial : State where
  clientSlot _ := .noSlot
  connected _ := false
  uploaders := []
  pendingSlotsMap := []
  notSaturatedCount := 0
  allocationCluster := 1

-- Intmap.add of a number with its client
def add (c : ℕ) (map : List ℕ) : List ℕ :=
  if c ∈ map then map else map.orderedInsert (· ≤ ·) c

variable (s : State)

def clientHasASlot (c : ℕ) : Bool := s.clientSlot c ≠ .noSlot

def setClientHasASlot (c : ℕ) (slot : SlotKind) : State :=
  if slot = .noSlot then
    if s.clientHasASlot c then
      { s with
        clientSlot := Function.update s.clientSlot c .noSlot
        uploaders := s.uploaders.erase c }
    else s
  else if s.clientHasASlot c then s
  else
    { s with
      clientSlot := Function.update s.clientSlot c slot
      uploaders := add c s.uploaders }

def setClientConnected (c : ℕ) : State :=
  { s with connected := Function.update s.connected c true }

def setClientDisconnected (c : ℕ) : State :=
  let s := s.setClientHasASlot c .noSlot
  { s with connected := Function.update s.connected c false }

def removePendingSlot (c : ℕ) : State :=
  if c ∈ s.pendingSlotsMap then { s with pendingSlotsMap := s.pendingSlotsMap.erase c } else s

-- The first add_pending_slot, which the second one calls
def addPending (c : ℕ) : State :=
  if s.clientHasASlot c then s
  else if c ∈ s.pendingSlotsMap then s
  else { s with pendingSlotsMap := add c s.pendingSlotsMap }

-- give_a_slot and find_pending_slot call each other. `random` are the numbers that Random.int
-- is made of. What a network does when the client enters its queue is outside. Without fuel
-- there is no result.
def findPendingSlot : ℕ → (ℕ → ℕ) → State → Option State
  | 0, _, _ => none
  | fuel + 1, random, s =>
    match s.pendingSlotsMap[random 0 % s.pendingSlotsMap.length]? with
    | none => some s
    | some c =>
      let s := s.removePendingSlot c
      if s.connected c then some (s.setClientHasASlot c .normalSlot)
      else findPendingSlot fuel (fun i => random (i + 1)) s

-- One turn for each pending client, and one without any, are enough.
def findPending (random : ℕ → ℕ) : State :=
  (findPendingSlot (s.pendingSlotsMap.length + 1) random s).getD s

end State

-- What is left for a client of the special slots
structure Budget where
  cprio : ℤ
  cfriend : ℤ
  csmallfiles : ℤ
  allowedReleaseSlots : ℤ

def sharedDir : Option Shared → String
  | none => ""
  | some sh => sh.sharedDir

namespace State

variable {φ : Type} (w : World φ) (o : Options) (s : State)

-- One client in the scan of the uploaders. None is the exception for one without a file.
def scan (cdir : String) (b : Budget) (c : ℕ) : Option Budget := do
  let file ← w.clientUpload c
  let b := if sharedDir (w.fileShared file) = cdir then { b with cprio := b.cprio - 1 } else b
  match s.clientSlot c with
  | .releaseSlot => some { b with allowedReleaseSlots := b.allowedReleaseSlots - 1 }
  | .friendSlot => some { b with cfriend := b.cfriend - 1 }
  | .smallFileSlot => some { b with csmallfiles := b.csmallfiles - 1 }
  | _ => some b

-- The budgets of a client before the scan
def budget (c : ℕ) (csh : Option Shared) : Budget where
  cprio := w.dirnamesPrio (sharedDir csh)
  cfriend := if w.isFriend c && o.friendsUploadSlot then 1 else 0
  csmallfiles :=
    match csh with
    | none => 0
    | some sh => if sh.sharedSize ≤ o.smallFilesSlotLimit then 1 else 0
  allowedReleaseSlots := o.maxReleaseSlots

-- None is an exception, which leaves all as it was.
def addPendingSlot (c : ℕ) : Option State := do
  let file ← w.clientUpload c
  let csh := w.fileShared file
  let cdir := sharedDir csh
  let b ← s.uploaders.foldlM (s.scan w cdir) (budget w o c csh)
  let slotType :=
    if w.fileRelease file && 0 < b.allowedReleaseSlots then some .releaseSlot
    else if 0 < b.cfriend then some .friendSlot
    else if 0 < b.csmallfiles then some .smallFileSlot
    else if 0 < b.cprio then some (.prioSlot cdir)
    else none
  match slotType with
  | some slot =>
    let s := s.removePendingSlot c
    if s.connected c then some (s.setClientHasASlot c slot) else some s
  | none => some (s.addPending c)

def staticRefillUploadSlots (random : ℕ → ℕ) : State :=
  if (s.uploaders.length : ℤ) < o.maxUploadSlots then s.findPending random else s

-- The loop of open_slots, with the numbers of each turn
def openSlots (random : ℕ → ℕ → ℕ) : ℕ → State → State
  | 0, s => s
  | n + 1, s => openSlots (fun i => random (i + 1)) n (s.findPending (random 0))

def resetState : State := { s with notSaturatedCount := 0, allocationCluster := 1 }

-- What is measured of the bandwidth, and the hard limit of its rate
structure Readings where
  shortDelayUploadUsage : ℤ
  detectedUplinkCapacity : ℤ
  maxHardUploadRate : ℤ

def slotBw : ℤ := 3072

def minUploadSlots : ℤ := 3

def dynamicRefillUploadSlots (r : Readings) (random : ℕ → ℕ → ℕ) : State :=
  let estimatedCapacity :=
    if r.maxHardUploadRate = 0 then r.detectedUplinkCapacity
    else min r.detectedUplinkCapacity (r.maxHardUploadRate * 1024)
  let len : ℤ := s.uploaders.length
  if len < o.maxUploadSlots then
    let s :=
      if r.shortDelayUploadUsage + slotBw < estimatedCapacity then
        { s with notSaturatedCount := s.notSaturatedCount + 1 }
      else s.resetState
    if len < minUploadSlots then
      (openSlots random (minUploadSlots - len).toNat s).resetState
    else if 2 ≤ s.notSaturatedCount then
      let s := openSlots random (min s.allocationCluster (o.maxUploadSlots - len)).toNat s
      { s with allocationCluster := s.allocationCluster + 1 }
    else s
  else s

end State

inductive Op (φ : Type)
  | addPendingSlot (w : World φ) (c : ℕ)
  | removePendingSlot (c : ℕ)
  | staticRefill (random : ℕ → ℕ)
  | dynamicRefill (r : State.Readings) (random : ℕ → ℕ → ℕ)
  | connect (c : ℕ)
  | disconnect (c : ℕ)

def step {φ : Type} (o : Options) : Op φ → State → State
  | .addPendingSlot w c, s => (s.addPendingSlot w o c).getD s
  | .removePendingSlot c, s => s.removePendingSlot c
  | .staticRefill random, s => s.staticRefillUploadSlots o random
  | .dynamicRefill r random, s => s.dynamicRefillUploadSlots o r random
  | .connect c, s => s.setClientConnected c
  | .disconnect c, s => s.setClientDisconnected c

end Mldonkey.UploadSlots
