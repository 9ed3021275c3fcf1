import Mldonkey.Overnet.Search

-- The peers of an Overnet node, by the bits that their ids have in common with its own.
namespace Mldonkey.Overnet

open Donkey (Ip Md4)

namespace Peers

-- Peers are references; the kind, the times and the country code change.
structure Peer where
  peerMd4 : Md4
  peerIp : Ip
  peerPort : ℤ
  peerCountryCode : Option ℤ
  peerKind : ℤ
  peerExpire : ℤ
  peerLastSend : ℤ
  peerCreated : ℤ

def Peer.address (p : Peer) : Address := (p.peerIp, p.peerPort)

-- What is outside: the usable and the banned addresses, and the country of an address
structure Outside where
  usable : Ip → Bool
  banned : Ip → Option ℤ → Bool
  countryCode : Ip → Option ℤ

def Outside.isOvernetIp (w : Outside) : Ip → Option ℤ → Bool :=
  Overnet.isOvernetIp ⟨true, w.usable, w.banned⟩

def maxPeersPerBucket : ℕ := 20

def maxPeersPerPrebucket : ℕ := 20

structure State where
  overnetMd4 : Md4
  checkingKindTimeout : ℤ
  heap : ℕ → Peer
  knownPeers : List ℕ
  buckets : ℕ → List ℕ
  prebuckets : ℕ → List ℕ
  nUsedBuckets : ℕ
  connectedPeers : ℤ
  preConnectedPeers : ℤ

namespace State

-- `magic` are the peers that the memory will hold.
def initial (overnetMd4 : Md4) (checkingKindTimeout : ℤ) (magic : ℕ → Peer)
    (nUsedBuckets : ℕ) : State where
  overnetMd4 := overnetMd4
  checkingKindTimeout := checkingKindTimeout
  heap := magic
  knownPeers := []
  buckets _ := []
  prebuckets _ := []
  nUsedBuckets := nUsedBuckets
  connectedPeers := 0
  preConnectedPeers := 0

variable (w : Outside) (now : ℤ) (s : State)

def bucketNumber (md4 : Md4) : ℕ := commonBits md4 s.overnetMd4

def setPeer (r : ℕ) (p : Peer) : State := { s with heap := Function.update s.heap r p }

def checkingKind (r : ℕ) : State :=
  let p := s.heap r
  if now - p.peerLastSend < 10 ∨ p.peerKind = 4 then s
  else s.setPeer r
    { p with peerKind := p.peerKind + 1, peerExpire := now + s.checkingKindTimeout }

def newPeerMessage (r : ℕ) : State :=
  let p := s.heap r
  let hours := (now - p.peerCreated).tdiv 3600
  if hours = 0 then s.setPeer r { p with peerKind := 2, peerExpire := now + 3600 }
  else if hours = 1 then s.setPeer r { p with peerKind := 1, peerExpire := now + 5400 }
  else s.setPeer r { p with peerKind := 0, peerExpire := now + 7200 }

-- The part of udp_send that a later checking_kind sees
def udpSend (r : ℕ) : State := s.setPeer r { s.heap r with peerLastSend := now }

def checkPeerCountryCode (r : ℕ) : State :=
  let p := s.heap r
  if p.peerCountryCode = none then s.setPeer r { p with peerCountryCode := w.countryCode p.peerIp }
  else s

def putBucket (i r : ℕ) : State :=
  { s with buckets := Function.update s.buckets i (s.buckets i ++ [r]) }

def putPrebucket (i r : ℕ) : State :=
  { s with prebuckets := Function.update s.prebuckets i (s.prebuckets i ++ [r]) }

-- The loop over the last prebucket: every peer goes where the new peer `p` belongs.
def spread (p n : ℕ) : ℕ → State → State
  | 0, s => s
  | k + 1, s =>
    match s.prebuckets n with
    | [] => s
    | pp :: b =>
      let s := { s with prebuckets := Function.update s.prebuckets n b }
      let bucket := s.bucketNumber (s.heap p).peerMd4
      spread p n k (s.putPrebucket (if s.nUsedBuckets ≤ bucket then s.nUsedBuckets else n) pp)

-- The loop that raises n_used_buckets. There are never more than 128 turns.
def split (p : ℕ) : ℕ → State → State
  | 0, s => s
  | k + 1, s =>
    let n := s.nUsedBuckets
    if n < 128 ∧ (s.prebuckets n).length = maxPeersPerBucket then
      split p k (spread p n (s.prebuckets n).length { s with nUsedBuckets := n + 1 })
    else s

-- The part of new_peer for a peer that may be stored. The boot peers are left out.
def storePeer (p : ℕ) (bucket : ℕ) : State :=
  let s := { s with knownPeers := p :: s.knownPeers }
  if bucket < s.nUsedBuckets then
    if (s.heap p).peerKind < 3 ∧ (s.buckets bucket).length < maxPeersPerBucket then
      { s.putBucket bucket p with connectedPeers := s.connectedPeers + 1 }
    else if maxPeersPerPrebucket ≤ (s.prebuckets bucket).length then
      match s.prebuckets bucket with
      | [] => s
      | pp :: b =>
        let s := { s with prebuckets := Function.update s.prebuckets bucket b }
        s.putPrebucket bucket
          (if (s.heap pp).peerKind < 4 ∨ now < (s.heap pp).peerExpire then pp else p)
    else { s.putPrebucket bucket p with preConnectedPeers := s.preConnectedPeers + 1 }
  else if s.nUsedBuckets < 128 then
    split p 128
      { s.putPrebucket s.nUsedBuckets p with preConnectedPeers := s.preConnectedPeers + 1 }
  else s

-- The peer that is known under the address, or the peer itself
def newPeer (p : ℕ) : State × ℕ :=
  let s := s.checkPeerCountryCode w p
  let q := s.heap p
  match s.knownPeers.find? fun r => (s.heap r).address = q.address with
  | some pp => (s, pp)
  | none =>
    if q.peerIp ≠ localhost ∧ w.isOvernetIp q.peerIp q.peerCountryCode ∧ q.peerPort ≠ 0 ∧
        q.peerCreated ≠ 0 then
      let bucket := s.bucketNumber q.peerMd4
      if bucket ≠ 128 ∧ q.peerMd4 ≠ nullMd4 then (s.storePeer now p bucket, p) else (s, p)
    else (s, p)

-- The loop of add_list, with what is still wanted and the list so far. `want` tells which peers
-- are given out.
def addListTurns (want : Peer → Bool) (bucket : ℕ) : ℕ → State × ℤ × List ℕ → State × ℤ × List ℕ
  | 0, found => found
  | n + 1, (s, nb, list) =>
    match s.buckets bucket with
    | [] => (s, nb, list)
    | p :: b =>
      let s := { s with buckets := Function.update s.buckets bucket b }
      let s := s.putBucket bucket p
      addListTurns want bucket n
        (if want (s.heap p) then (s, nb - 1, p :: list) else (s, nb, list))

def addList (want : Peer → Bool) (found : State × ℤ × List ℕ) (bucket : ℕ) :
    State × ℤ × List ℕ :=
  addListTurns want bucket (min found.2.1 (found.1.buckets bucket).length).toNat found

def wanted (p : Peer) : Bool := p.peerKind < 3 && now < p.peerExpire

def getClosestPeers (md4 : Md4) (nb : ℤ) : State × List ℕ :=
  let bucket := min s.nUsedBuckets (s.bucketNumber md4)
  let found := addList (wanted now) (s, nb, []) bucket
  if 0 < found.2.1 then
    let found := (List.range' (bucket + 1) (s.nUsedBuckets - bucket)).foldl (addList (wanted now))
      found
    let found := (List.range bucket).reverse.foldl (addList (wanted now)) found
    (found.1, found.2.2)
  else (found.1, found.2.2)

-- The list starts with the node itself, which is none of the peers.
def getAnyPeers (nb : ℤ) : State × List ℕ :=
  let found := (List.range (s.nUsedBuckets + 1)).foldl (addList fun _ => true) (s, nb - 1, [])
  (found.1, found.2.2)

-- Some peer with the address goes from the set.
def forget (r : ℕ) : State :=
  { s with knownPeers :=
      s.knownPeers.eraseP fun k => (s.heap k).address = (s.heap r).address }

-- A peer that has not answered
def dead (p : Peer) : Bool := p.peerKind = 4 && p.peerExpire ≤ now

def cleanPeer (i : ℕ) (s : State) (r : ℕ) : State :=
  let p := s.heap r
  if !dead now p && w.isOvernetIp p.peerIp p.peerCountryCode then s.putBucket i r
  else { s with connectedPeers := s.connectedPeers - 1 }.forget r

-- A loop that takes each element of a queue once: what it puts back is behind the others.
def cleanBucket (s : State) (i : ℕ) : State :=
  (s.buckets i).foldl (cleanPeer w now i) { s with buckets := Function.update s.buckets i [] }

def completePeer (i : ℕ) (s : State) (r : ℕ) : State :=
  let p := s.heap r
  if p.peerKind < 3 ∧ (s.buckets i).length < maxPeersPerBucket then
    { s.putBucket i r with
      connectedPeers := s.connectedPeers + 1
      preConnectedPeers := s.preConnectedPeers - 1 }
  else if dead now p || !w.isOvernetIp p.peerIp p.peerCountryCode then
    { s with preConnectedPeers := s.preConnectedPeers - 1 }.forget r
  else s.putPrebucket i r

def completeBucket (s : State) (i : ℕ) : State :=
  if (s.buckets i).length < maxPeersPerBucket then
    (s.prebuckets i).foldl (completePeer w now i)
      { s with prebuckets := Function.update s.prebuckets i [] }
  else s

def updateBuckets : State :=
  let s := (List.range (s.nUsedBuckets + 1)).foldl (cleanBucket w now) s
  (List.range (s.nUsedBuckets + 1)).foldl (completeBucket w now) s

end State

-- `collect` is the garbage collector, which may take from the weak set what no bucket refers to.
inductive Op
  | newPeer (w : Outside) (now : ℤ) (p : ℕ)
  | newPeerMessage (now : ℤ) (p : ℕ)
  | checkingKind (now : ℤ) (p : ℕ)
  | udpSend (now : ℤ) (p : ℕ)
  | getClosestPeers (now : ℤ) (md4 : Md4) (nb : ℤ)
  | getAnyPeers (nb : ℤ)
  | updateBuckets (w : Outside) (now : ℤ)
  | collect (lost : ℕ → Bool)

def State.stored (s : State) (r : ℕ) : Bool :=
  (List.range 129).any fun i => r ∈ s.buckets i || r ∈ s.prebuckets i

def step : Op → State → State
  | .newPeer w now p, s => (s.newPeer w now p).1
  | .newPeerMessage now p, s => s.newPeerMessage now p
  | .checkingKind now p, s => s.checkingKind now p
  | .udpSend now p, s => s.udpSend now p
  | .getClosestPeers now md4 nb, s => (s.getClosestPeers now md4 nb).1
  | .getAnyPeers nb, s => (s.getAnyPeers nb).1
  | .updateBuckets w now, s => s.updateBuckets w now
  | .collect lost, s => { s with knownPeers := s.knownPeers.filter fun r => s.stored r || !lost r }

end Peers

end Mldonkey.Overnet
