import Mldonkey.Donkey.LittleEndian
import Mathlib

-- The searches of an Overnet node: which peers are asked, and when.
namespace Mldonkey.Overnet

open Donkey (Ip Md4)

-- The part of a peer that a search reads
structure Peer where
  peerMd4 : Md4
  peerIp : Ip
  peerPort : ℤ
  peerCountryCode : Option ℤ
  peerCreated : ℤ
  deriving DecidableEq

-- The sets of peers compare these.
abbrev Address := Ip × ℤ

def Peer.address (p : Peer) : Address := (p.peerIp, p.peerPort)

-- The file and the keywords that are searched play no part.
inductive SearchFor
  | fileSearch
  | keywordSearch
  | fillBuckets
  deriving DecidableEq

inductive SearchType
  | searchForFile
  | searchForKeyword
  deriving DecidableEq

inductive Message
  | search (nresults : ℤ) (md4 : Md4) (target : Md4)
  | getSearchResults (md4 : Md4) (kind : SearchType) (first last : ℤ)
  deriving DecidableEq

-- What is outside: the socket, and the addresses that are usable or banned at the moment
structure World where
  udpSock : Bool
  usable : Ip → Bool
  banned : Ip → Option ℤ → Bool

def localhost : Ip := ⟨127 * 256, 1⟩

lemma length_nullBytes : (List.replicate 16 (0 : UInt8)).length = 16 := rfl

def nullMd4 : Md4 := ⟨List.replicate 16 0, length_nullBytes⟩

def isOvernetIp (w : World) (ip : Ip) (cc : Option ℤ) : Bool :=
  w.usable ip && decide (ip ≠ ⟨256, 0⟩) && !w.banned ip cc

-- The number of zero bits in front of the first one
def iterBit (nbits : ℕ) (c : UInt8) : ℕ → ℕ
  | 0 => nbits
  | n + 1 => if c &&& 0x80 ≠ 0 then nbits else iterBit (nbits + 1) (c <<< 1) n

def commonBitsFrom (i : ℕ) : List UInt8 → ℕ
  | [] => 128
  | c :: m => if c = 0 then commonBitsFrom (i + 1) m else iterBit (i * 8) c 8

def commonBits (m1 m2 : Md4) : ℕ :=
  commonBitsFrom 0 (List.zipWith (· ^^^ ·) m1.bytes m2.bytes)

-- What happened in a search: a message that was handed to udp_send, with whether it went out, or
-- a reply. The code does not keep it.
inductive Event
  | handed (receiver : Address) (msg : Message) (out : Bool)
  | replied (sender : Address)

-- The peers of the 129 classes stay there, so that the weak sets of asked peers lose none of them.
structure Search where
  searchMd4 : Md4
  searchKind : SearchFor
  searchPeers : ℕ → List Peer
  searchAskedPeers : List Address
  searchOkPeers : List Address
  searchResultAskedPeers : List Address
  searchQueries : ℤ
  searchRequests : ℤ
  searchStart : ℤ
  searchLifetime : ℤ
  searchLastRecv : ℤ
  history : List Event

namespace Search

variable (w : World) (s : Search)

def addSearchPeer (s : Search) (p : Peer) : Search :=
  if p.peerIp ≠ localhost ∧ isOvernetIp w p.peerIp p.peerCountryCode ∧ p.peerPort ≠ 0 ∧
      p.peerCreated ≠ 0 then
    let nbits := commonBits p.peerMd4 s.searchMd4
    if ¬(nbits = 128 ∧ s.searchKind = .fillBuckets) then
      if (s.searchPeers nbits).any fun pp => pp.peerIp = p.peerIp && pp.peerPort = p.peerPort then s
      else
        { s with searchPeers :=
            Function.update s.searchPeers nbits (s.searchPeers nbits ++ [p]) }
    else s
  else s

-- `peers` are the closest peers, or any for `FillBuckets`.
def createSearch (kind : SearchFor) (md4 : Md4) (start now : ℤ) (peers : List Peer) : Search :=
  peers.foldl (addSearchPeer w) {
    searchMd4 := md4
    searchKind := kind
    searchPeers := fun _ => []
    searchAskedPeers := []
    searchOkPeers := []
    searchResultAskedPeers := []
    searchQueries := 0
    searchRequests := 0
    searchStart := start
    searchLifetime := 45
    searchLastRecv := now
    history := [] }

-- "Why check this? Because it may have been blocked since it was added"
def goesOut (p : Peer) : Bool :=
  w.udpSock && decide (p.peerIp ≠ localhost) && isOvernetIp w p.peerIp none &&
    decide (p.peerPort ≠ 0)

def udpSend (p : Peer) (msg : Message) : Search :=
  { s with history := .handed p.address msg (goesOut w p) :: s.history }

-- Some is the exception Exit, after a message.
def processPeer (p : Peer) : Option Search :=
  let nresults := if s.searchKind = .fillBuckets then 10 else 2
  if p.address ∉ s.searchAskedPeers then
    let s := s.udpSend w p (.search nresults s.searchMd4 p.peerMd4)
    some { s with
      searchQueries := s.searchQueries + 1
      searchAskedPeers := p.address :: s.searchAskedPeers }
  else if p.address ∈ s.searchOkPeers ∧ p.address ∉ s.searchResultAskedPeers then
    let kind := if s.searchKind = .keywordSearch then SearchType.searchForKeyword
      else .searchForFile
    let s := s.udpSend w p (.getSearchResults s.searchMd4 kind 0 100)
    some { s with
      searchRequests := s.searchRequests + 1
      searchResultAskedPeers := p.address :: s.searchResultAskedPeers }
  else none

-- `closest` are what get_closest_peers gives at the end of the walk. Without fuel there is no
-- result.
def overnetSearchIter (closest : List Peer) : ℕ → ℤ → ℤ → Search → Option Search
  | 0, _, _, _ => none
  | fuel + 1, nbits, todo, s =>
    if 0 ≤ nbits then
      let peers := s.searchPeers nbits.toNat
      if 0 < peers.length then
        match peers.findSome? (s.processPeer w) with
        | none => overnetSearchIter closest fuel (nbits - 1) todo s
        | some s => if 1 < todo then overnetSearchIter closest fuel nbits (todo - 1) s else some s
      else overnetSearchIter closest fuel (nbits - 1) todo s
    else some (closest.foldl (addSearchPeer w) s)

-- Fuel that is always enough
def rounds (nbits todo : ℤ) : ℕ := (nbits + 2).toNat + todo.toNat + 1

def iter (closest : List Peer) (nbits todo : ℤ) : Search :=
  (overnetSearchIter w closest (rounds nbits todo) nbits todo s).getD s

-- The part of the handler for one search
def overnetSearchReply (now : ℤ) (sender : Address) (md4 : Md4) (peers closest : List Peer) :
    Search :=
  if s.searchMd4 = md4 then
    let s := peers.foldl (addSearchPeer w) s
    let s := { s with
      searchOkPeers := sender :: s.searchOkPeers
      searchLastRecv := now
      history := .replied sender :: s.history }
    s.iter w closest 128 1
  else s

def overnetSearchTick (now : ℤ) (closest : List Peer) : Search :=
  if now < s.searchLifetime + s.searchStart - 20 ∧ s.searchStart < now then
    if s.searchQueries = 0 then s.iter w closest 128 3
    else if s.searchLastRecv + 3 < now then s.iter w closest 128 2
    else s
  else s

end Search

-- `collect` is the garbage collector, which may empty the weak set of the peers that replied of
-- those that nothing else refers to.
inductive Op
  | addSearchPeer (w : World) (p : Peer)
  | overnetSearchReply (w : World) (now : ℤ) (sender : Address) (md4 : Md4)
      (peers closest : List Peer)
  | overnetSearchTick (w : World) (now : ℤ) (closest : List Peer)
  | collect (lost : Address → Bool)

def step : Op → Search → Search
  | .addSearchPeer w p, s => s.addSearchPeer w p
  | .overnetSearchReply w now sender md4 peers closest, s =>
    s.overnetSearchReply w now sender md4 peers closest
  | .overnetSearchTick w now closest, s => s.overnetSearchTick w now closest
  | .collect lost, s => { s with searchOkPeers := s.searchOkPeers.filter fun a => !lost a }

end Mldonkey.Overnet
