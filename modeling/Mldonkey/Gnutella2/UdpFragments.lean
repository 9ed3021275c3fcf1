import Mathlib
import Mldonkey.Bencode.Codec
import Mldonkey.Donkey.LittleEndian

-- The datagrams of Gnutella2: packets that wait for their acknowledgement and fragments that
-- wait for the others of their packet.
namespace Mldonkey.Gnutella2

open Bencode (Bytes ofString)
open Donkey (Ip)

structure Waiting where
  s : Bytes
  ip : Ip
  port : ℕ
  seq : ℕ
  times : ℕ
  nextTime : ℤ
  acked : Bool

structure Fragment where
  ip : Ip
  port : ℕ
  nSeq : ℕ
  nPart : ℕ
  nFlags : UInt8
  data : Bytes

-- `written` is what went to the socket, the newest first.
structure Udp where
  udpCounter : ℕ
  waitingForAck : List Waiting
  fragmentedPackets : List Fragment
  written : List (Bytes × Ip × ℕ)

namespace Udp

def initial : Udp := ⟨0, [], [], []⟩

def write (u : Udp) (s : Bytes) (ip : Ip) (port : ℕ) : Udp :=
  { u with written := (s, ip, port) :: u.written }

end Udp

def gnd : Bytes := ofString "GND"

-- char_of_int (n land 0xff) and char_of_int ((n lsr 8) land 0xff)
def seqBytes (n : ℕ) : Bytes := [.ofNat (n % 256), .ofNat (n / 256 % 256)]

def udpHeader (u : Udp) (compress : Bool) : Udp × Bytes :=
  let udpCounter := u.udpCounter + 1
  ({ u with udpCounter := udpCounter },
    gnd ++ (if compress then 3 else 2) :: seqBytes udpCounter ++ [1, 1])

def maxUncompressPacket : ℕ := 1200

-- `s` is the encoded message and `compressString` the function of Zlib.
def udpSend (compressString : Bytes → Bytes) (u : Udp) (ip : Ip) (port : ℕ) (s : Bytes)
    (lastTime : ℤ) : Udp :=
  let compress := maxUncompressPacket < s.length
  let (u, header) := udpHeader u compress
  let s := header ++ if compress then compressString s else s
  let waiting := ⟨s, ip, port, u.udpCounter, 0, lastTime + 10, false⟩
  Udp.write { u with waitingForAck := u.waitingForAck ++ [waiting] } s ip port

def ackDatagram (counter : ℕ) : Bytes := gnd ++ 0 :: seqBytes counter ++ [1, 0]

def udpSendAck (u : Udp) (ip : Ip) (port counter : ℕ) : Udp :=
  u.write (ackDatagram counter) ip port

-- The loop of resend_udp_packets takes packets from the front while they are due; those in
-- `back` were put back and are not due before 10 s. The numbers are those of the packets sent.
def resendLoop (lastTime : ℤ) (u : Udp) : List Waiting → List Waiting → Udp × List ℕ
  | [], back => ({ u with waitingForAck := back }, [])
  | p :: rest, back =>
    if p.nextTime < lastTime then
      if !p.acked then
        let u := u.write p.s p.ip p.port
        let back :=
          if p.times < 3 then
            back ++ [{ p with times := p.times + 1, nextTime := lastTime + 10 }]
          else back
        let (u, sent) := resendLoop lastTime u rest back
        (u, p.seq :: sent)
      else resendLoop lastTime u rest back
    else ({ u with waitingForAck := p :: rest ++ back }, [])

def resendUdpPackets (u : Udp) (lastTime : ℤ) : Udp × List ℕ :=
  resendLoop lastTime u u.waitingForAck []

-- How parse_udp_packet ends: by an exception, or by handing over what follows the headers,
-- which is then uncompressed as the flags say and parsed.
inductive Outcome
  | failure
  | ackPacket
  | fragmentedPacket
  | handOver (nFlags : UInt8) (trailer : Bytes)
  deriving DecidableEq

-- The array `needed` with the fragments of the queue; none where an index is out of bounds
def gather (u : Udp) (ip : Ip) (port nSequence nCount : ℕ) : Option (List (Option Bytes)) :=
  u.fragmentedPackets.foldlM
    (fun needed f =>
      if f.port = port ∧ f.nSeq = nSequence ∧ f.ip = ip then
        if f.nPart < needed.length then some (needed.set f.nPart (some f.data)) else none
      else some needed) (List.replicate nCount none)

-- The datagrams in `needed`, or none if one is missing
def present : List (Option Bytes) → Option (List Bytes)
  | [] => some []
  | none :: _ => none
  | some buf :: needed => (present needed).map (buf :: ·)

-- The first datagram, and the others without their headers
def concatenated : List Bytes → Bytes
  | [] => []
  | buf :: bufs => buf ++ bufs.flatMap (·.drop 8)

def maxFragments : ℕ := 50

-- Fifo.put, and Fifo.take if there are too many
def storeFragment (u : Udp) (f : Fragment) : Udp :=
  let fragments := u.fragmentedPackets ++ [f]
  { u with
    fragmentedPackets := if maxFragments < fragments.length then fragments.tail else fragments }

def acknowledge (u : Udp) (ip : Ip) (port nSequence : ℕ) : Udp :=
  { u with
    waitingForAck := u.waitingForAck.map fun p =>
      if p.ip = ip ∧ p.port = port ∧ p.seq = nSequence then { p with acked := true } else p }

-- A datagram with its header read: the part counts from 1.
def parseFragment (u : Udp) (ip : Ip) (port : ℕ) (nFlags part nCount : UInt8) (nSequence : ℕ)
    (buf : Bytes) : Udp × Outcome :=
  if 1 < nCount then
    if part = 0 then (u, .failure)
    else
      let myPart := part.toNat - 1
      match gather u ip port nSequence nCount.toNat with
      | none => (u, .failure)
      | some needed =>
        match needed[myPart]? with
        | none => (u, .failure)
        | some (some _) => (u, .fragmentedPacket)
        | some none =>
          match present (needed.set myPart (some buf)) with
          | none => (storeFragment u ⟨ip, port, nSequence, myPart, nFlags, buf⟩, .fragmentedPacket)
          | some bufs => (u, .handOver nFlags ((concatenated bufs).drop 8))
  else (u, .handOver nFlags (buf.drop 8))

def parseUdpPacket (u : Udp) (ip : Ip) (port : ℕ) (buf : Bytes) : Udp × Outcome :=
  match buf with
  | g :: n :: d :: nFlags :: s0 :: s1 :: part :: nCount :: _ =>
    if [g, n, d] ≠ gnd then (u, .failure)
    else
      let nSequence := s0.toNat + 256 * s1.toNat
      let u := if nFlags &&& 2 ≠ 0 then udpSendAck u ip port nSequence else u
      if nCount = 0 then (acknowledge u ip port nSequence, .ackPacket)
      else parseFragment u ip port nFlags part nCount nSequence buf
  | _ => (u, .failure)

-- The fragments of the packets that others send, and what parse_udp_packet makes of them.

-- A packet that a sender cuts into parts: at least one, and no more than a byte counts
structure Sent where
  ip : Ip
  port : ℕ
  seq : ℕ
  flags : UInt8
  parts : List Bytes
  seq_lt : seq < 65536
  parts_pos : 0 < parts.length
  parts_lt : parts.length < 256

namespace Sent

def datagram (p : Sent) (j : ℕ) : Bytes :=
  gnd ++ p.flags :: seqBytes p.seq ++ [.ofNat (j + 1), .ofNat p.parts.length] ++ p.parts.getD j []

def fragment (p : Sent) (j : ℕ) : Fragment := ⟨p.ip, p.port, p.seq, j, p.flags, p.datagram j⟩

-- What tells the fragments of a packet from those of others
def key (p : Sent) : Ip × ℕ × ℕ := (p.ip, p.port, p.seq)

variable (p : Sent) (j : ℕ)

lemma drop_datagram : (p.datagram j).drop 8 = p.parts.getD j [] := rfl

lemma concatenated_datagrams (l : List ℕ) :
    (concatenated (l.map p.datagram)).drop 8 = l.flatMap fun j => p.parts.getD j [] := by
  cases l with
  | nil => rfl
  | cons j l =>
    have hlen : 8 ≤ (p.datagram j).length := by simp [datagram, gnd, seqBytes, Bencode.ofString]
    rw [List.map_cons, concatenated, List.drop_append_of_le_length hlen, drop_datagram,
      List.flatMap_cons, List.flatMap_map]
    rfl

lemma concatenated_parts :
    (concatenated ((List.range p.parts.length).map p.datagram)).drop 8 = p.parts.flatten := by
  rw [concatenated_datagrams, List.flatMap_def]
  congr 1
  refine List.ext_getElem (by simp) fun i h1 h2 => ?_
  rw [List.getElem_map, List.getElem_range, List.getD_eq_getElem _ _ h2]

end Sent

lemma seqBytes_seq {n : ℕ} (h : n < 65536) :
    (UInt8.ofNat (n % 256)).toNat + 256 * (UInt8.ofNat (n / 256 % 256)).toNat = n := by
  simp only [UInt8.toNat_ofNat']
  omega

-- The entries of `needed` for the parts in `have_`
def filled (n : ℕ) (data : ℕ → Bytes) (parts : List ℕ) : List (Option Bytes) :=
  (List.range n).map fun k => if k ∈ parts then some (data k) else none

lemma getElem?_filled {n k : ℕ} (hk : k < n) (data : ℕ → Bytes) (parts : List ℕ) :
    (filled n data parts)[k]? = some (if k ∈ parts then some (data k) else none) := by
  rw [filled, List.getElem?_map, List.getElem?_range hk, Option.map_some]

lemma set_filled (n j : ℕ) (data : ℕ → Bytes) (parts : List ℕ) :
    (filled n data parts).set j (some (data j)) = filled n data (j :: parts) := by
  refine List.ext_getElem (by simp [filled]) fun k h1 h2 => ?_
  rw [List.getElem_set]
  simp only [filled, List.getElem_map, List.getElem_range, List.mem_cons]
  by_cases hjk : j = k
  · simp [hjk]
  · simp [hjk, Ne.symm hjk]

lemma present_map {l : List ℕ} {data : ℕ → Bytes} {parts : List ℕ} :
    present (l.map fun k => if k ∈ parts then some (data k) else none) =
      if ∀ k ∈ l, k ∈ parts then some (l.map data) else none := by
  induction l with
  | nil => rfl
  | cons k l ih =>
    rw [List.map_cons]
    by_cases hk : k ∈ parts
    · rw [if_pos hk, present, ih]
      by_cases hl : ∀ k ∈ l, k ∈ parts
      · rw [if_pos hl, if_pos (by simpa [hk] using hl)]
        rfl
      · rw [if_neg hl, if_neg (by simpa [hk] using hl)]
        rfl
    · rw [if_neg hk, present, if_neg (by simp [hk])]

lemma present_filled (n : ℕ) (data : ℕ → Bytes) (parts : List ℕ) :
    present (filled n data parts) =
      if ∀ k < n, k ∈ parts then some ((List.range n).map data) else none := by
  rw [filled, present_map]
  simp only [List.mem_range]

-- The parts of a packet in the queue
def storedParts (p : Sent) (fragments : List Fragment) : List ℕ :=
  (fragments.filter fun f => f.port = p.port ∧ f.nSeq = p.seq ∧ f.ip = p.ip).map Fragment.nPart

lemma storedParts_cons (p : Sent) (f : Fragment) (fragments : List Fragment) :
    storedParts p (f :: fragments) =
      if f.port = p.port ∧ f.nSeq = p.seq ∧ f.ip = p.ip then f.nPart :: storedParts p fragments
      else storedParts p fragments := by
  rw [storedParts, List.filter_cons]
  by_cases hf : f.port = p.port ∧ f.nSeq = p.seq ∧ f.ip = p.ip
  · rw [if_pos (by simpa using hf), if_pos hf]
    rfl
  · rw [if_neg (by simpa using hf), if_neg hf]
    rfl

-- Every fragment of the queue with the key of the packet is one of its parts
def Whole (p : Sent) (fragments : List Fragment) : Prop :=
  ∀ f ∈ fragments, (f.ip, f.port, f.nSeq) = p.key →
    f.nPart < p.parts.length ∧ f = p.fragment f.nPart

lemma gather_from {p : Sent} {fragments : List Fragment} (h : Whole p fragments)
    (parts : List ℕ) :
    fragments.foldlM
      (fun needed f =>
        if f.port = p.port ∧ f.nSeq = p.seq ∧ f.ip = p.ip then
          if f.nPart < needed.length then some (needed.set f.nPart (some f.data)) else none
        else some needed) (filled p.parts.length p.datagram parts) =
      some (filled p.parts.length p.datagram ((storedParts p fragments).reverse ++ parts)) := by
  induction fragments generalizing parts with
  | nil => rfl
  | cons f fragments ih =>
    have hrest : Whole p fragments := fun f hf => h f (List.mem_cons_of_mem _ hf)
    rw [List.foldlM_cons]
    by_cases hf : f.port = p.port ∧ f.nSeq = p.seq ∧ f.ip = p.ip
    · obtain ⟨hlt, heq⟩ := h f List.mem_cons_self (by
        rw [Sent.key, hf.1, hf.2.1, hf.2.2])
      have hdata : f.data = p.datagram f.nPart := congrArg Fragment.data heq
      have hlen : f.nPart < (filled p.parts.length p.datagram parts).length := by
        simpa [filled] using hlt
      rw [if_pos hf, if_pos hlen, hdata, set_filled, Option.bind_eq_bind, Option.bind_some,
        ih hrest, storedParts_cons, if_pos hf, List.reverse_cons, List.append_assoc,
        List.singleton_append]
    · rw [if_neg hf, Option.bind_eq_bind, Option.bind_some, ih hrest, storedParts_cons, if_neg hf]

lemma gather_eq {p : Sent} {u : Udp} (h : Whole p u.fragmentedPackets) :
    gather u p.ip p.port p.seq p.parts.length =
      some (filled p.parts.length p.datagram (storedParts p u.fragmentedPackets).reverse) := by
  have hnone : List.replicate p.parts.length (none : Option Bytes) =
      filled p.parts.length p.datagram [] := by
    simp [filled, List.map_const']
  rw [gather, hnone, gather_from h, List.append_nil]

@[simp] lemma fragmentedPackets_udpSendAck (u : Udp) (ip : Ip) (port counter : ℕ) :
    (udpSendAck u ip port counter).fragmentedPackets = u.fragmentedPackets := rfl

lemma parseUdpPacket_datagram {p : Sent} {u : Udp} {j : ℕ} :
    parseUdpPacket u p.ip p.port (p.datagram j) =
      parseFragment (if p.flags &&& 2 ≠ 0 then udpSendAck u p.ip p.port p.seq else u) p.ip p.port
        p.flags (.ofNat (j + 1)) (.ofNat p.parts.length) p.seq (p.datagram j) := by
  have hpos := p.parts_pos
  have hlt := p.parts_lt
  have hcount : UInt8.ofNat p.parts.length ≠ 0 := by
    rw [Ne, ← UInt8.toNat_inj, UInt8.toNat_ofNat']
    simp
    omega
  have hshape : p.datagram j = 71 :: 78 :: 68 :: p.flags :: .ofNat (p.seq % 256) ::
      .ofNat (p.seq / 256 % 256) :: .ofNat (j + 1) :: .ofNat p.parts.length ::
        p.parts.getD j [] := rfl
  rw [hshape]
  simp only [parseUdpPacket]
  rw [if_neg (by decide), seqBytes_seq p.seq_lt, if_neg hcount]

lemma parseFragment_frame (u : Udp) (ip : Ip) (port : ℕ) (nFlags part nCount : UInt8)
    (nSequence : ℕ) (buf : Bytes) :
    (parseFragment u ip port nFlags part nCount nSequence buf).1.udpCounter = u.udpCounter ∧
      (parseFragment u ip port nFlags part nCount nSequence buf).1.waitingForAck =
        u.waitingForAck := by
  rw [parseFragment]
  split_ifs
  · exact ⟨rfl, rfl⟩
  · dsimp only
    -- Nothing happens, or the fragment is stored
    repeat' split
    all_goals exact ⟨rfl, rfl⟩
  · exact ⟨rfl, rfl⟩

lemma parseUdpPacket_frame (p : Sent) (u : Udp) (j : ℕ) :
    (parseUdpPacket u p.ip p.port (p.datagram j)).1.udpCounter = u.udpCounter ∧
      (parseUdpPacket u p.ip p.port (p.datagram j)).1.waitingForAck = u.waitingForAck := by
  rw [parseUdpPacket_datagram]
  split_ifs
  · exact parseFragment_frame (udpSendAck u p.ip p.port p.seq) ..
  · exact parseFragment_frame u ..

lemma parseFragment_part {p : Sent} {u : Udp} {j : ℕ} (hj : j < p.parts.length)
    (hmany : 1 < p.parts.length) (h : Whole p u.fragmentedPackets) :
    parseFragment u p.ip p.port p.flags (.ofNat (j + 1)) (.ofNat p.parts.length) p.seq
        (p.datagram j) =
      if j ∈ storedParts p u.fragmentedPackets then (u, .fragmentedPacket)
      else if ∀ k < p.parts.length, k = j ∨ k ∈ storedParts p u.fragmentedPackets then
        (u, .handOver p.flags p.parts.flatten)
      else (storeFragment u (p.fragment j), .fragmentedPacket) := by
  have hlt := p.parts_lt
  have hcount : (UInt8.ofNat p.parts.length).toNat = p.parts.length := by
    rw [UInt8.toNat_ofNat']
    omega
  have hpart : (UInt8.ofNat (j + 1)).toNat = j + 1 := by
    rw [UInt8.toNat_ofNat']
    omega
  have hpart0 : UInt8.ofNat (j + 1) ≠ 0 := by
    rw [Ne, ← UInt8.toNat_inj, hpart]
    simp
  have hcount1 : 1 < UInt8.ofNat p.parts.length := by
    rw [UInt8.lt_iff_toNat_lt, hcount]
    simpa using hmany
  rw [parseFragment, if_pos hcount1, if_neg hpart0, hpart, hcount]
  simp only [Nat.add_sub_cancel, gather_eq h, getElem?_filled hj, set_filled, present_filled,
    List.mem_cons, List.mem_reverse]
  by_cases hstored : j ∈ storedParts p u.fragmentedPackets
  · rw [if_pos hstored, if_pos hstored]
  · rw [if_neg hstored, if_neg hstored]
    by_cases hall : ∀ k < p.parts.length, k = j ∨ k ∈ storedParts p u.fragmentedPackets
    · rw [if_pos hall, if_pos hall]
      simp only [p.concatenated_parts]
    · rw [if_neg hall, if_neg hall]
      rfl

lemma parseFragment_single {p : Sent} {u : Udp} (hone : p.parts.length = 1) :
    parseFragment u p.ip p.port p.flags (.ofNat 1) (.ofNat p.parts.length) p.seq (p.datagram 0) =
      (u, .handOver p.flags p.parts.flatten) := by
  obtain ⟨part, hparts⟩ := List.length_eq_one_iff.mp hone
  rw [parseFragment, hone, if_neg (by decide), p.drop_datagram, hparts]
  simp

lemma parseUdpPacket_part {p : Sent} {u : Udp} {j : ℕ} (hj : j < p.parts.length)
    (h : Whole p u.fragmentedPackets)
    (hone : p.parts.length = 1 → j ∉ storedParts p u.fragmentedPackets) :
    ∃ u', (u' = udpSendAck u p.ip p.port p.seq ∨ u' = u) ∧
      parseUdpPacket u p.ip p.port (p.datagram j) =
        if j ∈ storedParts p u.fragmentedPackets then (u', .fragmentedPacket)
        else if ∀ k < p.parts.length, k = j ∨ k ∈ storedParts p u.fragmentedPackets then
          (u', .handOver p.flags p.parts.flatten)
        else (storeFragment u' (p.fragment j), .fragmentedPacket) := by
  let u' := if p.flags &&& 2 ≠ 0 then udpSendAck u p.ip p.port p.seq else u
  have hfragments : u'.fragmentedPackets = u.fragmentedPackets := by
    simp only [u']
    split_ifs <;> rfl
  refine ⟨u', by simp only [u']; split_ifs <;> simp, ?_⟩
  rw [parseUdpPacket_datagram]
  change parseFragment u' _ _ _ _ _ _ _ = _
  clear_value u'
  rw [← hfragments]
  by_cases hmany : 1 < p.parts.length
  · exact parseFragment_part hj hmany (hfragments ▸ h)
  · have hsingle : p.parts.length = 1 := by have := p.parts_pos; omega
    obtain rfl : j = 0 := by omega
    have hall : ∀ k < p.parts.length, k = 0 ∨ k ∈ storedParts p u'.fragmentedPackets := by
      intro k hk
      exact .inl (by omega)
    rw [if_neg (hfragments ▸ hone hsingle), if_pos hall]
    exact parseFragment_single hsingle

end Mldonkey.Gnutella2
