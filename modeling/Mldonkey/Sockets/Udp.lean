import Mldonkey.Donkey.LittleEndian
import Mldonkey.Lib.Runs
import Mathlib

-- The packets that a UDP socket has accepted and not yet sent.
namespace Mldonkey.UdpSocket

open BigEndian (bufInt8)
open Donkey (Ip)
open Donkey.LittleEndian (bufInt16 bufIp)
open Runs (Meets Reach)

abbrev Bytes := List UInt8

structure UdpPacket where
  udpPing : Bool
  udpContent : Bytes
  udpAddr : Ip × ℤ
  deriving DecidableEq

-- A packet in the set, with the time behind which it is not sent any more
abbrev Entry := ℤ × UdpPacket

-- The order of the set: the time, the length, and what compare says of the packets
def Entry.key (e : Entry) :=
  toLex (e.1, toLex (e.2.udpContent.length, toLex (e.2.udpPing,
    toLex (e.2.udpContent.map UInt8.toNat, toLex (e.2.udpAddr.1.hi.toNat,
      toLex (e.2.udpAddr.1.lo.toNat, e.2.udpAddr.2))))))

-- PacketSet.add
def addEntry (e : Entry) (wlist : List Entry) : List Entry :=
  if e ∈ wlist then wlist else wlist.orderedInsert (fun a b : Entry => Entry.key a ≤ Entry.key b) e

structure BandwidthControler where
  remainingBytes : ℤ
  totalBytes : ℤ
  allowIo : Bool
  baseTime : ℤ

-- `accepted`, `sent`, `expired` and `failed` tell what became of the packets; the code does
-- not keep them.
structure T where
  closed : Bool
  wlist : List Entry
  wlistSize : ℤ
  writeControler : Option BandwidthControler
  socksLocal : Option (Ip × ℤ)
  accepted : List UdpPacket
  sent : List UdpPacket
  expired : List UdpPacket
  failed : List UdpPacket

def T.create (writeControler : Option BandwidthControler) (socksLocal : Option (Ip × ℤ)) : T :=
  ⟨false, [], 0, writeControler, socksLocal, [], [], [], []⟩

-- What Unix.sendto does: it is done, it fails with EWOULDBLOCK or ENOBUFS, or with another error.
inductive Result
  | success
  | wouldBlock
  | error
  deriving DecidableEq

def maxDelayedSend : ℤ := 1

namespace T

def put (t : T) (e : Entry) : T :=
  { t with wlist := addEntry e t.wlist, wlistSize := t.wlistSize + e.2.udpContent.length }

-- The packet as it goes out, perhaps through a proxy
def packet (t : T) (ping : Bool) (s : Bytes) (ip : Ip) (port : ℤ) : UdpPacket :=
  match t.socksLocal with
  | none => ⟨ping, s, ip, port⟩
  | some (proxyIp, proxyPort) =>
    ⟨ping, bufInt8 0 ++ bufInt8 0 ++ bufInt8 0 ++ bufInt8 1 ++ bufIp proxyIp ++
      bufInt16 proxyPort ++ s, proxyIp, proxyPort⟩

-- The condition in write; `maxWlistSize` is an option.
def Accepts (maxWlistSize : ℤ) (t : T) : Prop := t.closed = false ∧ t.wlistSize < maxWlistSize

instance (maxWlistSize : ℤ) (t : T) : Decidable (t.Accepts maxWlistSize) :=
  inferInstanceAs (Decidable (_ ∧ _))

-- The time with which a packet is put into the set
def time (t : T) : ℤ :=
  match t.writeControler with
  | none => 0
  | some bc => bc.baseTime + maxDelayedSend

-- `result` is what sendto does when the packet is sent directly. The error is raised again.
def write (maxWlistSize : ℤ) (t : T) (ping : Bool) (s : Bytes) (ip : Ip) (port : ℤ)
    (result : Result) : T :=
  if t.Accepts maxWlistSize then
    let p := t.packet ping s ip port
    let e := (t.time, p)
    let t := { t with accepted := p :: t.accepted }
    match t.writeControler with
    | none =>
      if t.wlist ≠ [] then
        match result with
        | .success => { t with sent := p :: t.sent }
        | .wouldBlock => t.put e
        | .error => { t with failed := p :: t.failed }
      else t.put e
    | some _ => t.put e
  else t

def take (t : T) (e : Entry) (wlist : List Entry) : T :=
  { t with wlist := wlist, wlistSize := t.wlistSize - e.2.udpContent.length }

-- The loops go over the set from the least entry on; `n` counts the calls of sendto, and
-- `sendto` tells what they do.
def iterWriteNoBc (sendto : ℕ → Result) : ℕ → T → List Entry → T
  | _, t, [] => t
  | n, t, e :: wlist =>
    let t := t.take e wlist
    match sendto n with
    | .success => iterWriteNoBc sendto (n + 1) { t with sent := e.2 :: t.sent } wlist
    | .wouldBlock => t
    | .error => iterWriteNoBc sendto (n + 1) { t with failed := e.2 :: t.failed } wlist

def iterWrite (ipPacketSize : ℤ) (sendto : ℕ → Result) (bc : BandwidthControler) :
    ℕ → T → List Entry → T × BandwidthControler
  | _, t, [] => (t, if bc.totalBytes = 0 ∨ 0 < bc.remainingBytes then bc
      else { bc with allowIo := false })
  | n, t, e :: wlist =>
    if bc.totalBytes = 0 ∨ 0 < bc.remainingBytes then
      let t := t.take e wlist
      if e.1 < bc.baseTime then
        iterWrite ipPacketSize sendto bc n { t with expired := e.2 :: t.expired } wlist
      else
        match sendto n with
        | .success =>
          let bc := { bc with
            remainingBytes := bc.remainingBytes - (e.2.udpContent.length + ipPacketSize) }
          iterWrite ipPacketSize sendto bc (n + 1) { t with sent := e.2 :: t.sent } wlist
        | .wouldBlock => (t, bc)
        | .error =>
          iterWrite ipPacketSize sendto bc (n + 1) { t with failed := e.2 :: t.failed } wlist
    else (t, { bc with allowIo := false })

-- The event CAN_WRITE
def canWrite (ipPacketSize : ℤ) (t : T) (sendto : ℕ → Result) : T :=
  match t.writeControler with
  | none => iterWriteNoBc sendto 0 t t.wlist
  | some bc =>
    let (t, bc) := iterWrite ipPacketSize sendto bc 0 t t.wlist
    { t with writeControler := some bc }

-- udp_user, which the controller of the TCP sockets calls with its rate
def tick (t : T) (total : ℤ) : T :=
  match t.writeControler with
  | none => t
  | some bc =>
    let remainingBytes := total.tdiv 2
    let remainingBytes := if total ≠ 0 ∧ total < remainingBytes then total else remainingBytes
    { t with writeControler := some {
        baseTime := bc.baseTime + 1
        totalBytes := total
        remainingBytes
        allowIo := total = 0 || 0 < remainingBytes } }

end T

-- The options that the socket reads
structure Options where
  maxWlistSize : ℤ
  ipPacketSize : ℤ

inductive Op
  | write (ping : Bool) (s : Bytes) (ip : Ip) (port : ℤ) (result : Result)
  | canWrite (sendto : ℕ → Result)
  | tick (total : ℤ)

def next (o : Options) : Op → T → T
  | .write ping s ip port result, t => t.write o.maxWlistSize ping s ip port result
  | .canWrite sendto, t => t.canWrite o.ipPacketSize sendto
  | .tick total, t => t.tick total

-- The bytes that wait
def T.waiting (t : T) : ℤ := (t.wlist.map fun e => (e.2.udpContent.length : ℤ)).sum

-- A packet is not written while one like it waits with the same time, and no call of sendto in a
-- write event would block.
def Fits (o : Options) (t : T) : Op → Prop
  | .write ping s ip port result =>
    t.Accepts o.maxWlistSize → t.writeControler.isSome ∨ t.wlist = [] ∨ result = .wouldBlock →
      (t.time, t.packet ping s ip port) ∉ t.wlist
  | .canWrite sendto => ∀ n, sendto n ≠ .wouldBlock
  | .tick _ => True

-- What the counter and the set are to tell, and what becomes of the packets
structure Accounted (o : Options) (t : T) : Prop where
  size : t.wlistSize = t.waiting
  empty : t.wlist = [] → t.wlistSize = 0
  notRefused : t.closed = false → t.waiting < o.maxWlistSize → ∀ ping s ip port result,
    (t.write o.maxWlistSize ping s ip port result).accepted =
      t.packet ping s ip port :: t.accepted
  fate : t.accepted.Perm (t.wlist.map Prod.snd ++ t.sent ++ t.expired ++ t.failed)

section Accounts

variable {o : Options} {t : T} {e : Entry} {wlist : List Entry}

-- The two equations that every step keeps
def Kept (t : T) : Prop :=
  t.wlistSize = t.waiting ∧
    t.accepted.Perm (t.wlist.map Prod.snd ++ t.sent ++ t.expired ++ t.failed)

theorem perm_addEntry (h : e ∉ wlist) : (addEntry e wlist).Perm (e :: wlist) := by
  rw [addEntry, if_neg h]
  exact List.perm_orderedInsert _ e wlist

theorem Kept.put (h : Kept t) (hnew : e ∉ t.wlist) :
    Kept ({ t with accepted := e.2 :: t.accepted }.put e) := by
  have hperm := perm_addEntry hnew
  obtain ⟨hsize, hfate⟩ := h
  refine ⟨?_, ?_⟩
  · have hsum := (hperm.map fun e => (e.2.udpContent.length : ℤ)).sum_eq
    simp only [T.put, T.waiting] at *
    rw [hsum, List.map_cons, List.sum_cons, hsize]
    omega
  · simp only [T.put]
    refine (hfate.cons e.2).trans ?_
    have hmap := hperm.map Prod.snd
    rw [List.map_cons] at hmap
    simp only [List.append_assoc]
    exact (hmap.append_right _).symm

-- A packet that is taken from the set goes to one of the three lists
theorem Kept.take (h : Kept t) (hwlist : t.wlist = e :: wlist) :
    (t.take e wlist).wlistSize = (t.take e wlist).waiting ∧
      t.accepted.Perm (e.2 :: (wlist.map Prod.snd ++ t.sent ++ t.expired ++ t.failed)) := by
  obtain ⟨hsize, hfate⟩ := h
  rw [hwlist] at hfate
  refine ⟨?_, by simpa using hfate⟩
  simp only [T.take, T.waiting] at *
  rw [hsize, hwlist, List.map_cons, List.sum_cons]
  omega

theorem Kept.sent (h : Kept t) (hwlist : t.wlist = e :: wlist) :
    Kept { t.take e wlist with sent := e.2 :: t.sent } := by
  obtain ⟨hsize, hfate⟩ := h.take hwlist
  refine ⟨hsize, hfate.trans ?_⟩
  simp only [T.take, List.append_assoc]
  exact List.perm_middle.symm

theorem Kept.expired (h : Kept t) (hwlist : t.wlist = e :: wlist) :
    Kept { t.take e wlist with expired := e.2 :: t.expired } := by
  obtain ⟨hsize, hfate⟩ := h.take hwlist
  refine ⟨hsize, hfate.trans ?_⟩
  simp only [T.take]
  rw [List.append_assoc, List.append_assoc _ (e.2 :: t.expired)]
  exact List.perm_middle.symm

theorem Kept.failed (h : Kept t) (hwlist : t.wlist = e :: wlist) :
    Kept { t.take e wlist with failed := e.2 :: t.failed } := by
  obtain ⟨hsize, hfate⟩ := h.take hwlist
  exact ⟨hsize, hfate.trans List.perm_middle.symm⟩

theorem Kept.iterWriteNoBc {sendto : ℕ → Result} (hsendto : ∀ n, sendto n ≠ .wouldBlock) (n : ℕ)
    (h : Kept t) (hwlist : t.wlist = wlist) : Kept (T.iterWriteNoBc sendto n t wlist) := by
  induction wlist generalizing n t with
  | nil => exact h
  | cons e wlist ih =>
    rw [T.iterWriteNoBc]
    cases hresult : sendto n with
    | success => exact ih _ (h.sent hwlist) rfl
    | wouldBlock => exact absurd hresult (hsendto n)
    | error => exact ih _ (h.failed hwlist) rfl

theorem Kept.iterWrite {sendto : ℕ → Result} (hsendto : ∀ n, sendto n ≠ .wouldBlock)
    (ipPacketSize : ℤ) (bc : BandwidthControler) (n : ℕ) (h : Kept t) (hwlist : t.wlist = wlist) :
    Kept (T.iterWrite ipPacketSize sendto bc n t wlist).1 := by
  induction wlist generalizing n t bc with
  | nil => exact h
  | cons e wlist ih =>
    rw [T.iterWrite]
    split
    · split
      · exact ih _ _ (h.expired hwlist) rfl
      · cases hresult : sendto n with
        | success => exact ih _ _ (h.sent hwlist) rfl
        | wouldBlock => exact absurd hresult (hsendto n)
        | error => exact ih _ _ (h.failed hwlist) rfl
    · exact h

theorem Kept.write {ping : Bool} {s : Bytes} {ip : Ip} {port : ℤ} {result : Result} (h : Kept t)
    (hfits : Fits o t (.write ping s ip port result)) :
    Kept (t.write o.maxWlistSize ping s ip port result) := by
  rw [T.write]
  by_cases hacc : t.Accepts o.maxWlistSize
  · rw [if_pos hacc]
    have hnew := hfits hacc
    generalize hp : t.packet ping s ip port = p at hnew
    cases hbc : t.writeControler with
    | none =>
      dsimp only
      split
      · cases result with
        | success => exact ⟨h.1, (h.2.cons p).trans (by
            simp only [List.append_assoc]
            exact List.perm_middle.symm)⟩
        | wouldBlock => exact h.put (hnew (.inr (.inr rfl)))
        | error => exact ⟨h.1, (h.2.cons p).trans List.perm_middle.symm⟩
      · next hempty => exact h.put (hnew (.inr (.inl (not_not.mp hempty))))
    | some bc =>
      exact h.put (hnew (.inl (by simp [hbc])))
  · rw [if_neg hacc]
    exact h

theorem Kept.step (h : Kept t) {op : Op} (hfits : Fits o t op) : Kept (next o op t) := by
  cases op with
  | write ping s ip port result => exact h.write hfits
  | canWrite sendto =>
    show Kept (t.canWrite o.ipPacketSize sendto)
    rw [T.canWrite]
    cases t.writeControler with
    | none => exact h.iterWriteNoBc hfits 0 rfl
    | some bc => exact h.iterWrite hfits o.ipPacketSize bc 0 rfl
  | tick total =>
    show Kept (t.tick total)
    rw [T.tick]
    cases t.writeControler with
    | none => exact h
    | some bc => exact h

theorem write_accepted (hacc : t.Accepts o.maxWlistSize) (ping : Bool) (s : Bytes) (ip : Ip)
    (port : ℤ) (result : Result) :
    (t.write o.maxWlistSize ping s ip port result).accepted =
      t.packet ping s ip port :: t.accepted := by
  rw [T.write, if_pos hacc]
  cases t.writeControler with
  | some bc => rfl
  | none =>
    dsimp only
    split
    · cases result <;> rfl
    · rfl

-- Every run in which no packet is written twice and no send blocks
theorem queue_accounted {controler : Option BandwidthControler} {socks : Option (Ip × ℤ)}
    (h : Reach (next o) (· = T.create controler socks) (Fits o) t) : Accounted o t := by
  have hkept : Kept t := by
    refine h.inv (I := Kept) ?_ fun t op ht hop => ht.step hop
    rintro _ rfl
    exact ⟨rfl, .refl _⟩
  refine ⟨hkept.1, fun hempty => ?_, fun hopen hroom => ?_, hkept.2⟩
  · rw [hkept.1, T.waiting, hempty]
    rfl
  · exact write_accepted ⟨hopen, hkept.1.trans_lt hroom⟩

end Accounts

def usual : Options := ⟨100000, 40⟩

def controler : BandwidthControler := ⟨5000, 10000, true, 7⟩

def hello : Op := .write false [104, 105] .null 4662 .success

-- Three packets are written, of which two may be sent. Two ticks later the third one is expired,
-- one that was written in between fails, and another one waits.
def throttledOps : List Op :=
  [hello, .write false [98, 121, 101] .null 4662 .success,
    .write true [1, 2, 3, 4] .null 4672 .success, .canWrite fun _ => .success, .tick 100,
    .write false [7] .null 4662 .success, .tick 100, .canWrite fun _ => .error,
    .write false [5, 6] .null 4662 .success]

def throttled : T :=
  throttledOps.foldl (fun t op => next usual op t) (T.create (some ⟨60, 100, true, 7⟩) none)

theorem queue_accounted_throttled : Accounted usual throttled ∧ throttled.wlistSize = 2 ∧
    throttled.sent.map UdpPacket.udpContent = [[98, 121, 101], [104, 105]] ∧
    throttled.expired.map UdpPacket.udpContent = [[1, 2, 3, 4]] ∧
    throttled.failed.map UdpPacket.udpContent = [[7]] := by
  have hmeets : Meets (next usual) (Fits usual) (T.create (some ⟨60, 100, true, 7⟩) none)
      throttledOps := by
    refine ⟨fun _ _ => ?_, fun _ _ => ?_, fun _ _ => ?_, fun _ => by simp, trivial, fun _ _ => ?_,
      trivial, fun _ => by simp, fun _ _ => ?_, trivial⟩
    all_goals decide
  have hstart : Reach (next usual) (· = T.create (some ⟨60, 100, true, 7⟩) none) (Fits usual)
      (T.create (some ⟨60, 100, true, 7⟩) none) := .start rfl
  exact ⟨queue_accounted (hstart.run hmeets), by decide, by decide, by decide, by decide⟩

-- The same packet twice in one tick: it waits once and is counted twice
theorem queue_miscounted :
    ¬ ∀ (o : Options) (controler : Option BandwidthControler) (socks : Option (Ip × ℤ)) (t : T),
      Reach (next o) (· = T.create controler socks) (fun _ _ => True) t → Accounted o t := by
  intro h
  have htwice := h usual (some controler) none _ (@Reach.step _ _ _ _ _ _ hello
    (@Reach.step _ _ _ _ _ _ hello (.start rfl) trivial) trivial)
  exact absurd htwice.size (by decide)

end Mldonkey.UdpSocket
