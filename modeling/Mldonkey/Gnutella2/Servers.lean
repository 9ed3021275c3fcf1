import Mldonkey.Gnutella2.Stream
import Mldonkey.Gnutella2.UdpFragments

-- The packets that are sent to Gnutella2 servers, and what servers read of them.
namespace Mldonkey.Gnutella2

open Bencode (Bytes ofString)
open Donkey (Ip Md4)
open Donkey.LittleEndian (bufInt16 bufInt64_32)

-- The address is the one of the client.
def serverSendPing (addr : Addr) : Packet := packet .pi [packet (.piUdp addr) []]

def hostSendQkr : Packet := packet .qkr []

def serverSendLni (addr : Addr) (clientUid : Md4) (files kb : Int) : Packet :=
  packet .lni [packet (.lniNa addr) [], packet (.lniGu clientUid) [],
    packet (.lniV (ofString "MLDK")) [], packet (.lniLs files kb) []]

inductive QueryKey where
  | noUdpSupport
  | guessSupport
  | udpSupport (uid : Md4)
  | udpQueryKey (key : Int)

def interests : List Bytes :=
  [ofString "URL", ofString "DN", ofString "MD", ofString "COM", ofString "PFS", []]

def serverSendQuery (quid : Md4) (words xmlQuery : Bytes) (addr : Addr) (key : QueryKey) : Packet :=
  let args := [packet (.q2I interests) []]
  let args := if xmlQuery ≠ [] then packet (.q2Md xmlQuery) [] :: args else args
  let args := packet (.q2Dn words) [] :: args
  let args :=
    match key with
    | .noUdpSupport => args
    | .udpQueryKey k => packet (.q2Udp addr (some k)) [] :: args
    | _ => packet (.q2Udp addr (some 0)) [] :: args
  packet (.q2 quid) args

-- use_magnet is false.
def serverAskUid (quid : Md4) (fuid : Uids.Uid) (addr : Addr) (key : QueryKey) : Packet :=
  let args := [packet (.q2Urn fuid) [], packet (.q2I interests) []]
  let args :=
    match key with
    | .noUdpSupport => args
    | .udpQueryKey k => packet (.q2Udp addr (some k)) [] :: args
    | _ => packet (.q2Udp addr none) [] :: args
  packet (.q2 quid) args

-- What server_send_khl reads of a server
structure Hub where
  vendor : Bytes
  addr : Addr
  connected : Bool

def Hub.listed (s : Hub) : Bool := s.vendor ≠ [] && s.connected

def Hub.packet (time : Int) (s : Hub) : Packet :=
  Gnutella2.packet (.khlCh s.addr time) [Gnutella2.packet (.khlChV s.vendor) []]

-- The reference that List.iter adds to
def khlChildren (time : Int) (connectedServers : List Hub) : List Packet :=
  connectedServers.foldl
    (fun children s => if s.listed then s.packet time :: children else children) []

def serverSendKhl (time : Int) (connectedServers : List Hub) : Packet :=
  packet .khl [packet (.khlTs time) (khlChildren time connectedServers)]

section Surviving

variable {addr : Addr} {names : List Name} {p : Payload}

-- A payload without children in its place
theorem Survives.leaf (below : p.Below names) (range : p.InRange) (hit : HitKept p []) :
    Survives names (packet p []) :=
  .node below range hit fun _ hc => absurd hc List.not_mem_nil

def QueryKey.Fits : QueryKey → Prop
  | .udpQueryKey key => Donkey.Fits 32 key
  | _ => True

theorem interests_kept : interests ≠ [] ∧ ∀ s ∈ interests, 0 ∉ s := by decide

theorem serverSendPing_survives (ha : Donkey.Fits 16 addr.2) :
    Survives [] (serverSendPing addr) := by
  refine .node (.inr rfl) trivial trivial ?_
  rw [List.forall_mem_singleton]
  exact .leaf (.inr rfl) ha trivial

theorem serverSendLni_survives {files kb : Int} (uid : Md4) (ha : Donkey.Fits 16 addr.2)
    (hf : Donkey.Fits 32 files) (hk : Donkey.Fits 32 kb) :
    Survives [] (serverSendLni addr uid files kb) := by
  refine .node (.inr rfl) trivial trivial ?_
  simp only [List.forall_mem_cons]
  refine ⟨.leaf (.inr rfl) ha trivial, .leaf (.inr rfl) trivial trivial,
    .leaf (.inr rfl) rfl trivial, .leaf (.inr rfl) ⟨hf, hk⟩ trivial, ?_⟩
  exact fun _ hc => absurd hc List.not_mem_nil

theorem udp_survives {key : Option Int} (ha : Donkey.Fits 16 addr.2)
    (hk : ∀ k ∈ key, Donkey.Fits 32 k) :
    Survives [.q2] (packet (.q2Udp addr key) []) :=
  .leaf (.inr rfl) ⟨ha, hk⟩ trivial

theorem serverSendQuery_survives {words xmlQuery : Bytes} {key : QueryKey} (quid : Md4)
    (ha : Donkey.Fits 16 addr.2) (hk : key.Fits) (hw : 0 ∉ words) (hx : 0 ∉ xmlQuery) :
    Survives [] (serverSendQuery quid words xmlQuery addr key) := by
  have hi : Survives [.q2] (packet (.q2I interests) []) :=
    .leaf (.inr rfl) interests_kept trivial
  have hargs : ∀ c ∈ packet (.q2Dn words) [] ::
      (if xmlQuery ≠ [] then [packet (.q2Md xmlQuery) [], packet (.q2I interests) []]
        else [packet (.q2I interests) []]), Survives [.q2] c := by
    rw [List.forall_mem_cons]
    refine ⟨.leaf (.inr rfl) hw trivial, ?_⟩
    split
    · rw [List.forall_mem_cons, List.forall_mem_singleton]
      exact ⟨.leaf (.inr rfl) hx trivial, hi⟩
    · rw [List.forall_mem_singleton]
      exact hi
  refine .node (.inr rfl) trivial trivial ?_
  cases key with
  | noUdpSupport => exact hargs
  | guessSupport =>
    exact List.forall_mem_cons.mpr ⟨udp_survives ha fun k hk => by cases hk; decide, hargs⟩
  | udpSupport uid =>
    exact List.forall_mem_cons.mpr ⟨udp_survives ha fun k hk => by cases hk; decide, hargs⟩
  | udpQueryKey key =>
    exact List.forall_mem_cons.mpr ⟨udp_survives ha fun k h => by cases h; exact hk, hargs⟩

theorem serverAskUid_survives {fuid : Uids.Uid} {key : QueryKey} (quid : Md4)
    (ha : Donkey.Fits 16 addr.2) (hk : key.Fits) (hu : Payload.Written fuid) :
    Survives [] (serverAskUid quid fuid addr key) := by
  have hargs : ∀ c ∈ [packet (.q2Urn fuid) [], packet (.q2I interests) []], Survives [.q2] c := by
    rw [List.forall_mem_cons, List.forall_mem_singleton]
    exact ⟨.leaf (.inr rfl) hu trivial, .leaf (.inr rfl) interests_kept trivial⟩
  refine .node (.inr rfl) trivial trivial ?_
  cases key with
  | noUdpSupport => exact hargs
  | guessSupport =>
    exact List.forall_mem_cons.mpr
      ⟨udp_survives ha fun k hk => absurd hk (Option.not_mem_none k), hargs⟩
  | udpSupport uid =>
    exact List.forall_mem_cons.mpr
      ⟨udp_survives ha fun k hk => absurd hk (Option.not_mem_none k), hargs⟩
  | udpQueryKey key =>
    exact List.forall_mem_cons.mpr ⟨udp_survives ha fun k h => by cases h; exact hk, hargs⟩

end Surviving

section Hubs

variable {names : List Name} {name : Name} {children : List Packet} {payload : Payload} {s : Bytes}

-- A packet that is not read as a hit has the children that are read below it.
theorem received_of_ne (he : encodePayload payload = some (name, s))
    (hne : decodePayload ((name :: names).map Name.text) false s ≠ .qh2H) :
    received (names.map Name.text) ⟨children, payload⟩ =
      ⟨children.map (received ((name :: names).map Name.text)),
        decodePayload ((name :: names).map Name.text) false s⟩ := by
  rw [List.map_cons] at hne ⊢
  rw [received]
  simp only [he, hitChildren_of_ne hne, List.reverse_reverse, receivedAll_eq]

theorem decodePayload_none (names : List Name) (s : Bytes) (h : decodeNames names s = none) :
    decodePayload (names.map Name.text) false s = .unknown (names.map Name.text) false s := by
  rw [decodePayload, map_read, h]
  rfl

theorem decodePayload_some (names : List Name) {p : Payload} (h : decodeNames names s = some p) :
    decodePayload (names.map Name.text) false s = p := by
  rw [decodePayload, map_read, h]
  rfl

-- What is read of a hub in the list of hubs: its packets have no meaning there.
def Hub.unread (time : Int) (s : Hub) : Packet :=
  Gnutella2.packet
    (.unknown ([Name.ch, .ts, .khl].map Name.text) false (bufAddrInt s.addr (some time)))
    [Gnutella2.packet (.unknown ([Name.v, .ch, .ts, .khl].map Name.text) false s.vendor) []]

theorem received_hub (time : Int) (s : Hub) :
    received ([Name.ts, .khl].map Name.text) (s.packet time) = s.unread time := by
  have hch := decodePayload_none [.ch, .ts, .khl] (bufAddrInt s.addr (some time)) rfl
  have hv := decodePayload_none [.v, .ch, .ts, .khl] s.vendor rfl
  have hvendor : received ([Name.ch, .ts, .khl].map Name.text) (packet (.khlChV s.vendor) []) =
      packet (.unknown ([Name.v, .ch, .ts, .khl].map Name.text) false s.vendor) [] := by
    rw [packet, received_of_ne rfl (by rw [hv]; simp), hv]
    rfl
  rw [Hub.packet, packet, received_of_ne rfl (by rw [hch]; simp), hch, List.map_singleton,
    hvendor]
  rfl

theorem khlChildren_eq (time : Int) (servers : List Hub) :
    khlChildren time servers = ((servers.filter Hub.listed).map (Hub.packet time)).reverse := by
  suffices hfold : ∀ acc, servers.foldl
      (fun children s => if s.listed then s.packet time :: children else children) acc =
        ((servers.filter Hub.listed).map (Hub.packet time)).reverse ++ acc by
    rw [khlChildren, hfold, List.append_nil]
  intro acc
  induction servers generalizing acc with
  | nil => rfl
  | cons s servers ih =>
    rw [List.foldl_cons, ih, List.filter_cons]
    split
    · rw [List.map_cons, List.reverse_cons, List.append_assoc, List.singleton_append]
    · rfl

-- Only the time is read of a list of hubs: the hubs stand below the time instead of beside
-- it, where their packets are unknown.
theorem received_khl {time : Int} (ht : Donkey.Fits 32 time) (servers : List Hub) :
    received [] (serverSendKhl time servers) =
      packet .khl [packet (.khlTs time)
        ((servers.filter Hub.listed).map (Hub.unread time)).reverse] := by
  have hkhl := decodePayload_some [.khl] (s := []) (p := .khl) rfl
  have hts := decodePayload_some [.ts, .khl] (s := bufInt64_32 time)
    (p := .khlTs time) (map_getInt ht .khlTs)
  have hhubs : received ([Name.ts, .khl].map Name.text) ∘ Hub.packet time = Hub.unread time :=
    funext (received_hub time)
  have hchildren : received ([Name.khl].map Name.text) ⟨khlChildren time servers, .khlTs time⟩ =
      ⟨((servers.filter Hub.listed).map (Hub.unread time)).reverse, .khlTs time⟩ := by
    rw [received_of_ne rfl (by rw [hts]; simp), hts, khlChildren_eq, List.map_reverse,
      List.map_map, hhubs]
  rw [serverSendKhl, packet, packet, ← List.map_nil (f := Name.text),
    received_of_ne rfl (by rw [hkhl]; simp), hkhl, List.map_singleton, hchildren]
  rfl

theorem exists_encode_khl (time : Int) (servers : List Hub) :
    ∃ b, g2Encode (serverSendKhl time servers) = some b := by
  have hall : ∀ l : List Hub, ∃ bs, g2EncodeAll (l.map (Hub.packet time)) = some bs := by
    intro l
    induction l with
    | nil => exact ⟨[], rfl⟩
    | cons s l ih =>
      obtain ⟨bs, hbs⟩ := ih
      rw [List.map_cons, g2EncodeAll, hbs]
      exact ⟨_, rfl⟩
  obtain ⟨bs, hbs⟩ := hall (servers.filter Hub.listed).reverse
  rw [List.map_reverse, ← khlChildren_eq] at hbs
  simp [serverSendKhl, packet, g2Encode, g2EncodeAll, hbs, encodePayload]

-- A list of hubs is read back exactly if no hub is in it; of every other one the time is
-- read, and every hub as a packet of unknown meaning.
theorem server_send_khl_iff {time : Int} (ht : Donkey.Fits 32 time) (servers : List Hub) :
    ∃ b, g2Encode (serverSendKhl time servers) = some b ∧
      (b.length < 2 ^ 24 → ∀ before after : Bytes, ∃ p,
        parse (before ++ (b ++ after)) before.length = some (p, b, before.length + b.length) ∧
          p = packet .khl [packet (.khlTs time)
            ((servers.filter Hub.listed).map (Hub.unread time)).reverse] ∧
          (p = serverSendKhl time servers ↔ ∀ s ∈ servers, ¬ s.listed)) := by
  obtain ⟨b, hb⟩ := exists_encode_khl time servers
  refine ⟨b, hb, fun hlen before after => ⟨_, parse_received hb hlen before after,
    received_khl ht servers, ?_⟩⟩
  rw [received_khl ht servers, serverSendKhl, khlChildren_eq, ← List.filter_eq_nil_iff]
  constructor
  · intro h
    cases hl : servers.filter Hub.listed with
    | nil => rfl
    | cons s l =>
      rw [hl] at h
      simp [packet, Hub.unread, Hub.packet] at h
  · intro h
    rw [h]
    rfl

theorem server_send_khl_iff_hub :
    ∃ b, g2Encode (serverSendKhl 5 [⟨ofString "RAZA", (⟨258, 772⟩, 6346), true⟩]) = some b ∧
      (b.length < 2 ^ 24 → ∀ before after : Bytes, ∃ p,
        parse (before ++ (b ++ after)) before.length = some (p, b, before.length + b.length) ∧
          p = packet .khl [packet (.khlTs 5)
            (([⟨ofString "RAZA", (⟨258, 772⟩, 6346), true⟩].filter Hub.listed).map
              (Hub.unread 5)).reverse] ∧
          (p = serverSendKhl 5 [⟨ofString "RAZA", (⟨258, 772⟩, 6346), true⟩] ↔
            ∀ s ∈ [(⟨ofString "RAZA", (⟨258, 772⟩, 6346), true⟩ : Hub)], ¬ s.listed)) :=
  server_send_khl_iff (by decide) _

end Hubs

section Datagrams

-- The end of parse_udp_packet, for the bytes behind the headers of the datagrams.
-- `uncompressString` is the function of Zlib.
def datagramPacket (uncompressString : Bytes → Bytes) (nFlags : UInt8) (trailer : Bytes) :
    Option Packet := do
  let buf := if nFlags &&& 1 ≠ 0 then uncompressString trailer else trailer
  let cb ← controlAt buf 0
  let (len, pos) ← lengthAt buf 0 (lenLenIn cb) (bigEndianIn cb)
  let name ← Donkey.LittleEndian.sub buf pos (nameLenIn cb)
  let packet ← Donkey.LittleEndian.sub buf (pos + nameLenIn cb) len
  g2Parse [name] (hasChildrenIn cb) (bigEndianIn cb) packet

theorem datagramPacket_read {p : Packet} {b : Bytes} {uncompressString : Bytes → Bytes}
    {nFlags : UInt8} {trailer : Bytes} (h : ReadAs g2Parse [] p b)
    (hb : (if nFlags &&& 1 ≠ 0 then uncompressString trailer else trailer) = b) :
    datagramPacket uncompressString nFlags trailer = some p := by
  obtain ⟨cb, name, packet, hasChildren, hhead, hlen, hp⟩ :=
    h.2 (show b.drop 0 = b ++ [] by rw [List.drop_zero, List.append_nil]) (Nat.zero_le _)
  have hname := hhead.name
  have hpacket := hhead.packet
  rw [Nat.zero_add] at hname hpacket
  rw [datagramPacket, hb]
  simp only [hhead.control, hhead.little, hhead.length, Option.bind_eq_bind, Option.bind_some,
    hname, hpacket, hhead.flag, hp]

-- What a client sends in a datagram, another one reads in any state, whether it is long enough
-- to be compressed or not.
theorem udp_send_received {compressString uncompressString : Bytes → Bytes}
    (hzlib : ∀ s : Bytes, maxUncompressPacket < s.length → uncompressString (compressString s) = s)
    {p : Packet} (hp : Survives [] p) (hlen : p.bytes.length < 2 ^ 24) (u v : Udp)
    (ip source : Ip) (port sourcePort : ℕ) (lastTime : ℤ) :
    ∃ s nFlags trailer, (udpSend compressString u ip port p.bytes lastTime).written =
        (s, ip, port) :: u.written ∧
      (parseUdpPacket v source sourcePort s).2 = .handOver nFlags trailer ∧
        datagramPacket uncompressString nFlags trailer = some p := by
  have hread := (hp.handlerStep hlen).1
  by_cases hc : maxUncompressPacket < p.bytes.length
  · refine ⟨_, 3, compressString p.bytes, rfl, ?_, datagramPacket_read hread (hzlib p.bytes hc)⟩
    simp only [hc, decide_true, if_true]
    rfl
  · refine ⟨_, 2, p.bytes, rfl, ?_, datagramPacket_read hread rfl⟩
    simp only [hc, decide_false, if_false, Bool.false_eq_true]
    rfl

def adler32 (s : Bytes) : Nat :=
  let sums := s.foldl (fun p c => ((p.1 + c.toNat) % 65521, (p.2 + p.1 + c.toNat) % 65521)) (1, 0)
  sums.2 * 2 ^ 16 + sums.1

-- A string in one stored block of zlib, and what is in such a block
def stored (s : Bytes) : Bytes :=
  [0x78, 0x01, 0x01] ++ bufInt16 s.length ++ bufInt16 (65535 - s.length) ++
    (s ++ (bufInt64_32 (adler32 s)).reverse)

def unstored (s : Bytes) : Bytes := (s.drop 7).take (s.length - 11)

theorem unstored_stored (s : Bytes) : unstored (stored s) = s := by
  have hlen : (stored s).length - 11 = s.length := by
    simp only [stored, List.length_append, List.length_cons, List.length_nil, List.length_reverse,
      Donkey.LittleEndian.length_bufInt16, Donkey.LittleEndian.length_bufInt64_32]
    omega
  have hheader : ([0x78, 0x01, 0x01] ++ bufInt16 s.length ++ bufInt16 (65535 - s.length)).length =
      7 := rfl
  rw [unstored, hlen, stored, List.drop_left' hheader, List.take_left]

-- A query for a word of 1300 letters, which is compressed
def longQuery : Packet :=
  serverSendQuery ⟨List.replicate 16 7, List.length_replicate⟩ (List.replicate 1300 97) []
    (⟨3, 4⟩, 6347) .guessSupport

theorem udp_send_received_query : maxUncompressPacket < longQuery.bytes.length ∧
    ∃ s nFlags trailer,
      (udpSend stored .initial ⟨1, 2⟩ 6346 longQuery.bytes 0).written =
        (s, ⟨1, 2⟩, 6346) :: Udp.initial.written ∧
      (parseUdpPacket .initial ⟨3, 4⟩ 6347 s).2 = .handOver nFlags trailer ∧
        datagramPacket unstored nFlags trailer = some longQuery := by
  have hlen : longQuery.bytes.length = 1363 := by decide +kernel
  refine ⟨by rw [hlen]; decide, ?_⟩
  have hquery : Survives [] longQuery :=
    serverSendQuery_survives _ (by decide) trivial
      (fun h => absurd (List.eq_of_mem_replicate h) (by decide)) List.not_mem_nil
  exact udp_send_received (fun s _ => unstored_stored s) hquery (by rw [hlen]; decide) .initial
    .initial ⟨1, 2⟩ ⟨3, 4⟩ 6346 6347 0

end Datagrams

end Mldonkey.Gnutella2
