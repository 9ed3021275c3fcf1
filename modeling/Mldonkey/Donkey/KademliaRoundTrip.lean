import Mldonkey.Donkey.KademliaMessages
import Mldonkey.Donkey.TagLists

-- What a message of Kademlia is on the other side.
namespace Mldonkey.Donkey.Kademlia

open BigEndian (bufInt8 getInt8)
open LittleEndian

-- The numbers of a peer that have two bytes.
def Peer.InRange (p : Peer) : Prop :=
  (0 ≤ p.port ∧ p.port < 2 ^ 16) ∧ 0 ≤ p.tcpport ∧ p.tcpport < 2 ^ 16

def PeersInRange (bound : Nat) (peers : List Peer) : Prop :=
  peers.length < bound ∧ ∀ p ∈ peers, p.InRange

-- The counts fit, and every tag is written with its name and read under it.
def AnswersInRange (answers : Answers) : Prop :=
  answers.length < 2 ^ 16 ∧ ∀ a ∈ answers, a.2.length < 2 ^ 8 ∧
    ∀ tag ∈ a.2, tag.InRange namesOfTag ∧ tag.Kept namesOfTag

-- The messages that write can write, apart from OvernetUnknown.
def Message.Sendable : Message → Prop
  | .connect p => p.InRange
  | .connectReply peers => PeersInRange (2 ^ 16) peers
  | .publicize p => p.InRange
  | .publicized (some p) => p.InRange
  | .search _ _ (some _) => True
  | .searchReply _ peers => PeersInRange (2 ^ 8) peers
  | .getSearchResults _ _ _ _ => True
  | .searchFilesResults _ results => AnswersInRange results
  | .publishFiles _ results => AnswersInRange results
  | _ => False

section

variable (country : Ip → Option Int) (now : Int)

def Peer.received (p : Peer) : Peer := newPeer country now p.md4 p.ip p.port p.tcpport

def SearchKind.received : SearchKind → SearchKind
  | .keyword none => .keyword none
  | _ => .file

-- What is read for a message that comes from an address. Peers are new ones, a search
-- has five bits for its number, a search for results has no bounds, and answers
-- with sources are sources.
def Message.received (ip : Ip) (port : Int) : Message → Message
  | .connect p => .connect (p.received country now)
  | .connectReply peers => .connectReply (peers.map (Peer.received country now))
  | .publicize p => .publicize (p.received country now)
  | .publicized p => .publicized (p.map (Peer.received country now))
  | .search nresults target uid => .search (nresults % 2 ^ 5) target uid
  | .searchReply target peers => .searchReply target (peers.map (Peer.received country now))
  | .getSearchResults target kind _ _ => .getSearchResults target kind.received 0 100
  | .searchFilesResults target results => ofSearchAnswers country now target results
  | .publishFiles target results => ofPublishAnswers country now ip port target results
  | m => m

end

theorem namesOfTag_sound : namesOfTag.Sound := Names.sound_of_nodup (by decide)

@[simp] theorem length_bufMd4 (md4 : Md4) : (bufMd4 md4).length = 16 := (swapMd4 md4).length_bytes

@[simp] theorem length_bufIp (ip : Ip) : (bufIp ip).length = 4 := rfl

@[simp] theorem length_bufPeer (p : Peer) : (bufPeer p).length = 25 := by
  simp [bufPeer]

variable {s r : Bytes} {pos : Nat} {country : Ip → Option Int} {now : Int}

theorem getMd4_drop {md4 : Md4} (h : s.drop pos = bufMd4 md4 ++ r) : getMd4 s pos = some md4 := by
  rw [getMd4, LittleEndian.getMd4_drop h, Option.map_some, swapMd4_swapMd4]

theorem getIp_drop {ip : Ip} (h : s.drop pos = bufIp ip ++ r) : getIp s pos = some ip := by
  rw [bufIp, List.append_assoc, List.append_assoc, List.append_assoc] at h
  have h2 := drop_next h 1 rfl
  have h3 := drop_next h2 1 rfl
  have h4 := drop_next h3 1 rfl
  rw [getIp, getInt8_mod h, getInt8_mod h2, getInt8_mod h3, getInt8_mod h4]
  show some (Ip.mk _ _) = some ip
  rw [ofNat_bytes, ofNat_bytes]

theorem getPeer_drop {p : Peer} (hp : p.InRange) (h : s.drop pos = bufPeer p ++ r) :
    getPeer country now s pos = some (p.received country now, pos + (bufPeer p).length) := by
  rw [bufPeer, List.append_assoc, List.append_assoc, List.append_assoc, List.append_assoc] at h
  have hip := drop_next h 16 (length_bufMd4 _)
  have hport := drop_next hip 4 rfl
  have htcp := drop_next hport 2 rfl
  rw [getPeer, getMd4_drop h, getIp_drop hip, getInt16_drop hport hp.1, getInt16_drop htcp hp.2,
    length_bufPeer]
  rfl

-- Items one after the other, when each is read from its own bytes.
theorem getListRec_drop {α β : Type} {getItem : Bytes → Nat → Option (β × Nat)} {f : α → β}
    {buf : α → Bytes} {items : List α}
    (hitem : ∀ a ∈ items, ∀ {pos : Nat} {r : Bytes}, s.drop pos = buf a ++ r →
      getItem s pos = some (f a, pos + (buf a).length))
    (h : s.drop pos = (items.map buf).flatten ++ r) (left : List β) :
    getListRec getItem s items.length pos left =
      some (left.reverse ++ items.map f, pos + ((items.map buf).flatten).length) := by
  induction items generalizing pos left with
  | nil => simp [getListRec]
  | cons a items ih =>
      rw [List.map_cons, List.flatten_cons, List.append_assoc] at h
      rw [List.length_cons, getListRec, hitem a List.mem_cons_self h]
      show getListRec getItem s items.length (pos + (buf a).length) (f a :: left) = _
      rw [ih (fun b hb => hitem b (List.mem_cons_of_mem _ hb)) (drop_next h _ rfl)]
      simp [Nat.add_assoc]

section

variable {α β : Type} {getItem : Bytes → Nat → Option (β × Nat)} {f : α → β}
  {buf : α → Bytes} {items : List α}

theorem getList8_drop
    (hitem : ∀ a ∈ items, ∀ {pos : Nat} {r : Bytes}, s.drop pos = buf a ++ r →
      getItem s pos = some (f a, pos + (buf a).length))
    (hlen : items.length < 2 ^ 8)
    (h : s.drop pos = bufInt8 items.length ++ ((items.map buf).flatten ++ r)) :
    getList8 getItem s pos =
      some (items.map f, pos + 1 + ((items.map buf).flatten).length) := by
  rw [getList8, getInt8_drop h ⟨by omega, by omega⟩]
  show getListRec getItem s ((items.length : Int)).toNat (pos + 1) [] = _
  rw [Int.toNat_natCast, getListRec_drop hitem (drop_next h 1 rfl)]
  rfl

theorem getList16_drop
    (hitem : ∀ a ∈ items, ∀ {pos : Nat} {r : Bytes}, s.drop pos = buf a ++ r →
      getItem s pos = some (f a, pos + (buf a).length))
    (hlen : items.length < 2 ^ 16)
    (h : s.drop pos = bufInt16 items.length ++ ((items.map buf).flatten ++ r)) :
    getList16 getItem s pos =
      some (items.map f, pos + 2 + ((items.map buf).flatten).length) := by
  rw [getList16, getInt16_drop h ⟨by omega, by omega⟩]
  show getListRec getItem s ((items.length : Int)).toNat (pos + 2) [] = _
  rw [Int.toNat_natCast, getListRec_drop hitem (drop_next h 2 rfl)]
  rfl

end

-- The bytes of an answer that is written, and of answers.
def answerBytes (a : Md4 × List Tag) : Bytes :=
  bufMd4 a.1 ++ (bufInt8 a.2.length ++ written namesOfTag a.2)

def answersBytes (target : Md4) (answers : Answers) : Bytes :=
  bufMd4 target ++ (bufInt16 answers.length ++ (answers.map answerBytes).flatten)

theorem bufTag_kept {tag : Tag} (hk : tag.Kept namesOfTag) :
    bufTag namesOfTag tag = some (tagBytes namesOfTag tag) := by
  obtain ⟨f, v⟩ := tag
  cases v with
  | uint64 n => rfl
  | fint64 n => rfl
  | string s => rfl
  | uint16 n => exact absurd hk.2 id
  | uint8 n => exact absurd hk.2 id
  | addr ip => exact absurd hk.2 id
  | pair n m => exact absurd hk.2 id

theorem bufAnswer_eq {a : Md4 × List Tag} (hk : ∀ tag ∈ a.2, tag.Kept namesOfTag) :
    bufAnswer a = some (answerBytes a) := by
  rw [bufAnswer, mapM_eq_some fun tag htag => bufTag_kept (hk tag htag)]
  rfl

theorem bufAnswers_eq {answers : Answers} (target : Md4) (h : AnswersInRange answers) :
    bufAnswers target answers = some (answersBytes target answers) := by
  rw [bufAnswers, mapM_eq_some fun a ha => bufAnswer_eq fun tag htag =>
    ((h.2 a ha).2 tag htag).2]
  rfl

theorem getAnswer_drop {a : Md4 × List Tag} (hlen : a.2.length < 2 ^ 8)
    (htags : ∀ tag ∈ a.2, tag.InRange namesOfTag ∧ tag.Kept namesOfTag)
    (h : s.drop pos = answerBytes a ++ r) :
    getAnswer s pos = some (a, pos + (answerBytes a).length) := by
  rw [answerBytes, List.append_assoc, List.append_assoc] at h
  have htag : ∀ tag ∈ a.2, ∀ {pos : Nat} {r : Bytes}, s.drop pos = tagBytes namesOfTag tag ++ r →
      getTag namesOfTag s pos = some (id tag, pos + (tagBytes namesOfTag tag).length) := by
    intro tag hmem pos r hdrop
    obtain ⟨hr, hk⟩ := htags tag hmem
    exact getTag_drop namesOfTag_sound (bufTag_kept hk) hr hk hdrop
  rw [getAnswer, getMd4_drop h, Option.bind_eq_bind, Option.bind_some,
    getList8_drop htag hlen (drop_next h 16 (length_bufMd4 _)), Option.bind_eq_bind,
    Option.bind_some, List.map_id, answerBytes, written]
  simp only [Option.pure_def, List.length_append, length_bufMd4, length_bufInt8, Option.some.injEq,
    Prod.mk.injEq, true_and]
  omega

theorem getAnswers_drop {answers : Answers} (target : Md4) (ha : AnswersInRange answers) :
    ∃ pos, getMd4 (answersBytes target answers) 0 = some target ∧
      getList16 getAnswer (answersBytes target answers) 16 = some (answers, pos) := by
  generalize hs : answersBytes target answers = s
  have hzero : s.drop 0 = bufMd4 target ++
      (bufInt16 answers.length ++ ((answers.map answerBytes).flatten ++ [])) := by
    rw [List.append_nil, List.drop_zero, ← hs]
    rfl
  have hitem : ∀ a ∈ answers, ∀ {pos : Nat} {r : Bytes}, s.drop pos = answerBytes a ++ r →
      getAnswer s pos = some (id a, pos + (answerBytes a).length) := fun a hmem _ _ hdrop =>
    getAnswer_drop (ha.2 a hmem).1 (ha.2 a hmem).2 hdrop
  have hlist := getList16_drop hitem ha.1 (drop_next hzero 16 (length_bufMd4 _))
  rw [List.map_id] at hlist
  exact ⟨_, getMd4_drop hzero, hlist⟩

theorem getPeers_drop {peers : List Peer} {bound : Nat} (hp : PeersInRange bound peers) :
    ∀ p ∈ peers, ∀ {pos : Nat} {r : Bytes}, s.drop pos = bufPeer p ++ r →
      getPeer country now s pos = some (p.received country now, pos + (bufPeer p).length) :=
  fun p hmem _ _ h => getPeer_drop (hp.2 p hmem) h

theorem getPeer_all {p : Peer} (hp : p.InRange) :
    getPeer country now (bufPeer p) 0 = some (p.received country now, 0 + (bufPeer p).length) :=
  getPeer_drop hp (by rw [List.drop_zero, List.append_nil])

theorem getKind_drop {target : Md4} (kind : SearchKind) :
    getKind (bufMd4 target ++ bufKind kind) = some kind.received := by
  have h : (bufMd4 target ++ bufKind kind).drop 16 = bufKind kind ++ [] := by
    rw [List.append_nil, List.drop_left' (length_bufMd4 target)]
  have hlen : (bufKind kind).length = 1 := by
    cases kind with
    | keyword e => cases e <;> rfl
    | file => rfl
    | kind n => rfl
  have hall : (bufMd4 target ++ bufKind kind).length = 17 := by
    rw [List.length_append, length_bufMd4, hlen]
  rw [getKind]
  cases kind with
  | keyword e =>
      cases e with
      | none => rw [getInt8_drop h (by decide), hall]; rfl
      | some u => rw [getInt8_drop h (by decide), hall]; rfl
  | file => rw [getInt8_drop h (by decide), hall]; rfl
  | kind n => rw [getInt8_drop h (by decide), hall]; rfl

-- A message that is written is read from its opcode and its body.
theorem parse_write {m : Message} (hm : m.Sendable) (ip : Ip) (port : Int) :
    ∃ opcode body, write m = some (opcode :: body) ∧
      parse country now ip port opcode.toNat body = some (m.received country now ip port) := by
  cases m with
  | connect p =>
      refine ⟨0x00, bufPeer p, rfl, ?_⟩
      show (getPeer country now (bufPeer p) 0).map (Message.connect ·.1) = _
      rw [getPeer_all hm]
      rfl
  | connectReply peers =>
      refine ⟨0x08, bufInt16 peers.length ++ bufPeers peers, rfl, ?_⟩
      show (getList16 (getPeer country now) (bufInt16 peers.length ++ bufPeers peers) 0).map
        (Message.connectReply ·.1) = _
      rw [getList16_drop (getPeers_drop hm) hm.1
        (by rw [List.drop_zero, List.append_nil]; rfl)]
      rfl
  | publicize p =>
      refine ⟨0x10, bufPeer p, rfl, ?_⟩
      show (getPeer country now (bufPeer p) 0).map (Message.publicize ·.1) = _
      rw [getPeer_all hm]
      rfl
  | publicized p =>
      cases p with
      | none => exact absurd hm id
      | some p =>
          refine ⟨0x18, bufPeer p, rfl, ?_⟩
          show (getPeer country now (bufPeer p) 0).map (fun p => Message.publicized (some p.1)) = _
          rw [getPeer_all hm]
          rfl
  | search nresults target uid =>
      cases uid with
      | none => exact absurd hm id
      | some uid =>
          refine ⟨0x20, bufInt8 (nresults % 2 ^ 5) ++ (bufMd4 target ++ bufMd4 uid), rfl, ?_⟩
          generalize hs : bufInt8 (nresults % 2 ^ 5) ++ (bufMd4 target ++ bufMd4 uid) = s
          have h : s.drop 0 = bufInt8 (nresults % 2 ^ 5) ++
              (bufMd4 target ++ (bufMd4 uid ++ [])) := by
            rw [List.append_nil, hs, List.drop_zero]
          have htarget := drop_next h 1 rfl
          have huid := drop_next htarget 16 (length_bufMd4 _)
          show (do
            let nresults ← getInt8 s 0
            let target ← getMd4 s 1
            let uid ← getMd4 s 17
            return Message.search (nresults % 2 ^ 5) target (some uid)) = _
          rw [getInt8_drop h (by omega), getMd4_drop htarget, getMd4_drop huid]
          show some (Message.search (nresults % 2 ^ 5 % 2 ^ 5) _ _) = _
          rw [Int.emod_emod_of_dvd _ (dvd_refl _)]
          rfl
  | searchReply target peers =>
      refine ⟨0x28, bufMd4 target ++ (bufInt8 peers.length ++ bufPeers peers), rfl, ?_⟩
      generalize hs : bufMd4 target ++ (bufInt8 peers.length ++ bufPeers peers) = s
      have h : s.drop 0 = bufMd4 target ++
          (bufInt8 peers.length ++ ((peers.map bufPeer).flatten ++ [])) := by
        rw [List.append_nil, List.drop_zero, ← hs]
        rfl
      show (do
        let target ← getMd4 s 0
        let peers ← getList8 (getPeer country now) s 16
        return Message.searchReply target peers.1) = _
      rw [getMd4_drop h, getList8_drop (getPeers_drop hm) hm.1
        (drop_next h 16 (length_bufMd4 _))]
      rfl
  | getSearchResults target kind min max =>
      refine ⟨0x30, bufMd4 target ++ bufKind kind, rfl, ?_⟩
      show (do
        let t ← getMd4 (bufMd4 target ++ bufKind kind) 0
        let k ← getKind (bufMd4 target ++ bufKind kind)
        return Message.getSearchResults t k 0 100) = _
      rw [getMd4_drop (List.drop_zero), getKind_drop kind]
      rfl
  | searchFilesResults target results =>
      refine ⟨0x38, answersBytes target results,
        congrArg (Option.map _) (bufAnswers_eq target hm), ?_⟩
      obtain ⟨pos, htarget, hanswers⟩ := getAnswers_drop target hm
      show (do
        let t ← getMd4 (answersBytes target results) 0
        let answers ← getList16 getAnswer (answersBytes target results) 16
        return ofSearchAnswers country now t answers.1) = _
      rw [htarget, hanswers]
      rfl
  | publishFiles target results =>
      refine ⟨0x40, answersBytes target results,
        congrArg (Option.map _) (bufAnswers_eq target hm), ?_⟩
      obtain ⟨pos, htarget, hanswers⟩ := getAnswers_drop target hm
      show (do
        let t ← getMd4 (answersBytes target results) 0
        let answers ← getList16 getAnswer (answersBytes target results) 16
        return ofPublishAnswers country now ip port t answers.1) = _
      rw [htarget, hanswers]
      rfl
  | searchSourcesResults target peers => exact absurd hm id
  | publishSources target peers => exact absurd hm id
  | published target => exact absurd hm id
  | noResult target => exact absurd hm id
  | unknown opcode s => exact absurd hm id
  | getMyIP port => exact absurd hm id
  | getMyIPResult ip => exact absurd hm id
  | getMyIPDone => exact absurd hm id
  | firewallConnection md4 port => exact absurd hm id
  | firewallConnectionACK md4 => exact absurd hm id
  | firewallConnectionNACK md4 => exact absurd hm id
  | peerNotFound p => exact absurd hm id
  | unknown21 p => exact absurd hm id

-- A message comes back from its opcode and its body, and from the packet that udp_send
-- makes of them, packed or not.
theorem parse_message_udp_send {compress : Bytes → Bytes} {uncompress : Bytes → Option Bytes}
    (hz : ∀ s, uncompress (compress s) = some s) {m : Message} (hm : m.Sendable)
    (country : Ip → Option Int) (now : Int) (ip : Ip) (port : Int) :
    ∃ opcode body, write m = some (opcode :: body) ∧
      parse country now ip port opcode.toNat body = some (m.received country now ip port) ∧
      parseMessage uncompress country now ip port (udpPacket compress (opcode :: body)) =
        some (m.received country now ip port) := by
  obtain ⟨opcode, body, hwrite, hparse⟩ := @parse_write country now m hm ip port
  refine ⟨opcode, body, hwrite, hparse, ?_⟩
  rw [udpPacket]
  split
  · show (uncompress (compress body)).bind (parse country now ip port opcode.toNat) = _
    rw [hz, Option.bind_some, hparse]
  · exact hparse

def md4OfByte (c : UInt8) : Md4 := ⟨List.replicate 16 c, List.length_replicate⟩

-- Thirteen answers, of which one has a tag: enough for a packet that is packed
def manyAnswers : List (Md4 × List Tag) :=
  (md4OfByte 2, [⟨.size, .uint64 7⟩]) :: (List.range 12).map fun i => (md4OfByte (.ofNat i), [])

theorem parse_message_udp_send_publish :
    ∃ opcode body, write (.publishFiles (md4OfByte 1) manyAnswers) = some (opcode :: body) ∧
      parse (fun _ => none) 0 Ip.null 0 opcode.toNat body =
        some (.publishFiles (md4OfByte 1) manyAnswers) ∧
      udpPacket id (opcode :: body) = kademliaPackedHeaderCode :: opcode :: body ∧
      parseMessage some (fun _ => none) 0 Ip.null 0 (udpPacket id (opcode :: body)) =
        some (.publishFiles (md4OfByte 1) manyAnswers) := by
  have hanswers : AnswersInRange manyAnswers := by
    refine ⟨by decide, fun a ha => ?_⟩
    rcases List.mem_cons.mp ha with rfl | ha
    · refine ⟨by simp, fun tag htag => ?_⟩
      obtain rfl := List.mem_singleton.mp htag
      exact ⟨⟨by decide, by decide⟩, .inl (by decide), trivial⟩
    · obtain ⟨i, -, rfl⟩ := List.mem_map.mp ha
      exact ⟨by simp, fun tag htag => absurd htag List.not_mem_nil⟩
  obtain ⟨opcode, body, hwrite, hparse, hpacket⟩ := @parse_message_udp_send id some
    (fun _ => rfl) (.publishFiles (md4OfByte 1) manyAnswers) hanswers (fun _ => none) 0 Ip.null 0
  have hlen : 200 < (opcode :: body).length := by
    have hlength :
        (write (.publishFiles (md4OfByte 1) manyAnswers)).map List.length = some 248 := by
      decide +kernel
    rw [hwrite] at hlength
    rw [Option.some.inj hlength]
    decide
  refine ⟨opcode, body, hwrite, hparse, ?_, hpacket⟩
  rw [udpPacket, if_pos hlen]
  rfl

-- A peer without its kind, its creation date and its country.
def Peer.erase (p : Peer) : Peer := { p with kind := 0, created := 0, countryCode := none }

def Message.erase : Message → Message
  | .connect p => .connect p.erase
  | .connectReply peers => .connectReply (peers.map Peer.erase)
  | .publicize p => .publicize p.erase
  | .publicized p => .publicized (p.map Peer.erase)
  | .searchReply target peers => .searchReply target (peers.map Peer.erase)
  | .searchSourcesResults target peers => .searchSourcesResults target (peers.map Peer.erase)
  | .publishSources target peers => .publishSources target (peers.map Peer.erase)
  | .peerNotFound p => .peerNotFound p.erase
  | .unknown21 p => .unknown21 p.erase
  | m => m

-- The bounds of a search for results are not on the wire.
theorem parse_message_udp_send_false : ¬ ∀ (m : Message) (opcode : UInt8) (body : Bytes),
    write m = some (opcode :: body) →
      ∃ m', parse (fun _ => none) 0 Ip.null 0 opcode.toNat body = some m' ∧ m'.erase = m.erase := by
  intro hall
  obtain ⟨opcode, body, hwrite, hparse⟩ := @parse_write (fun _ => none) 0
    (.getSearchResults (md4OfByte 1) .file 5 100) trivial Ip.null 0
  obtain ⟨m', hm', herase⟩ := hall _ opcode body hwrite
  obtain rfl := Option.some.inj (hparse.symm.trans hm')
  exact absurd (Message.getSearchResults.inj herase).2.2.1 (by decide)

end Mldonkey.Donkey.Kademlia
