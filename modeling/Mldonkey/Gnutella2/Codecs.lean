import Mldonkey.Gnutella2.Trees

-- What the payloads of Gnutella2 packets are read as that have been written.
namespace Mldonkey.Gnutella2

open BigEndian (bufInt8 getInt8)
open Bencode (Bytes ofString)
open Donkey (Ip Md4 drop_md4 getMd4_end getInt8_end)
open Donkey.LittleEndian
open Gnutella (IntKept getString0 unsplit)
open Hashes (Hash)
open Uids (Uid UidType)

namespace Payload

-- The names of the packets around one, the nearest first
def parents : Payload → List Name
  | .piRelay | .piUdp _ => [.pi]
  | .poRelay => [.po]
  | .lniNa _ | .lniGu _ | .lniV _ | .lniLs _ _ | .lniHs _ _ => [.lni]
  | .khlTs _ | .khlNh _ | .khlCh _ _ => [.khl]
  | .khlNhGu _ | .khlNhV _ | .khlNhLs _ _ | .khlNhHs _ _ => [.nh, .khl]
  | .khlChGu _ | .khlChV _ | .khlChLs _ _ | .khlChHs _ _ => [.ch, .khl]
  | .qkrRna _ => [.qkr]
  | .qkaQk _ | .qkaSna _ | .qkaQna _ => [.qka]
  | .q2Udp _ _ | .q2Urn _ | .q2Dn _ | .q2Md _ | .q2Szr _ _ | .q2I _ | .q2Nog1 => [.q2]
  | .qaTs _ | .qaD _ _ | .qaS _ _ | .qaFr _ => [.qa]
  | .qh2Gu _ | .qh2Na _ | .qh2Nh _ | .qh2V _ | .qh2Bup | .qh2Pch | .qh2Bh | .qh2Hg _
  | .qh2Ss _ _ _ | .qh2H | .qh2Md _ | .qh2Upro => [.qh2]
  | .qh2HgSs _ _ _ => [.hg, .qh2]
  | .qh2HUrn _ | .qh2HUrl _ | .qh2HDn _ | .qh2HSzdn _ _ | .qh2HSz _ | .qh2HG _ | .qh2HId _
  | .qh2HCsc _ | .qh2HPart _ | .qh2HCom _ | .qh2HPvu _ => [.h, .qh2]
  | .qh2UproNick _ => [.upro, .qh2]
  | .uprodXml _ => [.uprod]
  | _ => []

-- An address may stand below any packet.
def Below (p : Payload) (names : List Name) : Prop := (∃ uid, p = .to uid) ∨ names = p.parents

-- The identifiers of files that have a text
def Written (uid : Uid) : Prop :=
  match uid.toUid with
  | .bitprint _ _ | .sha1 _ | .ed2k _ | .md5 _ | .tigerTree _ => True
  | _ => False

def InRange : Payload → Prop
  | .piUdp addr | .lniNa addr | .khlNh addr | .push addr | .qkrRna addr | .qkaQna addr
  | .qaFr addr | .qh2Na addr | .qh2Nh addr => Donkey.Fits 16 addr.2
  | .qkaSna addr => addr.2 = 0
  | .lniV s | .khlNhV s | .khlChV s | .qh2V s => s.length = 4
  | .lniLs a b | .khlNhLs a b | .khlChLs a b | .q2Szr a b => Donkey.Fits 32 a ∧ Donkey.Fits 32 b
  | .lniHs a b | .khlChHs a b => Donkey.Fits 16 a ∧ Donkey.Fits 16 b
  | .khlNhHs a b => Donkey.Fits 8 a ∧ Donkey.Fits 8 b
  | .khlTs n | .qkaQk n | .qaTs n | .qh2HId n | .qh2HPart n => Donkey.Fits 32 n
  | .khlCh addr n => Donkey.Fits 16 addr.2 ∧ Donkey.Fits 32 n
  | .q2Udp addr n | .qaS addr n => Donkey.Fits 16 addr.2 ∧ ∀ k ∈ n, Donkey.Fits 32 k
  | .qaD addr n => Donkey.Fits 16 addr.2 ∧ Donkey.Fits 16 n
  | .qhtPatch p =>
    Donkey.Fits 8 p.seqNo ∧ Donkey.Fits 8 p.seqSize ∧ Donkey.Fits 8 p.compressor ∧
      Donkey.Fits 8 p.entryBits
  | .q2Urn uid | .qh2HUrn uid => Written uid
  | .q2Dn s | .q2Md s | .qh2HUrl s | .qh2HCom s | .qh2HPvu s | .qh2Md s | .qh2UproNick s
  | .uprodXml s => 0 ∉ s
  | .q2I list => list ≠ [] ∧ ∀ s ∈ list, 0 ∉ s
  | .qh2 n _ | .qh2Hg n | .qh2HG n => Donkey.Fits 8 n
  | .qh2Ss a b c | .qh2HgSs a b c =>
    Donkey.Fits 16 a ∧ Donkey.Fits 8 b ∧ Donkey.Fits 32 c ∧ IntKept c
  | .qh2HSzdn n _ => Donkey.Fits 32 n
  | .qh2HSz n => -2 ^ 63 ≤ n ∧ n < 2 ^ 63
  | .qh2HCsc n => Donkey.Fits 16 n
  | .unknown _ _ _ => False
  | _ => True

-- The size in a name is read as a part of the name.
def plain : Payload → Payload
  | .qh2HSzdn size s => .qh2HDn (bufInt64_32 size ++ s)
  | p => p

end Payload

section Fields

variable {s r : Bytes} {pos : ℕ} {addr : Addr} {a b c : Int}

@[simp] theorem length_bufAddr (addr : Addr) : (bufAddr addr).length = 6 := rfl

theorem getAddr_drop {len : ℕ} (h : s.drop pos = bufAddr addr ++ r) (hlen : pos + 6 ≤ len)
    (ha : Donkey.Fits 16 addr.2) : getAddr s pos len = some addr := by
  rw [bufAddr, List.append_assoc] at h
  have hport := drop_next h 4 rfl
  rw [getAddr, getIp_drop h, if_pos hlen, getInt16_drop hport ha]
  rfl

theorem map_addrOf (ha : Donkey.Fits 16 addr.2) (f : Addr → Payload) :
    (addrOf (bufAddr addr)).map f = some (f addr) := by
  have h : (bufAddr addr).drop 0 = bufAddr addr ++ [] := by rw [List.drop_zero, List.append_nil]
  rw [addrOf, length_bufAddr, getAddr_drop h le_rfl ha, Option.map_some]

theorem map_addrOf_short (ha : addr.2 = 0) (f : Addr → Payload) :
    (addrOf (bufShortAddr addr)).map f = some (f addr) := by
  have h : (bufIp addr.1).drop 0 = bufIp addr.1 ++ [] := by rw [List.drop_zero, List.append_nil]
  have hget : addrOf (bufShortAddr addr) = (getIp (bufIp addr.1) 0).map fun ip => (ip, 0) := rfl
  rw [hget, getIp_drop h, Option.map_some, Option.map_some, ← ha]

theorem map_getMd4 (md4 : Md4) (f : Md4 → Payload) :
    (getMd4 md4.bytes 0).map f = some (f md4) := by
  rw [getMd4_end List.drop_zero, Option.map_some]

theorem map_vendor (hs : s.length = 4) (f : Bytes → Payload) :
    (sub s 0 4).map f = some (f s) := by
  rw [sub, if_pos (by omega), List.drop_zero, ← hs, List.take_length, Option.map_some]

theorem map_getInt (ha : Donkey.Fits 32 a) (f : Int → Payload) :
    (getInt (bufInt64_32 a) 0).map f = some (f a) := by
  have h : (bufInt64_32 a).drop 0 = bufInt64_32 a ++ [] := by rw [List.drop_zero, List.append_nil]
  rw [getInt64_32_drop h ha, Option.map_some]

theorem map_getInt8 (ha : Donkey.Fits 8 a) (f : Int → Payload) :
    (getInt8 (bufInt8 a) 0).map f = some (f a) := by
  rw [getInt8_end List.drop_zero ha, Option.map_some]

theorem map_getInt16 (ha : Donkey.Fits 16 a) (f : Int → Payload) :
    (getInt16 (bufInt16 a) 0).map f = some (f a) := by
  have h : (bufInt16 a).drop 0 = bufInt16 a ++ [] := by rw [List.drop_zero, List.append_nil]
  rw [getInt16_drop h ha, Option.map_some]

theorem intsOf_bufInts (h : Donkey.Fits 32 a ∧ Donkey.Fits 32 b) (f : Int → Int → Payload) :
    intsOf f (bufInts a b) = some (f a b) := by
  have ha : (bufInts a b).drop 0 = bufInt64_32 a ++ bufInt64_32 b := rfl
  have hb : (bufInts a b).drop 4 = bufInt64_32 b ++ [] := by
    rw [List.append_nil]
    rfl
  rw [intsOf, getInt64_32_drop ha h.1, getInt64_32_drop hb h.2]
  rfl

theorem ints16Of_bufInts16 (h : Donkey.Fits 16 a ∧ Donkey.Fits 16 b) (f : Int → Int → Payload) :
    ints16Of f (bufInts16 a b) = some (f a b) := by
  have ha : (bufInts16 a b).drop 0 = bufInt16 a ++ bufInt16 b := rfl
  have hb : (bufInts16 a b).drop 2 = bufInt16 b ++ [] := by
    rw [List.append_nil]
    rfl
  rw [ints16Of, getInt16_drop ha h.1, getInt16_drop hb h.2]
  rfl

theorem addrInt_drop (ha : Donkey.Fits 16 addr.2) (hb : Donkey.Fits 32 b) :
    getAddr (bufAddr addr ++ bufInt64_32 b) 0 6 = some addr ∧
      getInt (bufAddr addr ++ bufInt64_32 b) 6 = some b := by
  have haddr : (bufAddr addr ++ bufInt64_32 b).drop 0 = bufAddr addr ++ bufInt64_32 b := rfl
  have hint : (bufAddr addr ++ bufInt64_32 b).drop 6 = bufInt64_32 b ++ [] := by
    rw [List.append_nil]
    rfl
  exact ⟨getAddr_drop haddr le_rfl ha, getInt64_32_drop hint hb⟩

theorem addrIntOf_bufAddrInt {n : Option Int}
    (h : Donkey.Fits 16 addr.2 ∧ ∀ k ∈ n, Donkey.Fits 32 k) (f : Addr → Option Int → Payload) :
    addrIntOf f (bufAddrInt addr n) = some (f addr n) := by
  cases n with
  | none =>
    have haddr : (bufAddr addr).drop 0 = bufAddr addr ++ [] := by
      rw [List.drop_zero, List.append_nil]
    show (getAddr (bufAddr addr) 0 6).bind (fun a => some (f a none)) = _
    rw [getAddr_drop haddr le_rfl h.1, Option.bind_some]
  | some k =>
    obtain ⟨haddr, hint⟩ := addrInt_drop h.1 (h.2 k rfl)
    show (getAddr (bufAddr addr ++ bufInt64_32 k) 0 6).bind (fun a =>
      (getInt (bufAddr addr ++ bufInt64_32 k) 6).bind fun i => some (f a (some i))) = _
    rw [haddr, hint, Option.bind_some, Option.bind_some]

theorem ssOf_bufSs (h : Donkey.Fits 16 a ∧ Donkey.Fits 8 b ∧ Donkey.Fits 32 c ∧ IntKept c)
    (f : Int → Int → Int → Payload) : ssOf f (bufSs a b c) = some (f a b c) := by
  have ha : (bufSs a b c).drop 0 = bufInt16 a ++ (bufInt8 b ++ bufInt c) := rfl
  have hb := drop_next ha 2 rfl
  have hc : (bufSs a b c).drop 3 = bufInt c ++ [] := by
    rw [List.append_nil]
    rfl
  rw [ssOf, getInt16_drop ha h.1, getInt8_drop hb h.2.1, getInt_drop hc h.2.2.1 h.2.2.2]
  rfl

theorem qhtOf_write (p : Gnutella.QrtPatch.T) (h : (Payload.qhtPatch p).InRange) :
    qhtOf (bufInt8 1 ++ Gnutella.QrtPatch.write p) = some (.qhtPatch p) := by
  obtain ⟨hno, hsize, hcomp, hbits⟩ := h
  have h1 : (bufInt8 1 ++ Gnutella.QrtPatch.write p).drop 1 = bufInt8 p.seqNo ++
    (bufInt8 p.seqSize ++ (bufInt8 p.compressor ++ (bufInt8 p.entryBits ++ p.table))) := rfl
  have h2 := drop_next h1 1 rfl
  have h3 := drop_next h2 1 rfl
  have h4 := drop_next h3 1 rfl
  have h5 : (bufInt8 1 ++ Gnutella.QrtPatch.write p).drop 5 = p.table := rfl
  have hone : getInt8 (bufInt8 1 ++ Gnutella.QrtPatch.write p) 0 = some 1 := rfl
  have htable := Gnutella.subTo_end h5 (by simp [Gnutella.QrtPatch.write]; omega)
  simp only [qhtOf, hone, getInt8_drop h1 hno, getInt8_drop h2 hsize, getInt8_drop h3 hcomp,
    getInt8_drop h4 hbits, htable]
  rfl

theorem findIdx?_none (h : 0 ∉ s) : s.findIdx? (· = 0) = none := by
  rw [List.findIdx?_eq_none_iff]
  intro x hx
  exact decide_eq_false fun h0 => h (h0 ▸ hx)

theorem map_stringOf (hs : 0 ∉ s) (f : Bytes → Payload) : (stringOf s).map f = some (f s) := by
  rw [stringOf, getString, getString0, List.drop_zero, findIdx?_none hs]
  rfl

theorem getHash_drop {n : ℕ} {h : Hash n} (hs : s.drop pos = h.bytes ++ r) :
    getHash n s pos = some h := by
  obtain ⟨bytes, rfl⟩ := h
  have htake : (s.drop pos).take bytes.length = bytes := by rw [hs, List.take_left]
  rw [getHash, dif_pos (by rw [htake])]
  simp only [htake]

theorem getString_kind {f : Bytes} {n : ℕ} (hf : 0 ∉ f) (hn : f.length + 1 = n) (h : Bytes) :
    getString (f ++ 0 :: h) 0 = some (f, n) ∧ (f ++ 0 :: h).drop n = h := by
  have hdrop : (f ++ 0 :: h).drop 0 = Gnutella.bufString f ++ h := by
    rw [List.drop_zero, Gnutella.bufString, List.append_assoc]
    rfl
  have hget := Gnutella.getString0_drop hdrop hf
  have hnext := Gnutella.drop_string0 hdrop
  rw [Nat.zero_add, hn] at hget hnext
  exact ⟨hget, hnext⟩

theorem map_uidOf {uid : Uid} (h : Payload.Written uid) (f : Uid → Payload) :
    (uidOf (bufUid uid)).map f = some (f uid) := by
  obtain ⟨text, type, rfl⟩ := uid
  suffices hget : ∃ pos, getUid (bufUid (Uids.create type)) 0 = some (Uids.create type, pos) by
    obtain ⟨pos, hget⟩ := hget
    show ((getUid (bufUid (Uids.create type)) 0).map (·.1)).map f = _
    rw [hget]
    rfl
  cases type with
  | bitprint sha1 ttr =>
    obtain ⟨hkind, hrest⟩ := getString_kind (f := ofString "bp") (n := 3) (by decide) rfl
      (sha1.bytes ++ ttr.bytes)
    have httr : (ofString "bp" ++ 0 :: (sha1.bytes ++ ttr.bytes)).drop (3 + 20) =
        ttr.bytes ++ [] := by
      rw [List.append_nil]
      exact drop_next hrest 20 sha1.length_bytes
    refine ⟨47, ?_⟩
    show getUid (ofString "bp" ++ 0 :: (sha1.bytes ++ ttr.bytes)) 0 = _
    rw [getUid, hkind]
    show ((getHash 20 _ 3).bind fun sha1 => (getHash 24 _ (3 + 20)).bind _).bind _ = _
    rw [getHash_drop hrest, getHash_drop httr]
    rfl
  | sha1 sha1 =>
    obtain ⟨hkind, hrest⟩ := getString_kind (f := ofString "sha1") (n := 5) (by decide) rfl
      sha1.bytes
    refine ⟨25, ?_⟩
    show getUid (ofString "sha1" ++ 0 :: sha1.bytes) 0 = _
    rw [getUid, hkind]
    show ((getHash 20 _ 5).map _).bind _ = _
    rw [getHash_drop (hrest.trans (List.append_nil _).symm)]
    rfl
  | md5 md5 =>
    obtain ⟨hkind, hrest⟩ := getString_kind (f := ofString "md5") (n := 4) (by decide) rfl md5.bytes
    refine ⟨20, ?_⟩
    show getUid (ofString "md5" ++ 0 :: md5.bytes) 0 = _
    rw [getUid, hkind]
    show ((getHash 16 _ 4).map _).bind _ = _
    rw [getHash_drop (hrest.trans (List.append_nil _).symm)]
    rfl
  | ed2k ed2k =>
    obtain ⟨hkind, hrest⟩ := getString_kind (f := ofString "ed2k") (n := 5) (by decide) rfl
      ed2k.bytes
    refine ⟨21, ?_⟩
    show getUid (ofString "ed2k" ++ 0 :: ed2k.bytes) 0 = _
    rw [getUid, hkind]
    show ((getHash 16 _ 5).map _).bind _ = _
    rw [getHash_drop (hrest.trans (List.append_nil _).symm)]
    rfl
  | tigerTree ttr =>
    obtain ⟨hkind, hrest⟩ := getString_kind (f := ofString "ttr") (n := 4) (by decide) rfl ttr.bytes
    refine ⟨28, ?_⟩
    show getUid (ofString "ttr" ++ 0 :: ttr.bytes) 0 = _
    rw [getUid, hkind]
    show ((getHash 24 _ 4).map _).bind _ = _
    rw [getHash_drop (hrest.trans (List.append_nil _).symm)]
    rfl
  | md5Ext md5 => exact absurd h id
  | btUrl url => exact absurd h id
  | fileTP file => exact absurd h id
  | noUid => exact absurd h id

end Fields

section Payloads

variable {p : Payload} {name : Name} {names : List Name} {s : Bytes}

-- A payload that is not an address of its own is read below the names that it belongs to.
theorem decode_parents (hr : p.InRange) (hto : ∀ uid, p ≠ .to uid) :
    (encodePayload p).bind (fun x => decodeNames (x.1 :: p.parents) x.2) = some p.plain := by
  cases p with
  | «to» uid => exact absurd rfl (hto uid)
  | unknown names be s => exact absurd hr id
  | pi | piRelay | po | poRelay | lni | khl | qhtReset | qkr | qka | q2Nog1 | qh2Bup | qh2Pch
  | qh2Bh | qh2H | qh2Upro | uprod | uproc => rfl
  | piUdp addr | lniNa addr | khlNh addr | push addr | qkrRna addr | qkaQna addr | qaFr addr
  | qh2Na addr | qh2Nh addr => exact map_addrOf hr _
  | qkaSna addr => exact map_addrOf_short hr _
  | lniGu uid | khlNhGu uid | khlChGu uid | q2 uid | qa uid | qh2Gu uid => exact map_getMd4 uid _
  | lniV s | khlNhV s | khlChV s | qh2V s => exact map_vendor hr _
  | lniLs a b | khlNhLs a b | khlChLs a b | q2Szr a b => exact intsOf_bufInts hr _
  | lniHs a b | khlChHs a b => exact ints16Of_bufInts16 hr _
  | khlTs n | qkaQk n | qaTs n | qh2HId n | qh2HPart n => exact map_getInt hr _
  | qh2Hg n | qh2HG n => exact map_getInt8 hr _
  | qh2HCsc n => exact map_getInt16 hr _
  | q2Dn s | q2Md s | qh2HUrl s | qh2HCom s | qh2HPvu s | qh2Md s | qh2UproNick s
  | uprodXml s => exact map_stringOf hr _
  | q2Urn uid | qh2HUrn uid => exact map_uidOf hr _
  | q2Udp addr n | qaS addr n => exact addrIntOf_bufAddrInt hr _
  | qh2Ss a b c | qh2HgSs a b c => exact ssOf_bufSs hr _
  | qhtPatch p => exact qhtOf_write p hr
  | khlNhHs a b =>
    have hb : (bufInt8 a ++ bufInt8 b).drop 1 = bufInt8 b := rfl
    have ha : (bufInt8 a ++ bufInt8 b).drop 0 = bufInt8 a ++ bufInt8 b := rfl
    show (getInt8 (bufInt8 a ++ bufInt8 b) 0).bind (fun a' =>
      (getInt8 (bufInt8 a ++ bufInt8 b) 1).bind fun b' => some (Payload.khlNhHs a' b')) = _
    rw [getInt8_drop ha hr.1, getInt8_end hb hr.2]
    rfl
  | khlCh addr n =>
    obtain ⟨haddr, hint⟩ := addrInt_drop hr.1 hr.2
    show (getAddr (bufAddr addr ++ bufInt64_32 n) 0 6).bind (fun a =>
      (getInt (bufAddr addr ++ bufInt64_32 n) 6).bind fun i => some (Payload.khlCh a i)) = _
    rw [haddr, hint]
    rfl
  | q2I list =>
    exact congrArg (some ∘ Payload.q2I) (Gnutella.split_unsplit hr.1 hr.2)
  | qaD addr n =>
    have haddr : (bufAddr addr ++ bufInt16 n).drop 0 = bufAddr addr ++ bufInt16 n := rfl
    have hint : (bufAddr addr ++ bufInt16 n).drop 6 = bufInt16 n ++ [] := by
      rw [List.append_nil]
      rfl
    show (getAddr (bufAddr addr ++ bufInt16 n) 0 6).bind (fun a =>
      (getInt16 (bufAddr addr ++ bufInt16 n) 6).bind fun i => some (Payload.qaD a i)) = _
    rw [getAddr_drop haddr le_rfl hr.1, getInt16_drop hint hr.2]
    rfl
  | qh2 n uid =>
    have hn : (bufInt8 n ++ uid.bytes).drop 0 = bufInt8 n ++ uid.bytes := rfl
    have huid : (bufInt8 n ++ uid.bytes).drop 1 = uid.bytes := rfl
    show (getInt8 (bufInt8 n ++ uid.bytes) 0).bind (fun a =>
      (getMd4 (bufInt8 n ++ uid.bytes) 1).bind fun i => some (Payload.qh2 a i)) = _
    rw [getInt8_drop hn hr, getMd4_end huid]
    rfl
  | qh2HDn s => rfl
  | qh2HSzdn n s => rfl
  | qh2HSz n =>
    have h : (bufInt64 n).drop 0 = bufInt64 n ++ [] := by rw [List.drop_zero, List.append_nil]
    show (getInt64 (bufInt64 n) 0).map Payload.qh2HSz = _
    rw [getInt64_drop h hr]
    rfl

theorem decodeNames_encode (hb : p.Below names) (hr : p.InRange)
    (he : encodePayload p = some (name, s)) : decodeNames (name :: names) s = some p.plain := by
  by_cases hto : ∃ uid, p = .to uid
  · obtain ⟨uid, rfl⟩ := hto
    cases he
    exact map_getMd4 uid _
  · obtain rfl := hb.resolve_left hto
    have hread := decode_parents hr fun uid h => hto ⟨uid, h⟩
    rw [he, Option.bind_some] at hread
    exact hread

theorem exists_encodePayload (hr : p.InRange) : ∃ name s, encodePayload p = some (name, s) := by
  cases p with
  | unknown names be s => exact absurd hr id
  | _ => exact ⟨_, _, rfl⟩

theorem name_ne_other (he : encodePayload p = some (name, s)) : name ≠ .other := by
  rintro rfl
  cases p <;> cases he

theorem read_text (n : Name) : Name.read n.text = n := by
  cases n <;> decide

theorem length_text {n : Name} (h : n ≠ .other) : 1 ≤ n.text.length ∧ n.text.length ≤ 8 := by
  cases n with
  | other => exact absurd rfl h
  | _ => decide

theorem map_read (names : List Name) : (names.map Name.text).map Name.read = names := by
  rw [List.map_map]
  exact (List.map_congr_left fun n _ => read_text n).trans (List.map_id names)

theorem decodePayload_encode (hb : p.Below names) (hr : p.InRange)
    (he : encodePayload p = some (name, s)) :
    decodePayload ((name :: names).map Name.text) false s = p.plain := by
  rw [decodePayload, map_read, decodeNames_encode hb hr he]
  rfl

end Payloads

end Mldonkey.Gnutella2
