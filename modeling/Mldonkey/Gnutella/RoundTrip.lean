import Mldonkey.Gnutella.Codecs

-- Which messages the handler gets as they were sent.
namespace Mldonkey.Gnutella

open BigEndian (bufInt8 getInt8)
open Bencode (Bytes ofString)
open Donkey (Fits Ip Md4 drop_md4)
open Donkey.LittleEndian

variable {t : Payload} {data : Bytes}

-- The fields fit the places that the writer gives them.
def Payload.InRange : Payload → Prop
  | .pingReq .simplePing => True
  | .pingReq (.complexPing t) => Fits 16 t.port ∧ Fits 32 t.nfiles ∧ Fits 32 t.nkb ∧ 0 ∉ t.s
  | .pongReq t => Fits 16 t.port ∧ Fits 32 t.nfiles ∧ Fits 32 t.nkb ∧ ∀ e ∈ t.ggep, e.InRange
  | .byeReq t => Fits 16 t.code ∧ 0 ∉ t.reason
  | .pushReq t => Fits 32 t.index ∧ Fits 16 t.port
  | .qrtPatchReq t => Fits 8 t.seqNo ∧ Fits 8 t.seqSize ∧ Fits 8 t.compressor ∧ Fits 8 t.entryBits
  | .qrtResetReq t => Fits 32 t.tableLength ∧ Fits 8 t.infinity
  | .queryReq t => Fits 16 t.minSpeed ∧ 0 ∉ t.keywords ∧ t.xmlQuery ≠ [] ∧
      ∀ x ∈ t.xmlQuery, 0 ∉ x ∧ 28 ∉ x
  | .queryReplyReq t => t.InRange
  | .vendorReq t => t.InRange
  | .unknownReq _ _ => False

-- The messages that their parser understands as the writer meant them.
def Payload.Survives : Payload → Prop
  | .pingReq t => t = .simplePing
  | .pongReq t => IntKept t.nfiles ∧ IntKept t.nkb ∧ Ggep.Cobs.Survive t.ggep
  | .pushReq t => IntKept t.index
  | .qrtResetReq t => IntKept t.tableLength
  | .queryReplyReq t => IntKept t.speed ∧ ∀ f ∈ t.files, IntKept f.index
  | .vendorReq t => t.Survives
  | .byeReq _ => True
  | .qrtPatchReq _ => True
  | .queryReq _ => True
  | .unknownReq _ _ => False

theorem QueryReply.read_eq_iff {files : List QueryReply.File} :
    files.map QueryReply.File.read = files ↔ ∀ f ∈ files, IntKept f.index := by
  induction files with
  | nil => simp
  | cons f files ih =>
    have hf : f.read = f ↔ IntKept f.index := by
      rw [← wrapped_eq_iff]
      cases f
      simp [QueryReply.File.read]
    simp [ih, hf]

theorem Vendor.parse_write_iff {t : Vendor.T} (h : t.InRange) :
    Vendor.parse (Vendor.write t) = some t ↔ t.Survives := by
  cases t with
  | supported list => simp [parse_supported h, T.Survives]
  | bear4HopsFlow nhops => simp [parse_bear4 h, T.Survives]
  | bear7ConnectBack port => simp [parse_bear7 h, T.Survives]
  | gtkg7UdpConnectBack port md4 => simp [parse_gtkg7, T.Survives]
  | vUnknown vendor num version s => exact parse_vUnknown h.1 h.2.1 h.2.2

theorem parse_eq_iff {α : Type} {parsed : Option α} {t : α} {mk : α → Payload} {type : PacketType}
    {s : Bytes} (hinj : ∀ x y, mk x = mk y → x = y) (hmk : ∀ x, mk x ≠ .unknownReq type s) :
    (parsed.map mk).getD (.unknownReq type s) = mk t ↔ parsed = some t := by
  cases parsed with
  | none => simpa using (hmk t).symm
  | some x =>
    simp only [Option.map_some, Option.getD_some, Option.some_inj]
    exact ⟨hinj x t, fun h => by rw [h]⟩

theorem parse_write_iff (uid : Md4) (h : t.InRange) :
    ∃ data, write t = some data ∧ (parse (newPacket uid t).type data = t ↔ t.Survives) := by
  cases t with
  | pingReq t =>
    refine ⟨_, rfl, (parse_eq_iff (by simp) (by simp)).trans ?_⟩
    cases t with
    | simplePing => simp [Payload.Survives, Ping.parse, Ping.write]
    | complexPing t => simpa [Payload.Survives] using Ping.parse_complex t
  | pongReq t =>
    obtain ⟨hport, hnfiles, hnkb, hggep⟩ := h
    obtain ⟨w, hw, hiff⟩ := Pong.parse_write t hport hnfiles hnkb hggep
    exact ⟨w, hw, (parse_eq_iff (by simp) (by simp)).trans hiff⟩
  | byeReq t =>
    refine ⟨_, rfl, (parse_eq_iff (by simp) (by simp)).trans ?_⟩
    simp [Bye.parse_write t h.1, Payload.Survives]
  | pushReq t =>
    refine ⟨_, rfl, (parse_eq_iff (by simp) (by simp)).trans ?_⟩
    rw [Push.parse_write t h.1 h.2, Payload.Survives, ← wrapped_eq_iff]
    cases t
    simp
  | qrtPatchReq t =>
    refine ⟨_, rfl, ?_⟩
    have hparse := QrtPatch.parse_write t h.1 h.2.1 h.2.2.1 h.2.2.2
    have hkind : getInt8 (bufInt8 1 ++ QrtPatch.write t) 0 = some 1 := rfl
    simp [parse, newPacket, hkind, hparse, Payload.Survives]
  | qrtResetReq t =>
    refine ⟨_, rfl, ?_⟩
    have hparse := QrtReset.parse_write t h.1 h.2
    have hkind : getInt8 (bufInt8 0 ++ QrtReset.write t) 0 = some 0 := rfl
    rw [Payload.Survives, ← wrapped_eq_iff]
    cases t
    simp [parse, newPacket, hkind, hparse]
  | queryReq t =>
    refine ⟨_, rfl, (parse_eq_iff (by simp) (by simp)).trans ?_⟩
    simp [Query.parse_write t h.1 h.2.1 h.2.2.1 h.2.2.2, Payload.Survives]
  | queryReplyReq t =>
    refine ⟨_, rfl, (parse_eq_iff (by simp) (by simp)).trans ?_⟩
    rw [QueryReply.parse_write t h, Payload.Survives, ← wrapped_eq_iff, ← QueryReply.read_eq_iff]
    cases t
    simp
  | vendorReq t =>
    exact ⟨_, rfl, (parse_eq_iff (by simp) (by simp)).trans (Vendor.parse_write_iff h)⟩
  | unknownReq type s => exact h.elim

end Mldonkey.Gnutella
