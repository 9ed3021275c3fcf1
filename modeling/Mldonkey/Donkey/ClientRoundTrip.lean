import Mldonkey.Donkey.ClientCodecs

-- Which messages of clients survive the wire.
namespace Mldonkey.Donkey

open BigEndian (bufInt8 getInt8)
open LittleEndian

variable (e : EmuleProto)

-- The extension of a QueryFile as far as it is transmitted.
def SameExtension (x y : Option (List Bool × Int)) : Prop :=
  match x with
  | none => y = none
  | some (chunks, n) =>
      ∃ n', y = some (chunks, n') ∧ (1 < extendedrequest e → 0 ≤ n → n' = n)

-- A message of a short packet and what is read of it, its hash being that of the
-- whole packet.
def SameShort (md4 : Md4) (t t' : ClientMsg) : Prop :=
  match t with
  | .queryFileReq q =>
      ∃ x, t' = .queryFileReq ⟨md4, x⟩ ∧ SameExtension e q.emuleExtension x
  | .queryChunksReq _ => t' = .queryChunksReq md4
  | .emuleRequestSourcesReq _ => t' = .emuleRequestSourcesReq md4
  | .queryFileReplyReq q => t' = .queryFileReplyReq ⟨md4, q.name⟩
  | .queryChunksReplyReq q => t' = .queryChunksReplyReq ⟨md4, q.chunks⟩
  | t => t' = t

-- The same constructor, with the fields that are transmitted.
def Same (t t' : ClientMsg) : Prop :=
  match t with
  | .connectReq c =>
      ∃ c', t' = .connectReq c' ∧ c'.md4 = c.md4 ∧ c'.ip = c.ip ∧ c'.port = c.port ∧
        c'.tags = c.tags ∧ c'.serverInfo = c.serverInfo
  | .connectReplyReq c =>
      ∃ c', t' = .connectReplyReq c' ∧ c'.md4 = c.md4 ∧ c'.ip = c.ip ∧ c'.port = c.port ∧
        c'.tags = c.tags ∧ c'.serverInfo = c.serverInfo
  | .queryFileReq q =>
      ∃ q', t' = .queryFileReq q' ∧ q'.md4 = q.md4 ∧
        (0 < extendedrequest e → SameExtension e q.emuleExtension q'.emuleExtension)
  | .blocReq b =>
      ∃ b', t' = .blocReq b' ∧ b'.md4 = b.md4 ∧ b'.usesixtyfour = b.usesixtyfour ∧
        b'.startPos = b.startPos ∧ b'.endPos = b.endPos ∧ b'.data = b.data
  | .joinQueueReq m => ∃ m', t' = .joinQueueReq m' ∧ (0 < extendedrequest e → m' = m)
  | .sourcesReq x => ∃ x', t' = .sourcesReq x' ∧ x'.md4 = x.md4 ∧ x'.sources.Perm x.sources
  | .emuleRequestSourcesReplyReq x =>
      ∃ x', t' = .emuleRequestSourcesReplyReq x' ∧ x'.md4 = x.md4 ∧
        List.Forall₂ (EmuleRequestSourcesReply.SameSource e) x.sources x'.sources
  | .emuleMultiPacketReq md4 l =>
      ∃ l', t' = .emuleMultiPacketReq md4 l' ∧ List.Forall₂ (SameShort e md4) l l'
  | .emuleMultiPacketAnswerReq md4 l =>
      ∃ l', t' = .emuleMultiPacketAnswerReq md4 l' ∧ List.Forall₂ (SameShort e md4) l l'
  | t => t' = t

-- What parse gives for what write has written.
def Survives (uncompress : Bytes → Option Bytes) (countryCode : Ip → Option Int)
    (t : ClientMsg) : Prop :=
  ∃ magic s, t.write e = some (magic, s) ∧ Same e t (parse uncompress countryCode e magic s)

namespace ClientMsg

-- The messages that are both written and parsed.
def Exchanged : ClientMsg → Prop
  | .viewDirsReplyReq _ | .viewFilesDirReplyReq _ _ | .queueReq _ | .otherLocationsReq _
  | .unknownReq _ _ => False
  | _ => True

def ExtensionInRange (x : Option (List Bool × Int)) : Prop :=
  ∀ chunks n, x = some (chunks, n) → chunks.length < 2 ^ 16 ∧ -1 ≤ n ∧ n < 2 ^ 16

def ShortInRange : ClientMsg → Prop
  | .queryFileReq q => ExtensionInRange q.emuleExtension
  | .queryFileReplyReq q => q.name.length < 2 ^ 16
  | .queryChunksReplyReq q => q.chunks.length < 2 ^ 16
  | _ => True

def ConnectInRange (c : Connect) : Prop :=
  Fits 16 c.port ∧ TagsInRange clientCommonTags c.tags ∧
    ∀ server, c.serverInfo = some server → Fits 16 server.2

def ClientInfoInRange (c : EmuleClientInfo) : Prop :=
  Fits 8 c.version ∧ Fits 8 c.protversion ∧ TagsInRange clientCommonTags c.tags

-- The fields fit the widths with which they are written.
def InRange : ClientMsg → Prop
  | .connectReq c => ConnectInRange c
  | .connectReplyReq c => ConnectInRange c
  | .queryFileReq q => ExtensionInRange q.emuleExtension
  | .queryFileReplyReq q => q.name.length < 2 ^ 16
  | .blocReq b =>
      PosFits b.usesixtyfour b.startPos ∧ PosFits b.usesixtyfour b.endPos ∧ b.data ≠ none
  | .queryBlocReq b => b.InRange
  | .queryChunksReplyReq q => q.chunks.length < 2 ^ 16
  | .queryChunkMd4ReplyReq q => q.chunks.length < 2 ^ 16
  | .viewFilesReplyReq files =>
      files.length < 2 ^ 32 ∧ ∀ file ∈ files, ViewFilesReply.FileInRange file
  | .viewFilesDirReq dir => dir.length < 2 ^ 16
  | .sayReq s => s.length < 2 ^ 16
  | .sourcesReq x => x.InRange
  | .queueRankReq n => Fits 32 n
  | .emuleClientInfoReq c => ClientInfoInRange c
  | .emuleClientInfoReplyReq c => ClientInfoInRange c
  | .emuleQueueRankingReq n => Fits 16 n
  | .emuleRequestSourcesReplyReq x => x.InRange
  | .emuleFileDescReq d => Fits 8 d.rating ∧ d.comment.length < 2 ^ 16
  | .emulePublicKeyReq key => key.length < 2 ^ 8
  | .emuleSignatureReq x => x.signature.length < 2 ^ 8 ∧ Fits 8 x.ipType
  | .emuleSecIdentStateReq x => Fits 8 x.state ∧ Fits 32 x.challenge
  | .emuleMultiPacketReq _ l => ∀ t ∈ l, t.ShortInRange
  | .emuleMultiPacketAnswerReq _ l => ∀ t ∈ l, t.ShortInRange
  | .emuleCompressedPart x => PosFits x.usesixtyfour x.statpos ∧ Fits 32 x.newsize
  | .emuleCaptchaReq s => s.length < 2 ^ 8
  | .emuleCaptchaRes n => Fits 8 n
  | _ => True

-- The messages that have a short packet. That of a QueryFile has a bitmap.
def ShortKept : ClientMsg → Prop
  | .queryFileReq q => q.emuleExtension ≠ none
  | .queryChunksReq _ | .emuleRequestSourcesReq _ => True
  | _ => False

def ShortAnswerKept : ClientMsg → Prop
  | .queryFileReplyReq _ | .queryChunksReplyReq _ => True
  | _ => False

-- The messages whose codecs agree.
def Kept : ClientMsg → Prop
  | .connectReq c => c.serverInfo ≠ none ∧ TagsKept clientCommonTags c.tags
  | .connectReplyReq c => c.serverInfo ≠ none ∧ TagsKept clientCommonTags c.tags
  | .viewFilesReplyReq files =>
      CountKept files.length ∧ ∀ file ∈ files, TagsKept fileCommonTags file.tags
  | .emuleClientInfoReq c => TagsKept clientCommonTags c.tags
  | .emuleClientInfoReplyReq c => TagsKept clientCommonTags c.tags
  | .queueRankReq n => n < 2 ^ 30 ∨ 2 ^ 31 ≤ n
  | .emuleFileDescReq _ => False
  | .emulePortTestReq _ => False
  | .emuleMultiPacketReq _ l => ∀ t ∈ l, t.ShortKept
  | .emuleMultiPacketAnswerReq _ l => ∀ t ∈ l, t.ShortAnswerKept
  | _ => True

-- The messages that carry tags.
def Tagged : ClientMsg → Prop
  | .connectReq _ | .connectReplyReq _ | .viewFilesReplyReq _ | .emuleClientInfoReq _
  | .emuleClientInfoReplyReq _ => True
  | _ => False

end ClientMsg

open ClientMsg

variable {e} {s r : Bytes} {pos : Nat} (op : UInt8)

theorem extendedrequest_le : ¬ 1 < extendedrequest e := not_lt.mpr (min_le_right _ _)

section Short

variable {short : Nat → Option (ClientMsg × Nat)} {item : ClientMsg → Bytes}
  {R : ClientMsg → ClientMsg → Prop} {P : ClientMsg → Prop}

theorem iterShort_drop {l : List ClientMsg} {fuel : Nat}
    (hone : ∀ t ∈ l, item t ≠ [] ∧ ∀ {pos : Nat} {r : Bytes}, s.drop pos = item t ++ r →
      ∃ t', short pos = some (t', pos + (item t).length) ∧ R t t')
    (h : s.drop pos = l.flatMap item) (hfuel : l.length ≤ fuel) :
    ∃ l', iterShort short s.length fuel pos = some l' ∧ List.Forall₂ R l l' := by
  induction l generalizing pos fuel with
  | nil =>
      have hpos : s.length ≤ pos := List.drop_eq_nil_iff.mp h
      refine ⟨[], ?_, .nil⟩
      cases fuel with
      | zero => rfl
      | succ fuel => rw [iterShort, if_neg (by omega)]
  | cons t l ih =>
      obtain ⟨hne, hshort⟩ := hone t List.mem_cons_self
      rw [List.flatMap_cons] at h
      have hpos : pos < s.length := by
        by_contra hle
        rw [List.drop_eq_nil_iff.mpr (by omega)] at h
        exact hne (List.append_eq_nil_iff.mp h.symm).1
      obtain ⟨t', ht', hR⟩ := hshort h
      cases fuel with
      | zero => simp at hfuel
      | succ fuel =>
          obtain ⟨l', hl', hall⟩ := ih (fun x hx => hone x (List.mem_cons_of_mem t hx))
            (drop_next h _ rfl) (Nat.le_of_succ_le_succ hfuel)
          refine ⟨t' :: l', ?_, .cons hR hall⟩
          rw [iterShort, if_pos hpos, ht']
          simp only [Option.bind_eq_bind, Option.bind_some]
          rw [hl']
          rfl

theorem iterShort_all (hone : ∀ {pos t pos'}, short pos = some (t, pos') → P t) {len fuel : Nat}
    {l : List ClientMsg} (h : iterShort short len fuel pos = some l) : ∀ t ∈ l, P t := by
  induction fuel generalizing pos l with
  | zero =>
      obtain rfl := Option.some.inj h
      exact fun t ht => absurd ht List.not_mem_nil
  | succ fuel ih =>
      rw [iterShort] at h
      split at h
      · simp only [Option.bind_eq_bind, Option.bind_eq_some_iff, Option.pure_def,
          Option.some.injEq] at h
        obtain ⟨⟨t, pos'⟩, ht, l', hl', rfl⟩ := h
        intro x hx
        rcases List.mem_cons.mp hx with rfl | hx
        · exact hone ht
        · exact ih hl' x hx
      · obtain rfl := Option.some.inj h
        exact fun t ht => absurd ht List.not_mem_nil

theorem length_le_flatMap {l : List ClientMsg} (hne : ∀ t ∈ l, item t ≠ []) :
    l.length ≤ (l.flatMap item).length := by
  induction l with
  | nil => exact Nat.zero_le _
  | cons t l ih =>
      have ht := List.length_pos_iff.mpr (hne t List.mem_cons_self)
      have hl := ih fun x hx => hne x (List.mem_cons_of_mem t hx)
      rw [List.flatMap_cons, List.length_append, List.length_cons]
      omega

end Short

theorem parseShort_drop (md4 : Md4) {t : ClientMsg} (hr : t.ShortInRange) (hk : t.ShortKept)
    (h : s.drop pos = writeShort e t ++ r) :
    ∃ t', parseShort e md4 s pos = some (t', pos + (writeShort e t).length) ∧
      SameShort e md4 t t' := by
  cases t with
  | queryFileReq q =>
      obtain ⟨m, x⟩ := q
      cases x with
      | none => exact absurd rfl hk
      | some x =>
          obtain ⟨chunks, n⟩ := x
          have hwrite : writeShort e (.queryFileReq ⟨m, some (chunks, n)⟩) =
              bufInt8 0x58 ++ writeBitmap chunks := by
            rw [writeShort]
            simp only [extendedrequest_le, and_false, if_false, List.append_nil]
          rw [hwrite] at h ⊢
          rw [List.append_assoc] at h
          have h2 := drop_next h 1 rfl
          refine ⟨.queryFileReq ⟨md4, some (chunks, -1)⟩, ?_, _, rfl, -1, rfl,
            fun hlt => absurd hlt extendedrequest_le⟩
          rw [parseShort, getInt8_drop h ⟨by omega, by omega⟩]
          simp only [Option.bind_eq_bind, Option.bind_some, if_true]
          rw [getBitmap_drop h2 (hr chunks n rfl).1]
          simp only [Option.bind_some, extendedrequest_le, if_false, List.length_append,
            length_writeBitmap, length_bufInt8, Nat.add_assoc]
          rfl
  | queryChunksReq m =>
      refine ⟨_, ?_, rfl⟩
      rw [parseShort, getInt8_drop h ⟨by omega, by omega⟩]
      rfl
  | emuleRequestSourcesReq m =>
      refine ⟨_, ?_, rfl⟩
      rw [parseShort, getInt8_drop h ⟨by omega, by omega⟩]
      rfl
  | _ => exact absurd hk id

theorem parseShort_kept {md4 : Md4} {t : ClientMsg} {pos' : Nat}
    (h : parseShort e md4 s pos = some (t, pos')) : t.ShortKept := by
  simp only [parseShort, Option.bind_eq_bind, Option.bind_eq_some_iff] at h
  obtain ⟨opcode, -, h⟩ := h
  split at h
  · simp only [Option.bind_eq_some_iff, extendedrequest_le, if_false, Option.pure_def,
      Option.some.injEq, Prod.mk.injEq] at h
    obtain ⟨p, -, rfl, -⟩ := h
    exact Option.some_ne_none _
  · split at h
    · obtain ⟨rfl, -⟩ := Prod.mk.inj (Option.some.inj h)
      trivial
    · split at h
      · obtain ⟨rfl, -⟩ := Prod.mk.inj (Option.some.inj h)
        trivial
      · simp at h

theorem parseShortAnswer_drop (md4 : Md4) {t : ClientMsg} (hr : t.ShortInRange)
    (hk : t.ShortAnswerKept) (h : s.drop pos = writeShortAnswer t ++ r) :
    ∃ t', parseShortAnswer md4 s pos = some (t', pos + (writeShortAnswer t).length) ∧
      SameShort e md4 t t' := by
  cases t with
  | queryFileReplyReq q =>
      refine ⟨_, ?_, rfl⟩
      rw [writeShortAnswer, List.append_assoc] at h
      have h2 := drop_next h 1 rfl
      rw [parseShortAnswer, getInt8_drop h ⟨by omega, by omega⟩]
      simp only [Option.bind_eq_bind, Option.bind_some, if_true]
      rw [getString16_drop h2 hr]
      simp [writeShortAnswer, bufString]
      omega
  | queryChunksReplyReq q =>
      refine ⟨_, ?_, rfl⟩
      rw [writeShortAnswer, List.append_assoc] at h
      have h2 := drop_next h 1 rfl
      rw [parseShortAnswer, getInt8_drop h ⟨by omega, by omega⟩]
      simp only [Option.bind_eq_bind, Option.bind_some]
      rw [if_neg (by omega), if_pos trivial, getBitmap_drop h2 hr]
      simp [writeShortAnswer]
      omega
  | _ => exact absurd hk id

theorem parseShortAnswer_kept {md4 : Md4} {t : ClientMsg} {pos' : Nat}
    (h : parseShortAnswer md4 s pos = some (t, pos')) : t.ShortAnswerKept := by
  simp only [parseShortAnswer, Option.bind_eq_bind, Option.bind_eq_some_iff] at h
  obtain ⟨opcode, -, h⟩ := h
  split at h
  · simp only [Option.bind_eq_some_iff, Option.pure_def, Option.some.injEq, Prod.mk.injEq] at h
    obtain ⟨p, -, rfl, -⟩ := h
    trivial
  · split at h
    · simp only [Option.bind_eq_some_iff, Option.pure_def, Option.some.injEq, Prod.mk.injEq] at h
      obtain ⟨p, -, rfl, -⟩ := h
      trivial
    · simp at h

theorem QueryFile.parse_write (q : QueryFile) (hr : ExtensionInRange q.emuleExtension) :
    ∃ x, QueryFile.parse e (op :: q.write e).length (op :: q.write e) = some ⟨q.md4, x⟩ ∧
      (0 < extendedrequest e → SameExtension e q.emuleExtension x) := by
  obtain ⟨m, x⟩ := q
  have h1 : (op :: write e ⟨m, x⟩).drop 1 = m.bytes ++ _ := rfl
  have h2 := drop_md4 h1
  rw [parse, getMd4_drop h1]
  refine ⟨_, rfl, fun hpos => ?_⟩
  cases x with
  | none =>
      have hlen : (op :: write e ⟨m, none⟩).length < 18 := by
        simp [write, m.length_bytes]
      rw [if_pos (Or.inl hlen)]
      exact rfl
  | some x =>
      obtain ⟨chunks, n⟩ := x
      have hwrite : write e ⟨m, some (chunks, n)⟩ = m.bytes ++ writeBitmap chunks := by
        rw [write]
        simp only [hpos, if_true, extendedrequest_le, false_and, if_false, List.append_nil]
      simp only [hpos, if_true, extendedrequest_le, false_and, if_false, List.append_nil] at h2
      have hlen : ¬ (op :: write e ⟨m, some (chunks, n)⟩).length < 18 := by
        rw [hwrite, List.length_cons, List.length_append, m.length_bytes, length_writeBitmap,
          bitmapLength]
        split <;> omega
      rw [if_neg (by omega)]
      simp only [extendedrequest_le, false_and, if_false, Option.bind_eq_bind]
      rw [getBitmap_drop (h2.trans (List.append_nil _).symm) (hr chunks n rfl).1]
      exact ⟨-1, rfl, fun hlt => absurd hlt extendedrequest_le⟩

theorem JoinQueue.parse_write (m : Option Md4) :
    ∃ m', JoinQueue.parse (op :: write e m).length (op :: write e m) = some m' ∧
      (0 < extendedrequest e → m' = m) := by
  by_cases hpos : 0 < extendedrequest e
  · refine ⟨m, ?_, fun _ => rfl⟩
    rw [write, if_pos hpos]
    cases m with
    | none => rfl
    | some m =>
        have hlen : 17 ≤ (op :: m.bytes).length := by
          rw [List.length_cons, m.length_bytes]
        have hmd4 : getMd4 (op :: m.bytes) 1 = some m := getMd4_end rfl
        show parse (op :: m.bytes).length (op :: m.bytes) = _
        rw [parse, if_pos hlen, hmd4]
        rfl
  · rw [write, if_neg hpos]
    exact ⟨none, rfl, fun h => absurd h hpos⟩

theorem writeShort_ne_nil {t : ClientMsg} (hk : t.ShortKept) : writeShort e t ≠ [] := by
  cases t with
  | queryFileReq q => exact List.cons_ne_nil _ _
  | queryChunksReq m => exact List.cons_ne_nil _ _
  | emuleRequestSourcesReq m => exact List.cons_ne_nil _ _
  | _ => exact absurd hk id

theorem writeShortAnswer_ne_nil {t : ClientMsg} (hk : t.ShortAnswerKept) :
    writeShortAnswer t ≠ [] := by
  cases t with
  | queryFileReplyReq q => exact List.cons_ne_nil _ _
  | queryChunksReplyReq q => exact List.cons_ne_nil _ _
  | _ => exact absurd hk id

-- The short packets of a packet are read to their end.
theorem multiPacket_drop {short : Nat → Option (ClientMsg × Nat)} {item : ClientMsg → Bytes}
    {R : ClientMsg → ClientMsg → Prop} (m : Md4) {l : List ClientMsg} {s : Bytes}
    (hs : s = op :: (m.bytes ++ l.flatMap item))
    (hone : ∀ t ∈ l, item t ≠ [] ∧ ∀ {pos : Nat} {r : Bytes}, s.drop pos = item t ++ r →
      ∃ t', short pos = some (t', pos + (item t).length) ∧ R t t') :
    ∃ l', iterShort short s.length s.length 17 = some l' ∧ List.Forall₂ R l l' := by
  have h1 : s.drop 1 = m.bytes ++ l.flatMap item := by rw [hs]; rfl
  have hfuel := length_le_flatMap fun t ht => (hone t ht).1
  apply iterShort_drop hone (drop_md4 h1)
  rw [hs, List.length_cons, List.length_append]
  omega

section Survives

variable {uncompress : Bytes → Option Bytes} {countryCode : Ip → Option Int} {t : ClientMsg}
  {α : Type} {parsed : Option α} {make : α → ClientMsg} {x : α}

theorem survives_edonkey_of {t' : ClientMsg} (op : UInt8) (b : Bytes) (hm : t.magic = 227)
    (hp : t.packet e = some (op :: b)) (hd : parseEdonkeyPacket e op (op :: b) = some t')
    (hs : Same e t t') : Survives e uncompress countryCode t := by
  refine ⟨227, op :: b, by rw [write, hp, hm]; rfl, ?_⟩
  have hread : parse uncompress countryCode e 227 (op :: b) = t' := by
    show (parseEdonkeyPacket e op (op :: b)).getD _ = t'
    rw [hd]
    rfl
  rw [hread]
  exact hs

theorem survives_edonkey (op : UInt8) (b : Bytes) (hm : t.magic = 227)
    (hp : t.packet e = some (op :: b))
    (hd : parseEdonkeyPacket e op (op :: b) = parsed.map make) (hx : parsed = some x)
    (hs : Same e t (make x)) : Survives e uncompress countryCode t :=
  survives_edonkey_of op b hm hp (hd.trans (by rw [hx]; rfl)) hs

theorem survives_emule_of {t' : ClientMsg} (op : UInt8) (b : Bytes) (hm : t.magic = 0xC5)
    (hp : t.packet e = some (op :: b))
    (hd : parseEmulePacket countryCode e op (op :: b) = some t')
    (hs : Same e t t') : Survives e uncompress countryCode t := by
  refine ⟨0xC5, op :: b, by rw [write, hp, hm]; rfl, ?_⟩
  have hread : parse uncompress countryCode e 0xC5 (op :: b) = t' := by
    show (parseEmulePacket countryCode e op (op :: b)).getD _ = t'
    rw [hd]
    rfl
  rw [hread]
  exact hs

theorem survives_emule (op : UInt8) (b : Bytes) (hm : t.magic = 0xC5)
    (hp : t.packet e = some (op :: b))
    (hd : parseEmulePacket countryCode e op (op :: b) = parsed.map make) (hx : parsed = some x)
    (hs : Same e t (make x)) : Survives e uncompress countryCode t :=
  survives_emule_of op b hm hp (hd.trans (by rw [hx]; rfl)) hs

-- A tag that is kept is written.
theorem bufTags_isSome {names : Names} {tags : List Tag} (hk : TagsKept names tags) :
    ∃ b, bufTags names tags = some b := by
  have hall : ∀ l : List Tag, (∀ tag ∈ l, tag.Kept names) →
      ∃ bs, l.mapM (bufTag names) = some bs := by
    intro l hl
    induction l with
    | nil => exact ⟨[], rfl⟩
    | cons tag l ih =>
        obtain ⟨bs, hbs⟩ := ih fun x hx => hl x (List.mem_cons_of_mem tag hx)
        have hone : ∃ b, bufTag names tag = some b := by
          have hkept := (hl tag List.mem_cons_self).2
          rw [bufTag]
          split at hkept
          · rename_i hv
            exact ⟨_, by rw [hv]⟩
          · rename_i hv
            exact ⟨_, by rw [hv]⟩
          · rename_i hv
            exact ⟨_, by rw [hv]⟩
          · exact absurd hkept id
        obtain ⟨b, hb⟩ := hone
        exact ⟨b :: bs, by rw [List.mapM_cons, hb, hbs]; rfl⟩
  obtain ⟨bs, hbs⟩ := hall tags hk.2
  exact ⟨_, by rw [bufTags, hbs]; rfl⟩

theorem writeFiles_isSome {files : List TaggedFile}
    (hk : ∀ file ∈ files, TagsKept fileCommonTags file.tags) :
    ∃ b, ViewFilesReply.writeFiles files = some b := by
  have hall : ∃ bs, files.mapM ViewFilesReply.writeFile = some bs := by
    induction files with
    | nil => exact ⟨[], rfl⟩
    | cons file files ih =>
        obtain ⟨bs, hbs⟩ := ih fun x hx => hk x (List.mem_cons_of_mem file hx)
        obtain ⟨tags, htags⟩ := bufTags_isSome (hk file List.mem_cons_self)
        have hone := show ViewFilesReply.writeFile file = some _ by
          rw [ViewFilesReply.writeFile, htags]; rfl
        exact ⟨_ :: bs, by rw [List.mapM_cons, hone, hbs]; rfl⟩
  obtain ⟨bs, hbs⟩ := hall
  exact ⟨_, by rw [ViewFilesReply.writeFiles, hbs]; rfl⟩

theorem connect_written (reply : Bool) {c : Connect} (hr : ConnectInRange c)
    (hs : c.serverInfo ≠ none) (hk : TagsKept clientCommonTags c.tags) :
    ∃ b c', c.write reply = some b ∧ Connect.parse reply (op :: b) = some c' ∧ c'.md4 = c.md4 ∧
      c'.ip = c.ip ∧ c'.port = c.port ∧ c'.tags = c.tags ∧ c'.serverInfo = c.serverInfo := by
  obtain ⟨server, hserver⟩ := Option.ne_none_iff_exists'.mp hs
  obtain ⟨tags, htags⟩ := bufTags_isSome hk
  have hw := show c.write reply = some _ by rw [Connect.write, htags]; rfl
  obtain ⟨c', hc', hrest⟩ := Connect.parse_write op reply c hr.1 hr.2.1 hk hserver
    (hr.2.2 server hserver) hw
  exact ⟨_, c', hw, hc', hrest⟩

theorem clientInfo_written {c : EmuleClientInfo} (hr : ClientInfoInRange c)
    (hk : TagsKept clientCommonTags c.tags) :
    ∃ b, c.write = some b ∧ EmuleClientInfo.parse (op :: b) = some c := by
  obtain ⟨tags, htags⟩ := bufTags_isSome hk
  have hw := show c.write = some _ by rw [EmuleClientInfo.write, htags]; rfl
  exact ⟨_, hw, c.parse_write op hr.1 hr.2.1 hr.2.2 hk hw⟩

theorem survives_kept (hr : t.InRange) (hx : t.Exchanged) (hk : t.Kept) :
    Survives e uncompress countryCode t := by
  cases t with
  | connectReq c =>
      obtain ⟨b, c', hw, hc', hrest⟩ := connect_written 1 false hr hk.1 hk.2
      exact survives_edonkey 1 b rfl (by rw [packet, hw]; rfl) rfl hc' ⟨c', rfl, hrest⟩
  | connectReplyReq c =>
      obtain ⟨b, c', hw, hc', hrest⟩ := connect_written 76 true hr hk.1 hk.2
      exact survives_edonkey 76 b rfl (by rw [packet, hw]; rfl) rfl hc' ⟨c', rfl, hrest⟩
  | queryFileReq q =>
      obtain ⟨x, hx, hsame⟩ := QueryFile.parse_write 88 q hr
      exact survives_edonkey 88 _ rfl rfl rfl hx ⟨_, rfl, rfl, hsame⟩
  | queryFileReplyReq q => exact survives_edonkey 89 q.write rfl rfl rfl (q.parse_write _ hr) rfl
  | blocReq b =>
      obtain ⟨hs, he, hdata⟩ := hr
      obtain ⟨d, hd⟩ := Option.ne_none_iff_exists'.mp hdata
      have hw := show b.write = some _ by rw [Bloc.write, hd]; rfl
      cases hu : b.usesixtyfour with
      | true =>
          obtain ⟨b', hb', hrest⟩ := Bloc.parse_write 0xa2 b hs he hw
          rw [hu] at hb'
          exact survives_emule 0xa2 _ (by rw [magic, hu]; rfl) (by rw [packet, hw, hu]; rfl) rfl hb'
            ⟨b', rfl, hrest⟩
      | false =>
          obtain ⟨b', hb', hrest⟩ := Bloc.parse_write 70 b hs he hw
          rw [hu] at hb'
          exact survives_edonkey 70 _ (by rw [magic, hu]; rfl) (by rw [packet, hw, hu]; rfl) rfl hb'
            ⟨b', rfl, hrest⟩
  | queryBlocReq b =>
      have hb := QueryBloc.parse_write (if b.usesixtyfour then 0xa3 else 71) b hr
      cases hu : b.usesixtyfour with
      | true =>
          rw [hu] at hb
          exact survives_emule 0xa3 _ (by rw [magic, hu]; rfl) (by rw [packet, hu]; rfl) rfl hb rfl
      | false =>
          rw [hu] at hb
          exact survives_edonkey 71 _ (by rw [magic, hu]; rfl) (by rw [packet, hu]; rfl) rfl hb rfl
  | joinQueueReq m =>
      obtain ⟨m', hm', hsame⟩ := JoinQueue.parse_write 84 m
      exact survives_edonkey 84 _ rfl rfl rfl hm' ⟨m', rfl, hsame⟩
  | availableSlotReq => exact survives_edonkey_of 85 [] rfl rfl rfl rfl
  | releaseSlotReq => exact survives_edonkey_of 86 [] rfl rfl rfl rfl
  | outOfPartsReq => exact survives_edonkey_of 87 [] rfl rfl rfl rfl
  | queryChunksReq m => exact survives_edonkey 79 m.bytes rfl rfl rfl (getMd4_end rfl) rfl
  | queryChunksReplyReq q => exact survives_edonkey 80 q.write rfl rfl rfl (q.parse_write _ hr) rfl
  | queryChunkMd4Req m => exact survives_edonkey 81 m.bytes rfl rfl rfl (getMd4_end rfl) rfl
  | queryChunkMd4ReplyReq q =>
      exact survives_edonkey 82 q.write rfl rfl rfl (q.parse_write _ hr) rfl
  | viewFilesReq => exact survives_edonkey_of 74 [] rfl rfl rfl rfl
  | viewFilesReplyReq files =>
      obtain ⟨b, hb⟩ := writeFiles_isSome hk.2
      have hw := show ViewFilesReply.write files = some _ by rw [ViewFilesReply.write, hb]; rfl
      exact survives_edonkey 75 _ rfl (by rw [packet, hw]; rfl) rfl
        (ViewFilesReply.parse_write 75 hr.1 hk.1 hr.2 hk.2 hw) rfl
  | viewDirsReq => exact survives_edonkey_of 93 [] rfl rfl rfl rfl
  | viewDirsReplyReq l => exact absurd hx id
  | viewFilesDirReq dir =>
      exact survives_edonkey 94 (bufString dir) rfl rfl rfl
        (getString16_drop (List.append_nil _).symm hr) rfl
  | viewFilesDirReplyReq dir files => exact absurd hx id
  | queueReq l => exact absurd hx id
  | unknownReq opcode s => exact absurd hx id
  | otherLocationsReq l => exact absurd hx id
  | sayReq s =>
      exact survives_edonkey 78 (bufString s) rfl rfl rfl
        (getString16_drop (List.append_nil _).symm hr) rfl
  | sourcesReq x =>
      exact survives_edonkey 250 x.write rfl rfl rfl (x.parse_write _ hr)
        ⟨_, rfl, rfl, List.reverse_perm _⟩
  | endOfDownloadReq m => exact survives_edonkey 73 m.bytes rfl rfl rfl (getMd4_end rfl) rfl
  | newUserIDReq ip1 ip2 =>
      have h1 : (77 :: (bufIp ip1 ++ bufIp ip2)).drop 1 = bufIp ip1 ++ bufIp ip2 := rfl
      have h2 := drop_next h1 4 rfl
      have hd : parseEdonkeyPacket e 77 (77 :: (bufIp ip1 ++ bufIp ip2)) =
          some (newUserIDReq ip1 ip2) := by
        show (do return newUserIDReq (← getIp _ 1) (← getIp _ 5)) = _
        rw [getIp_drop h1, getIp_drop (h2.trans (List.append_nil _).symm)]
        rfl
      exact survives_edonkey_of 77 _ rfl rfl hd rfl
  | noSuchFileReq m => exact survives_edonkey 72 m.bytes rfl rfl rfl (getMd4_end rfl) rfl
  | queueRankReq n =>
      have h1 : (92 :: bufInt n).drop 1 = bufInt n ++ [] := (List.append_nil _).symm
      exact survives_edonkey 92 (bufInt n) rfl rfl rfl (getInt_drop h1 hr hk) rfl
  | emuleClientInfoReq c =>
      obtain ⟨b, hw, hc⟩ := clientInfo_written 1 hr hk
      exact survives_emule 1 b rfl (by rw [packet, hw]; rfl) rfl hc rfl
  | emuleClientInfoReplyReq c =>
      obtain ⟨b, hw, hc⟩ := clientInfo_written 2 hr hk
      exact survives_emule 2 b rfl (by rw [packet, hw]; rfl) rfl hc rfl
  | emuleQueueRankingReq n =>
      have h1 : (0x60 :: EmuleQueueRanking.write n).drop 1 = bufInt16 n ++ _ := rfl
      exact survives_emule 0x60 (EmuleQueueRanking.write n) rfl rfl rfl (getInt16_drop h1 hr) rfl
  | emuleRequestSourcesReq m => exact survives_emule 0x81 m.bytes rfl rfl rfl (getMd4_end rfl) rfl
  | emuleRequestSourcesReplyReq x =>
      obtain ⟨x', hx', hsame⟩ := EmuleRequestSourcesReply.parse_write 0x82 countryCode e x hr
      exact survives_emule 0x82 (x.write e) rfl rfl rfl hx' ⟨x', rfl, hsame⟩
  | emuleFileDescReq d => exact absurd hk id
  | emulePublicKeyReq key =>
      exact survives_emule 0x85 (bufEstring key) rfl rfl rfl
        (EmulePublicKeyReq.parse_write _ key hr) rfl
  | emuleSignatureReq x =>
      exact survives_emule 0x86 x.write rfl rfl rfl (x.parse_write 0x86 hr.1 hr.2) rfl
  | emuleSecIdentStateReq x =>
      exact survives_emule 0x87 x.write rfl rfl rfl (x.parse_write 0x87 hr.1 hr.2) rfl
  | emuleMultiPacketReq m l =>
      obtain ⟨l', hl', hall⟩ := multiPacket_drop 0x92 m rfl fun t ht =>
        ⟨writeShort_ne_nil (hk t ht), parseShort_drop m (hr t ht) (hk t ht)⟩
      have h1 : (0x92 :: (m.bytes ++ l.flatMap (writeShort e))).drop 1 = m.bytes ++ _ := rfl
      have hd : parseEmulePacket countryCode e 0x92
          (0x92 :: (m.bytes ++ l.flatMap (writeShort e))) = some (emuleMultiPacketReq m l') := by
        show (do
          let md4 ← getMd4 _ 1
          return emuleMultiPacketReq md4 (← iterShort (parseShort e md4 _) _ _ 17)) = _
        rw [getMd4_drop h1]
        simp only [Option.bind_eq_bind, Option.bind_some]
        rw [hl']
        rfl
      exact survives_emule_of 0x92 _ rfl rfl hd ⟨l', rfl, hall⟩
  | emuleMultiPacketAnswerReq m l =>
      obtain ⟨l', hl', hall⟩ := multiPacket_drop 0x93 m rfl fun t ht =>
        ⟨writeShortAnswer_ne_nil (hk t ht), parseShortAnswer_drop m (hr t ht) (hk t ht)⟩
      have h1 : (0x93 :: (m.bytes ++ l.flatMap writeShortAnswer)).drop 1 = m.bytes ++ _ := rfl
      have hlen : ¬ (0x93 :: (m.bytes ++ l.flatMap writeShortAnswer)).length < 16 := by
        rw [List.length_cons, List.length_append, m.length_bytes]
        omega
      have hd : parseEmulePacket countryCode e 0x93
          (0x93 :: (m.bytes ++ l.flatMap writeShortAnswer)) =
            some (emuleMultiPacketAnswerReq m l') := by
        show (if _ then none else do
          let md4 ← getMd4 _ 1
          return emuleMultiPacketAnswerReq md4 (← iterShort (parseShortAnswer md4 _) _ _ 17)) = _
        rw [if_neg hlen, getMd4_drop h1]
        simp only [Option.bind_eq_bind, Option.bind_some]
        rw [hl']
        rfl
      exact survives_emule_of 0x93 _ rfl rfl hd ⟨l', rfl, hall⟩
  | emuleCompressedPart x =>
      have hb := EmuleCompressedPart.parse_write (if x.usesixtyfour then 0xa1 else 0x40) x hr.1 hr.2
      cases hu : x.usesixtyfour with
      | true =>
          rw [hu] at hb
          exact survives_emule 0xa1 x.write rfl (by rw [packet, hu]; rfl) rfl hb rfl
      | false =>
          rw [hu] at hb
          exact survives_emule 0x40 x.write rfl (by rw [packet, hu]; rfl) rfl hb rfl
  | emulePortTestReq s => exact absurd hk id
  | emuleCaptchaReq s =>
      exact survives_emule 0xa5 (bufEstring s) rfl rfl rfl
        (sub_end (s := 0xa5 :: bufEstring s) rfl (by simp [bufEstring])) rfl
  | emuleCaptchaRes n =>
      have h1 : (0xa6 :: bufInt8 n).drop 1 = bufInt8 n := rfl
      exact survives_emule 0xa6 (bufInt8 n) rfl rfl rfl (getInt8_end h1 hr) rfl

theorem Survives.same (h : Survives e uncompress countryCode t) {b : Bytes}
    (hp : t.packet e = some b) : Same e t (parse uncompress countryCode e t.magic b) := by
  obtain ⟨magic, s, hw, hs⟩ := h
  rw [write, hp] at hw
  obtain ⟨rfl, rfl⟩ := Prod.mk.inj (Option.some.inj hw)
  exact hs

theorem parseEmulePacket_of_parse {s : Bytes}
    (h : parse uncompress countryCode e 0xC5 (op :: s) = t) (ht : ∀ opcode s, t ≠ .unknownReq opcode s) :
    parseEmulePacket countryCode e op (op :: s) = some t := by
  have hread :
      (parseEmulePacket countryCode e op (op :: s)).getD (.unknownReq 0xC5 (op :: s)) = t := h
  cases hp : parseEmulePacket countryCode e op (op :: s) with
  | none =>
      rw [hp] at hread
      exact absurd hread.symm (ht _ _)
  | some t' =>
      rw [hp] at hread
      exact congrArg some hread

theorem SameShort.kept {m : Md4} {t' : ClientMsg} (h : SameShort e m t t') (hk : t'.ShortKept) :
    t.ShortKept := by
  cases t with
  | queryFileReq q =>
      obtain ⟨x, rfl, hx⟩ := h
      intro hnone
      rw [hnone] at hx
      exact hk hx
  | queryChunksReq m => trivial
  | emuleRequestSourcesReq m => trivial
  | _ =>
      obtain rfl := h
      exact hk

theorem SameShort.answerKept {m : Md4} {t' : ClientMsg} (h : SameShort e m t t')
    (hk : t'.ShortAnswerKept) : t.ShortAnswerKept := by
  cases t with
  | queryFileReplyReq q => trivial
  | queryChunksReplyReq q => trivial
  | queryFileReq q =>
      obtain ⟨x, rfl, -⟩ := h
      exact hk
  | _ =>
      obtain rfl := h
      exact hk

theorem kept_of_forall₂ {R : ClientMsg → ClientMsg → Prop} {P : ClientMsg → Prop}
    {l l' : List ClientMsg} (h : List.Forall₂ R l l') (hl' : ∀ t ∈ l', P t)
    (hR : ∀ t t', R t t' → P t' → P t) : ∀ t ∈ l, P t := by
  induction h with
  | nil => exact fun t ht => absurd ht List.not_mem_nil
  | cons hone hrest ih =>
      intro t ht
      rcases List.mem_cons.mp ht with rfl | ht
      · exact hR _ _ hone (hl' _ List.mem_cons_self)
      · exact ih (fun x hx => hl' x (List.mem_cons_of_mem _ hx)) t ht

theorem kept_of_survives (hr : t.InRange) (ht : ¬ t.Tagged)
    (h : Survives e uncompress countryCode t) : t.Kept := by
  cases t with
  | connectReq c => exact absurd trivial ht
  | connectReplyReq c => exact absurd trivial ht
  | viewFilesReplyReq files => exact absurd trivial ht
  | emuleClientInfoReq c => exact absurd trivial ht
  | emuleClientInfoReplyReq c => exact absurd trivial ht
  | queueRankReq n =>
      have h1 : (92 :: bufInt n).drop 1 = bufInt n ++ [] := (List.append_nil _).symm
      have hread : ((getInt (92 :: bufInt n) 1).map queueRankReq).getD
          (unknownReq 227 (92 :: bufInt n)) = queueRankReq n := h.same rfl
      rw [getInt_bufInt h1 hr] at hread
      have hn := ClientMsg.queueRankReq.inj hread
      by_contra hbit
      rw [if_pos (by rw [ClientMsg.Kept] at hbit; omega)] at hn
      omega
  | emuleFileDescReq d =>
      have hsame : parse uncompress countryCode e 0xC5 (0x61 :: d.write) = emuleFileDescReq d :=
        h.same rfl
      have hread := parseEmulePacket_of_parse _ hsame (fun _ _ => ClientMsg.noConfusion)
      have hnone : (EmuleFileDesc.parse (0x61 :: d.write)).map emuleFileDescReq =
          some (emuleFileDescReq d) := hread
      rw [EmuleFileDesc.parse_write _ d hr.2] at hnone
      simp at hnone
  | emulePortTestReq s =>
      have hsame : unknownReq 227 [0xfe, 0x12] = emulePortTestReq s := h.same rfl
      exact ClientMsg.noConfusion hsame
  | emuleMultiPacketReq m l =>
      obtain ⟨l', hl', hall⟩ := h.same rfl
      have hread := parseEmulePacket_of_parse _ hl' (fun _ _ => ClientMsg.noConfusion)
      have hbind : (do
          let md4 ← getMd4 (0x92 :: (m.bytes ++ l.flatMap (writeShort e))) 1
          return emuleMultiPacketReq md4 (← iterShort (parseShort e md4 _) _ _ 17)) =
        some (emuleMultiPacketReq m l') := hread
      simp only [Option.bind_eq_bind, Option.bind_eq_some_iff, Option.pure_def, Option.some.injEq,
        emuleMultiPacketReq.injEq] at hbind
      obtain ⟨md4, -, l'', hl'', rfl, rfl⟩ := hbind
      exact kept_of_forall₂ hall (iterShort_all parseShort_kept hl'') fun _ _ => SameShort.kept
  | emuleMultiPacketAnswerReq m l =>
      obtain ⟨l', hl', hall⟩ := h.same rfl
      have hread := parseEmulePacket_of_parse _ hl' (fun _ _ => ClientMsg.noConfusion)
      have hbind : (if (0x93 :: (m.bytes ++ l.flatMap writeShortAnswer)).length < 16 then none
        else do
          let md4 ← getMd4 (0x93 :: (m.bytes ++ l.flatMap writeShortAnswer)) 1
          return emuleMultiPacketAnswerReq md4 (← iterShort (parseShortAnswer md4 _) _ _ 17)) =
        some (emuleMultiPacketAnswerReq m l') := hread
      rw [if_neg (by rw [List.length_cons, List.length_append, m.length_bytes]; omega)] at hbind
      simp only [Option.bind_eq_bind, Option.bind_eq_some_iff, Option.pure_def, Option.some.injEq,
        emuleMultiPacketAnswerReq.injEq] at hbind
      obtain ⟨md4, -, l'', hl'', rfl, rfl⟩ := hbind
      exact kept_of_forall₂ hall (iterShort_all parseShortAnswer_kept hl'')
        fun _ _ => SameShort.answerKept
  | _ => trivial

end Survives

-- Every message whose codecs agree survives the wire, and of the messages without
-- tags no other does.
theorem client_messages_survive (uncompress : Bytes → Option Bytes)
    (countryCode : Ip → Option Int) (e : EmuleProto) (t : ClientMsg) (hr : t.InRange)
    (hx : t.Exchanged) :
    (t.Kept → Survives e uncompress countryCode t) ∧
      (¬ t.Tagged → Survives e uncompress countryCode t → t.Kept) :=
  ⟨survives_kept hr hx, kept_of_survives hr⟩

def zeroMd4 : Md4 := EmuleRequestSourcesReply.nullMd4

def multiPacket : ClientMsg :=
  .emuleMultiPacketReq zeroMd4
    [.queryFileReq ⟨zeroMd4, some ([true, false, true], -1)⟩, .queryChunksReq zeroMd4]

theorem client_messages_survive_multi :
    Survives ⟨1, 2⟩ (fun _ => none) (fun _ => none) multiPacket := by
  have hr : multiPacket.InRange := by
    intro t ht
    rcases List.mem_cons.mp ht with rfl | ht
    · rintro chunks n ⟨⟩
      decide
    · obtain rfl := List.mem_singleton.mp ht
      trivial
  have hk : multiPacket.Kept := by
    intro t ht
    rcases List.mem_cons.mp ht with rfl | ht
    · exact Option.some_ne_none _
    · obtain rfl := List.mem_singleton.mp ht
      trivial
  exact (client_messages_survive _ _ _ _ hr trivial).1 hk

-- The comment of a file is lost.
theorem client_messages_survive_false :
    ¬ ∀ (uncompress : Bytes → Option Bytes) (countryCode : Ip → Option Int) (e : EmuleProto)
      (t : ClientMsg), t.InRange → t.Exchanged → Survives e uncompress countryCode t := by
  intro h
  have hr : (ClientMsg.emuleFileDescReq ⟨3, [97, 98, 99]⟩).InRange := by
    refine ⟨⟨?_, ?_⟩, ?_⟩ <;> decide
  exact kept_of_survives hr id (h (fun _ => none) (fun _ => none) ⟨1, 2⟩ _ hr trivial)

end Mldonkey.Donkey
