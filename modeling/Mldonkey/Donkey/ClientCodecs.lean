import Mldonkey.Donkey.ClientMessages

-- What the parsers of the messages of clients read from what their writers wrote.
namespace Mldonkey.Donkey

open BigEndian (bufInt8 getInt8)
open LittleEndian

abbrev Fits (w : Nat) (i : Int) : Prop := 0 ≤ i ∧ i < 2 ^ w

-- A place in a file: below 2^32, or any int64 in the packets of 64 bits.
def PosFits (usesixtyfour : Bool) (i : Int) : Prop :=
  if usesixtyfour then -2 ^ 63 ≤ i ∧ i < 2 ^ 63 else Fits 32 i

def posLength (usesixtyfour : Bool) : Nat := if usesixtyfour then 8 else 4

def TagsInRange (names : Names) (tags : List Tag) : Prop :=
  tags.length < 2 ^ 32 ∧ ∀ tag ∈ tags, tag.InRange names

def TagsKept (names : Names) (tags : List Tag) : Prop :=
  CountKept tags.length ∧ ∀ tag ∈ tags, tag.Kept names

variable {s r : Bytes} {pos : Nat} {i : Int} (op : UInt8)

@[simp] theorem posLength_true : posLength true = 8 := rfl

@[simp] theorem posLength_false : posLength false = 4 := rfl

theorem getInt8_end (h : s.drop pos = bufInt8 i) (hi : Fits 8 i) : getInt8 s pos = some i :=
  getInt8_drop (h.trans (List.append_nil _).symm) hi

theorem getMd4_end {md4 : Md4} (h : s.drop pos = md4.bytes) : getMd4 s pos = some md4 :=
  getMd4_drop (h.trans (List.append_nil _).symm)

theorem length_bufPos (u : Bool) (i : Int) : (bufPos u i).length = posLength u := by
  cases u <;> rfl

theorem getPos_drop {u : Bool} (h : s.drop pos = bufPos u i ++ r) (hi : PosFits u i) :
    (if u then getInt64 s pos else getInt s pos) = some i := by
  cases u with
  | true => exact getInt64_drop h hi
  | false => exact getInt64_32_drop h hi

theorem drop_md4 {md4 : Md4} (h : s.drop pos = md4.bytes ++ r) : s.drop (pos + 16) = r :=
  drop_next h 16 md4.length_bytes

theorem QueryFileReply.parse_write (t : QueryFileReply) (hr : t.name.length < 2 ^ 16) :
    QueryFileReply.parse (op :: t.write) = some t := by
  have h1 : (op :: t.write).drop 1 = t.md4.bytes ++ bufString t.name := rfl
  have h2 := drop_md4 h1
  rw [parse, getString16_drop (h2.trans (List.append_nil _).symm) hr, getMd4_drop h1]
  rfl

theorem sub_end {a : Bytes} (h : s.drop pos = a) (hpos : pos ≤ s.length) :
    sub s pos (s.length - pos) = some a := by
  have hlen := congrArg List.length h
  rw [List.length_drop] at hlen
  exact sub_drop (h.trans (List.append_nil _).symm) hlen.symm hpos

theorem Bloc.data_end {a : Bytes} (h : s.drop pos = a) (hpos : pos ≤ s.length) (md4 : Md4)
    (u : Bool) (b e : Int) : Bloc.data ⟨md4, u, b, e, s, pos, (s.length : Int) - pos⟩ = some a := by
  have hlen : ((s.length : Int) - pos).toNat = s.length - pos := by omega
  rw [data, if_pos ⟨Int.natCast_nonneg pos, Int.sub_nonneg_of_le (by exact_mod_cast hpos)⟩, hlen,
    Int.toNat_natCast, sub_end h hpos]

theorem Bloc.parse_write (t : Bloc) (hs : PosFits t.usesixtyfour t.startPos)
    (he : PosFits t.usesixtyfour t.endPos) {b : Bytes} (hb : t.write = some b) :
    ∃ t', Bloc.parse t.usesixtyfour (op :: b).length (op :: b) = some t' ∧ t'.md4 = t.md4 ∧
      t'.usesixtyfour = t.usesixtyfour ∧ t'.startPos = t.startPos ∧ t'.endPos = t.endPos ∧
      t'.data = t.data := by
  simp only [write, Option.bind_eq_bind, Option.bind_eq_some_iff, Option.pure_def,
    Option.some.injEq] at hb
  obtain ⟨d, hd, rfl⟩ := hb
  generalize hp : op :: (t.md4.bytes ++ (bufPos t.usesixtyfour t.startPos ++
    (bufPos t.usesixtyfour t.endPos ++ d))) = p
  have h1 : p.drop 1 = t.md4.bytes ++ (bufPos t.usesixtyfour t.startPos ++
      (bufPos t.usesixtyfour t.endPos ++ d)) := by rw [← hp]; rfl
  have h2 := drop_md4 h1
  have h3 := drop_next h2 _ (length_bufPos _ _)
  have h4 := drop_next h3 _ (length_bufPos _ _)
  have hlen : p.length = 1 + 16 + 2 * posLength t.usesixtyfour + d.length := by
    rw [← hp, List.length_cons, List.length_append, List.length_append, List.length_append,
      length_bufPos, length_bufPos, t.md4.length_bytes]
    omega
  have hstart := getPos_drop h2 hs
  have hend := getPos_drop h3 he
  rw [hd]
  cases hu : t.usesixtyfour with
  | true =>
      rw [hu, posLength_true] at hend h4 hlen
      rw [hu] at hstart
      refine ⟨⟨t.md4, true, t.startPos, t.endPos, p, 33, (p.length : Int) - 33⟩, ?_, rfl, rfl, rfl,
        rfl, Bloc.data_end h4 (by omega) _ _ _ _⟩
      rw [parse, getMd4_drop h1]
      simp only [if_true, Nat.reduceAdd] at hstart hend ⊢
      rw [hstart, hend]
      rfl
  | false =>
      rw [hu, posLength_false] at hend h4 hlen
      rw [hu] at hstart
      refine ⟨⟨t.md4, false, t.startPos, t.endPos, p, 25, (p.length : Int) - 25⟩, ?_, rfl, rfl, rfl,
        rfl, Bloc.data_end h4 (by omega) _ _ _ _⟩
      rw [parse, getMd4_drop h1]
      simp only [Bool.false_eq_true, if_false, Nat.reduceAdd] at hstart hend ⊢
      rw [hstart, hend]
      rfl

def QueryBloc.InRange (t : QueryBloc) : Prop :=
  ∀ i ∈ [t.startPos1, t.endPos1, t.startPos2, t.endPos2, t.startPos3, t.endPos3],
    PosFits t.usesixtyfour i

theorem QueryBloc.parse_write (t : QueryBloc) (hr : t.InRange) :
    QueryBloc.parse t.usesixtyfour (op :: t.write) = some t := by
  have h1 : (op :: t.write).drop 1 = t.md4.bytes ++ _ := rfl
  have h2 := drop_md4 h1
  have h3 := drop_next h2 _ (length_bufPos _ _)
  have h4 := drop_next h3 _ (length_bufPos _ _)
  have h5 := drop_next h4 _ (length_bufPos _ _)
  have h6 := drop_next h5 _ (length_bufPos _ _)
  have h7 := drop_next h6 _ (length_bufPos _ _)
  have g2 := getPos_drop h2 (hr _ (by simp))
  have g3 := getPos_drop h3 (hr _ (by simp))
  have g4 := getPos_drop h4 (hr _ (by simp))
  have g5 := getPos_drop h5 (hr _ (by simp))
  have g6 := getPos_drop h6 (hr _ (by simp))
  have g7 := getPos_drop (h7.trans (List.append_nil _).symm) (hr _ (by simp))
  rw [parse, getMd4_drop h1]
  obtain ⟨md4, u, a, b, c, d, e, f⟩ := t
  cases u with
  | true =>
      simp only [if_true, posLength_true, Nat.reduceAdd] at g2 g3 g4 g5 g6 g7 ⊢
      rw [g2, g3, g4, g5, g6, g7]
      rfl
  | false =>
      simp only [Bool.false_eq_true, if_false, posLength_false, Nat.reduceAdd] at g2 g3 g4 g5 g6 g7 ⊢
      rw [g2, g3, g4, g5, g6, g7]
      rfl

theorem QueryChunksReply.parse_write (t : QueryChunksReply) (hr : t.chunks.length < 2 ^ 16) :
    QueryChunksReply.parse (op :: t.write) = some t := by
  have h1 : (op :: t.write).drop 1 = t.md4.bytes ++ _ := rfl
  rw [parse, getMd4_drop h1, getBitmap_drop (drop_md4 h1) hr]
  rfl

theorem mapM_items {α : Type} {size start : Nat} {get : Nat → Option α} {item : α → Bytes}
    {ok : α → Prop} (hsize : ∀ x, (item x).length = size)
    (hget : ∀ {i : Nat} {x : α} {r : Bytes}, ok x → s.drop (start + i * size) = item x ++ r →
      get i = some x)
    (l : List α) (hl : ∀ x ∈ l, ok x) (k : Nat)
    (h : s.drop (start + k * size) = l.flatMap item ++ r) :
    (List.range' k l.length).mapM get = some l := by
  induction l generalizing k with
  | nil => rfl
  | cons x l ih =>
      rw [List.flatMap_cons, List.append_assoc] at h
      have h2 := drop_next h size (hsize x)
      rw [Nat.add_assoc, ← Nat.succ_mul] at h2
      rw [List.length_cons, List.range'_succ, List.mapM_cons, hget (hl x List.mem_cons_self) h,
        ih (fun y hy => hl y (List.mem_cons_of_mem x hy)) _ h2]
      rfl

theorem QueryChunkMd4Reply.parse_write (t : QueryChunkMd4Reply) (hr : t.chunks.length < 2 ^ 16) :
    QueryChunkMd4Reply.parse (op :: t.write) = some t := by
  have h1 : (op :: t.write).drop 1 = t.md4.bytes ++ _ := rfl
  have h2 := drop_md4 h1
  have h3 := drop_next h2 2 rfl
  have hitem : ∀ {i : Nat} {x : Md4} {r : Bytes}, True →
      (op :: t.write).drop (19 + i * 16) = x.bytes ++ r →
      getMd4 (op :: t.write) (19 + i * 16) = some x := fun _ h => getMd4_drop h
  rw [parse, getMd4_drop h1, getInt16_drop h2 ⟨by omega, by omega⟩]
  simp only [Option.bind_eq_bind, Option.bind_some, Int.toNat_natCast]
  rw [List.range_eq_range', mapM_items Md4.length_bytes hitem t.chunks (fun _ _ => trivial) 0
    (h3.trans (List.append_nil _).symm)]
  rfl

def Sources.InRange (t : Sources) : Prop :=
  t.sources.length < 2 ^ 16 ∧ ∀ p ∈ t.sources, Fits 16 p.2.1

theorem Sources.length_writeSource (p : Ip × Int × Ip) : (writeSource p).length = 10 := rfl

theorem Sources.parseSource_drop {p : Ip × Int × Ip} (hp : Fits 16 p.2.1) {i : Nat}
    (h : s.drop (19 + i * 10) = writeSource p ++ r) : parseSource s i = some p := by
  rw [writeSource, List.append_assoc, List.append_assoc] at h
  have h2 := drop_next h 4 rfl
  have h3 := drop_next h2 2 rfl
  rw [parseSource, show 19 + 10 * i = 19 + i * 10 by omega, getIp_drop h,
    show 23 + 10 * i = 19 + i * 10 + 4 by omega, getInt16_drop h2 hp,
    show 25 + 10 * i = 19 + i * 10 + 4 + 2 by omega, getIp_drop h3]
  rfl

theorem Sources.parse_write (t : Sources) (hr : t.InRange) :
    Sources.parse (op :: t.write) = some ⟨t.md4, t.sources.reverse⟩ := by
  have h1 : (op :: t.write).drop 1 = bufInt16 t.sources.length ++ (t.md4.bytes ++ _) := rfl
  have h2 := drop_next h1 2 rfl
  have h3 := drop_md4 h2
  have hlen := hr.1
  rw [parse, getInt16_drop h1 ⟨by omega, by omega⟩, getMd4_drop h2]
  simp only [Option.bind_eq_bind, Option.bind_some, Int.toNat_natCast]
  have hsources : (op :: t.write).drop (19 + 0 * 10) = t.sources.flatMap writeSource ++ [] :=
    h3.trans (List.append_nil _).symm
  rw [List.range_eq_range', mapM_items length_writeSource (fun hp h => parseSource_drop hp h)
    t.sources hr.2 0 hsources]
  rfl

theorem Connect.parseFrom_drop (t : Connect) (hport : Fits 16 t.port)
    (hr : TagsInRange clientCommonTags t.tags) (hk : TagsKept clientCommonTags t.tags)
    {server : Ip × Int} (hp : Fits 16 server.2) {tags : Bytes}
    (htags : bufTags clientCommonTags t.tags = some tags) (hashLen : Int)
    (h : s.drop pos = t.md4.bytes ++ (bufIp t.ip ++ (bufInt16 t.port ++ (tags ++
      (bufIp server.1 ++ bufInt16 server.2))))) :
    parseFrom hashLen s pos = some ⟨hashLen, t.md4, t.ip, t.port, t.tags, some server, []⟩ := by
  have h2 := drop_md4 h
  have h3 := drop_next h2 4 rfl
  have h4 := drop_next h3 2 rfl
  have h5 := drop_next h4 _ rfl
  have h6 := drop_next h5 4 rfl
  have h7 := drop_next (h6.trans (List.append_nil _).symm) 2 rfl
  have hlen := congrArg List.length h6
  rw [List.length_drop, length_bufInt16] at hlen
  have hsub := sub_end h7 (by omega)
  rw [parseFrom, getMd4_drop h, getIp_drop h2, getInt16_drop h3 hport]
  simp only [Option.bind_eq_bind, Option.bind_some]
  rw [getTags_drop clientCommonTags_sound htags hr.1 hk.1 hr.2 hk.2 h4]
  simp only [Option.bind_some]
  rw [getIp_drop h5, getInt16_drop (h6.trans (List.append_nil _).symm) hp]
  simp only [Option.bind_some]
  rw [show s.length - (pos + 22 + tags.length) - 6 = s.length - (pos + 22 + tags.length + 6)
    by omega, hsub]
  rfl

theorem Connect.parse_write (reply : Bool) (t : Connect) (hport : Fits 16 t.port)
    (hr : TagsInRange clientCommonTags t.tags) (hk : TagsKept clientCommonTags t.tags)
    {server : Ip × Int} (hs : t.serverInfo = some server) (hp : Fits 16 server.2)
    {b : Bytes} (hb : t.write reply = some b) :
    ∃ t', Connect.parse reply (op :: b) = some t' ∧ t'.md4 = t.md4 ∧ t'.ip = t.ip ∧
      t'.port = t.port ∧ t'.tags = t.tags ∧ t'.serverInfo = t.serverInfo := by
  simp only [write, hs, Option.getD_some, Option.bind_eq_bind, Option.bind_eq_some_iff,
    Option.pure_def, Option.some.injEq] at hb
  obtain ⟨tags, htags, rfl⟩ := hb
  cases reply with
  | true =>
      refine ⟨⟨-1, t.md4, t.ip, t.port, t.tags, some server, []⟩, ?_, rfl, rfl, rfl, rfl, hs.symm⟩
      exact parseFrom_drop t hport hr hk hp htags (-1) rfl
  | false =>
      refine ⟨⟨16, t.md4, t.ip, t.port, t.tags, some server, []⟩, ?_, rfl, rfl, rfl, rfl, hs.symm⟩
      have hbody : (op :: (bufInt8 16 ++ (t.md4.bytes ++ (bufIp t.ip ++ (bufInt16 t.port ++ (tags ++
          (bufIp server.1 ++ bufInt16 server.2))))))).drop 2 = t.md4.bytes ++ _ := rfl
      exact parseFrom_drop t hport hr hk hp htags 16 hbody

namespace ViewFilesReply

def FileInRange (file : TaggedFile) : Prop :=
  Fits 16 file.port ∧ TagsInRange fileCommonTags file.tags

theorem getFiles_drop {files : List TaggedFile} (hr : ∀ file ∈ files, FileInRange file)
    (hk : ∀ file ∈ files, TagsKept fileCommonTags file.tags) {bs : List Bytes}
    (hb : files.mapM writeFile = some bs) (h : s.drop pos = bs.flatten ++ r) :
    ∃ pos', getFiles s files.length pos = some (files, pos') := by
  induction files generalizing bs pos with
  | nil => exact ⟨pos, rfl⟩
  | cons file files ih =>
      rw [List.mapM_cons] at hb
      simp only [writeFile, Option.bind_eq_bind, Option.bind_eq_some_iff, Option.pure_def,
        Option.some.injEq] at hb
      obtain ⟨b, ⟨tags, htags, rfl⟩, bs, hbs, rfl⟩ := hb
      simp only [List.flatten_cons, List.append_assoc] at h
      obtain ⟨hport, hlen, htag⟩ := hr file List.mem_cons_self
      obtain ⟨hcount, hkept⟩ := hk file List.mem_cons_self
      have h2 := drop_md4 h
      have h3 := drop_next h2 4 rfl
      have h4 := drop_next h3 2 rfl
      have h5 := drop_next h4 _ rfl
      obtain ⟨pos', hfiles⟩ := ih (fun f hf => hr f (List.mem_cons_of_mem file hf))
        (fun f hf => hk f (List.mem_cons_of_mem file hf)) hbs h5
      refine ⟨pos', ?_⟩
      rw [List.length_cons, getFiles, getMd4_drop h, getIp_drop h2, getInt16_drop h3 hport]
      simp only [Option.bind_eq_bind, Option.bind_some]
      rw [getTags_drop fileCommonTags_sound htags hlen hcount htag hkept h4]
      simp only [Option.bind_some]
      rw [hfiles]
      rfl

theorem parse_write {t : List TaggedFile} (hlen : t.length < 2 ^ 32) (hc : CountKept t.length)
    (hr : ∀ file ∈ t, FileInRange file) (hk : ∀ file ∈ t, TagsKept fileCommonTags file.tags)
    {b : Bytes} (hb : write t = some b) : parse (op :: b) = some t := by
  simp only [write, writeFiles, Option.bind_eq_bind, Option.bind_eq_some_iff, Option.pure_def,
    Option.some.injEq] at hb
  obtain ⟨_, ⟨bs, hbs, rfl⟩, rfl⟩ := hb
  generalize hp : op :: (bufInt t.length ++ bs.flatten) = p
  have h1 : p.drop 1 = bufInt t.length ++ bs.flatten := by rw [← hp]; rfl
  have h2 := drop_next h1 4 rfl
  obtain ⟨pos', hfiles⟩ := getFiles_drop hr hk hbs (h2.trans (List.append_nil _).symm)
  rw [CountKept] at hc
  rw [parse, getInt_drop h1 ⟨by omega, by omega⟩ (by omega)]
  simp only [Option.bind_eq_bind, Option.bind_some, Int.toNat_natCast]
  rw [hfiles]
  rfl

end ViewFilesReply

theorem EmuleClientInfo.parse_write (t : EmuleClientInfo) (hv : Fits 8 t.version)
    (hp : Fits 8 t.protversion) (hr : TagsInRange clientCommonTags t.tags)
    (hk : TagsKept clientCommonTags t.tags) {b : Bytes} (hb : t.write = some b) :
    EmuleClientInfo.parse (op :: b) = some t := by
  simp only [write, Option.bind_eq_bind, Option.bind_eq_some_iff, Option.pure_def,
    Option.some.injEq] at hb
  obtain ⟨tags, htags, rfl⟩ := hb
  generalize hs : op :: (bufInt8 t.version ++ (bufInt8 t.protversion ++ tags)) = s
  have h1 : s.drop 1 = bufInt8 t.version ++ (bufInt8 t.protversion ++ tags) := by rw [← hs]; rfl
  have h2 := drop_next h1 1 rfl
  have h3 := drop_next h2 1 rfl
  rw [parse, getInt8_drop h1 hv, getInt8_drop h2 hp]
  simp only [Option.bind_eq_bind, Option.bind_some]
  rw [getTags_drop clientCommonTags_sound htags hr.1 hk.1 hr.2 hk.2
    (h3.trans (List.append_nil _).symm)]
  rfl

theorem EmuleSignatureReq.parse_write (t : EmuleSignatureReq) (hs : t.signature.length < 2 ^ 8)
    (hi : Fits 8 t.ipType) : EmuleSignatureReq.parse (op :: t.write) = some t := by
  obtain ⟨signature, ipType⟩ := t
  have h1 : (op :: write ⟨signature, ipType⟩).drop 1 = bufInt8 signature.length ++ (signature ++
      if ipType ≠ 0 then bufInt8 ipType else []) := by
    rw [write, bufEstring, List.append_assoc]
    rfl
  have h2 := drop_next h1 1 rfl
  have h3 := drop_next h2 _ rfl
  have hlen := congrArg List.length h1
  rw [List.length_drop, List.length_append, List.length_append, length_bufInt8] at hlen
  rw [parse, getInt8_drop h1 ⟨by omega, by simp only at hs; omega⟩]
  simp only [Option.bind_eq_bind, Option.bind_some, Int.toNat_natCast]
  rw [sub_drop h2 rfl (by omega)]
  simp only [Option.bind_some]
  by_cases hz : ipType = 0
  · rw [if_neg (not_not.mpr hz), List.length_nil] at hlen
    rw [if_pos (by omega), hz]
    rfl
  · rw [if_pos hz] at h3 hlen
    rw [length_bufInt8] at hlen
    rw [if_neg (by omega), getInt8_end h3 hi]
    rfl

theorem EmulePublicKeyReq.parse_write (t : Bytes) (ht : t.length < 2 ^ 8) :
    EmulePublicKeyReq.parse (op :: bufEstring t) = some t := by
  have h1 : (op :: bufEstring t).drop 1 = bufInt8 t.length ++ t := rfl
  have h2 := drop_next h1 1 rfl
  rw [parse, getInt8_drop h1 ⟨by omega, by omega⟩]
  simp only [Option.bind_eq_bind, Option.bind_some, Int.toNat_natCast]
  exact sub_drop (h2.trans (List.append_nil _).symm) rfl (by simp [bufEstring])

theorem EmuleSecIdentStateReq.parse_write (t : EmuleSecIdentStateReq) (hs : Fits 8 t.state)
    (hc : Fits 32 t.challenge) : EmuleSecIdentStateReq.parse (op :: t.write) = some t := by
  have h1 : (op :: t.write).drop 1 = bufInt8 t.state ++ bufInt64_32 t.challenge := rfl
  have h2 := drop_next h1 1 rfl
  rw [parse, getInt8_drop h1 hs, getInt64_32_drop (h2.trans (List.append_nil _).symm) hc]
  rfl

theorem EmuleCompressedPart.parse_write (t : EmuleCompressedPart)
    (hs : PosFits t.usesixtyfour t.statpos) (hn : Fits 32 t.newsize) :
    EmuleCompressedPart.parse t.usesixtyfour (op :: t.write).length (op :: t.write) = some t := by
  obtain ⟨md4, u, statpos, newsize, bloc⟩ := t
  generalize hp : op :: write ⟨md4, u, statpos, newsize, bloc⟩ = p
  have h1 : p.drop 1 = md4.bytes ++ (bufPos u statpos ++ (bufInt64_32 newsize ++ bloc)) := by
    rw [← hp]; rfl
  have h2 := drop_md4 h1
  have h3 := drop_next h2 _ (length_bufPos _ _)
  have h4 := drop_next h3 4 rfl
  have hlen : p.length = 1 + 16 + posLength u + 4 + bloc.length := by
    rw [← hp]
    simp only [write, List.length_cons, List.length_append, length_bufPos, Md4.length_bytes,
      length_bufInt64_32]
    omega
  have hstat := getPos_drop h2 hs
  have hnew := getInt64_32_drop h3 hn
  have hbloc := sub_end h4 (by omega)
  rw [parse, getMd4_drop h1]
  cases u with
  | true =>
      simp only [if_true, posLength_true, Nat.reduceAdd] at hstat hnew hbloc ⊢
      rw [hstat, hnew, hbloc]
      rfl
  | false =>
      simp only [Bool.false_eq_true, if_false, posLength_false, Nat.reduceAdd] at hstat hnew hbloc ⊢
      rw [hstat, hnew, hbloc]
      rfl

theorem getInt8_range {n : Int} (h : getInt8 s pos = some n) : Fits 8 n := by
  obtain ⟨c, -, rfl⟩ := Option.map_eq_some_iff.mp h
  have := c.toNat_lt
  exact ⟨by omega, by omega⟩

-- The length of a comment is written with 16 bits and read with 32.
theorem EmuleFileDesc.parse_write (t : EmuleFileDesc) (ht : t.comment.length < 2 ^ 16) :
    EmuleFileDesc.parse (op :: t.write) = none := by
  generalize hp : op :: t.write = p
  have h1 : p.drop 1 = bufInt8 t.rating ++ (bufInt16 t.comment.length ++ t.comment) := by
    rw [← hp]; rfl
  have h2 := drop_next h1 1 rfl
  have h3 : p.drop 3 = bufInt8 ((t.comment.length : Int) / 2 ^ 8) ++ t.comment := by
    rw [bufInt16, List.append_assoc] at h2
    exact drop_next h2 1 rfl
  have hlen : p.length = 4 + t.comment.length := by
    rw [← hp]
    simp only [write, bufString, List.length_cons, List.length_append, length_bufInt8, length_bufInt16]
    omega
  have hstring : getString32 p 2 = none := by
    apply Option.eq_none_iff_forall_ne_some.mpr
    intro q hq
    simp only [getString32, getInt, Option.bind_eq_bind, Option.bind_eq_some_iff, Option.pure_def,
      Option.some.injEq] at hq
    obtain ⟨n, ⟨c1, hc1, c2, hc2, c3, hc3, c4, hc4, rfl⟩, a, hsub, -⟩ := hq
    rw [bufInt16, List.append_assoc] at h2
    rw [getInt8_mod h2, Option.some.injEq] at hc1
    rw [getInt8_mod h3, Option.some.injEq] at hc2
    have h3r := getInt8_range hc3
    have h4r := getInt8_range hc4
    rw [sub, if_neg (by omega)] at hsub
    simp at hsub
  rw [parse, getInt8_mod h1, hstring]
  rfl

namespace EmuleRequestSourcesReply

def sourceLength (e : EmuleProto) : Nat :=
  if 1 < sourceexchange e then 28 else if 0 < sourceexchange e then 12 else 6

theorem length_writeSource (e : EmuleProto) (x : Source) :
    (writeSource e x).length = sourceLength e := by
  rw [writeSource, sourceLength, List.length_append, List.length_append]
  by_cases h0 : 0 < sourceexchange e
  · by_cases h1 : 1 < sourceexchange e
    · rw [if_pos h0, if_pos h1, if_pos h1, List.length_append, List.length_append,
        x.md4.length_bytes]
      rfl
    · rw [if_pos h0, if_neg h1, if_neg h1, if_pos h0]
      rfl
  · rw [if_neg h0, if_neg (by omega), if_neg h0]
    rfl

-- The fields of a source that are transmitted.
def SameSource (e : EmuleProto) (x y : Source) : Prop :=
  y.ip = x.ip ∧ y.port = x.port ∧
    (0 < sourceexchange e → y.serverIp = x.serverIp ∧ y.serverPort = x.serverPort) ∧
      (1 < sourceexchange e → y.md4 = x.md4)

def SourceInRange (x : Source) : Prop := Fits 16 x.port ∧ Fits 16 x.serverPort

theorem parseSource_drop (countryCode : Ip → Option Int) (e : EmuleProto) {x : Source}
    (hx : SourceInRange x) (h : s.drop pos = writeSource e x ++ r) :
    ∃ y, parseSource countryCode e (sourceLength e) s pos = some (y, pos + sourceLength e) ∧
      SameSource e x y := by
  rw [writeSource, List.append_assoc, List.append_assoc] at h
  have h2 := drop_next h 4 rfl
  have h3 := drop_next h2 2 rfl
  rw [parseSource, getIp_drop h, getInt16_drop h2 hx.1, sourceLength]
  simp only [Option.bind_eq_bind, Option.bind_some]
  by_cases h0 : 0 < sourceexchange e
  · rw [if_pos h0, List.append_assoc, List.append_assoc] at h3
    have h4 := drop_next h3 4 rfl
    have h5 := drop_next h4 2 rfl
    by_cases h1 : 1 < sourceexchange e
    · rw [if_pos h1] at h5
      rw [if_pos h1, if_pos (by omega), getIp_drop h3, getInt16_drop h4 hx.2]
      simp only [Option.bind_some]
      rw [if_pos ⟨by omega, h1⟩, getMd4_drop h5]
      exact ⟨_, rfl, rfl, rfl, fun _ => ⟨rfl, rfl⟩, fun _ => rfl⟩
    · rw [if_neg h1, if_pos h0, if_pos (by omega), getIp_drop h3, getInt16_drop h4 hx.2]
      simp only [Option.bind_some]
      rw [if_neg (by omega)]
      exact ⟨_, rfl, rfl, rfl, fun _ => ⟨rfl, rfl⟩, fun h => absurd h h1⟩
  · have h1 : ¬ 1 < sourceexchange e := by omega
    rw [if_neg h1, if_neg h0, if_neg (by omega)]
    exact ⟨_, rfl, rfl, rfl, fun h => absurd h h0, fun h => absurd h h1⟩

theorem iter_drop (countryCode : Ip → Option Int) (e : EmuleProto) {l : List Source}
    (hl : ∀ x ∈ l, SourceInRange x) (h : s.drop pos = l.flatMap (writeSource e) ++ r) :
    ∃ l', iter countryCode e (sourceLength e) s l.length pos = some l' ∧
      List.Forall₂ (SameSource e) l l' := by
  induction l generalizing pos with
  | nil => exact ⟨[], rfl, .nil⟩
  | cons x l ih =>
      rw [List.flatMap_cons, List.append_assoc] at h
      obtain ⟨y, hy, hsame⟩ := parseSource_drop countryCode e (hl x List.mem_cons_self) h
      obtain ⟨l', hl', hall⟩ := ih (fun z hz => hl z (List.mem_cons_of_mem x hz))
        (drop_next h _ (length_writeSource e x))
      refine ⟨y :: l', ?_, .cons hsame hall⟩
      rw [List.length_cons, iter, hy]
      simp only [Option.bind_eq_bind, Option.bind_some]
      rw [hl']
      rfl

def InRange (t : EmuleRequestSourcesReply) : Prop :=
  t.sources.length < 2 ^ 16 ∧ ∀ x ∈ t.sources, SourceInRange x

theorem parse_write (countryCode : Ip → Option Int) (e : EmuleProto)
    (t : EmuleRequestSourcesReply) (hr : t.InRange) :
    ∃ t', parse countryCode e (op :: t.write e).length (op :: t.write e) = some t' ∧
      t'.md4 = t.md4 ∧ List.Forall₂ (SameSource e) t.sources t'.sources := by
  generalize hp : op :: t.write e = p
  have h1 : p.drop 1 = t.md4.bytes ++ (bufInt16 t.sources.length ++
      t.sources.flatMap (writeSource e)) := by rw [← hp]; rfl
  have h2 := drop_md4 h1
  have h3 := drop_next h2 2 rfl
  have hlen : p.length = 19 + t.sources.length * sourceLength e := by
    have hsum : (t.sources.flatMap (writeSource e)).length = t.sources.length * sourceLength e := by
      rw [List.length_flatMap, List.map_congr_left fun x _ => length_writeSource e x]
      simp
    rw [← hp]
    simp only [write, List.length_cons, List.length_append, Md4.length_bytes, length_bufInt16, hsum]
    omega
  have hsize := hr.1
  rw [parse, getMd4_drop h1, getInt16_drop h2 ⟨by omega, by omega⟩]
  simp only [Option.bind_eq_bind, Option.bind_some, Int.toNat_natCast]
  by_cases hz : t.sources.length = 0
  · rw [if_pos hz, List.length_eq_zero_iff.mp hz]
    exact ⟨_, rfl, rfl, .nil⟩
  · obtain ⟨l', hl', hall⟩ := iter_drop countryCode e hr.2 (h3.trans (List.append_nil _).symm)
    have hslen : (p.length - 19) / t.sources.length = sourceLength e := by
      rw [hlen, Nat.add_sub_cancel_left, Nat.mul_div_cancel_left _ (by omega)]
    rw [if_neg hz, hslen, hl']
    exact ⟨_, rfl, rfl, hall⟩

end EmuleRequestSourcesReply

end Mldonkey.Donkey
