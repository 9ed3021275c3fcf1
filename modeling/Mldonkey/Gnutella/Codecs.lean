import Mldonkey.Donkey.ClientCodecs
import Mldonkey.Gnutella.Messages
import Mldonkey.Indexing.FormMeaning

-- What the parsers of the messages read from what their writers wrote.
namespace Mldonkey.Gnutella

open BigEndian (bufInt8 getInt8)
open Bencode (Bytes ofString)
open Donkey (Fits Ip Md4 drop_md4 getMd4_end getInt8_end sub_end)
open Donkey.LittleEndian

variable {s r a : Bytes} {pos : ℕ} {i : Int}

-- An int that get_int reads as buf_int wrote it: bit 31 is set whenever bit 30 is
def IntKept (i : Int) : Prop := i < 2 ^ 30 ∨ 2 ^ 31 ≤ i

def wrapped (i : Int) : Int := if 2 ^ 30 ≤ i ∧ i < 2 ^ 31 then i + 2 ^ 31 else i

theorem wrapped_eq_iff : wrapped i = i ↔ IntKept i := by
  unfold wrapped IntKept
  split <;> omega

theorem getInt_wrapped (h : s.drop pos = bufInt i ++ r) (hi : Fits 32 i) :
    getInt s pos = some (wrapped i) := getInt_bufInt h hi

section Strings

theorem findIdx?_zero (h : 0 ∉ a) : (a ++ 0 :: r).findIdx? (· = 0) = some a.length := by
  induction a with
  | nil => simp [List.findIdx?_cons]
  | cons c a ih =>
    rw [List.mem_cons, not_or] at h
    rw [List.cons_append, List.findIdx?_cons, ih h.2]
    simp [Ne.symm h.1]

theorem getString0_drop (h : s.drop pos = bufString a ++ r) (ha : 0 ∉ a) :
    getString0 s pos = some (a, pos + a.length + 1) := by
  have hidx : (s.drop pos).findIdx? (· = 0) = some a.length := by
    rw [h, bufString, List.append_assoc]
    exact findIdx?_zero ha
  have htake : (s.drop pos).take a.length = a := by
    rw [h, bufString, List.append_assoc, List.take_left]
  rw [getString0, hidx]
  simp only [htake]

theorem drop_string0 (h : s.drop pos = bufString a ++ r) :
    s.drop (pos + a.length + 1) = r := by
  rw [add_assoc]
  exact drop_next h _ (by simp [bufString])

theorem split_of_notMem {c : UInt8} (h : c ∉ a) : Indexing.split c a = [a] := by
  induction a with
  | nil => rfl
  | cons x a ih =>
    rw [List.mem_cons, not_or] at h
    rw [Indexing.split, if_neg (Ne.symm h.1), ih h.2]

theorem split_unsplit {c : UInt8} {l : List Bytes} (hne : l ≠ []) (hl : ∀ x ∈ l, c ∉ x) :
    Indexing.split c (unsplit c l) = l := by
  induction l with
  | nil => exact absurd rfl hne
  | cons x l ih =>
    rw [List.forall_mem_cons] at hl
    cases l with
    | nil => exact split_of_notMem hl.1
    | cons y l =>
      rw [unsplit, Indexing.split_append, split_of_notMem hl.1, ih (by simp) hl.2]
      rfl

theorem notMem_unsplit {l : List Bytes} (hl : ∀ x ∈ l, (0 : UInt8) ∉ x) : 0 ∉ unsplit 28 l := by
  induction l with
  | nil => simp [unsplit]
  | cons x l ih =>
    rw [List.forall_mem_cons] at hl
    cases l with
    | nil => exact hl.1
    | cons y l =>
      rw [unsplit, List.mem_append, List.mem_cons, not_or, not_or]
      exact ⟨hl.1, by decide, ih hl.2⟩

theorem subTo_end (h : s.drop pos = a) (hpos : pos ≤ s.length) : subTo s pos pos = some a := by
  rw [subTo, if_pos hpos, sub_end h hpos]

end Strings

theorem Ping.parse_complex (t : ComplexType) :
    Ping.parse (Ping.write (.complexPing t)) ≠ some (.complexPing t) := by
  intro h
  have hne : Ping.write (.complexPing t) ≠ [] := by simp [Ping.write, bufInt16, bufInt8]
  have hlen : (Ping.write (.complexPing t)).length = 14 + t.s.length := by
    simp [Ping.write]
    omega
  rw [Ping.parse, if_neg hne] at h
  simp only [Option.bind_eq_bind, Option.bind_eq_some_iff, Option.pure_def, Option.some_inj,
    Ping.T.complexPing.injEq] at h
  obtain ⟨port, -, ip, -, nfiles, -, nkb, -, s, hs, rfl⟩ := h
  unfold subTo sub at hs
  split at hs
  · split at hs
    · have hcount := congrArg List.length (Option.some_inj.mp hs)
      simp only [List.length_take, List.length_drop] at hcount
      dsimp only at hlen
      omega
    · cases hs
  · cases hs

theorem Bye.parse_write (t : Bye.T) (hcode : Fits 16 t.code) :
    Bye.parse (Bye.write t) = some t := by
  have h1 : (Bye.write t).drop 0 = bufInt16 t.code ++ (t.reason ++ bufInt8 0) := rfl
  have h2 := drop_next h1 2 rfl
  have hlen : (Bye.write t).length = 2 + (t.reason.length + 1) := by simp [Bye.write]
  have hsub : subTo (Bye.write t) 2 3 = some t.reason := by
    rw [subTo, if_pos (by omega), sub_drop h2 (by omega) (by omega)]
  rw [Bye.parse, getInt16_drop h1 hcode, hsub]
  rfl

theorem Push.parse_write (t : Push.T) (hindex : Fits 32 t.index) (hport : Fits 16 t.port) :
    Push.parse (Push.write t) = some { t with index := wrapped t.index } := by
  have h1 : (Push.write t).drop 0 =
    t.guid.bytes ++ (bufInt t.index ++ (bufIp t.ip ++ bufInt16 t.port)) := rfl
  have h2 := drop_md4 h1
  have h3 := drop_next h2 4 rfl
  have h4 := drop_next h3 4 rfl
  rw [Push.parse, getMd4_drop h1, getInt_wrapped h2 hindex, getIp_drop h3,
    getInt16_drop (h4.trans (List.append_nil _).symm) hport]
  rfl

theorem QrtReset.parse_write (t : QrtReset.T) (hlength : Fits 32 t.tableLength)
    (hinfinity : Fits 8 t.infinity) :
    QrtReset.parse (bufInt8 0 ++ QrtReset.write t) =
      some { t with tableLength := wrapped t.tableLength } := by
  have h1 : (bufInt8 0 ++ QrtReset.write t).drop 1 = bufInt t.tableLength ++ bufInt8 t.infinity :=
    rfl
  have h2 := drop_next h1 4 rfl
  rw [QrtReset.parse, getInt_wrapped h1 hlength, getInt8_end h2 hinfinity]
  rfl

theorem QrtPatch.parse_write (t : QrtPatch.T) (hseq : Fits 8 t.seqNo) (hsize : Fits 8 t.seqSize)
    (hcompressor : Fits 8 t.compressor) (hbits : Fits 8 t.entryBits) :
    QrtPatch.parse (bufInt8 1 ++ QrtPatch.write t) = some t := by
  have h1 : (bufInt8 1 ++ QrtPatch.write t).drop 1 = bufInt8 t.seqNo ++ (bufInt8 t.seqSize ++
    (bufInt8 t.compressor ++ (bufInt8 t.entryBits ++ t.table))) := rfl
  have h2 := drop_next h1 1 rfl
  have h3 := drop_next h2 1 rfl
  have h4 := drop_next h3 1 rfl
  have h5 := drop_next h4 1 rfl
  have hlen : (bufInt8 1 ++ QrtPatch.write t).length = 5 + t.table.length := by
    simp [QrtPatch.write]
    omega
  rw [QrtPatch.parse, getInt8_drop h1 hseq, getInt8_drop h2 hsize, getInt8_drop h3 hcompressor,
    getInt8_drop h4 hbits, subTo_end h5 (by omega)]
  rfl

theorem Query.parse_write (t : Query.T) (hspeed : Fits 16 t.minSpeed) (hkeywords : 0 ∉ t.keywords)
    (hne : t.xmlQuery ≠ []) (hxml : ∀ x ∈ t.xmlQuery, 0 ∉ x ∧ 28 ∉ x) :
    Query.parse (Query.write t) = some t := by
  have h1 : (Query.write t).drop 0 = bufInt16 t.minSpeed ++ (bufString t.keywords ++
    (bufString (unsplit 28 t.xmlQuery) ++ t.s)) := rfl
  have h2 := drop_next h1 2 rfl
  have h3 := drop_string0 h2
  have h4 := drop_string0 h3
  have hlen : (Query.write t).length =
      2 + (t.keywords.length + 1 + ((unsplit 28 t.xmlQuery).length + 1 + t.s.length)) := by
    simp [Query.write, bufString]
    omega
  rw [Query.parse, getInt16_drop h1 hspeed]
  simp only [Option.bind_eq_bind, Option.bind_some, getString0_drop h2 hkeywords,
    getString0_drop h3 (notMem_unsplit fun x hx => (hxml x hx).1), subTo_end h4 (by omega),
    split_unsplit hne fun x hx => (hxml x hx).2]
  rfl

-- A Pong comes back just when its two numbers and its extensions do
theorem Pong.parse_write (t : Pong.T) (hport : Fits 16 t.port) (hnfiles : Fits 32 t.nfiles)
    (hnkb : Fits 32 t.nkb) (hggep : ∀ e ∈ t.ggep, e.InRange) :
    ∃ w, Pong.write t = some w ∧ (Pong.parse w = some t ↔
      IntKept t.nfiles ∧ IntKept t.nkb ∧ Ggep.Cobs.Survive t.ggep) := by
  obtain ⟨g, hg, hparse⟩ := Ggep.Cobs.parse_write_iff hggep
  refine ⟨_, by rw [Pong.write, hg]; rfl, ?_⟩
  generalize hw : bufInt16 t.port ++ (bufIp t.ip ++ (bufInt t.nfiles ++ (bufInt t.nkb ++ g))) = w
  have h1 : w.drop 0 = bufInt16 t.port ++ (bufIp t.ip ++ (bufInt t.nfiles ++
    (bufInt t.nkb ++ g))) := by rw [← hw]; rfl
  have h2 := drop_next h1 2 rfl
  have h3 := drop_next h2 4 rfl
  have h4 := drop_next h3 4 rfl
  have h5 := drop_next h4 4 rfl
  have hlen : w.length = 14 + g.length := by
    rw [← hw]
    simp
    omega
  rw [← hparse, Pong.parse, getInt16_drop h1 hport, getIp_drop h2, getInt_wrapped h3 hnfiles,
    getInt_wrapped h4 hnkb, subTo_end h5 (by omega)]
  simp only [Option.bind_eq_bind, Option.bind_some, Option.bind_eq_some_iff, Option.pure_def,
    Option.some_inj, ← wrapped_eq_iff]
  obtain ⟨ip, port, nfiles, nkb, ggep⟩ := t
  simp only [Pong.T.mk.injEq, true_and]
  constructor
  · rintro ⟨list, hlist, hn, hk, rfl⟩
    exact ⟨hn, hk, hlist⟩
  · rintro ⟨hn, hk, hlist⟩
    exact ⟨_, hlist, hn, hk, rfl⟩

namespace QueryReply

-- A file as it is read back
def File.read (f : File) : File := { f with index := wrapped f.index }

structure File.InRange (f : File) : Prop where
  index : Fits 32 f.index
  size : Fits 32 f.size
  name : 0 ∉ f.name
  info_ne : f.info ≠ []
  info : ∀ x ∈ f.info, 0 ∉ x ∧ 28 ∉ x

theorem length_writeFile (f : File) :
    (writeFile f).length = 8 + f.name.length + 1 + (unsplit 28 f.info).length + 1 := by
  simp [writeFile, bufString]
  omega

theorem iterFiles_write {files list : List File} (hfiles : ∀ f ∈ files, f.InRange)
    (h : s.drop pos = files.flatMap writeFile ++ r) :
    iterFiles s files.length pos list =
      some (list.reverse ++ files.map File.read, pos + (files.flatMap writeFile).length) := by
  induction files generalizing pos list with
  | nil => simp [iterFiles]
  | cons f files ih =>
    rw [List.forall_mem_cons] at hfiles
    obtain ⟨hf, hfiles⟩ := hfiles
    rw [List.flatMap_cons, List.append_assoc, writeFile, List.append_assoc, List.append_assoc,
      List.append_assoc] at h
    have h2 := drop_next h 4 rfl
    have h3 : s.drop (pos + 8) = _ := drop_next h2 4 rfl
    have h4 := drop_string0 h3
    have h5 := drop_string0 h4
    rw [List.length_cons, iterFiles, getInt_wrapped h hf.index, getInt64_32_drop h2 hf.size]
    simp only [Option.bind_eq_bind, Option.bind_some, getString0_drop h3 hf.name,
      getString0_drop h4 (notMem_unsplit fun x hx => (hf.info x hx).1), ih hfiles h5,
      split_unsplit hf.info_ne fun x hx => (hf.info x hx).2]
    simp only [List.reverse_cons, List.append_assoc, List.map_cons, List.flatMap_cons,
      List.length_append, length_writeFile, List.cons_append, List.nil_append, File.read,
      Option.some_inj, Prod.mk.injEq, true_and]
    omega

theorem flags_eq : ∀ dontConnect busy stable speedMeasured : Option Bool,
    let b5 := valueBit dontConnect 1 ||| 2 ||| validBit busy 4 ||| validBit stable 8 |||
      validBit speedMeasured 16
    let b6 := validBit dontConnect 1 ||| valueBit busy 4 ||| valueBit stable 8 |||
      valueBit speedMeasured 16
    b5 < 256 ∧ b6 < 256 ∧ flag b6 b5 1 = dontConnect ∧ flag b5 b6 4 = busy ∧
      flag b5 b6 8 = stable ∧ flag b5 b6 16 = speedMeasured := by
  decide

structure T.InRange (t : T) : Prop where
  port : Fits 16 t.port
  speed : Fits 32 t.speed
  length : t.files.length ≤ 255
  files : ∀ f ∈ t.files, f.InRange
  vendor : t.vendor.length = 4
  xmlReply : 0 ∉ t.xmlReply

theorem parse_write (t : T) (h : t.InRange) :
    parse (write t) =
      some { t with speed := wrapped t.speed, files := t.files.map File.read } := by
  obtain ⟨h5lt, h6lt, hdont, hbusy, hstable, hmeasured⟩ :=
    flags_eq t.dontConnect t.busy t.stable t.speedMeasured
  have hchat : Fits 8 (if t.supportChat then 1 else 0) := by split <;> decide
  have hdec : decide ((if t.supportChat then (1 : ℤ) else 0) = 1) = t.supportChat := by
    cases t.supportChat <;> rfl
  generalize hs : write t = s
  generalize hL : (t.files.flatMap writeFile).length = L
  have g1 : s.drop 0 = bufInt8 t.files.length ++ _ := hs.symm
  have g2 : s.drop 1 = bufInt16 t.port ++ _ := drop_next g1 1 rfl
  have g3 : s.drop 3 = bufIp t.ip ++ _ := drop_next g2 2 rfl
  have g4 : s.drop 7 = bufInt t.speed ++ _ := drop_next g3 4 rfl
  have g5 : s.drop 11 = t.files.flatMap writeFile ++ _ := drop_next g4 4 rfl
  have g6 := drop_next g5 L hL
  have g7 := drop_next g6 4 h.vendor
  have g8 : s.drop (11 + L + 5) = bufInt8 (byte5 t) ++ _ := drop_next g7 1 rfl
  have g9 : s.drop (11 + L + 6) = bufInt8 (byte6 t) ++ _ := drop_next g8 1 rfl
  have g10 : s.drop (11 + L + 7) = bufInt16 (t.xmlReply.length + 1) ++ _ := drop_next g9 1 rfl
  have g11 : s.drop (11 + L + 9) = _ := drop_next g10 2 rfl
  have g12 : s.drop (11 + L + 10) = bufString t.xmlReply ++ _ := drop_next g11 1 rfl
  have g13 := drop_string0 g12
  -- the hash is what stands behind the text, and the last 16 bytes
  have hend : s.length - 16 = 11 + L + 10 + t.xmlReply.length + 1 ∧ 16 ≤ s.length := by
    have hcount := congrArg List.length g13
    rw [List.length_drop, t.guid.length_bytes] at hcount
    omega
  have hsub : sub s (11 + L) 4 = some t.vendor := by
    refine sub_drop g6 h.vendor ?_
    omega
  have hlength : Fits 8 (t.files.length : ℤ) := ⟨by omega, by have := h.length; omega⟩
  rw [parse, getInt8_drop g1 hlength, getInt16_drop g2 h.port, getIp_drop g3,
    getInt_wrapped g4 h.speed]
  simp only [Option.bind_eq_bind, Option.bind_some, Int.toNat_natCast,
    iterFiles_write h.files g5, hL, hsub, getInt8_drop g8 ⟨by omega, by exact_mod_cast h5lt⟩,
    getInt8_drop g9 ⟨by omega, by exact_mod_cast h6lt⟩, getInt8_drop g11 hchat,
    getString0_drop g12 h.xmlReply, hend.1, getMd4_end g13, if_pos hend.2]
  simp only [Option.pure_def, Option.getD_some, List.reverse_nil, List.nil_append, byte5, byte6,
    hdont, hbusy, hstable, hmeasured, hdec]

end QueryReply

namespace Vendor

def T.InRange : T → Prop
  | .supported list => list.length < 2 ^ 16 ∧
      ∀ p ∈ list, p.1.length = 4 ∧ Fits 16 p.2.1 ∧ Fits 16 p.2.2
  | .bear4HopsFlow nhops => Fits 8 nhops
  | .bear7ConnectBack port => Fits 16 port
  | .gtkg7UdpConnectBack port _ => Fits 16 port
  | .vUnknown vendor num version _ => vendor.length = 4 ∧ Fits 16 num ∧ Fits 16 version

-- The codes that have a constructor of their own
def Known (vendor : Bytes) (num version : Int) : Prop :=
  vendor = [0, 0, 0, 0] ∨
    (vendor = ofString "BEAR" ∧ (num = 4 ∨ num = 7) ∨ vendor = ofString "GTKG" ∧ num = 7) ∧
      version = 1

def T.Survives : T → Prop
  | .gtkg7UdpConnectBack _ _ => False
  | .vUnknown vendor num version _ => ¬ Known vendor num version
  | _ => True

theorem mapM_supported {list : List (Bytes × Int × Int)} {k : ℕ}
    (hlist : ∀ p ∈ list, p.1.length = 4 ∧ Fits 16 p.2.1 ∧ Fits 16 p.2.2)
    (hpos : 2 + k * 8 ≤ s.length) (h : s.drop (2 + k * 8) = list.flatMap writeOne) :
    ((List.range' k list.length).mapM fun i => do
      return (← sub s (2 + i * 8) 4, ← getInt16 s (6 + i * 8), ← getInt16 s (8 + i * 8))) =
      some list := by
  induction list generalizing k with
  | nil => rfl
  | cons p list ih =>
    rw [List.forall_mem_cons] at hlist
    obtain ⟨⟨hname, hnum, hversion⟩, hlist⟩ := hlist
    have hcount := congrArg List.length h
    simp only [List.flatMap_cons, writeOne, List.length_append, List.length_drop, hname,
      length_bufInt16] at hcount
    rw [List.flatMap_cons, writeOne, List.append_assoc, List.append_assoc] at h
    have h2 := drop_next h 4 hname
    rw [show 2 + k * 8 + 4 = 6 + k * 8 by omega] at h2
    have h3 := drop_next h2 2 rfl
    rw [show 6 + k * 8 + 2 = 8 + k * 8 by omega] at h3
    have h4 := drop_next h3 2 rfl
    rw [show 8 + k * 8 + 2 = 2 + (k + 1) * 8 by omega] at h4
    rw [List.length_cons, List.range'_succ, List.mapM_cons, ih hlist (by omega) h4]
    simp only [sub_drop h hname hpos, getInt16_drop h2 hnum, getInt16_drop h3 hversion,
      Option.bind_eq_bind, Option.bind_some, Option.pure_def]

theorem parse_supported {list : List (Bytes × Int × Int)} (h : (T.supported list).InRange) :
    parse (write (.supported list)) = some (.supported list) := by
  obtain ⟨hlength, hlist⟩ := h
  generalize hs : write (.supported list) = s
  have g1 : s.drop 0 = [0, 0, 0, 0] ++ _ := hs.symm
  have g2 : s.drop 8 = bufInt16 list.length ++ list.flatMap writeOne := by rw [← hs]; rfl
  have g3 : s.drop (2 + 1 * 8) = _ := drop_next g2 2 rfl
  have hlen : 2 + 1 * 8 ≤ s.length := by
    rw [← hs]
    simp [write]
  have hvendor : sub s 0 4 = some [0, 0, 0, 0] := sub_drop g1 rfl (by omega)
  rw [parse, hvendor]
  simp only [Option.bind_eq_bind, Option.bind_some, if_true,
    getInt16_drop g2 ⟨by omega, by omega⟩, Int.toNat_natCast]
  have hmap := mapM_supported hlist hlen g3
  simp only [Option.bind_eq_bind] at hmap
  rw [hmap]
  rfl

theorem parse_code (vendor : Bytes) {rest : Bytes} {num version : Int} (hv : vendor.length = 4)
    (hnum : Fits 16 num) (hversion : Fits 16 version)
    (h : s = vendor ++ (bufInt16 num ++ (bufInt16 version ++ rest))) :
    sub s 0 4 = some vendor ∧ getInt16 s 4 = some num ∧ getInt16 s 6 = some version ∧
      s.drop 8 = rest ∧ 8 ≤ s.length := by
  have g1 : s.drop 0 = _ := h
  have g2 : s.drop 4 = _ := drop_next g1 4 hv
  have g3 : s.drop 6 = _ := drop_next g2 2 rfl
  have g4 : s.drop 8 = _ := drop_next g3 2 rfl
  refine ⟨sub_drop g1 hv (by omega), getInt16_drop g2 hnum, getInt16_drop g3 hversion, g4, ?_⟩
  rw [h]
  simp [hv]
  omega

theorem parse_bear4 {nhops : Int} (h : Fits 8 nhops) :
    parse (write (.bear4HopsFlow nhops)) = some (.bear4HopsFlow nhops) := by
  obtain ⟨h1, h2, h3, h4, -⟩ := parse_code (s := write (.bear4HopsFlow nhops))
    (ofString "BEAR") rfl ⟨by omega, by omega⟩ ⟨by omega, by omega⟩ rfl
  have hne : ofString "BEAR" ≠ [0, 0, 0, 0] := by decide
  rw [parse, h1]
  simp only [Option.bind_eq_bind, Option.bind_some, if_neg hne, h2, h3, getInt8_end h4 h]
  rfl

theorem parse_bear7 {port : Int} (h : Fits 16 port) :
    parse (write (.bear7ConnectBack port)) = some (.bear7ConnectBack port) := by
  obtain ⟨h1, h2, h3, h4, -⟩ := parse_code (s := write (.bear7ConnectBack port))
    (ofString "BEAR") rfl ⟨by omega, by omega⟩ ⟨by omega, by omega⟩ rfl
  have hne : ofString "BEAR" ≠ [0, 0, 0, 0] := by decide
  have hport := getInt16_drop (h4.trans (List.append_nil _).symm) h
  rw [parse, h1]
  simp only [Option.bind_eq_bind, Option.bind_some, if_neg hne, h2, h3, hport]
  rfl

theorem parse_gtkg7 (port : Int) (md4 : Md4) :
    parse (write (.gtkg7UdpConnectBack port md4)) = none := by
  obtain ⟨h1, h2, h3, h4, -⟩ := parse_code (s := write (.gtkg7UdpConnectBack port md4))
    (ofString "GTKG") rfl ⟨by omega, by omega⟩ ⟨by omega, by omega⟩ rfl
  have hne : ofString "GTKG" ≠ [0, 0, 0, 0] := by decide
  have hmd4 : getMd4 (write (.gtkg7UdpConnectBack port md4)) 10 = none := by
    rw [getMd4, dif_neg]
    have hlen : (write (.gtkg7UdpConnectBack port md4)).length = 25 := by
      simp [write, md4.length_bytes]
      rfl
    rw [List.length_take, List.length_drop, hlen]
    decide
  rw [parse, h1]
  have hbear : ofString "GTKG" ≠ ofString "BEAR" := by decide
  simp only [Option.bind_eq_bind, Option.bind_some, if_neg hne, h2, h3, hmd4, hbear, false_and,
    if_false, and_self, if_true, Option.bind_none]
  cases getInt16 (write (.gtkg7UdpConnectBack port md4)) 8 <;> rfl

theorem parse_vUnknown {vendor rest : Bytes} {num version : Int} (hv : vendor.length = 4)
    (hnum : Fits 16 num) (hversion : Fits 16 version) :
    parse (write (.vUnknown vendor num version rest)) = some (.vUnknown vendor num version rest) ↔
      ¬ Known vendor num version := by
  obtain ⟨h1, h2, h3, h4, h5⟩ := parse_code vendor hv hnum hversion
    (show write (.vUnknown vendor num version rest) = _ from rfl)
  rw [parse, h1]
  unfold Known
  simp only [Option.bind_eq_bind, Option.bind_some, h2, h3, subTo_end h4 h5, Option.pure_def]
  by_cases hzero : vendor = [0, 0, 0, 0]
  · simp [hzero, Option.bind_eq_some_iff]
  · rw [if_neg hzero]
    split
    · next h => simp [h, Option.bind_eq_some_iff]
    · next hbear4 =>
      split
      · next h => simp [h, Option.bind_eq_some_iff]
      · next hbear7 =>
        split
        · next h => simp [h, Option.bind_eq_some_iff]
        · next hgtkg =>
          simp only [true_iff]
          rintro (hv0 | ⟨⟨hbear, h4 | h7⟩ | ⟨hg, h7⟩, hver⟩)
          · exact hzero hv0
          · exact hbear4 ⟨hbear, h4, hver⟩
          · exact hbear7 ⟨hbear, h7, hver⟩
          · exact hgtkg ⟨hg, h7, hver⟩

end Vendor

end Mldonkey.Gnutella
