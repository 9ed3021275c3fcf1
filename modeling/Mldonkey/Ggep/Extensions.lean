import Mathlib.Data.Int.Bitwise
import Mldonkey.Bencode.Codec
import Mldonkey.Ggep.Blocks

-- The extensions that are understood, over the blocks: what GGEP_GUE, GGEP_VC and GGEP_DU
-- hold is written into the data of a block and read from it.
namespace Mldonkey.Ggep

open BigEndian (bufInt8 getInt8)
open Bencode (ofString)
open Donkey.LittleEndian

namespace Cobs

-- ggep
inductive Extension where
  | ggepBlock (id data : Bytes)
  | ggepUnknown (s : Bytes)
  | ggepGueGuess (version : Int)
  | ggepVcVendor (vendor : Bytes) (version1 version2 : Int)
  | ggepDuUptime (up : Int)
  deriving DecidableEq

-- char_of_int, which raises outside a byte
def charOfInt (i : Int) : Option UInt8 :=
  if 0 ≤ i ∧ i < 2 ^ 8 then some (.ofNat i.toNat) else none

def vendorOf (s : Bytes) : Option Extension := do
  let vendor ← sub s 0 4
  let version ← getInt8 s 4
  return .ggepVcVendor vendor (version / 2 ^ 4 % 2 ^ 4) (version % 2 ^ 4)

def uptimeOf (s : Bytes) : Option Int :=
  match s.length with
  | 0 => some 0
  | 1 => getInt8 s 0
  | 2 => getInt16 s 0
  | 3 => getInt24 s 0
  | _ => getInt s 0

def ofBlock : GgepBlock → Extension
  | .unknownBlock s => .ggepUnknown s
  | .ggep id s =>
    let ggep : Option Extension :=
      if id = ofString "GUE" then (getInt8 s 0).map .ggepGueGuess
      else if id = ofString "VC" then vendorOf s
      else if id = ofString "DU" then (uptimeOf s).map .ggepDuUptime
      else some (.ggepBlock id s)
    ggep.getD (.ggepUnknown (ofString "Bad GGEP Block"))

def parse (s : Bytes) : Option (List Extension) := (Ggep.parse s).map (List.map ofBlock)

def uptimeTo (up : Int) : Bytes :=
  if up % 2 ^ 8 = up then bufInt8 up
  else if up % 2 ^ 16 = up then bufInt16 up
  else if up % 2 ^ 24 = up then bufInt24 up
  else bufInt64_32 up

-- The vendor is always MLDK.
def toBlock : Extension → Option GgepBlock
  | .ggepUnknown s => some (.unknownBlock s)
  | .ggepBlock id data => some (.ggep id data)
  | .ggepGueGuess version => do return .ggep (ofString "GUE") [← charOfInt version]
  | .ggepVcVendor _ version1 version2 => do
    let c ← charOfInt (((version1 * 2 ^ 4).bmod (2 ^ 63)).lor version2)
    return .ggep (ofString "VC") (ofString "MLDK" ++ [c])
  | .ggepDuUptime up => some (.ggep (ofString "DU") (uptimeTo up))

def write (list : List Extension) : Option Bytes := do writeBlock (← list.mapM toBlock)

-- What an id, a byte, a half of one and four bytes have room for.
def Extension.InRange : Extension → Prop
  | .ggepBlock id _ => 1 ≤ id.length ∧ id.length ≤ 15
  | .ggepUnknown _ => True
  | .ggepGueGuess version => 0 ≤ version ∧ version < 2 ^ 8
  | .ggepVcVendor _ version1 version2 =>
    (0 ≤ version1 ∧ version1 < 2 ^ 4) ∧ 0 ≤ version2 ∧ version2 < 2 ^ 4
  | .ggepDuUptime up => 0 ≤ up ∧ up < 2 ^ 32

instance : DecidablePred Extension.InRange
  | .ggepBlock _ _ => inferInstanceAs (Decidable (_ ∧ _))
  | .ggepUnknown _ => .isTrue trivial
  | .ggepGueGuess _ => inferInstanceAs (Decidable (_ ∧ _))
  | .ggepVcVendor _ _ _ => inferInstanceAs (Decidable (_ ∧ _))
  | .ggepDuUptime _ => inferInstanceAs (Decidable (_ ∧ _))

-- The extensions that come back from their block, and their block from the wire.
def Extension.Survives : Extension → Prop
  | .ggepBlock id _ =>
    id.length ≤ 7 ∧ id ≠ ofString "GUE" ∧ id ≠ ofString "VC" ∧ id ≠ ofString "DU"
  | .ggepUnknown _ => False
  | .ggepVcVendor vendor _ _ => vendor = ofString "MLDK"
  | .ggepGueGuess _ => True
  | .ggepDuUptime _ => True

instance : DecidablePred Extension.Survives
  | .ggepBlock _ _ => inferInstanceAs (Decidable (_ ∧ _))
  | .ggepUnknown _ => .isFalse not_false
  | .ggepVcVendor _ _ _ => inferInstanceAs (Decidable (_ = _))
  | .ggepGueGuess _ => .isTrue trivial
  | .ggepDuUptime _ => .isTrue trivial

-- An unknown one comes back when it is alone and not taken for blocks.
def Survive (list : List Extension) : Prop :=
  (∀ e ∈ list, e.Survives) ∨
    ∃ s, list = [.ggepUnknown s] ∧ s ≠ [] ∧ Ggep.parse s = some [.unknownBlock s]

theorem uptimeOf_uptimeTo {up : Int} (h : 0 ≤ up ∧ up < 2 ^ 32) :
    uptimeOf (uptimeTo up) = some up := by
  unfold uptimeTo
  split
  · exact getInt8_drop (List.append_nil _).symm (by omega)
  · split
    · exact getInt16_drop (List.append_nil _).symm (by omega)
    · split
      · exact getInt24_drop (List.append_nil _).symm (by omega)
      · exact getInt64_32_drop (List.append_nil _).symm h

theorem version_byte : ∀ version1 version2 : Fin 16, ∃ c : UInt8,
    charOfInt ((((version1.val : Int) * 2 ^ 4).bmod (2 ^ 63)).lor version2.val) = some c ∧
      (c.toNat : Int) / 2 ^ 4 % 2 ^ 4 = version1.val ∧ (c.toNat : Int) % 2 ^ 4 = version2.val := by
  decide

section Blocks

variable {id data i d s : Bytes}

theorem vendorOf_some {e : Extension} (h : vendorOf s = some e) :
    ∃ vendor version1 version2, e = .ggepVcVendor vendor version1 version2 := by
  simp only [vendorOf, Option.bind_eq_bind, Option.bind_eq_some_iff, Option.pure_def,
    Option.some_inj] at h
  obtain ⟨vendor, -, version, -, rfl⟩ := h
  exact ⟨_, _, _, rfl⟩

-- The ids that have a constructor of their own
def Known (id : Bytes) : Prop := id = ofString "GUE" ∨ id = ofString "VC" ∨ id = ofString "DU"

theorem ofBlock_of_not_known (h : ¬ Known id) : ofBlock (.ggep id data) = .ggepBlock id data := by
  simp only [Known, not_or] at h
  simp only [ofBlock, if_neg h.1, if_neg h.2.1, if_neg h.2.2, Option.getD_some]

theorem ofBlock_ne_of_known (h : Known id) : ofBlock (.ggep id data) ≠ .ggepBlock i d := by
  intro hof
  simp only [ofBlock] at hof
  split_ifs at hof with hgue hvc hdu
  · cases hread : getInt8 data 0 <;> simp [hread] at hof
  · cases hread : vendorOf data with
    | none => simp [hread] at hof
    | some e =>
      obtain ⟨vendor, version1, version2, rfl⟩ := vendorOf_some hread
      simp [hread] at hof
  · cases hread : uptimeOf data <;> simp [hread] at hof
  · rcases h with h | h | h
    · exact hgue h
    · exact hvc h
    · exact hdu h

theorem ofBlock_eq_ggepBlock_iff :
    ofBlock (.ggep id data) = .ggepBlock i d ↔ id = i ∧ data = d ∧ ¬ Known id := by
  by_cases h : Known id
  · simp [ofBlock_ne_of_known h, h]
  · simp [ofBlock_of_not_known h, h]

-- A block is unknown only for want of data.
theorem ofBlock_eq_unknown (h : ofBlock (.ggep id data) = .ggepUnknown s) :
    s = ofString "Bad GGEP Block" ∧ Known id := by
  by_cases hknown : Known id
  · refine ⟨?_, hknown⟩
    simp only [ofBlock] at h
    split_ifs at h with hgue hvc hdu
    · cases hread : getInt8 data 0 <;> simp [hread] at h
      exact h.symm
    · cases hread : vendorOf data with
      | none => simpa [hread] using h.symm
      | some e =>
        obtain ⟨vendor, version1, version2, rfl⟩ := vendorOf_some hread
        simp [hread] at h
    · cases hread : uptimeOf data <;> simp [hread] at h
      exact h.symm
    · cases h
  · rw [ofBlock_of_not_known hknown] at h
    cases h

theorem length_le_of_known (h : Known id) : id.length ≤ 3 := by
  rcases h with rfl | rfl | rfl <;> decide

end Blocks

-- What the block of an extension is, and when the extension is read from it.
def Written (e : Extension) (b : Bytes × Bytes) : Prop :=
  toBlock e = some (.of b) ∧ b.1.length ≤ 15 ∧
    (e.Survives ↔ b.1.length ≤ 7 ∧ ofBlock (.of b) = e) ∧
      (7 < b.1.length → ∃ id data, e = .ggepBlock id data ∧ 7 < id.length)

theorem written_of_known {e : Extension} {id data : Bytes} (hid : Known id)
    (hblock : toBlock e = some (.ggep id data))
    (hof : e.Survives ↔ ofBlock (.ggep id data) = e) : Written e (id, data) := by
  have hlen := length_le_of_known hid
  refine ⟨hblock, by dsimp only; omega, ?_, fun hlong => ?_⟩
  · rw [hof, and_iff_right (by dsimp only; omega)]
    rfl
  · dsimp only at hlong
    omega

theorem written_of_inRange {e : Extension} (h : e.InRange) (hknown : ∀ s, e ≠ .ggepUnknown s) :
    ∃ b, Written e b := by
  cases e with
  | ggepUnknown s => exact absurd rfl (hknown s)
  | ggepBlock id data =>
    refine ⟨(id, data), rfl, h.2, and_congr_right fun _ => ?_, fun hlong => ⟨id, data, rfl, hlong⟩⟩
    rw [GgepBlock.of, ofBlock_eq_ggepBlock_iff]
    simp [Known]
  | ggepGueGuess version =>
    have hchar : charOfInt version = some (.ofNat version.toNat) := if_pos h
    have hread : getInt8 [.ofNat version.toNat] 0 = some version := by
      simp only [getInt8, List.getElem?_cons_zero, Option.map_some, UInt8.toNat_ofNat']
      congr 1
      have := h
      simp only [Extension.InRange] at this
      omega
    have hblock : toBlock (.ggepGueGuess version) =
        some (.ggep (ofString "GUE") [.ofNat version.toNat]) := by
      rw [toBlock, hchar]
      rfl
    refine ⟨_, written_of_known (.inl rfl) hblock (iff_of_true trivial ?_)⟩
    simp only [ofBlock, if_true, hread, Option.map_some, Option.getD_some]
  | ggepVcVendor vendor version1 version2 =>
    obtain ⟨⟨h1, h1'⟩, h2, h2'⟩ := h
    obtain ⟨c, hchar, hc1, hc2⟩ :=
      version_byte ⟨version1.toNat, by omega⟩ ⟨version2.toNat, by omega⟩
    simp only [Int.toNat_of_nonneg h1, Int.toNat_of_nonneg h2] at hchar hc1 hc2
    have hread : vendorOf (ofString "MLDK" ++ [c]) =
        some (.ggepVcVendor (ofString "MLDK") version1 version2) := by
      rw [← hc1, ← hc2]
      rfl
    have hblock : toBlock (.ggepVcVendor vendor version1 version2) =
        some (.ggep (ofString "VC") (ofString "MLDK" ++ [c])) := by
      rw [toBlock, hchar]
      rfl
    have hgue : ofString "VC" ≠ ofString "GUE" := by decide
    refine ⟨_, written_of_known (.inr (.inl rfl)) hblock ?_⟩
    simp only [Extension.Survives, ofBlock, if_neg hgue, if_true, hread, Option.getD_some,
      Extension.ggepVcVendor.injEq, and_true]
    exact eq_comm
  | ggepDuUptime up =>
    have hgue : ofString "DU" ≠ ofString "GUE" := by decide
    have hvc : ofString "DU" ≠ ofString "VC" := by decide
    refine ⟨_, written_of_known (.inr (.inr rfl)) rfl (iff_of_true trivial ?_)⟩
    simp only [ofBlock, if_neg hgue, if_neg hvc, if_true, uptimeOf_uptimeTo h, Option.map_some,
      Option.getD_some]

section Reading

variable {s w t rest : Bytes} {pos fuel : Nat} {list : List GgepBlock} {e : Extension}
  {exts : List Extension}

-- From pos on the loop reads these extensions, behind the ones it has.
def Reads (s : Bytes) (fuel pos : Nat) (list : List GgepBlock) (exts : List Extension) : Prop :=
  ∃ result, iterBlock s fuel pos list = .ok result ∧
    result.reverse.map ofBlock = list.reverse.map ofBlock ++ exts

theorem reads_end (h : pos = s.length) : Reads s (fuel + 1) pos list exts ↔ exts = [] := by
  unfold Reads
  rw [iterBlock, if_pos h]
  simp [eq_comm]

theorem reads_block (h : pos ≠ s.length) (hreads : Reads s (fuel + 1) pos list (e :: exts)) :
    ∃ r, getBlock s pos = .ok r ∧ ofBlock (.ggep r.1 r.2.1) = e ∧
      Reads s fuel r.2.2 (.ggep r.1 r.2.1 :: list) exts := by
  obtain ⟨result, hresult, hexts⟩ := hreads
  rw [iterBlock, if_neg h] at hresult
  cases hblock : getBlock s pos with
  | error stop =>
    rw [hblock] at hresult
    cases hresult
  | ok r =>
    rw [hblock] at hresult
    obtain ⟨more, rfl⟩ := iterBlock_suffix hresult
    have hparts : ofBlock (.ggep r.1 r.2.1) :: more.reverse.map ofBlock = e :: exts := by
      simpa using hexts
    obtain ⟨hof, hmore⟩ := List.cons.inj hparts
    exact ⟨r, rfl, hof, _, hresult, by simp [← hmore]⟩

theorem reads_cons {b : Bytes × Bytes} {last : Bool} (hb : Written e b) (hpos : pos < s.length)
    (h : s.drop pos = body last b ++ rest) :
    Reads s (fuel + 1) pos list (e :: exts) ↔
      e.Survives ∧ Reads s fuel (pos + (body last b).length) (.of b :: list) exts := by
  obtain ⟨-, hlen, hsurvives, hlong⟩ := hb
  rw [hsurvives]
  constructor
  · intro hreads
    obtain ⟨r, hr, hof, hnext⟩ := reads_block hpos.ne hreads
    by_cases hshort : b.1.length ≤ 7
    · obtain rfl := Except.ok.inj ((getBlock_body hshort hpos.le h).symm.trans hr)
      exact ⟨⟨hshort, hof⟩, hnext⟩
    · -- the id that is read has fewer bytes
      obtain ⟨id, data, rfl, hid⟩ := hlong (not_le.mp hshort)
      obtain ⟨rfl, -, -⟩ := ofBlock_eq_ggepBlock_iff.mp hof
      have := getBlock_id hlen h hr
      omega
  · rintro ⟨⟨hshort, hof⟩, result, hresult, hexts⟩
    refine ⟨result, ?_, ?_⟩
    · rw [iterBlock, if_neg hpos.ne, getBlock_body hshort hpos.le h]
      exact hresult
    · rw [hexts, ← hof]
      simp

-- The text of an unknown extension is not a block that becomes one.
theorem not_reads_unknown (hpos : pos ≤ s.length) (h : s.drop pos = t ++ rest) :
    ¬ Reads s fuel pos list (.ggepUnknown t :: exts) := by
  intro hreads
  cases fuel with
  | zero =>
    obtain ⟨result, hresult, -⟩ := hreads
    cases hresult
  | succ fuel =>
    by_cases hend : pos = s.length
    · exact absurd ((reads_end hend).mp hreads) (by simp)
    · obtain ⟨r, hr, hof, -⟩ := reads_block hend hreads
      obtain ⟨rfl, hknown⟩ := ofBlock_eq_unknown hof
      -- its letters are flags, an id of two bytes and a length
      have htext : ofString "Bad GGEP Block" = 66 :: ([97, 100] ++ ofString " GGEP Block") := rfl
      rw [htext, List.cons_append, List.append_assoc] at h
      obtain ⟨flags, hflags, hid⟩ := getBlock_sub hr
      obtain rfl := Option.some.inj ((getElem?_of_drop h).symm.trans hflags)
      have hnext : s.drop (pos + 1) = [97, 100] ++ (ofString " GGEP Block" ++ rest) :=
        drop_next (a := [66]) h 1 rfl
      have hread := sub_drop hnext rfl (by omega)
      obtain hid' := Option.some.inj (hread.symm.trans hid)
      rw [← hid'] at hknown
      exact absurd hknown (by unfold Known; decide)

end Reading

section Writing

variable {b : Bytes × Bytes} {t : Bytes} {blocks : List GgepBlock} {putMagic : Bool}

theorem writeIter_some (putMagic : Bool) (blocks : List GgepBlock) :
    ∃ w, writeIter putMagic blocks = some w := by
  have hgoes : ∀ putMagic last (b : GgepBlock), ∃ w, writeGgep putMagic last b = some w := by
    intro putMagic last b
    cases b with
    | unknownBlock t => exact ⟨t, rfl⟩
    | ggep id data => exact ⟨_, writeGgep_eq putMagic last (id, data)⟩
  induction blocks generalizing putMagic with
  | nil => exact ⟨[], rfl⟩
  | cons b blocks ih =>
    cases blocks with
    | nil => exact hgoes _ _ b
    | cons c blocks =>
      obtain ⟨w, hw⟩ := hgoes putMagic false b
      obtain ⟨w', hw'⟩ := ih (!b.isGgep)
      exact ⟨w ++ w', by rw [writeIter, hw, hw']; rfl⟩

theorem writeIter_of :
    writeIter putMagic (.of b :: blocks) = (writeIter false blocks).map fun w =>
      (if putMagic then [195] else []) ++ (body blocks.isEmpty b ++ w) := by
  cases blocks with
  | nil => simp [writeIter, writeGgep_eq]
  | cons c blocks =>
    obtain ⟨w, hw⟩ := writeIter_some false (c :: blocks)
    rw [writeIter, writeGgep_eq, GgepBlock.of, GgepBlock.isGgep, Bool.not_true, hw]
    simp

theorem writeIter_unknown :
    writeIter putMagic (.unknownBlock t :: blocks) = (writeIter true blocks).map (t ++ ·) := by
  cases blocks with
  | nil => simp [writeIter, writeGgep]
  | cons c blocks =>
    obtain ⟨w, hw⟩ := writeIter_some true (c :: blocks)
    rw [writeIter, writeGgep, GgepBlock.isGgep, Bool.not_false, hw]
    rfl

-- Behind the magic byte the loop reads what has been written, if all of it survives.
theorem reads_writeIter {exts : List Extension} (hexts : ∀ e ∈ exts, e.InRange) :
    ∃ blocks w, exts.mapM toBlock = some blocks ∧ writeIter false blocks = some w ∧
      ∀ s fuel pos list, s.drop pos = w → pos ≤ s.length → w.length < fuel →
        (Reads s fuel pos list exts ↔ ∀ e ∈ exts, e.Survives) := by
  induction exts with
  | nil =>
    refine ⟨[], [], rfl, rfl, fun s fuel pos list h hpos hfuel => ?_⟩
    obtain ⟨fuel, rfl⟩ := Nat.exists_eq_add_one_of_ne_zero hfuel.ne'
    have hend := List.drop_eq_nil_iff.mp h
    simp [reads_end (le_antisymm hpos hend)]
  | cons e exts ih =>
    obtain ⟨he, hexts⟩ := List.forall_mem_cons.mp hexts
    obtain ⟨blocks, w, hblocks, hw, hreads⟩ := ih hexts
    by_cases hknown : ∃ t, e = .ggepUnknown t
    · obtain ⟨t, rfl⟩ := hknown
      obtain ⟨w', hw'⟩ := writeIter_some true blocks
      refine ⟨.unknownBlock t :: blocks, t ++ w', ?_, ?_, fun s fuel pos list h hpos _ => ?_⟩
      · rw [List.mapM_cons, hblocks]
        rfl
      · rw [writeIter_unknown, hw']
        rfl
      · refine iff_of_false (not_reads_unknown hpos h) fun hall => ?_
        exact (List.forall_mem_cons.mp hall).1
    · obtain ⟨b, hb⟩ := written_of_inRange he (not_exists.mp hknown)
      refine ⟨.of b :: blocks, body blocks.isEmpty b ++ w, ?_, ?_,
        fun s fuel pos list h hpos hfuel => ?_⟩
      · rw [List.mapM_cons, hb.1, hblocks]
        rfl
      · rw [writeIter_of, hw]
        rfl
      · obtain ⟨fuel, rfl⟩ := Nat.exists_eq_add_one_of_ne_zero (Nat.ne_zero_of_lt hfuel)
        have hcount := congrArg List.length h
        rw [List.length_append, length_body] at hfuel
        rw [List.length_drop, List.length_append, length_body] at hcount
        rw [reads_cons hb (by omega) h, List.forall_mem_cons,
          hreads s fuel _ _ (drop_next h _ rfl) (by rw [length_body]; omega) (by omega)]

theorem parse_eq_iff {w : Bytes} {exts : List Extension} (hw : w ≠ []) :
    parse w = some exts ↔
      exts = [.ggepUnknown w] ∧ Ggep.parse w = some [.unknownBlock w] ∨
        w[0]? = some 195 ∧ Reads w (w.length + 1) 1 [] exts := by
  have hlen := List.length_pos_of_ne_nil hw
  rw [parse, Ggep.parse, parseBlock, if_pos hlen]
  by_cases hmagic : w[0]? = some 195
  · simp only [hmagic, ne_eq, not_true_eq_false, if_false, true_and, Reads]
    cases iterBlock w (w.length + 1) 1 [] with
    | ok result =>
      simp only [Option.map_some, Option.some_inj, Except.ok.injEq, exists_eq_left']
      constructor
      · exact fun h => .inr h
      · rintro (⟨rfl, hblocks⟩ | h)
        · rw [hblocks]
          rfl
        · exact h
    | error stop => cases stop <;> simp [ofBlock, eq_comm]
  · simp [hmagic, ofBlock, eq_comm]

theorem parse_write_unknown {w : Bytes} {exts : List Extension} :
    parse (t ++ w) = some (.ggepUnknown t :: exts) ↔
      t ++ w = t ∧ exts = [] ∧ t ≠ [] ∧ Ggep.parse t = some [.unknownBlock t] := by
  by_cases hempty : t ++ w = []
  · obtain ⟨rfl, rfl⟩ := List.append_eq_nil_iff.mp hempty
    simp [parse, Ggep.parse, parseBlock]
  · rw [parse_eq_iff hempty]
    constructor
    · rintro (⟨hexts, hparse⟩ | ⟨hmagic, hreads⟩)
      · obtain ⟨ht, rfl⟩ := List.cons.inj hexts
        have hw : t ++ w = t := (Extension.ggepUnknown.inj ht).symm
        rw [hw] at hempty hparse
        exact ⟨hw, rfl, hempty, hparse⟩
      · -- the text would be that of a bad block, which does not begin with the magic byte
        by_cases hend : 1 = (t ++ w).length
        · exact absurd ((reads_end hend).mp hreads) (by simp)
        · obtain ⟨r, -, hof, -⟩ := reads_block hend hreads
          obtain ⟨rfl, -⟩ := ofBlock_eq_unknown hof
          have hfirst : (ofString "Bad GGEP Block" ++ w)[0]? = some 66 := rfl
          exact absurd (hfirst.symm.trans hmagic) (by decide)
    · rintro ⟨hw, rfl, -, hparse⟩
      rw [hw]
      exact .inl ⟨rfl, hparse⟩

-- A list of extensions comes back just when each of them does, or when it is one text that
-- is not taken for blocks.
theorem parse_write_iff {exts : List Extension} (h : ∀ e ∈ exts, e.InRange) :
    ∃ w, write exts = some w ∧ (parse w = some exts ↔ Survive exts) := by
  obtain ⟨blocks, w, hblocks, hw, hreads⟩ := reads_writeIter h
  rw [write, hblocks]
  cases exts with
  | nil =>
    obtain rfl := Option.some.inj hblocks
    exact ⟨[], rfl, by simp [Survive, parse, Ggep.parse, parseBlock]⟩
  | cons e exts =>
    rw [List.mapM_cons] at hblocks
    by_cases hknown : ∃ t, e = .ggepUnknown t
    · obtain ⟨t, rfl⟩ := hknown
      simp only [toBlock, Option.bind_eq_bind, Option.bind_some, Option.bind_eq_some_iff,
        Option.pure_def, Option.some_inj] at hblocks
      obtain ⟨tail, htail, rfl⟩ := hblocks
      obtain ⟨w', hw'⟩ := writeIter_some true tail
      refine ⟨t ++ w', ?_, parse_write_unknown.trans ?_⟩
      · rw [Option.bind_eq_bind, Option.bind_some, writeBlock, writeIter_unknown, hw']
        rfl
      · constructor
        · rintro ⟨-, rfl, hne, hparse⟩
          exact .inr ⟨t, rfl, hne, hparse⟩
        · rintro (hall | ⟨s, hs, hne, hparse⟩)
          · exact (List.forall_mem_cons.mp hall).1.elim
          · obtain ⟨ht, rfl⟩ := List.cons.inj hs
            obtain rfl := Extension.ggepUnknown.inj ht
            obtain rfl := Option.some.inj htail
            obtain rfl := Option.some.inj hw'
            exact ⟨List.append_nil t, rfl, hne, hparse⟩
    · obtain ⟨b, hb⟩ := written_of_inRange (List.forall_mem_cons.mp h).1 (not_exists.mp hknown)
      simp only [hb.1, Option.bind_eq_bind, Option.bind_some, Option.bind_eq_some_iff,
        Option.pure_def, Option.some_inj] at hblocks
      obtain ⟨tail, htail, rfl⟩ := hblocks
      rw [writeIter_of, Option.map_eq_some_iff] at hw
      obtain ⟨w', hw', rfl⟩ := hw
      have hwrite : writeBlock (.of b :: tail) = some (195 :: (body tail.isEmpty b ++ w')) := by
        rw [writeBlock, writeIter_of, hw']
        rfl
      have hall := hreads (195 :: (body tail.isEmpty b ++ w'))
        ((195 :: (body tail.isEmpty b ++ w')).length + 1) 1 [] rfl (by simp) (by simp)
      refine ⟨_, hwrite, (parse_eq_iff (by simp)).trans ?_⟩
      constructor
      · rintro (⟨hexts, -⟩ | ⟨-, hr⟩)
        · exact absurd ⟨_, (List.cons.inj hexts).1⟩ hknown
        · exact .inl (hall.mp hr)
      · rintro (hsurvive | ⟨s, hs, -, -⟩)
        · exact .inr ⟨rfl, hall.mpr hsurvive⟩
        · exact absurd ⟨_, (List.cons.inj hs).1⟩ hknown

end Writing

end Cobs

end Mldonkey.Ggep
