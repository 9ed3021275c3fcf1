import Mldonkey.Ggep.Cobs

-- GGEP, the extension blocks of Gnutella messages.
namespace Mldonkey.Ggep

open Donkey.LittleEndian (sub sub_drop getElem?_of_drop drop_next)
open BigEndian (bufInt8 toNat_byte)

inductive GgepBlock where
  | unknownBlock (s : Bytes)
  | ggep (id data : Bytes)
  deriving DecidableEq, Repr

-- get_len at a position, of which the first argument is what lies behind it.
def getLen : Bytes → Nat → Nat → Option (Nat × Nat)
  | [], _, _ => none
  | c :: s, pos, len =>
      let again := c.toNat &&& (1 <<< 7) != 0
      let len := len <<< 6 ||| (c.toNat &&& 0x3f)
      if again then getLen s (pos + 1) len else some (len, pos + 1)

-- The id, the data and the position behind the block at pos.
def getBlock (s : Bytes) (pos : Nat) : Except Stop (Bytes × Bytes × Nat) := do
  let flags ← orRaise s[pos]?
  let cobsEncoded := flags.toNat &&& (1 <<< 6) != 0
  let idLen := flags.toNat &&& 7
  let id ← orRaise (sub s (pos + 1) idLen)
  let dataLen ← orRaise (getLen (s.drop (pos + 1 + idLen)) (pos + 1 + idLen) 0)
  let data ← orRaise (sub s dataLen.2 dataLen.1)
  let data ← (if cobsEncoded then Cobs.decode data else pure data)
  return (id, data, dataLen.2 + dataLen.1)

-- Each round uses up at least two bytes.
def iterBlock (s : Bytes) : Nat → Nat → List GgepBlock → Except Stop (List GgepBlock)
  | 0, _, _ => .error .loops
  | fuel + 1, pos, list =>
      if pos = s.length then .ok list
      else do
        let block ← getBlock s pos
        iterBlock s fuel block.2.2 (.ggep block.1 block.2.1 :: list)

-- None stands for a call that does not return.
def parseBlock (s : Bytes) (list : List GgepBlock) : Option (List GgepBlock) :=
  if 0 < s.length then
    let result := if s[0]? ≠ some 195 then .error .raises else iterBlock s (s.length + 1) 1 list
    match result with
    | .ok list => some list
    | .error .raises => some (.unknownBlock s :: list)
    | .error .loops => none
  else some list

def parse (s : Bytes) : Option (List GgepBlock) := (parseBlock s []).map List.reverse

def putLen (lastByte : Bool) (len : Nat) : Bytes :=
  (if 63 < len then putLen false (len >>> 6) else []) ++
    bufInt8 ((len &&& 0x3f ||| if lastByte then 0x40 else 0x80 : Nat) : Int)
termination_by len
decreasing_by
  rw [Nat.shiftRight_eq_div_pow]
  omega

-- What the flags say of a block.
def flagsOf (idLen : Nat) (cobsEncoded lastBlock : Bool) : Nat :=
  let flags := idLen
  let flags := if cobsEncoded then flags ||| (1 <<< 6) else flags
  if lastBlock then flags ||| (1 <<< 7) else flags

def writeGgep (putMagic lastBlock : Bool) : GgepBlock → Option Bytes
  | .unknownBlock s => some s
  | .ggep id data => do
      let cobsEncoded := data.contains 0
      let data ← (if cobsEncoded then Cobs.encode data else pure data)
      return (if putMagic then [195] else []) ++
        (bufInt8 (flagsOf id.length cobsEncoded lastBlock : Nat) ++
          (id ++ (putLen true data.length ++ data)))

def GgepBlock.isGgep : GgepBlock → Bool
  | .ggep _ _ => true
  | .unknownBlock _ => false

def writeIter : Bool → List GgepBlock → Option Bytes
  | _, [] => some []
  | putMagic, [b] => writeGgep putMagic true b
  | putMagic, b :: c :: tail => do
      let s ← writeGgep putMagic false b
      return s ++ (← writeIter (!b.isGgep) (c :: tail))

def writeBlock (list : List GgepBlock) : Option Bytes := writeIter true list

-- A block as an id and the data.
def GgepBlock.of (b : Bytes × Bytes) : GgepBlock := .ggep b.1 b.2

theorem getLen_cons {c : UInt8} {s : Bytes} {pos len : Nat} :
    getLen (c :: s) pos len = if c.toNat &&& (1 <<< 7) != 0
      then getLen s (pos + 1) (len <<< 6 ||| (c.toNat &&& 0x3f))
      else some (len <<< 6 ||| (c.toNat &&& 0x3f), pos + 1) := rfl

theorem digit_or {d : Nat} (hd : d < 64) (lastByte : Bool) :
    ((d ||| if lastByte then 0x40 else 0x80) &&& (1 <<< 7) != 0) = !lastByte ∧
      (d ||| if lastByte then 0x40 else 0x80) &&& 0x3f = d ∧
        (d ||| if lastByte then 0x40 else 0x80) < 256 := by
  have h : ∀ (d : Fin 64) (lastByte : Bool),
      ((d.val ||| if lastByte then 0x40 else 0x80) &&& (1 <<< 7) != 0) = !lastByte ∧
        (d.val ||| if lastByte then 0x40 else 0x80) &&& 0x3f = d.val ∧
          (d.val ||| if lastByte then 0x40 else 0x80) < 256 := by decide
  exact h ⟨d, hd⟩ lastByte

theorem shift_or (n m : Nat) : n <<< 6 ||| (m &&& 0x3f) = n * 64 + m % 64 := by
  have hmod : m &&& 0x3f = m % 64 := Nat.and_two_pow_sub_one_eq_mod m 6
  rw [hmod, ← Nat.shiftLeft_add_eq_or_of_lt (by omega), Nat.shiftLeft_eq]

theorem getLen_digit {lastByte : Bool} {len pos acc : Nat} {rest : Bytes} :
    getLen (bufInt8 ((len &&& 0x3f ||| if lastByte then 0x40 else 0x80 : Nat) : Int) ++ rest) pos acc =
      if lastByte then some (acc * 64 + len % 64, pos + 1)
      else getLen rest (pos + 1) (acc * 64 + len % 64) := by
  have hmod : len &&& 0x3f = len % 64 := Nat.and_two_pow_sub_one_eq_mod len 6
  obtain ⟨hagain, hdigit, hlt⟩ := digit_or (Nat.mod_lt len (by decide : 0 < 64)) lastByte
  have hbyte : ((UInt8.ofNat (((len % 64 ||| if lastByte then 0x40 else 0x80 : Nat) : Int) % 256).toNat)).toNat
      = (len % 64 ||| if lastByte then 0x40 else 0x80) := by
    have := toNat_byte ((len % 64 ||| if lastByte then 0x40 else 0x80 : Nat) : Int)
    omega
  rw [hmod, bufInt8, List.singleton_append, getLen_cons, hbyte, hagain, shift_or]
  have hdigit' : (len % 64 ||| if lastByte then 0x40 else 0x80) % 64 = len % 64 := by
    exact (Nat.and_two_pow_sub_one_eq_mod _ 6).symm.trans hdigit
  rw [hdigit']
  cases lastByte <;> rfl

theorem putLen_eq (lastByte : Bool) (len : Nat) :
    putLen lastByte len = (if 63 < len then putLen false (len >>> 6) else []) ++
      bufInt8 ((len &&& 0x3f ||| if lastByte then 0x40 else 0x80 : Nat) : Int) := by
  rw [putLen]

theorem getLen_high {len pos : Nat} {rest : Bytes} :
    getLen (putLen false len ++ rest) pos 0 = getLen rest (pos + (putLen false len).length) len := by
  induction len using Nat.strong_induction_on generalizing pos rest with
  | _ len ih =>
      rw [putLen_eq, List.append_assoc, List.length_append]
      by_cases h : 63 < len
      · have hdiv : len >>> 6 = len / 64 := Nat.shiftRight_eq_div_pow len 6
        rw [if_pos h, hdiv, ih (len / 64) (by omega), getLen_digit]
        simp only [Bool.false_eq_true, if_false, BigEndian.length_bufInt8]
        rw [Nat.add_assoc, show len / 64 * 64 + len % 64 = len by omega]
      · rw [if_neg h, List.nil_append, getLen_digit]
        simp only [Bool.false_eq_true, if_false, BigEndian.length_bufInt8, List.length_nil]
        rw [show 0 * 64 + len % 64 = len by omega, Nat.zero_add]

theorem getLen_putLen {len pos : Nat} {rest : Bytes} :
    getLen (putLen true len ++ rest) pos 0 = some (len, pos + (putLen true len).length) := by
  rw [putLen_eq, List.append_assoc, List.length_append]
  by_cases h : 63 < len
  · have hdiv : len >>> 6 = len / 64 := Nat.shiftRight_eq_div_pow len 6
    rw [if_pos h, hdiv, getLen_high, getLen_digit, if_pos rfl, BigEndian.length_bufInt8, Nat.add_assoc,
      show len / 64 * 64 + len % 64 = len by omega]
  · rw [if_neg h, List.nil_append, getLen_digit, if_pos rfl, BigEndian.length_bufInt8,
      show 0 * 64 + len % 64 = len by omega]
    rfl

-- The data of a block on the wire.
def stuffed (data : Bytes) : Bytes :=
  if data.contains 0 then Cobs.wire (Cobs.groups [] data) else data

-- A block on the wire.
def body (lastBlock : Bool) (b : Bytes × Bytes) : Bytes :=
  bufInt8 (flagsOf b.1.length (b.2.contains 0) lastBlock : Nat) ++
    (b.1 ++ (putLen true (stuffed b.2).length ++ stuffed b.2))

def bodies : List (Bytes × Bytes) → Bytes
  | [] => []
  | b :: blocks => body blocks.isEmpty b ++ bodies blocks

theorem stuffed_eq (data : Bytes) :
    (if data.contains 0 then Cobs.encode data else pure data) = some (stuffed data) := by
  rw [stuffed]
  split
  · exact Cobs.encode_eq data
  · rfl

theorem unstuffed (data : Bytes) :
    (if data.contains 0 then Cobs.decode (stuffed data) else pure (stuffed data)) = .ok data := by
  rw [stuffed]
  split
  · rw [Cobs.decode_wire (Cobs.proper_groups (by simp)), Cobs.plain_groups (by simp)]
    rfl
  · rfl

theorem writeGgep_eq (putMagic lastBlock : Bool) (b : Bytes × Bytes) :
    writeGgep putMagic lastBlock (.of b) =
      some ((if putMagic then [195] else []) ++ body lastBlock b) := by
  rw [GgepBlock.of, writeGgep, stuffed_eq]
  rfl

theorem writeIter_eq (putMagic : Bool) {blocks : List (Bytes × Bytes)} (h : blocks ≠ []) :
    writeIter putMagic (blocks.map .of) =
      some ((if putMagic then [195] else []) ++ bodies blocks) := by
  induction blocks generalizing putMagic with
  | nil => exact absurd rfl h
  | cons b blocks ih =>
      cases blocks with
      | nil =>
          rw [List.map_cons, List.map_nil, writeIter, writeGgep_eq]
          simp [bodies]
      | cons c blocks =>
          have hrest := ih (!(GgepBlock.of b).isGgep) (by simp)
          rw [List.map_cons] at hrest
          rw [List.map_cons, List.map_cons, writeIter, writeGgep_eq, hrest]
          simp [bodies, GgepBlock.isGgep, GgepBlock.of]

theorem flagsOf_bits {n : Nat} (hn : n ≤ 15) (cobsEncoded lastBlock : Bool) :
    flagsOf n cobsEncoded lastBlock < 256 ∧
      (flagsOf n cobsEncoded lastBlock &&& (1 <<< 6) != 0) = cobsEncoded ∧
        flagsOf n cobsEncoded lastBlock &&& 7 = n % 8 := by
  have h : ∀ (n : Fin 16) (cobsEncoded lastBlock : Bool),
      flagsOf n.val cobsEncoded lastBlock < 256 ∧
        (flagsOf n.val cobsEncoded lastBlock &&& (1 <<< 6) != 0) = cobsEncoded ∧
          flagsOf n.val cobsEncoded lastBlock &&& 7 = n.val % 8 := by decide
  exact h ⟨n, by omega⟩ cobsEncoded lastBlock

section Reading

variable {s rest : Bytes} {pos fuel : Nat} {b : Bytes × Bytes} {last : Bool}

theorem getFlags (hb : b.1.length ≤ 15) (h : s.drop pos = body last b ++ rest) :
    ∃ flags, s[pos]? = some flags ∧ (flags.toNat &&& (1 <<< 6) != 0) = b.2.contains 0 ∧
      flags.toNat &&& 7 = b.1.length % 8 := by
  obtain ⟨hlt, hcobs, hlen⟩ := flagsOf_bits hb (b.2.contains 0) last
  rw [body, List.append_assoc] at h
  have hbyte := toNat_byte (flagsOf b.1.length (b.2.contains 0) last : Nat)
  have htoNat : (UInt8.ofNat ((flagsOf b.1.length (b.2.contains 0) last : Nat) % 256 : Int).toNat).toNat
      = flagsOf b.1.length (b.2.contains 0) last := by omega
  refine ⟨_, getElem?_of_drop h, ?_, ?_⟩
  · rw [htoNat, hcobs]
  · rw [htoNat, hlen]

theorem length_body (last : Bool) (b : Bytes × Bytes) :
    (body last b).length =
      1 + b.1.length + (putLen true (stuffed b.2).length).length + (stuffed b.2).length := by
  simp only [body, List.length_append, BigEndian.length_bufInt8]
  omega

theorem getBlock_body (hb : b.1.length ≤ 7) (hpos : pos ≤ s.length)
    (h : s.drop pos = body last b ++ rest) :
    getBlock s pos = .ok (b.1, b.2, pos + (body last b).length) := by
  obtain ⟨flags, hflags, hcobs, hlen⟩ := getFlags (by omega) h
  rw [Nat.mod_eq_of_lt (by omega)] at hlen
  have htotal := congrArg List.length h
  rw [List.length_drop, List.length_append, length_body] at htotal
  rw [body, List.append_assoc, List.append_assoc, List.append_assoc] at h
  have hid := drop_next h 1 rfl
  have hput := drop_next hid b.1.length rfl
  have hdata := drop_next hput (putLen true (stuffed b.2).length).length rfl
  rw [getBlock, hflags]
  simp only [bind, Except.bind, orRaise_some, hlen, sub_drop hid rfl (by omega), hput, getLen_putLen,
    sub_drop hdata rfl (by omega), hcobs, unstuffed]
  rw [length_body]
  show Except.ok _ = Except.ok _
  congr 3
  omega

theorem getBlock_sub {r : Bytes × Bytes × Nat} (hr : getBlock s pos = .ok r) :
    ∃ flags, s[pos]? = some flags ∧ sub s (pos + 1) (flags.toNat &&& 7) = some r.1 := by
  rw [getBlock] at hr
  cases hflags : s[pos]? with
  | none =>
      rw [hflags] at hr
      cases hr
  | some flags =>
      refine ⟨flags, rfl, ?_⟩
      rw [hflags] at hr
      simp only [bind, Except.bind, orRaise_some] at hr
      cases hid : sub s (pos + 1) (flags.toNat &&& 7) with
      | none =>
          rw [hid] at hr
          cases hr
      | some id =>
          rw [hid] at hr
          simp only [orRaise_some] at hr
          split at hr
          · cases hr
          · split at hr
            · cases hr
            · split at hr
              · cases hr
              · obtain rfl := Except.ok.inj hr
                rfl

theorem getBlock_id {r : Bytes × Bytes × Nat} (hb : b.1.length ≤ 15)
    (h : s.drop pos = body last b ++ rest) (hr : getBlock s pos = .ok r) :
    r.1.length = b.1.length % 8 := by
  obtain ⟨flags, hflags, -, hlen⟩ := getFlags hb h
  obtain ⟨flags', hflags', hid⟩ := getBlock_sub hr
  obtain rfl := Option.some.inj (hflags.symm.trans hflags')
  rw [hlen, sub] at hid
  split at hid
  · next hle =>
      rw [← Option.some.inj hid, List.length_take, List.length_drop]
      omega
  · cases hid

theorem iterBlock_suffix {list result : List GgepBlock} (h : iterBlock s fuel pos list = .ok result) :
    list <:+ result := by
  induction fuel generalizing pos list with
  | zero => cases h
  | succ fuel ih =>
      rw [iterBlock] at h
      split at h
      · rw [Except.ok.inj h]
      · cases hblock : getBlock s pos with
        | error e =>
            rw [hblock] at h
            cases h
        | ok block =>
            rw [hblock] at h
            exact (List.suffix_cons _ _).trans (ih h)

theorem iterBlock_bodies {blocks : List (Bytes × Bytes)} {list : List GgepBlock}
    (hids : ∀ b ∈ blocks, b.1.length ≤ 15) (hpos : pos ≤ s.length) (hsrc : s.drop pos = bodies blocks)
    (hfuel : blocks.length < fuel) :
    iterBlock s fuel pos list = .ok ((blocks.map .of).reverse ++ list) ↔
      ∀ b ∈ blocks, b.1.length ≤ 7 := by
  induction blocks generalizing pos fuel list with
  | nil =>
      obtain ⟨fuel, rfl⟩ := Nat.exists_eq_add_one_of_ne_zero (show fuel ≠ 0 by omega)
      have hend : pos = s.length := by
        have := List.drop_eq_nil_iff.mp hsrc
        omega
      rw [iterBlock, if_pos hend]
      simp
  | cons b blocks ih =>
      obtain ⟨fuel, rfl⟩ := Nat.exists_eq_add_one_of_ne_zero (show fuel ≠ 0 by omega)
      obtain ⟨hb, hids⟩ := List.forall_mem_cons.mp hids
      rw [bodies] at hsrc
      have htotal := congrArg List.length hsrc
      rw [List.length_drop, List.length_append, length_body] at htotal
      rw [iterBlock, if_neg (by omega), List.forall_mem_cons, List.map_cons, List.reverse_cons,
        List.append_assoc, List.singleton_append]
      by_cases hshort : b.1.length ≤ 7
      · have hnext := drop_next hsrc _ rfl
        rw [getBlock_body hshort hpos hsrc]
        simp only [bind, Except.bind]
        rw [show GgepBlock.ggep b.1 b.2 = .of b from rfl, ih hids (by rw [length_body]; omega) hnext
          (by rw [List.length_cons] at hfuel; omega)]
        exact ⟨fun h => ⟨hshort, h⟩, fun h => h.2⟩
      · -- an id that is too short stands where the block's would
        refine ⟨fun h => ?_, fun h => absurd h.1 hshort⟩
        cases hblock : getBlock s pos with
        | error e =>
            rw [hblock] at h
            cases h
        | ok r =>
            have hid := getBlock_id hb hsrc hblock
            rw [hblock] at h
            obtain ⟨more, hmore⟩ := iterBlock_suffix h
            have heq := (List.append_inj' hmore (by simp)).2
            have := congrArg List.length (GgepBlock.ggep.inj (List.cons.inj heq).1).1
            omega

end Reading

theorem length_bodies (blocks : List (Bytes × Bytes)) : blocks.length ≤ (bodies blocks).length := by
  induction blocks with
  | nil => simp [bodies]
  | cons b blocks ih =>
      rw [bodies, List.length_append, length_body, List.length_cons]
      omega

theorem map_of_ne (blocks : List (Bytes × Bytes)) (s : Bytes) :
    ([.unknownBlock s] : List GgepBlock) ≠ blocks.map .of := by
  cases blocks with
  | nil => simp
  | cons b blocks => simp [GgepBlock.of]

-- A list of blocks on the wire, behind the magic byte.
def wire (blocks : List (Bytes × Bytes)) : Bytes :=
  if blocks = [] then [] else [195] ++ bodies blocks

theorem writeBlock_eq (blocks : List (Bytes × Bytes)) :
    writeBlock (blocks.map .of) = some (wire blocks) := by
  rw [wire]
  split
  · next hnil => rw [hnil]; rfl
  · next hne => exact writeIter_eq true hne

theorem parse_wire_iff {blocks : List (Bytes × Bytes)}
    (hids : ∀ b ∈ blocks, 1 ≤ b.1.length ∧ b.1.length ≤ 15) :
    parse (wire blocks) = some (blocks.map .of) ↔ ∀ b ∈ blocks, b.1.length ≤ 7 := by
  rw [wire]
  split
  · next hnil =>
      subst hnil
      simp [parse, parseBlock]
  · have hcount := length_bodies blocks
    have hiter := @iterBlock_bodies ([195] ++ bodies blocks) 1 (bodies blocks).length.succ.succ blocks []
      (fun b hb => (hids b hb).2) (by simp) rfl (by omega)
    rw [List.append_nil] at hiter
    rw [← hiter, parse, parseBlock, if_pos (by simp)]
    simp only [List.singleton_append, List.getElem?_cons_zero, List.length_cons, ne_eq,
      not_true_eq_false, if_false]
    cases iterBlock (195 :: bodies blocks) ((bodies blocks).length + 1 + 1) 1 [] with
    | ok list => simp [List.reverse_eq_iff]
    | error e =>
        cases e with
        | raises => simpa using map_of_ne blocks (195 :: bodies blocks)
        | loops => simp

-- The blocks come back from the wire just when no id has more than 7 bytes: the
-- reader takes three of the four bits of the length.
theorem ggep_parse_write {blocks : List (Bytes × Bytes)}
    (hids : ∀ b ∈ blocks, 1 ≤ b.1.length ∧ b.1.length ≤ 15) :
    ∃ s, writeBlock (blocks.map .of) = some s ∧
      (parse s = some (blocks.map .of) ↔ ∀ b ∈ blocks, b.1.length ≤ 7) :=
  ⟨_, writeBlock_eq blocks, parse_wire_iff hids⟩

-- One stuffed block and an empty one.
theorem ggep_parse_write_two :
    ∃ s, writeBlock ([([68, 85], [0, 7]), ([85, 80], [])].map .of) = some s ∧
      (parse s = some ([([68, 85], [0, 7]), ([85, 80], [])].map .of) ↔
        ∀ b ∈ [(([68, 85] : Bytes), ([0, 7] : Bytes)), ([85, 80], [])], b.1.length ≤ 7) :=
  ggep_parse_write (by decide)

-- The id of eight bytes is read as an empty one.
theorem ggep_parse_write_false : ¬ ∀ blocks : List (Bytes × Bytes),
    (∀ b ∈ blocks, 1 ≤ b.1.length ∧ b.1.length ≤ 15) →
      ∃ s, writeBlock (blocks.map .of) = some s ∧ parse s = some (blocks.map .of) := by
  intro h
  obtain ⟨s, hwrite, hparse⟩ := h [([65, 66, 67, 68, 69, 70, 71, 72], [1])] (by decide)
  have hbytes : writeBlock ([([65, 66, 67, 68, 69, 70, 71, 72], [1])].map .of) =
      some [195, 136, 65, 66, 67, 68, 69, 70, 71, 72, 65, 1] := by
    rw [writeBlock, writeIter_eq true (by simp), bodies, bodies, body, putLen_eq]
    rfl
  obtain rfl := Option.some.inj (hbytes.symm.trans hwrite)
  exact absurd hparse (by decide)

end Mldonkey.Ggep
