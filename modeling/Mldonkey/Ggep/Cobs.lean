import Mldonkey.Donkey.LittleEndian

-- Consistent overhead byte stuffing: a string without zero bytes for any string.
namespace Mldonkey.Ggep

abbrev Bytes := List UInt8

-- How a computation ends without a result.
inductive Stop where
  | raises
  | loops
  deriving DecidableEq, Repr

def orRaise {α : Type} : Option α → Except Stop α
  | some a => .ok a
  | none => .error .raises

@[simp] theorem orRaise_some {α : Type} (a : α) : orRaise (some a) = .ok a := rfl

@[simp] theorem orRaise_none {α : Type} : orRaise (none : Option α) = .error .raises := rfl

-- s.[pos] <- c
def setChar (s : Bytes) (pos : Nat) (c : UInt8) : Option Bytes :=
  if pos < s.length then some (s.set pos c) else none

-- String.create; what the string holds at first is overwritten.
def create (len : Int) : Option Bytes := if 0 ≤ len then some (List.replicate len.toNat 0) else none

namespace Cobs

-- A code of 0 leaves the position where it is, and the loop goes on for ever; else
-- each round goes forward, and a round for each byte is enough.
def decodedLength (psrc : Bytes) : Nat → Nat → Int → Option Int
  | 0, _, _ => none
  | fuel + 1, codepos, len =>
      match psrc[codepos]? with
      | some code =>
          decodedLength psrc fuel (codepos + code.toNat)
            (len + code.toNat - if code = 255 then 1 else 0)
      | none => some (len - 1)

def calcDecodedLength (psrc : Bytes) : Option Int := decodedLength psrc (psrc.length + 1) 0 0

-- The for loop of decodeData.
def copy (psrc : Bytes) : Nat → Nat → Nat → Bytes → Option Bytes
  | 0, _, _, pdest => some pdest
  | n + 1, srcpos, dstpos, pdest => do
      let pdest ← setChar pdest dstpos (← psrc[srcpos]?)
      copy psrc n (srcpos + 1) (dstpos + 1) pdest

def decodeLoop (psrc : Bytes) : Nat → Nat → Nat → Bytes → Except Stop Bytes
  | 0, _, _, _ => .error .loops
  | fuel + 1, srcpos, dstpos, pdest =>
      match psrc[srcpos]? with
      | none => .ok pdest
      | some code => do
          let pdest ← orRaise (copy psrc (code.toNat - 1) (srcpos + 1) dstpos pdest)
          let srcpos := srcpos + code.toNat
          let dstpos := dstpos + code.toNat - 1
          if code < 255 ∧ srcpos < psrc.length then
            let pdest ← orRaise (setChar pdest dstpos 0)
            decodeLoop psrc fuel srcpos (dstpos + 1) pdest
          else decodeLoop psrc fuel srcpos dstpos pdest

def decodeData (pdest psrc : Bytes) : Except Stop Bytes :=
  decodeLoop psrc (psrc.length + 1) 0 0 pdest

def decode (psrc : Bytes) : Except Stop Bytes :=
  match calcDecodedLength psrc with
  | none => .error .loops
  | some dstlen => do
      let pdest ← orRaise (create dstlen)
      decodeData pdest psrc

-- The first argument is what is left of psrc.
def encodedLength : Bytes → Nat → Nat → Nat
  | [], len, code => len + code
  | c :: psrc, len, code =>
      if c = 0 then encodedLength psrc (len + code) 1
      else if code + 1 = 255 then encodedLength psrc (len + (code + 1)) 1
      else encodedLength psrc len (code + 1)

def calcEncodedLength (psrc : Bytes) : Nat := encodedLength psrc 0 1

def encodeLoop : Bytes → Nat → Nat → Nat → Bytes → Option Bytes
  | [], _, codepos, code, pdest => setChar pdest codepos (.ofNat code)
  | c :: psrc, dstpos, codepos, code, pdest =>
      if c = 0 then do
        let pdest ← setChar pdest codepos (.ofNat code)
        encodeLoop psrc (dstpos + 1) dstpos 1 pdest
      else do
        let pdest ← setChar pdest dstpos c
        if code + 1 = 255 then
          let pdest ← setChar pdest codepos (.ofNat (code + 1))
          encodeLoop psrc (dstpos + 2) (dstpos + 1) 1 pdest
        else encodeLoop psrc (dstpos + 1) codepos (code + 1) pdest

def encodeData (pdest psrc : Bytes) : Option Bytes := encodeLoop psrc 1 0 1 pdest

def encode (psrc : Bytes) : Option Bytes := do
  let pdest ← create (calcEncodedLength psrc)
  encodeData pdest psrc

-- What the format says: a string is cut into groups at its zero bytes, and after 254
-- bytes without one.
def groups : Bytes → Bytes → List Bytes
  | run, [] => [run]
  | run, c :: s =>
      if c = 0 then run :: groups [] s
      else if run.length + 1 + 1 = 255 then (run ++ [c]) :: groups [] s
      else groups (run ++ [c]) s

-- A group on the wire is a code, one more than its length, and its bytes.
def wire (gs : List Bytes) : Bytes := gs.flatMap fun g => .ofNat (g.length + 1) :: g

-- The zero byte that a group stands for.
def gap (g : Bytes) : Bytes := if g.length < 254 then [0] else []

def plain : List Bytes → Bytes
  | [] => []
  | [g] => g
  | g :: h :: gs => g ++ (gap g ++ plain (h :: gs))

-- Groups that an encoder may write: the last one is never full.
def Proper : List Bytes → Prop
  | [] => False
  | [g] => g.length < 254
  | g :: h :: gs => g.length ≤ 254 ∧ Proper (h :: gs)

theorem groups_ne_nil (run s : Bytes) : groups run s ≠ [] := by
  induction s generalizing run with
  | nil => simp [groups]
  | cons c s ih =>
      rw [groups]
      split
      · simp
      · split
        · simp
        · exact ih _

theorem plain_cons {g : Bytes} {gs : List Bytes} (h : gs ≠ []) :
    plain (g :: gs) = g ++ (gap g ++ plain gs) := by
  cases gs with
  | nil => exact absurd rfl h
  | cons => rfl

theorem proper_cons {g : Bytes} {gs : List Bytes} (h : gs ≠ []) :
    Proper (g :: gs) ↔ g.length ≤ 254 ∧ Proper gs := by
  cases gs with
  | nil => exact absurd rfl h
  | cons => rfl

theorem wire_cons (g : Bytes) (gs : List Bytes) :
    wire (g :: gs) = .ofNat (g.length + 1) :: (g ++ wire gs) := rfl

theorem plain_groups {run s : Bytes} (h : run.length < 254) : plain (groups run s) = run ++ s := by
  induction s generalizing run with
  | nil => simp [groups, plain]
  | cons c s ih =>
      rw [groups]
      split
      · next hc =>
          rw [plain_cons (groups_ne_nil _ _), ih (by simp), gap, if_pos h, hc]
          rfl
      · split
        · next hfull =>
            rw [plain_cons (groups_ne_nil _ _), ih (by simp), gap, if_neg (by simp; omega)]
            simp
        · next hfull =>
            rw [ih (by simp; omega)]
            simp

theorem proper_groups {run s : Bytes} (h : run.length < 254) : Proper (groups run s) := by
  induction s generalizing run with
  | nil => exact h
  | cons c s ih =>
      rw [groups]
      split
      · exact (proper_cons (groups_ne_nil _ _)).mpr ⟨by omega, ih (by simp)⟩
      · split
        · exact (proper_cons (groups_ne_nil _ _)).mpr ⟨by simp; omega, ih (by simp)⟩
        · exact ih (by simp; omega)

theorem encodedLength_eq {run s : Bytes} {len : Nat} :
    encodedLength s len (run.length + 1) = len + (wire (groups run s)).length := by
  induction s generalizing run len with
  | nil => simp [encodedLength, groups, wire]
  | cons c s ih =>
      have hstart : ∀ l, encodedLength s l 1 = l + (wire (groups [] s)).length := fun l => @ih [] l
      rw [encodedLength, groups]
      by_cases hc : c = 0
      · rw [if_pos hc, if_pos hc, hstart, wire_cons]
        simp
        omega
      · rw [if_neg hc, if_neg hc]
        by_cases hfull : run.length + 1 + 1 = 255
        · rw [if_pos hfull, if_pos hfull, hstart, wire_cons]
          simp
          omega
        · rw [if_neg hfull, if_neg hfull]
          have h := @ih (run ++ [c]) len
          rw [List.length_append] at h
          exact h

theorem setChar_append {pre post : Bytes} {x c : UInt8} {pos : Nat} (h : pre.length = pos) :
    setChar (pre ++ x :: post) pos c = some (pre ++ c :: post) := by
  subst h
  rw [setChar, if_pos (by simp)]
  simp

theorem length_wire_pos {run s : Bytes} : 1 ≤ (wire (groups run s)).length := by
  obtain ⟨g, gs, hg⟩ := List.exists_cons_of_ne_nil (groups_ne_nil run s)
  rw [hg, wire_cons]
  simp

theorem length_groups_le (run s : Bytes) : run.length + 1 ≤ (wire (groups run s)).length := by
  induction s generalizing run with
  | nil => simp [groups, wire]
  | cons c s ih =>
      rw [groups]
      split
      · simp [wire_cons]
      · split
        · simp [wire_cons]
        · have := ih (run ++ [c])
          simp at this
          omega

-- The bytes of the group that is open stand behind the place of its code.
theorem encodeLoop_eq {pre run s junk : Bytes} {x : UInt8} {codepos dstpos : Nat}
    (hcode : pre.length = codepos) (hdst : codepos + 1 + run.length = dstpos)
    (hjunk : run.length + 1 + junk.length = (wire (groups run s)).length) :
    encodeLoop s dstpos codepos (run.length + 1) (pre ++ x :: (run ++ junk)) =
      some (pre ++ wire (groups run s)) := by
  induction s generalizing pre run junk x codepos dstpos with
  | nil =>
      have hnil : junk = [] := by
        simp [groups, wire] at hjunk
        exact hjunk
      rw [encodeLoop, setChar_append hcode, hnil]
      simp [groups, wire]
  | cons c s ih =>
      rw [encodeLoop]
      rw [groups] at hjunk ⊢
      by_cases hc : c = 0
      · rw [if_pos hc, wire_cons] at hjunk
        simp only [List.length_cons, List.length_append] at hjunk
        have hpos := @length_wire_pos [] s
        obtain ⟨y, junk, rfl⟩ := List.exists_cons_of_ne_nil
          (show junk ≠ [] by rintro rfl; rw [List.length_nil] at hjunk; omega)
        have h := @ih (pre ++ .ofNat (run.length + 1) :: run) [] junk y dstpos (dstpos + 1)
          (by simp; omega) (by simp) (by simp at hjunk ⊢; omega)
        rw [if_pos hc, if_pos hc, setChar_append hcode]
        simpa [wire_cons] using h
      · rw [if_neg hc] at hjunk
        rw [if_neg hc, if_neg hc]
        by_cases hfull : run.length + 1 + 1 = 255
        · rw [if_pos hfull, wire_cons] at hjunk
          simp only [List.length_cons, List.length_append] at hjunk
          have hpos := @length_wire_pos [] s
          obtain ⟨y, junk, rfl⟩ := List.exists_cons_of_ne_nil
            (show junk ≠ [] by rintro rfl; simp only [List.length_nil] at hjunk; omega)
          obtain ⟨z, junk, rfl⟩ := List.exists_cons_of_ne_nil
            (show junk ≠ [] by rintro rfl; simp only [List.length_cons, List.length_nil] at hjunk; omega)
          have hput := @setChar_append (pre ++ x :: run) (z :: junk) y c dstpos (by simp; omega)
          have hset := @setChar_append pre (run ++ c :: z :: junk) x (.ofNat (run.length + 1 + 1))
            codepos hcode
          have h := @ih (pre ++ .ofNat (run.length + 1 + 1) :: (run ++ [c])) [] junk z (dstpos + 1)
            (dstpos + 2) (by simp; omega) rfl (by simp at hjunk ⊢; omega)
          rw [List.append_assoc, List.cons_append] at hput
          rw [hput, if_pos hfull]
          simp only [Option.bind_eq_bind, Option.bind_some, List.append_assoc, List.cons_append, hset,
            if_pos hfull]
          simpa [wire_cons] using h
        · rw [if_neg hfull] at hjunk
          have hpos := length_groups_le (run ++ [c]) s
          obtain ⟨y, junk, rfl⟩ := List.exists_cons_of_ne_nil
            (show junk ≠ [] by rintro rfl; simp at hjunk hpos; omega)
          have hput := @setChar_append (pre ++ x :: run) junk y c dstpos (by simp; omega)
          have h := @ih pre (run ++ [c]) junk x codepos (dstpos + 1) hcode (by simp; omega)
            (by simp at hjunk ⊢; omega)
          rw [List.append_assoc, List.cons_append] at hput
          rw [hput, if_neg hfull]
          simp only [Option.bind_eq_bind, Option.bind_some, if_neg hfull]
          simpa using h

theorem encode_eq (s : Bytes) : encode s = some (wire (groups [] s)) := by
  have hlen : calcEncodedLength s = (wire (groups [] s)).length := by
    have h := @encodedLength_eq [] s 0
    rw [Nat.zero_add] at h
    exact h
  obtain ⟨n, hn⟩ := Nat.exists_eq_add_of_le' (@length_wire_pos [] s)
  rw [encode, create, if_pos (by omega), hlen, hn]
  exact @encodeLoop_eq [] [] s (List.replicate n 0) 0 0 1 rfl rfl (by simp; omega)

theorem length_le_wire (gs : List Bytes) : gs.length ≤ (wire gs).length := by
  induction gs with
  | nil => simp
  | cons g gs ih =>
      rw [wire_cons, List.length_cons, List.length_cons, List.length_append]
      omega

theorem toNat_code {g : Bytes} (h : g.length ≤ 254) : (UInt8.ofNat (g.length + 1)).toNat = g.length + 1 := by
  rw [UInt8.toNat_ofNat', Nat.mod_eq_of_lt (by omega)]

theorem Proper.length_le {g : Bytes} {gs : List Bytes} (h : Proper (g :: gs)) : g.length ≤ 254 := by
  cases gs with
  | nil => exact Nat.le_of_lt h
  | cons => exact h.1

theorem code_eq_full {g : Bytes} (h : g.length ≤ 254) :
    UInt8.ofNat (g.length + 1) = 255 ↔ g.length = 254 := by
  rw [← UInt8.toNat_inj, toNat_code h]
  simp

theorem code_lt_full {g : Bytes} (h : g.length ≤ 254) :
    UInt8.ofNat (g.length + 1) < 255 ↔ g.length < 254 := by
  rw [UInt8.lt_iff_toNat_lt, toNat_code h]
  show g.length + 1 < 255 ↔ g.length < 254
  omega

open Donkey.LittleEndian (getElem?_of_drop drop_next)

section Decoding

variable {psrc : Bytes} {gs : List Bytes} {fuel : Nat}

theorem decodedLength_end {codepos : Nat} {len : Int} (h : psrc.drop codepos = []) (hfuel : 0 < fuel) :
    decodedLength psrc fuel codepos len = some (len - 1) := by
  obtain ⟨fuel, rfl⟩ := Nat.exists_eq_add_one_of_ne_zero (show fuel ≠ 0 by omega)
  rw [decodedLength, ← List.head?_drop, h]
  rfl

theorem decodedLength_eq {codepos : Nat} {len : Int} (hp : Proper gs)
    (hsrc : psrc.drop codepos = wire gs) (hfuel : gs.length < fuel) :
    decodedLength psrc fuel codepos len = some (len + (plain gs).length) := by
  induction gs generalizing codepos fuel len with
  | nil => exact absurd hp id
  | cons g gs ih =>
      obtain ⟨fuel, rfl⟩ := Nat.exists_eq_add_one_of_ne_zero (show fuel ≠ 0 by omega)
      rw [List.length_cons] at hfuel
      rw [wire_cons] at hsrc
      have hle := hp.length_le
      have hnext : psrc.drop (codepos + (g.length + 1)) = wire gs :=
        drop_next (a := .ofNat (g.length + 1) :: g) hsrc _ (by simp)
      rw [decodedLength, getElem?_of_drop hsrc]
      simp only [toNat_code hle, code_eq_full hle]
      cases gs with
      | nil =>
          have hlt : g.length < 254 := hp
          rw [decodedLength_end hnext (by omega), if_neg (by omega), plain]
          congr 1
          omega
      | cons h gs =>
          rw [ih hp.2 hnext (by omega), plain, gap, List.length_append, List.length_append]
          congr 1
          by_cases hfull : g.length = 254
          · rw [if_pos hfull, if_neg (by omega), List.length_nil]
            omega
          · rw [if_neg hfull, if_pos (by omega), List.length_singleton]
            omega

theorem copy_eq {g rest pre junk post : Bytes} {srcpos dstpos : Nat}
    (hsrc : psrc.drop srcpos = g ++ rest) (hdst : pre.length = dstpos) (hlen : junk.length = g.length) :
    copy psrc g.length srcpos dstpos (pre ++ (junk ++ post)) = some (pre ++ (g ++ post)) := by
  induction g generalizing srcpos dstpos pre junk with
  | nil =>
      obtain rfl := List.length_eq_zero_iff.mp hlen
      rfl
  | cons c g ih =>
      obtain ⟨x, junk, rfl⟩ := List.exists_cons_of_ne_nil
        (show junk ≠ [] by rintro rfl; simp at hlen)
      rw [List.length_cons, List.length_cons, Nat.add_right_cancel_iff] at hlen
      have hnext : psrc.drop (srcpos + 1) = g ++ rest := drop_next (a := [c]) hsrc 1 rfl
      have h := @ih (pre ++ [c]) junk (srcpos + 1) (dstpos + 1) hnext (by simp [hdst]) hlen
      rw [List.length_cons, copy, getElem?_of_drop hsrc]
      simp only [Option.bind_eq_bind, Option.bind_some, List.cons_append, setChar_append hdst]
      simpa using h

theorem decodeLoop_end {srcpos dstpos : Nat} {pdest : Bytes} (h : psrc.drop srcpos = [])
    (hfuel : 0 < fuel) : decodeLoop psrc fuel srcpos dstpos pdest = .ok pdest := by
  obtain ⟨fuel, rfl⟩ := Nat.exists_eq_add_one_of_ne_zero (show fuel ≠ 0 by omega)
  rw [decodeLoop, ← List.head?_drop, h]
  rfl

theorem decodeLoop_eq {pre junk : Bytes} {srcpos dstpos : Nat} (hp : Proper gs)
    (hsrc : psrc.drop srcpos = wire gs) (hdst : pre.length = dstpos)
    (hlen : junk.length = (plain gs).length) (hfuel : gs.length < fuel) :
    decodeLoop psrc fuel srcpos dstpos (pre ++ junk) = .ok (pre ++ plain gs) := by
  induction gs generalizing srcpos dstpos fuel pre junk with
  | nil => exact absurd hp id
  | cons g gs ih =>
      obtain ⟨fuel, rfl⟩ := Nat.exists_eq_add_one_of_ne_zero (show fuel ≠ 0 by omega)
      rw [List.length_cons] at hfuel
      rw [wire_cons] at hsrc
      have hle := hp.length_le
      have hbody : psrc.drop (srcpos + 1) = g ++ wire gs :=
        drop_next (a := [UInt8.ofNat (g.length + 1)]) hsrc 1 rfl
      have hnext : psrc.drop (srcpos + (g.length + 1)) = wire gs :=
        drop_next (a := .ofNat (g.length + 1) :: g) hsrc _ (by simp)
      rw [decodeLoop, getElem?_of_drop hsrc]
      simp only [toNat_code hle, code_lt_full hle, Nat.add_sub_cancel]
      cases gs with
      | nil =>
          have hcopy := @copy_eq psrc g [] pre junk [] _ _ hbody hdst hlen
          rw [List.append_nil, List.append_nil] at hcopy
          have hend : ¬ srcpos + (g.length + 1) < psrc.length := by
            have := List.drop_eq_nil_iff.mp hnext
            omega
          rw [hcopy, orRaise_some]
          simp only [bind, Except.bind, if_neg (fun h : _ ∧ _ => hend h.2)]
          exact decodeLoop_end hnext (by omega)
      | cons h gs =>
          have hmore : srcpos + (g.length + 1) < psrc.length := by
            by_contra hend
            rw [List.drop_eq_nil_of_le (by omega)] at hnext
            exact absurd hnext.symm (by simp [wire])
          rw [plain] at hlen ⊢
          obtain ⟨j, k, rfl, hj⟩ : ∃ j k, junk = j ++ k ∧ j.length = g.length :=
            ⟨junk.take g.length, junk.drop g.length, (List.take_append_drop _ _).symm, by
              rw [List.length_append] at hlen
              rw [List.length_take]
              omega⟩
          have hcopy := @copy_eq psrc g _ pre j k _ _ hbody hdst hj
          rw [hcopy, orRaise_some]
          simp only [bind, Except.bind]
          rw [List.length_append, List.length_append, List.length_append, hj] at hlen
          by_cases hfull : g.length < 254
          · rw [gap, if_pos hfull, List.length_singleton] at hlen
            obtain ⟨x, k, rfl⟩ := List.exists_cons_of_ne_nil
              (show k ≠ [] by rintro rfl; rw [List.length_nil] at hlen; omega)
            have hput := @setChar_append (pre ++ g) k x 0 (dstpos + (g.length + 1) - 1)
              (by rw [List.length_append]; omega)
            rw [List.append_assoc] at hput
            rw [if_pos ⟨hfull, hmore⟩, hput, orRaise_some]
            have hrest := @ih fuel (pre ++ (g ++ [0])) k _ (dstpos + (g.length + 1) - 1 + 1) hp.2 hnext
              (by simp; omega) (by rw [List.length_cons] at hlen; omega) (by omega)
            rw [gap, if_pos hfull]
            simpa using hrest
          · rw [gap, if_neg hfull, List.length_nil] at hlen
            have hrest := @ih fuel (pre ++ g) k _ (dstpos + (g.length + 1) - 1) hp.2 hnext
              (by simp; omega) (by omega) (by omega)
            rw [if_neg (fun h => hfull h.1), gap, if_neg hfull]
            simpa using hrest

theorem decode_wire (hp : Proper gs) : decode (wire gs) = .ok (plain gs) := by
  have hle := length_le_wire gs
  have hlen : calcDecodedLength (wire gs) = some ((plain gs).length : Int) := by
    rw [calcDecodedLength, decodedLength_eq hp (List.drop_zero) (by omega), Int.zero_add]
  rw [decode, hlen]
  simp only [create, if_pos (Int.natCast_nonneg _), orRaise_some]
  exact @decodeLoop_eq _ gs _ [] _ 0 0 hp List.drop_zero rfl (by simp) (by omega)

end Decoding

theorem decode_encode (s : Bytes) : ∃ e, encode s = some e ∧ decode e = .ok s := by
  have hplain : plain (groups [] s) = s := plain_groups (by simp)
  refine ⟨_, encode_eq s, ?_⟩
  rw [decode_wire (proper_groups (by simp)), hplain]

end Cobs

end Mldonkey.Ggep

-- Which strings the decoder comes to an end on.
namespace Mldonkey.Ggep.Cobs

variable {psrc : Bytes} {pos p fuel : Nat}

-- The places where the loops look for a code, from `pos` on.
inductive Looks (psrc : Bytes) : Nat → Nat → Prop
  | here (pos : Nat) : Looks psrc pos pos
  | next {pos p : Nat} {code : UInt8} (hcode : psrc[pos]? = some code)
      (h : Looks psrc (pos + code.toNat) p) : Looks psrc pos p

-- A zero byte stands where a code is looked for.
def ZeroCode (psrc : Bytes) (pos : Nat) : Prop := ∃ p, Looks psrc pos p ∧ psrc[p]? = some 0

theorem ZeroCode.next {code : UInt8} (hcode : psrc[pos]? = some code)
    (h : ZeroCode psrc (pos + code.toNat)) : ZeroCode psrc pos := by
  obtain ⟨p, hp, hzero⟩ := h
  exact ⟨p, .next hcode hp, hzero⟩

-- At a zero code no round goes forward
theorem decodedLength_zero (h : psrc[pos]? = some 0) (len : Int) :
    decodedLength psrc fuel pos len = none := by
  induction fuel generalizing len with
  | zero => rfl
  | succ fuel ih =>
      rw [decodedLength, h]
      exact ih _

theorem decodedLength_of_zeroCode (h : ZeroCode psrc pos) (len : Int) :
    decodedLength psrc fuel pos len = none := by
  obtain ⟨p, hp, hzero⟩ := h
  induction hp generalizing fuel len with
  | here pos => exact decodedLength_zero hzero len
  | next hcode _ ih =>
      cases fuel with
      | zero => rfl
      | succ fuel =>
          rw [decodedLength, hcode]
          exact ih _ hzero

-- A code that is not zero brings the loop nearer to the end of the string
theorem fuel_after {code : UInt8} (hcode : psrc[pos]? = some code) (hne : code ≠ 0)
    (hfuel : psrc.length - pos < fuel + 1) : psrc.length - (pos + code.toNat) < fuel := by
  have hlt := (List.getElem?_eq_some_iff.mp hcode).1
  have hpos : code.toNat ≠ 0 := fun h => hne (UInt8.toNat_inj.mp h)
  omega

theorem exists_decodedLength (h : ¬ ZeroCode psrc pos) (hfuel : psrc.length - pos < fuel)
    (len : Int) : ∃ n, decodedLength psrc fuel pos len = some n := by
  induction fuel generalizing pos len with
  | zero => omega
  | succ fuel ih =>
      rw [decodedLength]
      cases hcode : psrc[pos]? with
      | none => exact ⟨_, rfl⟩
      | some code =>
          have hne : code ≠ 0 := by
            rintro rfl
            exact h ⟨pos, .here pos, hcode⟩
          exact ih (fun hz => h (hz.next hcode)) (fuel_after hcode hne hfuel) _

theorem calcDecodedLength_ne_none_iff (psrc : Bytes) :
    calcDecodedLength psrc ≠ none ↔ ¬ ZeroCode psrc 0 := by
  constructor
  · exact fun h hz => h (decodedLength_of_zeroCode hz 0)
  · intro h
    obtain ⟨n, hn⟩ := exists_decodedLength h (Nat.lt_succ_self _) 0
    rw [calcDecodedLength, Nat.sub_zero] at *
    simp [hn]

theorem bind_ne_loops {α β : Type} {a : Option α} {f : α → Except Stop β}
    (h : ∀ x, f x ≠ .error .loops) : orRaise a >>= f ≠ .error .loops := by
  cases a with
  | none => exact fun h => nomatch h
  | some x => exact h x

theorem decodeLoop_ne_loops (h : ¬ ZeroCode psrc pos) (hfuel : psrc.length - pos < fuel)
    (dstpos : Nat) (pdest : Bytes) : decodeLoop psrc fuel pos dstpos pdest ≠ .error .loops := by
  induction fuel generalizing pos dstpos pdest with
  | zero => omega
  | succ fuel ih =>
      rw [decodeLoop]
      cases hcode : psrc[pos]? with
      | none => simp
      | some code =>
          have hne : code ≠ 0 := by
            rintro rfl
            exact h ⟨pos, .here pos, hcode⟩
          have hnext := ih (fun hz => h (hz.next hcode)) (fuel_after hcode hne hfuel)
          refine bind_ne_loops fun pdest => ?_
          dsimp only
          split
          · exact bind_ne_loops fun pdest => hnext _ _
          · exact hnext _ _

theorem decode_ne_loops_iff (psrc : Bytes) : decode psrc ≠ .error .loops ↔ ¬ ZeroCode psrc 0 := by
  rw [← calcDecodedLength_ne_none_iff, decode]
  cases hlen : calcDecodedLength psrc with
  | none => simp
  | some dstlen =>
      have hz := (calcDecodedLength_ne_none_iff psrc).mp (by simp [hlen])
      simp only [ne_eq, reduceCtorEq, not_false_eq_true, iff_true]
      exact bind_ne_loops fun pdest => decodeLoop_ne_loops hz (Nat.lt_succ_self _) 0 pdest

theorem zero_notMem_groups {run s : Bytes} (hrun : 0 ∉ run) : ∀ g ∈ groups run s, 0 ∉ g := by
  induction s generalizing run with
  | nil => simpa [groups] using hrun
  | cons c s ih =>
      rw [groups]
      split
      · simpa using ⟨hrun, @ih [] (by simp)⟩
      · next hc =>
          have hsnoc : 0 ∉ run ++ [c] := by
            rw [List.mem_append, List.mem_singleton]
            rintro (h | h)
            · exact hrun h
            · exact hc h.symm
          split
          · rw [List.forall_mem_cons]
            exact ⟨hsnoc, ih (by simp)⟩
          · exact ih hsnoc

theorem zero_notMem_wire {gs : List Bytes} (hle : ∀ g ∈ gs, g.length ≤ 254)
    (hgs : ∀ g ∈ gs, 0 ∉ g) : 0 ∉ wire gs := by
  induction gs with
  | nil => simp [wire]
  | cons g gs ih =>
      rw [List.forall_mem_cons] at hle hgs
      have hcode : 0 ≠ UInt8.ofNat (g.length + 1) := by
        rw [ne_eq, ← UInt8.toNat_inj, toNat_code hle.1]
        simp
      rw [wire_cons, List.mem_cons, List.mem_append, not_or, not_or]
      exact ⟨hcode, hgs.1, ih hle.2 hgs.2⟩

theorem Proper.length_le_all {gs : List Bytes} (h : Proper gs) : ∀ g ∈ gs, g.length ≤ 254 := by
  induction gs with
  | nil => simp
  | cons g gs ih =>
      rw [List.forall_mem_cons]
      refine ⟨h.length_le, ?_⟩
      cases gs with
      | nil => simp
      | cons => exact ih h.2

theorem encode_spec (s : Bytes) :
    ∃ e, encode s = some e ∧ decode e = .ok s ∧ 0 ∉ e ∧ e.length = calcEncodedLength s := by
  have hproper : Proper (groups [] s) := proper_groups (by simp)
  have hplain : plain (groups [] s) = s := plain_groups (by simp)
  have hlength := @encodedLength_eq [] s 0
  refine ⟨_, encode_eq s, ?_, ?_, ?_⟩
  · rw [decode_wire hproper, hplain]
  · exact zero_notMem_wire hproper.length_le_all (zero_notMem_groups (by simp))
  · rw [Nat.zero_add] at hlength
    exact hlength.symm

-- The decoder comes to an end on all strings but those in which it meets a zero code, and every
-- string comes back from its encoding, which has no zero byte.
theorem decoding_terminates_iff (s : Bytes) :
    (calcDecodedLength s ≠ none ↔ ¬ ZeroCode s 0) ∧ (decode s ≠ .error .loops ↔ ¬ ZeroCode s 0) ∧
      ∃ e, encode s = some e ∧ decode e = .ok s ∧ 0 ∉ e ∧ e.length = calcEncodedLength s :=
  ⟨calcDecodedLength_ne_none_iff s, decode_ne_loops_iff s, encode_spec s⟩

theorem decoding_loops : decode [2, 65, 0] = .error .loops ∧ calcDecodedLength [2, 65, 0] = none := by
  decide

end Mldonkey.Ggep.Cobs
