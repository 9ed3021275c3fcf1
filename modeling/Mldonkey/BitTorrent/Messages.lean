import Mldonkey.BitTorrent.BigEndian

-- TcpMessages: the messages of peers.
namespace Mldonkey.BitTorrent

open BigEndian

inductive Msg
  | choke
  | unchoke
  | interested
  | notInterested
  | have (n : Int)
  | bitField (s : Bytes)
  | request (index offset len : Int)
  | piece (index offset : Int) (s : Bytes) (pos len : Nat)
  | cancel (index offset len : Int)
  | ping
  | peerID (s : Bytes)
  | dhtPort (n : Int)
  | extended (n : Int) (s : Bytes)
  deriving DecidableEq, Repr

-- None stands for an exception: Not_found for an unknown opcode, or an access
-- past the end of the payload.
def parsing (opcode : Int) (m : Bytes) : Option Msg :=
  if opcode = 0 then some .choke
  else if opcode = 1 then some .unchoke
  else if opcode = 2 then some .interested
  else if opcode = 3 then some .notInterested
  else if opcode = 4 then do return .have (← getInt m 0)
  else if opcode = 5 then some (.bitField m)
  else if opcode = 6 then do return .request (← getInt m 0) (← getInt m 4) (← getInt m 8)
  else if opcode = 7 then do return .piece (← getInt m 0) (← getInt m 4) m 8 (m.length - 8)
  else if opcode = 8 then do return .cancel (← getInt m 0) (← getInt m 4) (← getInt m 8)
  else if opcode = 9 then do return .dhtPort (← getInt16 m 0)
  else if opcode = 20 then do return .extended (← getInt8 m 0) (m.drop 1)
  else if opcode = -1 then some (.peerID m)
  else none

-- What write adds to its buffer behind the place of the length. The substring
-- of a piece may be out of bounds.
def writeBody : Msg → Option Bytes
  | .choke => some (bufInt8 0)
  | .unchoke => some (bufInt8 1)
  | .interested => some (bufInt8 2)
  | .notInterested => some (bufInt8 3)
  | .have i => some (bufInt8 4 ++ bufInt i)
  | .bitField string => some (bufInt8 5 ++ string)
  | .request index pos len => some (bufInt8 6 ++ (bufInt index ++ (bufInt pos ++ bufInt len)))
  | .piece num index s pos len =>
      if pos + len ≤ s.length then
        some (bufInt8 7 ++ (bufInt num ++ (bufInt index ++ (s.drop pos).take len)))
      else none
  | .cancel _ _ _ => some []
  | .peerID _ => some []
  | .ping => some []
  | .dhtPort n => some (bufInt8 9 ++ bufInt16 n)
  | .extended n msg => some (bufInt8 20 ++ (bufInt8 n ++ msg))

def write (msg : Msg) : Option Bytes := do
  let body ← writeBody msg
  return bufInt body.length ++ body

namespace Msg

-- The messages the client sends: no ping, and no peer id, which has no message
-- of its own.
def Sent : Msg → Bool
  | ping | peerID _ => false
  | _ => true

-- The fields are in the ranges of their widths, and the length is one of 32 bits.
def InRange : Msg → Prop
  | .have n => 0 ≤ n ∧ n < 2 ^ 32
  | bitField s => s.length + 1 < 2 ^ 32
  | request index offset len | cancel index offset len =>
      (0 ≤ index ∧ index < 2 ^ 32) ∧ (0 ≤ offset ∧ offset < 2 ^ 32) ∧ 0 ≤ len ∧ len < 2 ^ 32
  | piece index offset s pos len =>
      (0 ≤ index ∧ index < 2 ^ 32) ∧ (0 ≤ offset ∧ offset < 2 ^ 32) ∧ pos + len ≤ s.length ∧
        len + 9 < 2 ^ 32
  | dhtPort n => 0 ≤ n ∧ n < 2 ^ 16
  | extended n s => (0 ≤ n ∧ n < 2 ^ 8) ∧ s.length + 2 < 2 ^ 32
  | _ => True

instance (m : Msg) : Decidable m.InRange := by
  cases m <;> unfold InRange <;> infer_instance

-- A piece stands for its block, wherever that lies in a string.
def content : Msg → Msg
  | piece index offset s pos len => piece index offset ((s.drop pos).take len) 0 len
  | m => m

-- On the wire the message is a length and as many bytes, which parse to it.
def Survives (m : Msg) : Prop :=
  ∃ (opcode : UInt8) (payload : Bytes), write m = some (bufInt (payload.length + 1) ++ opcode :: payload) ∧
    (payload.length + 1 : Int) < 2 ^ 32 ∧
    (parsing opcode.toNat payload).map content = some m.content

def isCancel : Msg → Bool
  | cancel _ _ _ => true
  | _ => false

end Msg

theorem getInt_pair {i j : Int} (hj : 0 ≤ j ∧ j < 2 ^ 32) (t : Bytes) :
    getInt (bufInt i ++ (bufInt j ++ t)) 4 = some j := by
  have h := getInt_append (bufInt i) (bufInt j ++ t) 0
  rw [length_bufInt] at h
  rw [h, getInt_bufInt hj]

theorem getInt_triple {i j k : Int} (hk : 0 ≤ k ∧ k < 2 ^ 32) (t : Bytes) :
    getInt (bufInt i ++ (bufInt j ++ (bufInt k ++ t))) 8 = some k := by
  have h := getInt_append (bufInt i) (bufInt j ++ (bufInt k ++ t)) 4
  rw [length_bufInt] at h
  rw [h, getInt_pair hk]

theorem write_of_body {m : Msg} {c : UInt8} {payload : Bytes} (h : writeBody m = some (c :: payload)) :
    write m = some (bufInt (payload.length + 1) ++ c :: payload) := by
  rw [write, h]
  show some (bufInt ((c :: payload).length : Int) ++ c :: payload) = _
  rw [List.length_cons, Nat.cast_succ]

theorem Msg.survives_of_body {m : Msg} {c : UInt8} {payload : Bytes}
    (hbody : writeBody m = some (c :: payload)) (hlen : payload.length + 1 < 2 ^ 32)
    (hparse : (parsing c.toNat payload).map content = some m.content) : m.Survives :=
  ⟨c, payload, write_of_body hbody, by exact_mod_cast hlen, hparse⟩

-- Nothing is written behind the length of a Cancel.
theorem Msg.not_survives_cancel (index offset len : Int) : ¬ (Msg.cancel index offset len).Survives := by
  rintro ⟨c, payload, hw, -, -⟩
  have hw := Option.some.inj hw
  exact absurd (congrArg List.length hw) (by simp)

-- A message in range that the client sends arrives, unless it is a Cancel.
theorem write_parsing (m : Msg) (hsent : m.Sent = true) (hr : m.InRange) :
    m.Survives ↔ m.isCancel = false := by
  cases m with
  | choke | unchoke | interested | notInterested =>
      exact iff_of_true (Msg.survives_of_body rfl (by decide) (by decide)) rfl
  | «have» n =>
      refine iff_of_true (Msg.survives_of_body rfl (by simp) ?_) rfl
      have h := getInt_bufInt hr []
      rw [List.append_nil] at h
      simp [parsing, h]
  | bitField s => exact iff_of_true (Msg.survives_of_body rfl hr rfl) rfl
  | request index offset len =>
      obtain ⟨hi, ho, hl⟩ := hr
      refine iff_of_true (Msg.survives_of_body rfl (by simp) ?_) rfl
      have h := @getInt_triple index offset len hl []
      rw [List.append_nil] at h
      simp [parsing, getInt_bufInt hi, getInt_pair ho, h]
  | piece index offset s pos len =>
      obtain ⟨hi, ho, hs, hl⟩ := hr
      have hblock : ((s.drop pos).take len).length = len := by
        rw [List.length_take, List.length_drop]
        omega
      generalize hx : (s.drop pos).take len = block at hblock
      have hbody : writeBody (.piece index offset s pos len) =
          some (7 :: (bufInt index ++ (bufInt offset ++ block))) := by
        rw [writeBody, if_pos hs, hx]
        rfl
      have hdrop : (bufInt index ++ (bufInt offset ++ block)).drop 8 = block := by
        rw [← List.append_assoc]
        exact List.drop_left' rfl
      have hsub : (bufInt index ++ (bufInt offset ++ block)).length - 8 = len := by
        simp only [List.length_append, length_bufInt]
        omega
      refine iff_of_true (Msg.survives_of_body hbody ?_ ?_) rfl
      · simp only [List.length_append, length_bufInt]
        omega
      · have hparse : parsing 7 (bufInt index ++ (bufInt offset ++ block)) = some
            (.piece index offset (bufInt index ++ (bufInt offset ++ block)) 8 len) := by
          rw [← hsub]
          simp [parsing, getInt_bufInt hi, getInt_pair ho]
        show (parsing 7 _).map Msg.content = _
        rw [hparse, Option.map_some, Msg.content, Msg.content, hdrop, hx, ← hblock, List.take_length]
  | cancel index offset len =>
      exact iff_of_false (Msg.not_survives_cancel index offset len) (by simp [Msg.isCancel])
  | ping => exact absurd hsent (by decide)
  | peerID s => exact absurd hsent (by simp [Msg.Sent])
  | dhtPort n =>
      refine iff_of_true (Msg.survives_of_body rfl (show (2 : Nat) + 1 < 2 ^ 32 by decide) ?_) rfl
      have h := getInt16_bufInt16 hr []
      rw [List.append_nil] at h
      simp [parsing, h]
  | extended n s =>
      obtain ⟨hn, hl⟩ := hr
      have hlen : (bufInt8 n ++ s).length + 1 < 2 ^ 32 := by
        rw [List.length_append, length_bufInt8]
        omega
      refine iff_of_true (Msg.survives_of_body rfl hlen ?_) rfl
      have hparse : parsing 20 (bufInt8 n ++ s) = some (.extended n s) := by
        have hdrop : (bufInt8 n ++ s).drop 1 = s := rfl
        simp only [parsing, getInt8_bufInt8 hn, hdrop]
        rfl
      show (parsing 20 (bufInt8 n ++ s)).map Msg.content = _
      rw [hparse]
      rfl

theorem write_parsing_piece : (Msg.piece 1 2 [9, 8, 7] 1 2).Survives :=
  (write_parsing (.piece 1 2 [9, 8, 7] 1 2) (by decide) (by decide)).mpr (by decide)

-- A Cancel is written as a keep-alive.
theorem write_parsing_false : ¬ ∀ m : Msg, m.Sent = true → m.InRange → m.Survives := by
  intro h
  exact Msg.not_survives_cancel 0 0 16384 (h _ (by decide) (by decide))

end Mldonkey.BitTorrent
