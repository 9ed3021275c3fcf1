import Mldonkey.Gnutella2.RoundTrip
import Mldonkey.Lib.Reading

-- g2_handler, which takes Gnutella2 packets off what has arrived at a socket.
namespace Mldonkey.Gnutella2

open BigEndian (bufInt8 getInt8)
open Bencode (Bytes)
open Donkey.LittleEndian
open Lib.Reading (Step Reader)

-- A round of the while loop. Not_found, which ends it, is caught around it; when a packet
-- cannot be parsed its bytes have been used up.
def handlerStep (s : Bytes) : Step Packet UInt8 :=
  if 2 ≤ s.length then
    match controlAt s 0 with
    | none => .fails s
    | some cb =>
      if s.length < 1 + lenLenIn cb then .incomplete
      else
        match lengthAt s 0 (lenLenIn cb) (bigEndianIn cb) with
        | none => .fails s
        | some (len, pos) =>
          let msgLen := 1 + lenLenIn cb + nameLenIn cb + len
          if s.length < msgLen then .incomplete
          else
            match sub s pos (nameLenIn cb), sub s (pos + nameLenIn cb) len with
            | some name, some packet =>
              match g2Parse [name] (hasChildrenIn cb) (bigEndianIn cb) packet with
              | some p => .message p (s.drop msgLen)
              | none => .fails (s.drop msgLen)
            | _, _ => .fails s
  else .incomplete

-- The handler gets one packet after the other; `f` says of the packets so far whether it
-- returns from the last one, or raises an exception.
def g2Handler (f : List Packet → Bool) (r : Reader Packet UInt8) (data : Bytes) :
    Reader Packet UInt8 :=
  Lib.Reading.read handlerStep f r data

-- Bytes that no whole packet begins with
def Incomplete (s : Bytes) : Prop :=
  s.length < 2 ∨ ∃ cb, controlAt s 0 = some cb ∧
    (s.length < 1 + lenLenIn cb ∨
      ∃ len pos, lengthAt s 0 (lenLenIn cb) (bigEndianIn cb) = some (len, pos) ∧
        s.length < 1 + lenLenIn cb + nameLenIn cb + len)

-- The bytes of a packet that can be written
def Packet.bytes (p : Packet) : Bytes := (g2Encode p).getD []

theorem handlerStep_incomplete {s : Bytes} (h : Incomplete s) : handlerStep s = .incomplete := by
  rw [handlerStep]
  rcases h with h | ⟨cb, hcb, h⟩
  · rw [if_neg (by omega)]
  · split
    · simp only [hcb]
      rcases h with h | ⟨len, pos, hlen, h⟩
      · rw [if_pos h]
      · split
        · rfl
        · simp only [hlen]
          rw [if_pos h]
    · rfl

theorem handlerStep_packet {p : Packet} {b rest : Bytes} (h : ReadAs g2Parse [] p b) :
    handlerStep (b ++ rest) = .message p rest ∧ ¬ Incomplete (b ++ rest) := by
  have h2 := h.1
  obtain ⟨cb, name, packet, hasChildren, hhead, hb, hp⟩ :=
    h.2 (show (b ++ rest).drop 0 = b ++ rest from List.drop_zero) (Nat.zero_le _)
  have hfits := hhead.fits
  have hname := hhead.name
  have hpacket := hhead.packet
  rw [Nat.zero_add] at hname hpacket hfits
  have hall : b.length ≤ (b ++ rest).length := by
    rw [List.length_append]
    omega
  refine ⟨?_, ?_⟩
  · rw [handlerStep, if_pos (by omega)]
    simp only [hhead.control]
    rw [if_neg (by omega), hhead.little]
    simp only [hhead.length]
    rw [if_neg (by omega)]
    simp only [hname, hpacket, hhead.flag, hp]
    rw [← hb, List.drop_left]
  · rintro (hlt | ⟨cb', hcb', hlt⟩)
    · omega
    · obtain rfl := Option.some.inj (hhead.control.symm.trans hcb')
      rw [hhead.little] at hlt
      rcases hlt with hlt | ⟨len, pos, hlen, hlt⟩
      · omega
      · have hsame := Option.some.inj (hhead.length.symm.trans hlen)
        obtain rfl : packet.length = len := congrArg Prod.fst hsame
        omega

-- The first bytes of a packet say how many are missing.
theorem incomplete_framed {name payload B : Bytes} {children : List Bytes}
    (hname : 1 ≤ name.length ∧ name.length ≤ 8) (hsize : bodySize children payload < 2 ^ 24)
    (h : B <+: framed name children payload)
    (hlt : B.length < (framed name children payload).length) : Incomplete B := by
  by_cases h2 : B.length < 2
  · exact .inl h2
  have hall : (framed name children payload).drop 0 = framed name children payload ++ [] := by
    rw [List.drop_zero, List.append_nil]
  obtain ⟨cb, hhead, hll, hnl⟩ := headerAt_framed hall (Nat.zero_le _) hname hsize
  rw [length_framed] at hlt
  obtain ⟨rest, hrest⟩ := h
  have hfirst : controlAt B 0 = some cb := by
    have hcontrol := hhead.control
    rw [← hrest, controlAt, getInt8, List.getElem?_append_left (by omega)] at hcontrol
    exact hcontrol
  refine .inr ⟨cb, hfirst, ?_⟩
  by_cases hshort : B.length < 1 + lenLenIn cb
  · exact .inl hshort
  -- the length has arrived
  have hdrop : B.drop (0 + 1) <+:
      bufLength (bodySize children payload) ++ (name ++ body children payload) := by
    have hframe : (framed name children payload).drop 1 =
      bufLength (bodySize children payload) ++ (name ++ body children payload) := rfl
    rw [← hframe, ← hrest, List.drop_append_of_le_length (by omega)]
    exact List.prefix_append _ _
  obtain ⟨r, hr⟩ : bufLength (bodySize children payload) <+: B.drop (0 + 1) :=
    List.prefix_of_prefix_length_le (List.prefix_append _ _) hdrop (by
      rw [length_bufLength, List.length_drop]
      omega)
  have hlen := lengthAt_bufLength hr.symm hsize
  rw [← hll] at hlen
  exact .inr ⟨_, _, hhead.little ▸ hlen, by omega⟩

theorem Survives.handlerStep {p : Packet} (h : Survives [] p) (hlen : p.bytes.length < 2 ^ 24) :
    ReadAs g2Parse [] p p.bytes ∧
      ∀ B, B <+: p.bytes → B.length < p.bytes.length → Incomplete B := by
  obtain ⟨b, hb⟩ := h.exists_encode
  have hbytes : p.bytes = b := by rw [Packet.bytes, hb]; rfl
  rw [hbytes] at hlen ⊢
  have hp := read_received [] p hb hlen
  rw [show received [] p = p from h.received_eq.trans h.plain_eq] at hp
  refine ⟨hp, fun B hB hlt => ?_⟩
  obtain ⟨name, bs, s, he, -, rfl⟩ := exists_framed hb
  rw [length_framed] at hlen
  exact incomplete_framed (length_text (name_ne_other he)) (by omega) hB hlt

theorem frames_bytes {msgs : List Packet}
    (h : ∀ p ∈ msgs, Survives [] p ∧ p.bytes.length < 2 ^ 24) :
    Lib.Reading.Frames handlerStep Packet.bytes Incomplete msgs where
  message p hp rest := (handlerStep_packet ((h p hp).1.handlerStep (h p hp).2).1).1
  ne_nil p hp := by
    have := ((h p hp).1.handlerStep (h p hp).2).1.1
    omega
  stops _ := handlerStep_incomplete
  nil := .inl (Nat.zero_lt_two)
  cut p hp := ((h p hp).1.handlerStep (h p hp).2).2

-- However a stream of packets is cut, the handler gets the packets in their order and as
-- they were. The bytes of the others are in the buffer, and these are only packets that
-- are not whole, unless an exception has ended the last loop.
theorem g2_handler_packets (f : List Packet → Bool) {msgs : List Packet} {reads : List Bytes}
    (h : ∀ p ∈ msgs, Survives [] p ∧ p.bytes.length < 2 ^ 24)
    (hpre : reads.flatten <+: Lib.Framing.stream Packet.bytes msgs) :
    let r := reads.foldl (g2Handler f) Lib.Reading.fresh
    (∃ rest, msgs = r.handled ++ rest) ∧
      reads.flatten = Lib.Framing.stream Packet.bytes r.handled ++ r.buf ∧
        (Incomplete r.buf ∨ r.handled ≠ [] ∧ f r.handled = false) ∧
          (Incomplete r.buf → ∀ arrived, arrived <+: msgs →
            Lib.Framing.stream Packet.bytes arrived <+: reads.flatten → arrived <+: r.handled) := by
  refine Lib.Reading.reads_handled (frames_bytes h) (fun p hp tail htail => ?_) hpre
  obtain ⟨rest, rfl⟩ := htail
  exact (handlerStep_packet ((h p hp).1.handlerStep (h p hp).2).1).2

-- The second packet has not arrived as a whole.
theorem g2_handler_packets_cut :
    let reads : List Bytes := [[80, 0, 81], [75, 82, 76, 7, 80]]
    let msgs := [packet .qkr [], packet .pi [packet .piRelay []]]
    let r := reads.foldl (g2Handler fun _ => true) Lib.Reading.fresh
    (∃ rest, msgs = r.handled ++ rest) ∧
      reads.flatten = Lib.Framing.stream Packet.bytes r.handled ++ r.buf ∧
        (Incomplete r.buf ∨
          r.handled ≠ [] ∧ (fun _ => true : List Packet → Bool) r.handled = false) ∧
          (Incomplete r.buf → ∀ arrived, arrived <+: msgs →
            Lib.Framing.stream Packet.bytes arrived <+: reads.flatten → arrived <+: r.handled) := by
  refine g2_handler_packets (fun _ => true) ?_ (by decide)
  have hnone : ∀ names, ∀ c ∈ ([] : List Packet), Survives names c :=
    fun _ _ hc => absurd hc List.not_mem_nil
  rw [List.forall_mem_cons, List.forall_mem_singleton]
  refine ⟨⟨.node (.inr rfl) trivial trivial (hnone _), by decide⟩,
    .node (.inr rfl) trivial trivial ?_, by decide⟩
  rw [List.forall_mem_singleton]
  exact .node (.inr rfl) trivial trivial (hnone _)

end Mldonkey.Gnutella2
