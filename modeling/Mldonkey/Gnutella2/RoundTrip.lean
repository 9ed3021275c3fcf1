import Mldonkey.Gnutella2.Codecs

-- A tree of Gnutella2 packets that is written is read again.
namespace Mldonkey.Gnutella2

open BigEndian (bufInt8 getInt8)
open Bencode (Bytes ofString)
open Donkey.LittleEndian

section Headers

variable {s r name payload : Bytes} {children : List Bytes} {pos size : ℕ}

theorem length_body (children : List Bytes) (payload : Bytes) :
    (body children payload).length = bodySize children payload := by
  rw [body, bodySize, List.length_append, List.length_append, List.length_flatten]
  by_cases hc : children = []
  · rw [if_neg (not_not_intro hc), if_neg (fun h => h.1 hc), hc]
    simp
  · rw [if_pos hc]
    by_cases hp : payload = []
    · rw [if_neg (not_not_intro hp), if_neg (fun h => h.2 hp), hp]
      simp
    · rw [if_pos hp, if_pos ⟨hc, hp⟩, List.length_singleton]
      omega

theorem lenLenOf_range (size : ℕ) : 1 ≤ lenLenOf size ∧ lenLenOf size ≤ 3 := by
  unfold lenLenOf
  split
  · decide
  · split <;> decide

theorem length_bufLength (size : ℕ) : (bufLength size).length = lenLenOf size := by
  unfold bufLength
  have := lenLenOf_range size
  split
  · next h => rw [h]; rfl
  · split
    · next h => rw [h]; rfl
    · rw [show lenLenOf size = 3 by omega]
      rfl

theorem lengthAt_bufLength (h : s.drop (pos + 1) = bufLength size ++ r) (hsize : size < 2 ^ 24) :
    lengthAt s pos (lenLenOf size) false = some (size, 1 + lenLenOf size) := by
  unfold bufLength at h
  unfold lenLenOf at h ⊢
  by_cases h1 : size < 256
  · rw [if_pos h1] at h ⊢
    rw [if_pos rfl] at h
    show (getInt8 s (pos + 1)).map (fun i => (i.toNat, 2)) = _
    rw [getInt8_drop h (by omega), Option.map_some, Int.toNat_natCast]
  · rw [if_neg h1] at h ⊢
    by_cases h2 : size < 65536
    · rw [if_pos h2] at h ⊢
      rw [if_neg (by decide), if_pos rfl] at h
      show (getInt16 s (pos + 1)).map (fun i => (i.toNat, 3)) = _
      rw [getInt16_drop h (by omega), Option.map_some, Int.toNat_natCast]
    · rw [if_neg h2] at h ⊢
      rw [if_neg (by decide), if_neg (by decide)] at h
      show (getInt24 s (pos + 1)).map (fun i => (i.toNat, 4)) = _
      rw [getInt24_drop h (by omega), Option.map_some, Int.toNat_natCast]

theorem controlByte_fields : ∀ hasChildren : Bool, ∀ lenLen < 4, 1 ≤ lenLen → ∀ n < 8,
    let cb := controlByte hasChildren lenLen (n + 1)
    cb < 256 ∧ cb ≠ 0 ∧ lenLenIn cb = lenLen ∧ nameLenIn cb = n + 1 ∧ bigEndianIn cb = false ∧
      hasChildrenIn cb = hasChildren := by
  decide

@[simp] theorem length_framed (name : Bytes) (children : List Bytes) (payload : Bytes) :
    (framed name children payload).length =
      1 + lenLenOf (bodySize children payload) + name.length + bodySize children payload := by
  rw [framed, List.length_append, List.length_append, List.length_append, length_bufInt8,
    length_bufLength, length_body]
  omega

-- What the header of a packet at a position says, for the readers of packets
structure HeaderAt (s : Bytes) (pos cb : ℕ) (name packet : Bytes) (hasChildren : Bool) : Prop where
  control : controlAt s pos = some cb
  ne_zero : cb ≠ 0
  little : bigEndianIn cb = false
  flag : hasChildrenIn cb = hasChildren
  length : lengthAt s pos (lenLenIn cb) false = some (packet.length, 1 + lenLenIn cb)
  fits : pos + (1 + lenLenIn cb + nameLenIn cb + packet.length) ≤ s.length
  name : sub s (pos + (1 + lenLenIn cb)) (nameLenIn cb) = some name
  packet : sub s (pos + (1 + lenLenIn cb) + nameLenIn cb) packet.length = some packet

theorem headerAt_framed (h : s.drop pos = framed name children payload ++ r)
    (hpos : pos ≤ s.length) (hname : 1 ≤ name.length ∧ name.length ≤ 8)
    (hsize : bodySize children payload < 2 ^ 24) :
    ∃ cb, HeaderAt s pos cb name (body children payload) (children ≠ []) ∧
      lenLenIn cb = lenLenOf (bodySize children payload) ∧ nameLenIn cb = name.length := by
  have hlen := congrArg List.length h
  rw [List.length_drop, List.length_append, length_framed] at hlen
  obtain ⟨n, hn⟩ := Nat.exists_eq_add_one_of_ne_zero (show name.length ≠ 0 by omega)
  have hrange := lenLenOf_range (bodySize children payload)
  obtain ⟨hcb, hne, hll, hnl, hbe, hch⟩ := controlByte_fields (children ≠ [])
    (lenLenOf (bodySize children payload)) (by omega) hrange.1 n (by omega)
  rw [← hn] at hcb hne hll hnl hbe hch
  rw [framed, List.append_assoc, List.append_assoc, List.append_assoc] at h
  have h1 := drop_next h 1 rfl
  have h2 := drop_next h1 _ (length_bufLength _)
  have h3 := drop_next h2 _ rfl
  rw [Nat.add_assoc pos] at h2 h3
  refine ⟨_, ⟨?_, hne, hbe, hch, ?_, ?_, ?_, ?_⟩, hll, hnl⟩
  · rw [controlAt, getInt8_drop h (by omega), Option.map_some, Int.toNat_natCast]
  · rw [hll, length_body]
    exact lengthAt_bufLength h1 hsize
  · rw [hll, hnl, length_body]
    omega
  · rw [hll, hnl]
    exact sub_drop h2 rfl (by omega)
  · rw [hll, hnl]
    exact sub_drop h3 rfl (by omega)

end Headers

section Children

variable {parse : List Bytes → Bool → Bool → Bytes → Option Packet} {names : List Bytes}
  {s r b : Bytes} {pos : ℕ} {c : Packet}

def Packet.plain (c : Packet) : Packet := ⟨c.children, c.payload.plain⟩

theorem extract_header {cb : ℕ} {name packet : Bytes} {hasChildren : Bool} {p : Packet}
    (h : HeaderAt s pos cb name packet hasChildren)
    (hp : parse (name :: names) hasChildren false packet = some p) :
    g2ExtractPacket parse names cb s false pos =
      some (p, pos + (1 + lenLenIn cb + nameLenIn cb + packet.length)) := by
  have hfits := h.fits
  rw [g2ExtractPacket, h.length]
  simp only [Option.bind_eq_bind, Option.bind_some]
  rw [if_neg (by omega), h.name, h.packet]
  simp only [Option.bind_some, h.flag, hp]
  rfl

-- Wherever the bytes stand, they are a packet with its header and its name.
def ReadAs (parse : List Bytes → Bool → Bool → Bytes → Option Packet) (names : List Bytes)
    (c : Packet) (b : Bytes) : Prop :=
  2 ≤ b.length ∧ ∀ {s r : Bytes} {pos : ℕ}, s.drop pos = b ++ r → pos ≤ s.length →
    ∃ cb name packet hasChildren, HeaderAt s pos cb name packet hasChildren ∧
      b.length = 1 + lenLenIn cb + nameLenIn cb + packet.length ∧
      parse (name :: names) hasChildren false packet = some c

theorem iterChild_packet (h : ReadAs parse names c b) (hs : s.drop pos = b ++ r)
    (fuel : ℕ) (acc : List Packet) :
    iterChild parse names s (fuel + 1) pos acc =
      iterChild parse names s fuel (pos + b.length) (c :: acc) := by
  have hlen := congrArg List.length hs
  rw [List.length_drop, List.length_append] at hlen
  have h2 := h.1
  obtain ⟨cb, name, packet, hasChildren, hhead, hb, hp⟩ := h.2 hs (by omega)
  have hfits := hhead.fits
  rw [iterChild, if_neg (by omega), hhead.control]
  simp only [Option.bind_eq_bind, Option.bind_some]
  rw [if_neg hhead.ne_zero, if_neg (by omega), hhead.little, extract_header hhead hp,
    Option.bind_some, hb]

-- The packets of the children, one after the other, and what ends them
theorem iterChild_packets {cs : List Packet} {bs : List Bytes}
    (h : List.Forall₂ (ReadAs parse names) cs bs) (hs : s.drop pos = bs.flatten ++ r)
    (fuel : ℕ) (acc : List Packet) :
    iterChild parse names s (fuel + cs.length) pos acc =
      iterChild parse names s fuel (pos + bs.flatten.length) (cs.reverse ++ acc) := by
  induction h generalizing pos acc with
  | nil => rfl
  | @cons c b cs bs hc _ ih =>
    rw [List.flatten_cons, List.append_assoc] at hs
    rw [List.length_cons, ← Nat.add_assoc, iterChild_packet hc hs, ih (drop_next hs _ rfl),
      List.flatten_cons, List.length_append, Nat.add_assoc, List.reverse_cons, List.append_assoc]
    rfl

theorem iterChild_end {fuel : ℕ} (acc : List Packet) (h : s.length = pos) :
    iterChild parse names s (fuel + 1) pos acc = some (acc, s.length) := by
  rw [iterChild, if_pos (by omega)]

theorem iterChild_zero {fuel : ℕ} (acc : List Packet) (h : s.drop pos = 0 :: r) :
    iterChild parse names s (fuel + 1) pos acc = some (acc, pos + 1) := by
  have hlen := congrArg List.length h
  rw [List.length_drop, List.length_cons] at hlen
  have hzero : controlAt s pos = some 0 := by
    rw [controlAt, getInt8, getElem?_of_drop h]
    rfl
  rw [iterChild, if_neg (by omega), hzero]
  rfl

theorem length_le_flatten {cs : List Packet} {bs : List Bytes}
    (h : List.Forall₂ (ReadAs parse names) cs bs) : cs.length ≤ bs.flatten.length := by
  induction h with
  | nil => exact le_rfl
  | @cons c b cs bs hc _ ih =>
    have := hc.1
    rw [List.length_cons, List.flatten_cons, List.length_append]
    omega

-- The children and the payload of a packet are found in what stands behind its name.
theorem iterChild_body {cs : List Packet} {bs : List Bytes}
    (h : List.Forall₂ (ReadAs parse names) cs bs) (hne : bs ≠ []) (payload : Bytes) :
    ∃ pos ≤ (body bs payload).length,
      iterChild parse names (body bs payload) ((body bs payload).length + 1) 0 [] =
        some (cs.reverse, pos) ∧ (body bs payload).drop pos = payload := by
  have hle := length_le_flatten h
  obtain ⟨fuel, hfuel⟩ := Nat.exists_eq_add_of_le' (show cs.length ≤ (body bs payload).length by
    rw [body, List.length_append]
    omega)
  have hrun : iterChild parse names (body bs payload) ((body bs payload).length + 1) 0 [] =
      iterChild parse names (body bs payload) (fuel + 1) bs.flatten.length cs.reverse := by
    have hdrop : (body bs payload).drop 0 = bs.flatten ++ _ := rfl
    have hall := iterChild_packets h hdrop (fuel + 1) []
    rw [List.append_nil, Nat.zero_add] at hall
    rw [hfuel, Nat.add_right_comm, hall]
  rw [hrun]
  have hdrop : (body bs payload).drop bs.flatten.length =
      (if bs ≠ [] ∧ payload ≠ [] then [0] else []) ++ payload := by rw [body, List.drop_left]
  by_cases hp : payload = []
  · rw [if_neg fun h => h.2 hp, hp, List.nil_append] at hdrop
    have hall : (body bs []).length = bs.flatten.length := by
      have := List.drop_eq_nil_iff.mp hdrop
      rw [body, List.length_append] at this ⊢
      omega
    subst hp
    exact ⟨_, le_rfl, iterChild_end _ hall, List.drop_length⟩
  · rw [if_pos ⟨hne, hp⟩] at hdrop
    refine ⟨_, ?_, iterChild_zero _ hdrop, drop_next hdrop 1 rfl⟩
    have := congrArg List.length hdrop
    rw [List.length_drop, List.length_append, List.length_singleton] at this
    omega

end Children

section Depth

variable {parse parse' : List Bytes → Bool → Bool → Bytes → Option Packet} {names : List Bytes}
  {s : Bytes} {n m : ℕ}

theorem length_sub {a : Bytes} {pos len : ℕ} (h : sub s pos len = some a) : a.length = len := by
  unfold sub at h
  split at h
  · obtain rfl := Option.some.inj h
    rw [List.length_take, List.length_drop]
    omega
  · cases h

-- Only packets that are shorter are handed to the parser.
theorem g2ExtractPacket_congr (h : ∀ names hasChildren be (packet : Bytes),
      packet.length < s.length →
        parse names hasChildren be packet = parse' names hasChildren be packet)
    (cb : ℕ) (be : Bool) (pos : ℕ) :
    g2ExtractPacket parse names cb s be pos = g2ExtractPacket parse' names cb s be pos := by
  unfold g2ExtractPacket
  cases hlen : lengthAt s pos (lenLenIn cb) be with
  | none => rfl
  | some x =>
    simp only [Option.bind_eq_bind, Option.bind_some]
    split
    · rfl
    · next hfits =>
      cases sub s (pos + x.2) (nameLenIn cb) with
      | none => rfl
      | some name =>
        cases hp : sub s (pos + x.2 + nameLenIn cb) x.1 with
        | none => rfl
        | some packet =>
          have hpacket := length_sub hp
          simp only [Option.bind_some]
          rw [h _ _ _ packet (by omega)]

theorem iterChild_congr (h : ∀ names hasChildren be (packet : Bytes),
      packet.length < s.length →
        parse names hasChildren be packet = parse' names hasChildren be packet)
    (fuel pos : ℕ) (acc : List Packet) :
    iterChild parse names s fuel pos acc = iterChild parse' names s fuel pos acc := by
  induction fuel generalizing pos acc with
  | zero => rfl
  | succ fuel ih => simp only [iterChild, g2ExtractPacket_congr h, ih]

-- Two bytes at least are used up by a packet.
theorem extract_next {cb pos next : ℕ} {be : Bool} {c : Packet}
    (h : g2ExtractPacket parse names cb s be pos = some (c, next)) :
    pos + 2 ≤ next ∧ next ≤ s.length := by
  simp only [g2ExtractPacket, Option.bind_eq_bind, Option.bind_eq_some_iff] at h
  obtain ⟨x, -, h⟩ := h
  split at h
  · cases h
  · simp only [Option.bind_eq_some_iff] at h
    obtain ⟨_, _, _, _, _, _, h⟩ := h
    cases h
    have : 1 ≤ nameLenIn cb := Nat.le_add_left 1 _
    omega

theorem iterChild_enough (names : List Bytes) {fuel fuel' pos : ℕ} (acc : List Packet)
    (h : s.length - pos < fuel) (h' : s.length - pos < fuel') :
    iterChild parse names s fuel pos acc = iterChild parse names s fuel' pos acc := by
  induction fuel generalizing fuel' pos acc with
  | zero => omega
  | succ fuel ih =>
    obtain ⟨fuel', rfl⟩ := Nat.exists_eq_add_one_of_ne_zero (show fuel' ≠ 0 by omega)
    simp only [iterChild]
    split
    · rfl
    · next hpos =>
      cases controlAt s pos with
      | none => rfl
      | some cb =>
        simp only [Option.bind_eq_bind, Option.bind_some]
        split
        · rfl
        · split
          · rfl
          · cases hx : g2ExtractPacket parse names cb s (bigEndianIn cb) pos with
            | none => rfl
            | some x =>
              obtain ⟨c, next⟩ := x
              have hnext := extract_next hx
              exact ih _ (by omega) (by omega)

theorem g2ParseDepth_enough (names : List Bytes) (hasChildren be : Bool) (hn : s.length < n)
    (hm : s.length < m) :
    g2ParseDepth n names hasChildren be s = g2ParseDepth m names hasChildren be s := by
  induction n generalizing m s names hasChildren be with
  | zero => omega
  | succ n ih =>
    obtain ⟨m, rfl⟩ := Nat.exists_eq_add_one_of_ne_zero (show m ≠ 0 by omega)
    have hpackets : ∀ names hasChildren be (packet : Bytes), packet.length < s.length →
        g2ParseDepth n names hasChildren be packet = g2ParseDepth m names hasChildren be packet :=
      fun names hasChildren be packet hlt => ih names hasChildren be (by omega) (by omega)
    simp only [g2ParseDepth, iterChild_congr hpackets]

-- The recursion of g2_parse, which always ends
theorem g2Parse_eq (names : List Bytes) (hasChildren be : Bool) (s : Bytes) :
    g2Parse names hasChildren be s = (do
      let (children, pos) ←
        if hasChildren then iterChild g2Parse names s (s.length + 1) 0 [] else some ([], 0)
      let p := decodePayload names be (← sub s pos (s.length - pos))
      return ⟨(hitChildren be p children).reverse, p⟩) := by
  have hpackets : ∀ names hasChildren be (packet : Bytes), packet.length < s.length →
      g2ParseDepth s.length names hasChildren be packet = g2Parse names hasChildren be packet :=
    fun names hasChildren be packet hlt =>
      g2ParseDepth_enough names hasChildren be hlt (Nat.lt_succ_self _)
  rw [g2Parse, g2ParseDepth, iterChild_congr hpackets]

end Depth

section Received

-- What a packet below packets of these names is read as when it has been written
mutual

def received (names : List Bytes) : Packet → Packet
  | ⟨children, payload⟩ =>
    match encodePayload payload with
    | none => ⟨children, payload⟩
    | some (name, s) =>
      let p := decodePayload (name.text :: names) false s
      ⟨(hitChildren false p (receivedAll (name.text :: names) children).reverse).reverse, p⟩

def receivedAll (names : List Bytes) : List Packet → List Packet
  | [] => []
  | c :: l => received names c :: receivedAll names l

end

variable {p : Packet} {b : Bytes}

theorem receivedAll_eq (names : List Bytes) (l : List Packet) :
    receivedAll names l = l.map (received names) := by
  induction l with
  | nil => rfl
  | cons c l ih => rw [receivedAll, ih, List.map_cons]

theorem g2Parse_body {names : List Bytes} {cs : List Packet} {bs : List Bytes}
    (h : List.Forall₂ (ReadAs g2Parse names) cs bs) (payload : Bytes) :
    g2Parse names (bs ≠ []) false (body bs payload) =
      some ⟨(hitChildren false (decodePayload names false payload) cs.reverse).reverse,
        decodePayload names false payload⟩ := by
  rw [g2Parse_eq]
  by_cases hne : bs = []
  · subst hne
    cases h
    have hbody : body [] payload = payload := by simp [body]
    have hsub : sub payload 0 payload.length = some payload := by simp [sub]
    simp [hbody, hsub]
  · obtain ⟨pos, hpos, hrun, hdrop⟩ := iterChild_body h hne payload
    have hsub : sub (body bs payload) pos ((body bs payload).length - pos) = some payload :=
      Donkey.sub_end hdrop hpos
    simp [hne, hrun, hsub]

theorem exists_framed (h : g2Encode p = some b) :
    ∃ (name : Name) (bs : List Bytes) (s : Bytes), encodePayload p.payload = some (name, s) ∧
      g2EncodeAll p.children = some bs ∧ b = framed name.text bs s := by
  obtain ⟨children, payload⟩ := p
  rw [g2Encode] at h
  simp only [Option.bind_eq_bind, Option.bind_eq_some_iff] at h
  obtain ⟨bs, hbs, ⟨name, s⟩, he, h⟩ := h
  exact ⟨name, bs, s, he, hbs, (Option.some.inj h).symm⟩

-- The induction is on the tree, with its children as a list.
mutual

theorem read_received (names : List Bytes) : ∀ (p : Packet) {b : Bytes}, g2Encode p = some b →
    b.length < 2 ^ 24 → ReadAs g2Parse names (received names p) b
  | ⟨children, payload⟩, b, h, hlen => by
    obtain ⟨name, bs, s, he, hbs, rfl⟩ := exists_framed h
    have htext := length_text (name_ne_other he)
    rw [length_framed] at hlen
    have hflat : bs.flatten.length ≤ bodySize bs s := by
      rw [← length_body, body, List.length_append]
      omega
    have hall : List.Forall₂ (ReadAs g2Parse (name.text :: names)) _ bs :=
      readAll_received _ children hbs (by omega)
    have hbody := g2Parse_body hall s
    refine ⟨by rw [length_framed]; omega, fun {t r pos} ht hpos => ?_⟩
    obtain ⟨cb, hhead, hll, hnl⟩ := headerAt_framed ht hpos htext (by omega)
    refine ⟨cb, name.text, body bs s, _, hhead, ?_, ?_⟩
    · rw [length_framed, length_body, hll, hnl]
    · rw [hbody, received]
      simp only [he]

theorem readAll_received (names : List Bytes) : ∀ (l : List Packet) {bs : List Bytes},
    g2EncodeAll l = some bs → bs.flatten.length < 2 ^ 24 →
      List.Forall₂ (ReadAs g2Parse names) (receivedAll names l) bs
  | [], bs, h, _ => by
    cases h
    exact .nil
  | c :: l, bs, h, hlen => by
    rw [g2EncodeAll] at h
    simp only [Option.bind_eq_bind, Option.bind_eq_some_iff] at h
    obtain ⟨b, hb, bs, hbs, h⟩ := h
    cases h
    rw [List.flatten_cons, List.length_append] at hlen
    exact .cons (read_received names c hb (by omega)) (readAll_received names l hbs (by omega))

end

-- Wherever the bytes of a tree of packets stand in a string, the tree is read that these
-- packets become on the way, with its bytes and their end.
theorem parse_received (h : g2Encode p = some b) (hlen : b.length < 2 ^ 24)
    (before after : Bytes) :
    parse (before ++ (b ++ after)) before.length =
      some (received [] p, b, before.length + b.length) := by
  have hdrop : (before ++ (b ++ after)).drop before.length = b ++ after := List.drop_left
  obtain ⟨cb, name, packet, hasChildren, hhead, hlength, hp⟩ :=
    (read_received [] p h hlen).2 hdrop (by rw [List.length_append]; omega)
  have hfits := hhead.fits
  have hsub : sub (before ++ (b ++ after)) before.length
      (1 + lenLenIn cb + nameLenIn cb + packet.length) = some b :=
    sub_drop hdrop hlength (by rw [List.length_append]; omega)
  rw [parse, hhead.control]
  simp only [Option.bind_eq_bind, Option.bind_some]
  rw [if_neg (by omega), hhead.little, hhead.length]
  simp only [Option.bind_some]
  rw [if_neg (by omega), hhead.name, hhead.packet]
  simp only [Option.bind_some, hhead.flag]
  rw [hp, hsub, hlength]
  rfl

end Received

section Hits

variable {p : Payload} {names : List Name} {c : Packet} {l : List Packet}

-- The name that a payload is written under
def Payload.name (p : Payload) : Name := ((encodePayload p).map Prod.fst).getD .other

-- A hit has its size either in a packet of its own or in front of its name, and a name
-- without a size is short.
def HitKept (p : Payload) (children : List Packet) : Prop :=
  match p with
  | .qh2H =>
    if children.any isSize then ∀ c ∈ children, ∀ size s, c.payload ≠ .qh2HSzdn size s
    else ∀ c ∈ children, ∀ s, c.payload = .qh2HDn s → s.length < 4
  | _ => True

theorem plain_eq (h : ∀ size s, p ≠ .qh2HSzdn size s) : p.plain = p := by
  unfold Payload.plain
  split
  · next size s => exact absurd rfl (h size s)
  · rfl

theorem Packet.plain_eq (h : ∀ size s, c.payload ≠ .qh2HSzdn size s) : c.plain = c := by
  obtain ⟨children, payload⟩ := c
  rw [Packet.plain, Gnutella2.plain_eq h]

theorem eq_qh2H (h : p.name = .h) : p = .qh2H := by
  cases p with
  | qh2H => rfl
  | _ => cases h

theorem hitChildren_of_ne (h : p ≠ .qh2H) (be : Bool) (l : List Packet) :
    hitChildren be p l = l := by
  unfold hitChildren
  split
  · exact absurd rfl h
  · rfl

theorem sizedName_of_ne (h : ∀ s, c.payload = .qh2HDn s → s.length < 4) (be : Bool) :
    sizedName be c = c := by
  unfold sizedName
  split
  · next s hs => rw [if_neg (by have := h s hs; omega)]
  · rfl

theorem sizedName_plain (hr : c.payload.InRange)
    (hshort : ∀ s, c.payload = .qh2HDn s → s.length < 4) : sizedName false c.plain = c := by
  obtain ⟨children, payload⟩ := c
  by_cases hsz : ∃ size s, payload = .qh2HSzdn size s
  · obtain ⟨size, s, rfl⟩ := hsz
    have hlen : 4 ≤ (bufInt64_32 size ++ s).length := by
      rw [List.length_append, length_bufInt64_32]
      omega
    have hget : getInt (bufInt64_32 size ++ s) 0 = some size := getInt64_32_drop List.drop_zero hr
    show sizedName false ⟨children, .qh2HDn (bufInt64_32 size ++ s)⟩ = _
    simp only [sizedName, if_pos hlen, Bool.false_eq_true, if_false, hget]
    rfl
  · have hplain : (⟨children, payload⟩ : Packet).plain = ⟨children, payload⟩ :=
      Packet.plain_eq fun size s h => hsz ⟨size, s, h⟩
    rw [hplain, sizedName_of_ne hshort]

theorem isSize_plain (c : Packet) : isSize c.plain = isSize c := by
  obtain ⟨children, payload⟩ := c
  cases payload <;> rfl

-- What has been read of the children of a packet becomes the children that were written.
theorem hitChildren_plain (hkept : HitKept p l)
    (hl : ∀ c ∈ l, c.payload.Below (p.name :: names) ∧ c.payload.InRange) :
    (hitChildren false p.plain (l.map Packet.plain).reverse).reverse = l := by
  by_cases hp : p = .qh2H
  · subst hp
    have hany : (l.map Packet.plain).reverse.any isSize = l.any isSize := by
      rw [List.any_reverse, List.any_map]
      exact congrArg (l.any ·) (funext isSize_plain)
    show List.reverse (if (l.map Packet.plain).reverse.any isSize then _ else _) = _
    unfold HitKept at hkept
    rw [hany]
    split
    · next hsize =>
      rw [if_pos hsize] at hkept
      rw [List.reverse_reverse]
      exact (List.map_congr_left fun c hc => Packet.plain_eq (hkept c hc)).trans (List.map_id l)
    · next hsize =>
      rw [if_neg hsize] at hkept
      rw [← List.map_reverse, List.reverse_reverse, List.map_map]
      exact (List.map_congr_left fun c hc => sizedName_plain (hl c hc).2 (hkept c hc)).trans
        (List.map_id l)
  · -- only in a hit are there names with sizes
    have hsame : l.map Packet.plain = l := by
      refine (List.map_congr_left fun c hc => Packet.plain_eq fun size s hsz => hp ?_).trans
        (List.map_id l)
      rcases (hl c hc).1 with ⟨uid, hto⟩ | hnames
      · cases hsz.symm.trans hto
      · rw [hsz] at hnames
        exact eq_qh2H (List.cons.inj hnames).1
    have hne : p.plain ≠ .qh2H := fun h => hp (by cases p <;> first | rfl | cases h)
    rw [hitChildren_of_ne hne, List.reverse_reverse, hsame]

end Hits

section Trees

-- Every payload of a tree stands below packets of the names that it belongs to, and its
-- fields have values that are read as they are written.
inductive Survives : List Name → Packet → Prop
  | node {names : List Name} {children : List Packet} {payload : Payload}
      (below : payload.Below names) (range : payload.InRange) (hit : HitKept payload children)
      (kept : ∀ c ∈ children, Survives (payload.name :: names) c) :
      Survives names ⟨children, payload⟩

variable {names : List Name} {p : Packet}

theorem Survives.payload (h : Survives names p) : p.payload.Below names ∧ p.payload.InRange := by
  cases h with
  | node below range => exact ⟨below, range⟩

theorem Survives.plain_eq (h : Survives [] p) : p.plain = p :=
  Packet.plain_eq fun size s hsz => by
    rcases h.payload.1 with ⟨uid, hto⟩ | hnames
    · cases hsz.symm.trans hto
    · rw [hsz] at hnames
      cases hnames

theorem Survives.exists_encode (h : Survives names p) : ∃ b, g2Encode p = some b := by
  induction h with
  | @node names children payload below range hit kept ih =>
    obtain ⟨name, s, he⟩ := exists_encodePayload range
    suffices hbs : ∃ bs, g2EncodeAll children = some bs by
      obtain ⟨bs, hbs⟩ := hbs
      exact ⟨framed name.text bs s, by rw [g2Encode, hbs, he]; rfl⟩
    clear hit kept
    induction children with
    | nil => exact ⟨[], rfl⟩
    | cons c children ihc =>
      obtain ⟨hc, hchildren⟩ := List.forall_mem_cons.mp ih
      obtain ⟨b, hb⟩ := hc
      obtain ⟨bs, hbs⟩ := ihc hchildren
      exact ⟨b :: bs, by rw [g2EncodeAll, hb, hbs]; rfl⟩

theorem Survives.received_eq (h : Survives names p) :
    received (names.map Name.text) p = p.plain := by
  induction h with
  | @node names children payload below range hit kept ih =>
    obtain ⟨name, s, he⟩ := exists_encodePayload range
    have hname : payload.name = name := by rw [Payload.name, he]; rfl
    have hp := decodePayload_encode below range he
    have hchildren : receivedAll (name.text :: names.map Name.text) children =
        children.map Packet.plain := by
      rw [receivedAll_eq, ← hname, ← List.map_cons]
      exact List.map_congr_left ih
    rw [List.map_cons] at hp
    rw [received]
    simp only [he, hp, hchildren]
    rw [hitChildren_plain hit fun c hc => (kept c hc).payload]
    rfl

-- A tree of packets that is written is read as it was, with its bytes and their end,
-- wherever they stand in a string.
theorem parse_encode (h : Survives [] p) :
    ∃ b, g2Encode p = some b ∧
      (b.length < 2 ^ 24 → ∀ before after : Bytes,
        parse (before ++ (b ++ after)) before.length = some (p, b, before.length + b.length)) := by
  obtain ⟨b, hb⟩ := h.exists_encode
  refine ⟨b, hb, fun hlen before after => ?_⟩
  have hsame : received [] p = p := h.received_eq.trans h.plain_eq
  rw [parse_received hb hlen, hsame]

-- An answer with a hit that has its size in front of its name
def hitTree : Packet :=
  packet (.qh2 2 ⟨List.replicate 16 9, rfl⟩)
    [packet .qh2H [packet (.qh2HSzdn 700 (ofString "song")) []]]

theorem hitTree_survives : Survives [] hitTree := by
  refine .node (.inr rfl) (by decide : Donkey.Fits 8 2) trivial ?_
  rw [List.forall_mem_singleton]
  refine .node (.inr rfl) trivial ?_ ?_
  · intro c hc s hs
    rw [List.mem_singleton.mp hc] at hs
    cases hs
  · rw [List.forall_mem_singleton]
    exact .node (.inr rfl) (by decide : Donkey.Fits 32 700) trivial fun _ hc =>
      absurd hc List.not_mem_nil

theorem parse_encode_hit :
    ∃ b, g2Encode hitTree = some b ∧
      (b.length < 2 ^ 24 → ∀ before after : Bytes,
        parse (before ++ (b ++ after)) before.length =
          some (hitTree, b, before.length + b.length)) :=
  parse_encode hitTree_survives

end Trees

end Mldonkey.Gnutella2
