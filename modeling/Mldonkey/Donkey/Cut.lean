import Mldonkey.Donkey.LittleEndian
import Mldonkey.Lib.Framing

-- The frames of an eDonkey connection, and the two functions that cut the bytes of a
-- socket into messages.
namespace Mldonkey.Donkey.Cut

open BigEndian (bufInt8 getInt8)
open LittleEndian

-- The exceptions of a parser or a handler that differ for the loop.
inductive Exn where
  | notFound
  | other
  deriving DecidableEq

-- What a handler has done when it comes back: the program's state, whether it has closed the
-- socket, and its value or its exception.
structure Handled (σ α : Type*) where
  state : σ
  closes : Bool
  result : Except Exn α

-- What becomes of a frame: its magic and body are parsed and handled.
abbrev Deliver (σ : Type*) := σ → Int → Bytes → Handled σ Unit

-- `buf` holds the bytes from b.pos to b.pos + b.len, and `len` is b.len: closing the socket
-- empties the string, but leaves the length. `handled` are the magics and bodies handed over
-- so far.
structure Reader (σ : Type*) where
  buf : Bytes
  len : ℕ
  state : σ
  handled : List (Int × Bytes)
  closed : Bool

variable {σ τ γ υ : Type*}

def Reader.bufUsed (r : Reader σ) (nused : ℕ) : Reader σ :=
  if nused = r.len then { r with buf := [], len := 0 }
  else { r with buf := r.buf.drop nused, len := r.len - nused }

def Reader.close (r : Reader σ) : Reader σ := { r with buf := [], closed := true }

-- A call of the parser and the handler, with what it does to the socket.
def Reader.call (r : Reader σ) (h : Handled σ Unit) : Reader σ :=
  let r := { r with state := h.state }
  if h.closes then r.close else r

-- The while loop of both functions; each round uses up at least five bytes. A frame that
-- is incomplete ends it by Not_found, as does a parser or a handler that raises it. Behind a
-- handler that has closed the socket there is no byte to read in the string.
def cutLoop (deliver : Deliver σ) : ℕ → Reader σ → Reader σ × Except Exn Unit
  | 0, r => (r, .ok ())
  | fuel + 1, r =>
      if 5 ≤ r.len then
        match getInt8 r.buf 0, getInt r.buf 1 with
        | some opcode, some msgLen =>
            if 5 + msgLen ≤ r.len then
              match sub r.buf 5 msgLen.toNat with
              | some s =>
                  let r := r.bufUsed (msgLen.toNat + 5)
                  let h := deliver r.state opcode s
                  let r := { r with handled := r.handled ++ [(opcode, s)] }.call h
                  match h.result with
                  | .ok () => cutLoop deliver fuel r
                  | .error e => (r, .error e)
              | none => (r, .error .other)
            else (r, .error .notFound)
        | _, _ => (r, .error .other)
      else (r, .ok ())

-- The handler around the loop.
def caught (res : Reader σ × Except Exn Unit) : Reader σ × Except Exn Unit :=
  match res with
  | (r, .error .notFound) => (r, .ok ())
  | res => res

def parsed (parse : Int → Bytes → Except Exn τ) (f : τ → σ → Handled σ Unit) : Deliver σ :=
  fun state opcode s =>
    match parse opcode s with
    | .ok t => f t state
    | .error e => ⟨state, false, .error e⟩

def cutMessages (parse : Int → Bytes → Except Exn τ) (f : τ → σ → Handled σ Unit)
    (r : Reader σ) : Reader σ × Except Exn Unit :=
  caught (cutLoop (parsed parse f) r.len r)

-- What client_handler2 is given: the reference c, which is a part of the state, the
-- parser, which looks at the protocol of the client, and the two handlers.
structure Client (σ τ γ υ : Type*) where
  c : σ → Option γ
  setC : Option γ → σ → σ
  emuleProto : υ
  clientEmuleProto : γ → υ
  parse : υ → Int → Bytes → Except Exn τ
  ff : τ → σ → Handled σ (Option γ)
  f : γ → τ → σ → Handled σ Unit

def Client.deliver (h : Client σ τ γ υ) : Deliver σ := fun state opcode s =>
  let emuleVersion :=
    match h.c state with
    | none => h.emuleProto
    | some c => h.clientEmuleProto c
  match h.parse emuleVersion opcode s with
  | .error e => ⟨state, false, .error e⟩
  | .ok t =>
      match h.c state with
      | none =>
          let first := h.ff t state
          match first.result with
          | .ok c => ⟨h.setC c first.state, first.closes, .ok ()⟩
          | .error e => ⟨first.state, first.closes, .error e⟩
      | some c => h.f c t state

def clientHandler2 (h : Client σ τ γ υ) (r : Reader σ) : Reader σ × Except Exn Unit :=
  caught (cutLoop h.deliver r.len r)

def fresh (state : σ) : Reader σ := ⟨[], 0, state, [], false⟩

-- A read event of an open socket. An exception that leaves the reader closes the socket.
def read (reader : Reader σ → Reader σ × Except Exn Unit) (r : Reader σ) (data : Bytes) :
    Reader σ :=
  if r.closed then r
  else
    match reader { r with buf := r.buf ++ data, len := r.len + data.length } with
    | (r, .ok ()) => r
    | (r, .error _) => r.close

structure Frame where
  magic : UInt8
  body : Bytes
  fits : body.length < 2 ^ 30

def Frame.bytes (m : Frame) : Bytes :=
  bufInt8 m.magic.toNat ++ (bufInt64_32 m.body.length ++ m.body)

def Frame.call (m : Frame) : Int × Bytes := (m.magic.toNat, m.body)

def calls (msgs : List Frame) : List (Int × Bytes) := msgs.map Frame.call

def stream (msgs : List Frame) : Bytes := Lib.Framing.stream Frame.bytes msgs

-- The state once the frames have been handed over one after the other, and what the
-- delivery of a frame does then.
def after (deliver : Deliver σ) (state : σ) (msgs : List Frame) : σ :=
  msgs.foldl (fun state m => (deliver state m.magic.toNat m.body).state) state

def delivery (deliver : Deliver σ) (state : σ) (done : List Frame) (m : Frame) :
    Handled σ Unit :=
  deliver (after deliver state done) m.magic.toNat m.body

-- The socket does not live on: it is closed by the handler, or by an exception that leaves the
-- reader.
def Handled.Closing (h : Handled σ Unit) : Prop := h.closes = true ∨ h.result = .error .other

-- Bytes that no whole frame begins with.
def Incomplete (tail : Bytes) : Prop :=
  tail.length < 5 ∨ ∃ n, getInt tail 1 = some n ∧ tail.length < 5 + n

-- After every read exactly the frames that have arrived are handed over, in order and
-- each once, and only an incomplete one is in the buffer, which is empty when the socket is
-- closed.
def HandsOver (reader : Reader σ → Reader σ × Except Exn Unit) (deliver : Deliver σ) (state : σ)
    (msgs : List Frame) (reads : List Bytes) : Prop :=
  ∀ before, before <+: reads →
    let r := before.foldl (read reader) (fresh state)
    ∃ done rest, msgs = done ++ rest ∧ r.handled = calls done ∧
      r.state = after deliver state done ∧ stream done <+: before.flatten ∧
      (∀ arrived, arrived <+: msgs → stream arrived <+: before.flatten → arrived <+: done) ∧
      (r.closed = true → r.buf = []) ∧
      (r.closed = false → before.flatten = stream done ++ r.buf ∧ Incomplete r.buf)

-- A frame behind which a whole frame has come with the same read is handed over without
-- an exception.
def NoneBehind (deliver : Deliver σ) (state : σ) (msgs : List Frame) (reads : List Bytes) : Prop :=
  ∀ before data, before ++ [data] <+: reads → ∀ done m m' rest, msgs = done ++ m :: m' :: rest →
    ¬ stream (done ++ [m]) <+: before.flatten →
      stream (done ++ [m, m']) <+: before.flatten ++ data →
        (delivery deliver state done m).result = .ok ()

-- A frame whose delivery closes the socket is the last whole one that is read.
def NoneAfter (deliver : Deliver σ) (state : σ) (msgs : List Frame) (reads : List Bytes) : Prop :=
  ∀ done m m' rest, msgs = done ++ m :: m' :: rest →
    stream (done ++ [m, m']) <+: reads.flatten → ¬ (delivery deliver state done m).Closing

theorem stream_cons (m : Frame) (msgs : List Frame) :
    stream (m :: msgs) = m.bytes ++ stream msgs := rfl

theorem stream_append (l l' : List Frame) : stream (l ++ l') = stream l ++ stream l' :=
  Lib.Framing.stream_append l l'

@[simp] theorem length_bytes (m : Frame) : m.bytes.length = m.body.length + 5 := by
  rw [Frame.bytes, List.length_append, List.length_append, length_bufInt64_32]
  show 1 + _ = _
  omega

theorem after_cons (deliver : Deliver σ) (state : σ) (m : Frame) (msgs : List Frame) :
    after deliver state (m :: msgs) =
      after deliver (deliver state m.magic.toNat m.body).state msgs := rfl

theorem after_append (deliver : Deliver σ) (state : σ) (l l' : List Frame) :
    after deliver state (l ++ l') = after deliver (after deliver state l) l' :=
  List.foldl_append

theorem delivery_append (deliver : Deliver σ) (state : σ) (l l' : List Frame) (m : Frame) :
    delivery deliver state (l ++ l') m = delivery deliver (after deliver state l) l' m := by
  rw [delivery, delivery, after_append]

-- The loop goes on behind the frame.
def Handled.Fine (h : Handled σ Unit) : Prop := h.closes = false ∧ h.result = .ok ()

theorem Handled.Closing.not_fine {h : Handled σ Unit} (hc : h.Closing) : ¬ h.Fine := by
  rintro ⟨hopen, hok⟩
  rcases hc with hc | hc
  · rw [hopen] at hc
    cases hc
  · rw [hok] at hc
    cases hc

theorem getInt_bytes {m : Frame} {rest : Bytes} :
    getInt (bufInt8 m.magic.toNat ++ (bufInt64_32 m.body.length ++ rest)) 1 =
      some (m.body.length : Int) := by
  have hfits := m.fits
  have h : (bufInt8 m.magic.toNat ++ (bufInt64_32 m.body.length ++ rest)).drop 1 =
      bufInt64_32 m.body.length ++ rest := rfl
  rw [getInt_bufInt64_32 h]
  congr 1
  omega

theorem incomplete_of_cut {m : Frame} {B : Bytes} (h : B <+: m.bytes)
    (hlt : B.length < m.bytes.length) : Incomplete B := by
  by_cases hshort : B.length < 5
  · exact .inl hshort
  · rw [length_bytes] at hlt
    rw [Frame.bytes, ← List.append_assoc] at h
    obtain ⟨B', rfl⟩ : bufInt8 m.magic.toNat ++ bufInt64_32 m.body.length <+: B :=
      List.prefix_of_prefix_length_le (List.prefix_append _ _) h
        (by rw [List.length_append, length_bufInt64_32]; exact Nat.le_of_not_lt hshort)
    rw [List.append_assoc] at hlt ⊢
    exact .inr ⟨_, getInt_bytes, by omega⟩

theorem not_incomplete_of_bytes {m : Frame} {tail : Bytes} (h : m.bytes <+: tail) :
    ¬ Incomplete tail := by
  have hle := h.length_le
  obtain ⟨rest, rfl⟩ := h
  rw [length_bytes] at hle
  rintro (hlt | ⟨n, hn, hlt⟩)
  · omega
  · rw [Frame.bytes, List.append_assoc, List.append_assoc] at hn
    obtain rfl := Option.some.inj (getInt_bytes.symm.trans hn)
    omega

theorem prefix_stream {msgs : List Frame} {B : Bytes} (h : B <+: stream msgs) :
    ∃ done rest tail, msgs = done ++ rest ∧ B = stream done ++ tail ∧ Incomplete tail :=
  Lib.Framing.prefix_stream (.inl (by simp)) (fun _ _ _ => incomplete_of_cut) h

variable {deliver : Deliver σ} {r : Reader σ} {fuel : ℕ}

theorem Reader.bufUsed_eq (hlen : r.len = r.buf.length) (nused : ℕ) :
    r.bufUsed nused = { r with buf := r.buf.drop nused, len := (r.buf.drop nused).length } := by
  rw [Reader.bufUsed]
  split
  · next h =>
    rw [h, hlen, List.drop_length]
    rfl
  · rw [List.length_drop, hlen]

theorem cutLoop_incomplete (hlen : r.len = r.buf.length) (h : Incomplete r.buf) :
    caught (cutLoop deliver fuel r) = (r, .ok ()) := by
  cases fuel with
  | zero => rfl
  | succ fuel =>
    rw [cutLoop]
    by_cases h5 : 5 ≤ r.len
    · rcases h with h | ⟨n, hn, hlt⟩
      · omega
      · obtain ⟨x, rest, hx⟩ : ∃ x rest, r.buf = x :: rest :=
          List.exists_cons_of_length_pos (by omega)
        have h8 : getInt8 r.buf 0 = some (x.toNat : Int) := by
          rw [hx]
          rfl
        simp only [h8, hn]
        rw [if_pos h5, if_neg (show ¬ 5 + n ≤ (r.len : Int) by omega)]
        rfl
    · rw [if_neg h5]
      rfl

theorem cutLoop_frame {m : Frame} {rest : Bytes} (hlen : r.len = r.buf.length)
    (hbuf : r.buf = m.bytes ++ rest) :
    let h := deliver r.state m.magic.toNat m.body
    let r' := Reader.call ⟨rest, rest.length, r.state, r.handled ++ [m.call], r.closed⟩ h
    cutLoop deliver (fuel + 1) r =
      match h.result with
      | .ok () => cutLoop deliver fuel r'
      | .error e => (r', .error e) := by
  have hlong : r.len = m.body.length + 5 + rest.length := by
    rw [hlen, hbuf, List.length_append, length_bytes]
  have hused := Reader.bufUsed_eq hlen (m.body.length + 5)
  rw [Frame.bytes, List.append_assoc, List.append_assoc] at hbuf
  have h8 : getInt8 r.buf 0 = some (m.magic.toNat : Int) := by
    have hlt := m.magic.toNat_lt
    exact LittleEndian.getInt8_drop (List.drop_zero.trans hbuf) (by omega)
  have hget : getInt r.buf 1 = some (m.body.length : Int) := hbuf ▸ getInt_bytes
  have hdrop : r.buf.drop 5 = m.body ++ rest := by
    rw [hbuf]
    rfl
  have hsub : sub r.buf 5 m.body.length = some m.body := sub_drop hdrop rfl (by omega)
  have hrest : r.buf.drop (m.body.length + 5) = rest := by
    rw [Nat.add_comm, ← List.drop_drop, hdrop, List.drop_left]
  rw [hrest] at hused
  rw [cutLoop, if_pos (by omega)]
  simp only [h8, hget, Int.toNat_natCast, hsub, hused]
  rw [if_pos (by omega)]
  rfl

theorem cutLoop_emptied (h : r.buf = []) : (cutLoop deliver fuel r).1 = r := by
  cases fuel with
  | zero => rfl
  | succ fuel =>
    rw [cutLoop, h]
    split
    · rfl
    · rfl

@[simp] theorem caught_fst (res : Reader σ × Except Exn Unit) : (caught res).1 = res.1 := by
  rcases res with ⟨r, (_ | _) | _⟩ <;> rfl

theorem caught_error_iff (e : Exn) : (caught (r, .error e)).2 ≠ .ok () ↔ e = .other := by
  cases e <;> simp [caught]

-- A run of the loop hands over `now` and leaves `left`: behind all frames of `now` but the last
-- the loop goes on, behind the last one it does not if a frame is left, and the last one decides
-- whether the socket lives on.
structure Cuts (deliver : Deliver σ) (state : σ) (now left : List Frame) (dies : Prop) :
    Prop where
  inner : ∀ p m m' q, now = p ++ m :: m' :: q → (delivery deliver state p m).Fine
  stopped : left ≠ [] → ∃ p m, now = p ++ [m] ∧ ¬ (delivery deliver state p m).Fine
  dies_iff : dies ↔ ∃ p m, now = p ++ [m] ∧ (delivery deliver state p m).Closing

theorem Cuts.nil (deliver : Deliver σ) (state : σ) : Cuts deliver state [] [] False where
  inner p m m' q h := by simp at h
  stopped h := absurd rfl h
  dies_iff := by simp

theorem Cuts.single {state : σ} {m : Frame} {left : List Frame} {dies : Prop}
    (h : ¬ (delivery deliver state [] m).Fine)
    (hdies : dies ↔ (delivery deliver state [] m).Closing) :
    Cuts deliver state [m] left dies where
  inner p x x' q hp := by
    have := congrArg List.length hp
    simp at this
    omega
  stopped _ := ⟨[], m, rfl, h⟩
  dies_iff := by
    rw [hdies]
    constructor
    · exact fun hc => ⟨[], m, rfl, hc⟩
    · rintro ⟨p, x, hp, hc⟩
      obtain ⟨rfl, hx⟩ := List.append_inj' (show [] ++ [m] = p ++ [x] from hp) rfl
      cases hx
      exact hc

theorem Cuts.cons {state : σ} {m : Frame} {now left : List Frame} {dies : Prop}
    (h : (delivery deliver state [] m).Fine)
    (hc : Cuts deliver (deliver state m.magic.toNat m.body).state now left dies) :
    Cuts deliver state (m :: now) left dies where
  inner p x x' q hp := by
    cases p with
    | nil =>
      cases hp
      exact h
    | cons y p =>
      cases hp
      exact hc.inner p x x' q rfl
  stopped hleft := by
    obtain ⟨p, x, rfl, hx⟩ := hc.stopped hleft
    exact ⟨m :: p, x, rfl, hx⟩
  dies_iff := by
    rw [hc.dies_iff]
    constructor
    · rintro ⟨p, x, rfl, hx⟩
      exact ⟨m :: p, x, rfl, hx⟩
    · rintro ⟨p, x, hp, hx⟩
      cases p with
      | nil =>
        cases hp
        exact absurd h hx.not_fine
      | cons y p =>
        cases hp
        exact ⟨p, x, rfl, hx⟩

-- What a run of the loop over `now ++ left` and an incomplete frame makes of the reader
structure Ran (deliver : Deliver σ) (r : Reader σ) (now left : List Frame) (tail : Bytes)
    (res : Reader σ × Except Exn Unit) : Prop where
  handled : res.1.handled = r.handled ++ calls now
  state : res.1.state = after deliver r.state now
  cuts : Cuts deliver r.state now left (res.1.closed = true ∨ res.2 ≠ .ok ())
  emptied : res.1.closed = true → res.1.buf = []
  opened : res.1.closed = false → res.1.buf = stream left ++ tail ∧ res.1.len = res.1.buf.length

theorem cutLoop_stream {msgs : List Frame} {tail : Bytes} (htail : Incomplete tail)
    (hopen : r.closed = false) (hlen : r.len = r.buf.length) (hbuf : r.buf = stream msgs ++ tail)
    (hfuel : msgs.length ≤ fuel) :
    ∃ now left, msgs = now ++ left ∧
      Ran deliver r now left tail (caught (cutLoop deliver fuel r)) := by
  induction msgs generalizing r fuel with
  | nil =>
    rw [cutLoop_incomplete hlen (hbuf ▸ htail)]
    refine ⟨[], [], rfl, (List.append_nil _).symm, rfl, ?_, ?_, fun _ => ⟨hbuf, hlen⟩⟩
    · simpa [hopen] using Cuts.nil deliver r.state
    · rw [hopen]
      exact fun h => nomatch h
  | cons m msgs ih =>
    rw [List.length_cons] at hfuel
    obtain ⟨fuel, rfl⟩ := Nat.exists_eq_add_one_of_ne_zero (show fuel ≠ 0 by omega)
    rw [stream_cons, List.append_assoc] at hbuf
    have hframe := @cutLoop_frame σ deliver r fuel m _ hlen hbuf
    generalize hd : deliver r.state m.magic.toNat m.body = h at hframe
    have hdel : delivery deliver r.state [] m = h := hd
    have hstate : after deliver r.state [m] = h.state := congrArg Handled.state hd
    cases hcl : h.closes with
    | true =>
      have hrun : (cutLoop deliver (fuel + 1) r).1 =
          ⟨[], (stream msgs ++ tail).length, h.state, r.handled ++ [m.call], true⟩ := by
        rw [hframe]
        simp only [Reader.call, hcl, if_pos, Reader.close]
        cases h.result with
        | ok => exact cutLoop_emptied rfl
        | error => rfl
      have hclosing : h.Closing := .inl hcl
      refine ⟨[m], msgs, rfl, ?_⟩
      generalize cutLoop deliver (fuel + 1) r = res at hrun
      refine ⟨?_, ?_, .single (hdel ▸ hclosing.not_fine) ?_, ?_, ?_⟩
      · rw [caught_fst, hrun]
        rfl
      · rw [caught_fst, hrun, hstate]
      · rw [caught_fst, hrun, hdel]
        exact iff_of_true (.inl rfl) hclosing
      · rw [caught_fst, hrun]
        exact fun _ => rfl
      · rw [caught_fst, hrun]
        exact fun h => nomatch h
    | false =>
      simp only [Reader.call, hcl, Bool.false_eq_true, if_false] at hframe
      rw [hframe]
      cases hres : h.result with
      | ok u =>
        obtain ⟨now, left, rfl, hran⟩ := @ih ⟨stream msgs ++ tail, (stream msgs ++ tail).length,
          h.state, r.handled ++ [m.call], r.closed⟩ fuel hopen rfl rfl (by omega)
        refine ⟨m :: now, left, rfl, ?_, ?_, ?_, hran.emptied, hran.opened⟩
        · rw [hran.handled, calls, calls, List.map_cons, List.append_assoc]
          rfl
        · rw [hran.state, after_cons, hd]
        · exact .cons (hdel ▸ ⟨hcl, hres⟩) (hd ▸ hran.cuts)
      | error e =>
        have hne : ¬ h.Fine := fun hf => by
          have := hres.symm.trans hf.2
          cases this
        refine ⟨[m], msgs, rfl, ?_, ?_, .single (hdel ▸ hne) ?_, ?_, ?_⟩
        · rw [caught_fst]
          rfl
        · rw [caught_fst, hstate]
        · rw [caught_error_iff, caught_fst, hdel, Handled.Closing, hcl, hres, hopen]
          simp
        · rw [caught_fst]
          exact fun hno => nomatch hopen.symm.trans hno
        · rw [caught_fst]
          exact fun _ => ⟨rfl, rfl⟩

-- Where the reader stands when the bytes B of the stream have arrived and it is in step.
structure At (deliver : Deliver σ) (state : σ) (msgs : List Frame) (B : Bytes) (r : Reader σ)
    (done rest : List Frame) : Prop where
  msgs_eq : msgs = done ++ rest
  handled : r.handled = calls done
  reached : r.state = after deliver state done
  arrived : stream done <+: B
  emptied : r.closed = true → r.buf = []
  opened : r.closed = false → B = stream done ++ r.buf ∧ Incomplete r.buf ∧ r.len = r.buf.length
  inner : ∀ p m m' q, done = p ++ m :: m' :: q → ¬ (delivery deliver state p m).Closing
  closed : r.closed = true ↔ ∃ p m, done = p ++ [m] ∧ (delivery deliver state p m).Closing

variable {state : σ} {msgs done rest : List Frame} {B data : Bytes}

-- The reader with a body that is the loop in its handler.
def loop (deliver : Deliver σ) (r : Reader σ) : Reader σ × Except Exn Unit :=
  caught (cutLoop deliver r.len r)

theorem Ran.read {reader : Reader σ → Reader σ × Except Exn Unit} {now left : List Frame}
    {tail : Bytes} (hopen : r.closed = false)
    (h : Ran deliver r now left tail
      (reader { r with buf := r.buf ++ data, len := r.len + data.length })) :
    Ran deliver r now left tail (read reader r data, .ok ()) := by
  rw [Cut.read, if_neg (by simp [hopen])]
  rcases hres : reader { r with buf := r.buf ++ data, len := r.len + data.length } with ⟨r', e | u⟩
  · rw [hres] at h
    refine ⟨h.handled, h.state, ?_, fun _ => rfl, fun hno => nomatch hno⟩
    simpa [Reader.close] using h.cuts
  · rw [hres] at h
    exact h

-- One read of an open socket.
theorem At.read (h : At deliver state msgs B r done rest) (hopen : r.closed = false)
    (hpre : B ++ data <+: stream msgs) :
    ∃ now left later tail, rest = now ++ (left ++ later) ∧ Incomplete tail ∧
      B ++ data = stream (done ++ (now ++ left)) ++ tail ∧
      Ran deliver r now left tail (read (loop deliver) r data, .ok ()) := by
  obtain ⟨hbytes, hinc, hlen⟩ := h.opened hopen
  have hbuf : r.buf ++ data <+: stream rest := by
    rw [hbytes, h.msgs_eq, stream_append, List.append_assoc, List.prefix_append_right_inj] at hpre
    exact hpre
  obtain ⟨whole, later, tail, rfl, htail, hinc⟩ := prefix_stream hbuf
  have hlong : r.len + data.length = (r.buf ++ data).length := by
    rw [hlen, List.length_append]
  have hfuel : whole.length ≤ r.len + data.length := by
    have hle : whole.length ≤ (stream whole).length :=
      Lib.Framing.length_le_stream fun m _ => by
        rw [length_bytes]
        omega
    rw [hlong, htail, List.length_append]
    omega
  obtain ⟨now, left, rfl, hran⟩ := @cutLoop_stream σ deliver
    { r with buf := r.buf ++ data, len := r.len + data.length } _ whole tail hinc hopen hlong
    htail hfuel
  have hran' : Ran deliver r now left tail (loop deliver
      { r with buf := r.buf ++ data, len := r.len + data.length }) :=
    ⟨hran.handled, hran.state, hran.cuts, hran.emptied, hran.opened⟩
  refine ⟨now, left, later, tail, List.append_assoc _ _ _, hinc, ?_, hran'.read hopen⟩
  rw [hbytes, List.append_assoc, htail, stream_append done, List.append_assoc]

theorem At.next (h : At deliver state msgs B r done rest) (hopen : r.closed = false)
    {now left later : List Frame} {tail : Bytes} {r' : Reader σ}
    (hrest : rest = now ++ (left ++ later)) (hinc : Incomplete tail)
    (hbytes : B ++ data = stream (done ++ (now ++ left)) ++ tail)
    (hran : Ran deliver r now left tail (r', .ok ())) (hnone : r'.closed = false → left = []) :
    At deliver state msgs (B ++ data) r' (done ++ now) (left ++ later) where
  msgs_eq := by rw [h.msgs_eq, hrest, List.append_assoc]
  handled := by
    rw [hran.handled, h.handled, calls, calls, calls, List.map_append]
  reached := by rw [hran.state, h.reached, after_append]
  arrived := by
    rw [hbytes, ← List.append_assoc, stream_append _ left, List.append_assoc]
    exact List.prefix_append _ _
  emptied := hran.emptied
  opened hno := by
    obtain ⟨hbuf, hlen⟩ := hran.opened hno
    rw [hnone hno] at hbuf hbytes
    rw [List.append_nil] at hbytes
    have hbuf : r'.buf = tail := hbuf
    exact ⟨by rw [hbytes, hbuf], hbuf.symm ▸ hinc, hlen⟩
  inner p m m' q hp := by
    rcases List.append_eq_append_iff.mp hp with ⟨p', rfl, hnow⟩ | ⟨q', hdone, hq⟩
    · rw [delivery_append, ← h.reached]
      exact fun hc => hc.not_fine (hran.cuts.inner p' m m' q hnow)
    · rcases q' with _ | ⟨x, _ | ⟨x', q'⟩⟩
      · rw [List.append_nil] at hdone
        rw [← hdone, ← List.append_nil done, delivery_append, ← h.reached]
        exact fun hc => hc.not_fine (hran.cuts.inner [] m m' q hq.symm)
      · cases hq
        exact fun hc => nomatch hopen.symm.trans (h.closed.mpr ⟨p, m, hdone, hc⟩)
      · cases hq
        exact h.inner p m m' q' hdone
  closed := by
    have hdies := hran.cuts.dies_iff
    simp only [ne_eq, not_true_eq_false, or_false] at hdies
    rw [hdies]
    constructor
    · rintro ⟨p, m, rfl, hm⟩
      refine ⟨done ++ p, m, by rw [List.append_assoc], ?_⟩
      rwa [delivery_append, ← h.reached]
    · rintro ⟨p, m, hp, hm⟩
      rcases List.eq_nil_or_concat now with rfl | ⟨q, x, rfl⟩
      · rw [List.append_nil] at hp
        have := h.closed.mpr ⟨p, m, hp, hm⟩
        rw [hopen] at this
        cases this
      · rw [List.concat_eq_append, ← List.append_assoc] at hp
        obtain ⟨rfl, hx⟩ := List.append_inj' hp rfl
        cases hx
        refine ⟨q, _, List.concat_eq_append, ?_⟩
        rwa [delivery_append, ← h.reached] at hm

theorem At.fresh (deliver : Deliver σ) (state : σ) (msgs : List Frame) :
    At deliver state msgs [] (fresh state) [] msgs where
  msgs_eq := rfl
  handled := rfl
  reached := rfl
  arrived := List.prefix_rfl
  emptied _ := rfl
  opened _ := ⟨rfl, .inl (by simp [Cut.fresh]), rfl⟩
  inner p m m' q hp := by simp at hp
  closed := by simp [Cut.fresh]

theorem read_closed {reader : Reader σ → Reader σ × Except Exn Unit} (h : r.closed = true) :
    Cut.read reader r data = r := by
  rw [Cut.read, if_pos h]

theorem At.closed_read (h : At deliver state msgs B r done rest) (hclosed : r.closed = true) :
    At deliver state msgs (B ++ data) (Cut.read (loop deliver) r data) done rest := by
  rw [read_closed hclosed]
  exact
  { h with
    arrived := h.arrived.trans (List.prefix_append _ _)
    opened := fun hopen => nomatch hclosed.symm.trans hopen }

-- Two prefixes of the messages
theorem At.longer (h : At deliver state msgs B r done rest) {l : List Frame} (hl : l <+: msgs)
    (hnot : ¬ l <+: done) : ∃ m q, l = done ++ m :: q := by
  rcases List.prefix_or_prefix_of_prefix hl ⟨rest, h.msgs_eq.symm⟩ with hle | ⟨q, rfl⟩
  · exact absurd hle hnot
  · cases q with
    | nil => simp at hnot
    | cons m q => exact ⟨m, q, rfl⟩

theorem stream_prefix {l l' : List Frame} (h : l <+: l') : stream l <+: stream l' := by
  obtain ⟨q, rfl⟩ := h
  rw [stream_append]
  exact List.prefix_append _ _

theorem At.all (h : At deliver state msgs B r done rest) (hopen : r.closed = false)
    {arrived : List Frame} (harr : arrived <+: msgs) (hB : stream arrived <+: B) :
    arrived <+: done := by
  obtain ⟨hbytes, hinc, -⟩ := h.opened hopen
  rw [h.msgs_eq] at harr
  rw [hbytes] at hB
  exact Lib.Framing.arrived_prefix (fun _ _ => not_incomplete_of_bytes) hinc harr hB

variable {reads : List Bytes}

theorem foldl_read_concat (before : List Bytes) (data : Bytes) :
    (before ++ [data]).foldl (Cut.read (loop deliver)) (Cut.fresh state) =
      Cut.read (loop deliver) (before.foldl (Cut.read (loop deliver)) (Cut.fresh state)) data := by
  rw [List.foldl_append, List.foldl_cons, List.foldl_nil]

theorem flatten_concat (before : List Bytes) (data : Bytes) :
    (before ++ [data]).flatten = before.flatten ++ data := by
  rw [List.flatten_append, List.flatten_cons, List.flatten_nil, List.append_nil]

-- The reader is in step after every read, if no read of an open socket leaves a whole frame.
theorem at_of_none_left (h : reads.flatten <+: stream msgs)
    (hnone : ∀ before data, before ++ [data] <+: reads → ∀ {done rest now left later tail},
      let r := before.foldl (Cut.read (loop deliver)) (Cut.fresh state)
      At deliver state msgs before.flatten r done rest → r.closed = false →
      rest = now ++ (left ++ later) → before.flatten ++ data = stream (done ++ (now ++ left)) ++ tail →
      Ran deliver r now left tail (Cut.read (loop deliver) r data, .ok ()) →
      (Cut.read (loop deliver) r data).closed = false → left = [])
    (before : List Bytes) (hpre : before <+: reads) :
    ∃ done rest, At deliver state msgs before.flatten
      (before.foldl (Cut.read (loop deliver)) (Cut.fresh state)) done rest := by
  induction before using List.reverseRecOn with
  | nil => exact ⟨[], msgs, At.fresh deliver state msgs⟩
  | append_singleton before data ih =>
    obtain ⟨done, rest, hat⟩ := ih ((List.prefix_append _ _).trans hpre)
    rw [foldl_read_concat, flatten_concat]
    cases hopen : (before.foldl (Cut.read (loop deliver)) (Cut.fresh state)).closed with
    | true => exact ⟨done, rest, hat.closed_read hopen⟩
    | false =>
      have hB : before.flatten ++ data <+: stream msgs := by
        rw [← flatten_concat]
        exact hpre.flatten.trans h
      obtain ⟨now, left, later, tail, hrest, hinc, hbytes, hran⟩ := hat.read hopen hB
      exact ⟨done ++ now, left ++ later, hat.next hopen hrest hinc hbytes hran
        (hnone before data hpre hat hopen hrest hbytes hran)⟩

theorem call_injective : Function.Injective Frame.call := by
  rintro ⟨magic, body, _⟩ ⟨magic', body', _⟩ h
  obtain ⟨hmagic, rfl⟩ := Prod.mk.inj h
  obtain rfl : magic = magic' := UInt8.toNat_inj.mp (by exact_mod_cast hmagic)
  rfl

theorem calls_injective : Function.Injective calls := List.map_injective_iff.mpr call_injective

section Hands

variable (h : reads.flatten <+: stream msgs)
  (hands : HandsOver (loop deliver) deliver state msgs reads)

include hands

theorem at_of_handsOver (h : reads.flatten <+: stream msgs) (before : List Bytes)
    (hpre : before <+: reads) : ∃ done rest, At deliver state msgs before.flatten
      (before.foldl (Cut.read (loop deliver)) (Cut.fresh state)) done rest := by
  refine at_of_none_left h (fun before data hpre => ?_) before hpre
  intro done rest now left later tail r hat hopen hrest hbytes hran hopen'
  obtain ⟨_, _, _, _, _, _, _, _, hopened⟩ := hands _ hpre
  rw [foldl_read_concat] at hopened
  by_contra hne
  obtain ⟨m', left, rfl⟩ := List.exists_cons_of_ne_nil hne
  refine not_incomplete_of_bytes (m := m') ?_ (hopened hopen').2
  rw [show (Cut.read (loop deliver) r data).buf = _ from (hran.opened hopen').1, stream_cons,
    List.append_assoc]
  exact List.prefix_append _ _

theorem all_of_handsOver {before : List Bytes} (hpre : before <+: reads)
    (hat : At deliver state msgs before.flatten
      (before.foldl (Cut.read (loop deliver)) (Cut.fresh state)) done rest)
    {arrived : List Frame} (harr : arrived <+: msgs) (hB : stream arrived <+: before.flatten) :
    arrived <+: done := by
  obtain ⟨done', _, _, hhandled, _, _, hall, _⟩ := hands _ hpre
  obtain rfl : done' = done := calls_injective (hhandled.symm.trans hat.handled)
  exact hall arrived harr hB

include h

theorem noneBehind_of_handsOver : NoneBehind deliver state msgs reads := by
  intro before data hpre p m m' q hmsgs hnot hle
  have hpre' : before <+: reads := (List.prefix_append _ _).trans hpre
  obtain ⟨done, rest, hat⟩ := at_of_handsOver hands h before hpre'
  obtain ⟨done', rest', hat'⟩ := at_of_handsOver hands h _ hpre
  have hwhole : p ++ [m, m'] <+: msgs := ⟨q, by rw [hmsgs, List.append_assoc]; rfl⟩
  have hdone' := all_of_handsOver hands hpre hat' hwhole (by rw [flatten_concat]; exact hle)
  rw [foldl_read_concat] at hat'
  -- the frame has not been handed over before this read
  have hnone : ¬ p ++ [m] <+: done := fun hp => hnot (List.IsPrefix.trans ( stream_prefix hp) hat.arrived)
  cases hopen : (before.foldl (Cut.read (loop deliver)) (Cut.fresh state)).closed with
  | true =>
    rw [read_closed hopen] at hat'
    obtain rfl : done' = done := calls_injective (hat'.handled.symm.trans hat.handled)
    exact absurd ((show p ++ [m] <+: p ++ [m, m'] by simp).trans hdone') hnone
  | false =>
    have hB : before.flatten ++ data <+: stream msgs := by
      rw [← flatten_concat]
      exact hpre.flatten.trans h
    obtain ⟨now, left, later, tail, hrest, hinc, hbytes, hran⟩ := hat.read hopen hB
    obtain rfl : done' = done ++ now := by
      refine calls_injective (hat'.handled.symm.trans ?_)
      rw [calls, List.map_append, ← calls, ← hat.handled]
      exact hran.handled
    have hdone : done <+: p := by
      have hone : p ++ [m] <+: msgs := (show p ++ [m] <+: p ++ [m, m'] by simp).trans hwhole
      have hle := (List.prefix_or_prefix_of_prefix hone ⟨rest, hat.msgs_eq.symm⟩).resolve_left hnone
      exact (List.prefix_concat_iff.mp hle).resolve_left fun heq => hnone (heq ▸ List.prefix_rfl)
    obtain ⟨p', rfl⟩ := hdone
    rw [List.append_assoc, List.prefix_append_right_inj] at hdone'
    obtain ⟨q', hq'⟩ := hdone'
    rw [delivery_append, ← hat.reached]
    exact (hran.cuts.inner p' m m' q' (by rw [← hq', List.append_assoc]; rfl)).2

-- A frame that closes the socket is the last one handed over.
theorem noneAfter_of_handsOver : NoneAfter deliver state msgs reads := by
  intro p m m' q hmsgs hle
  obtain ⟨done, rest, hat⟩ := at_of_handsOver hands h reads List.prefix_rfl
  have hwhole : p ++ [m, m'] <+: msgs := ⟨q, by rw [hmsgs, List.append_assoc]; rfl⟩
  obtain ⟨q', rfl⟩ := all_of_handsOver hands List.prefix_rfl hat hwhole hle
  exact hat.inner p m m' q' (by rw [List.append_assoc]; rfl)

end Hands

theorem at_of_conditions (h : reads.flatten <+: stream msgs)
    (hbehind : NoneBehind deliver state msgs reads) (before : List Bytes) (hpre : before <+: reads) :
    ∃ done rest, At deliver state msgs before.flatten
      (before.foldl (Cut.read (loop deliver)) (Cut.fresh state)) done rest := by
  refine at_of_none_left h (fun before data hpre => ?_) before hpre
  intro done rest now left later tail r hat hopen hrest hbytes hran hopen'
  by_contra hne
  obtain ⟨p, m, rfl, hm⟩ := hran.cuts.stopped hne
  obtain ⟨m', left, rfl⟩ := List.exists_cons_of_ne_nil hne
  have hlives : ¬ (delivery deliver r.state p m).Closing := fun hc => by
    have := (hran.cuts.dies_iff.mpr ⟨p, m, rfl, hc⟩).resolve_right (fun hno => hno rfl)
    exact nomatch hopen'.symm.trans this
  rw [hat.reached, ← delivery_append] at hm hlives
  have hmsgs : msgs = done ++ p ++ m :: m' :: (left ++ later) := by
    rw [hat.msgs_eq, hrest]
    simp
  have hnot : ¬ stream (done ++ p ++ [m]) <+: before.flatten := fun hle => by
    have := (hat.all hopen ⟨m' :: (left ++ later), by rw [hmsgs, List.append_assoc]; rfl⟩ hle).length_le
    simp at this
  refine hm ⟨Bool.eq_false_iff.mpr fun hc => hlives (.inl hc), ?_⟩
  refine hbehind before data hpre _ m m' (left ++ later) hmsgs hnot ?_
  rw [hbytes]
  refine ⟨stream left ++ tail, ?_⟩
  simp only [stream_append, stream_cons, List.append_assoc]
  rfl

-- What has come is handed over exactly when the exceptions of the parser and the handlers
-- strike on frames that have nothing behind them, and none of them closes the socket before
-- another frame.
theorem handsOver_iff (h : reads.flatten <+: stream msgs) :
    HandsOver (loop deliver) deliver state msgs reads ↔
      NoneBehind deliver state msgs reads ∧ NoneAfter deliver state msgs reads := by
  constructor
  · exact fun hands => ⟨noneBehind_of_handsOver h hands, noneAfter_of_handsOver h hands⟩
  · rintro ⟨hbehind, hafter⟩ before hpre
    obtain ⟨done, rest, hat⟩ := at_of_conditions h hbehind before hpre
    refine ⟨done, rest, hat.msgs_eq, hat.handled, hat.reached, hat.arrived, ?_, hat.emptied,
      fun hopen => ⟨(hat.opened hopen).1, (hat.opened hopen).2.1⟩⟩
    intro arrived harr hB
    cases hopen : (before.foldl (Cut.read (loop deliver)) (Cut.fresh state)).closed with
    | false => exact hat.all hopen harr hB
    | true =>
      by_contra hnot
      obtain ⟨m', q, rfl⟩ := hat.longer harr hnot
      obtain ⟨p, m, rfl, hm⟩ := hat.closed.mp hopen
      obtain ⟨q', rfl⟩ := harr
      refine hafter p m m' (q ++ q') (by simp) ?_ hm
      refine List.IsPrefix.trans ( stream_prefix ?_) (hB.trans hpre.flatten)
      simp

-- Both readers hand over exactly the frames of a stream, in order, each once and as soon as
-- its last byte has been read, however the stream is cut, if and only if no frame with
-- another one behind it in the same read is parsed or handled with an exception, and none
-- before another one closes the socket.
theorem cut_messages_iff {msgs : List Frame} {reads : List Bytes}
    (h : reads.flatten <+: stream msgs) (state : σ) :
    (∀ (parse : Int → Bytes → Except Exn τ) (f : τ → σ → Handled σ Unit),
      HandsOver (cutMessages parse f) (parsed parse f) state msgs reads ↔
        NoneBehind (parsed parse f) state msgs reads ∧
          NoneAfter (parsed parse f) state msgs reads) ∧
    ∀ c : Client σ τ γ υ,
      HandsOver (clientHandler2 c) c.deliver state msgs reads ↔
        NoneBehind c.deliver state msgs reads ∧ NoneAfter c.deliver state msgs reads :=
  ⟨fun _ _ => handsOver_iff h, fun _ => handsOver_iff h⟩

-- Three frames in two reads: the parser raises Not_found on the first one, which has nothing
-- behind it in its read, and the handler closes the socket on the last one.
theorem cut_messages_iff_three :
    HandsOver (cutMessages (fun opcode _ => if opcode = 1 then .error .notFound else .ok opcode)
        fun opcode (n : ℕ) => ⟨n + 1, opcode = 3, .ok ()⟩)
      (parsed (fun opcode _ => if opcode = 1 then .error .notFound else .ok opcode)
        fun opcode (n : ℕ) => ⟨n + 1, opcode = 3, .ok ()⟩) 0
      [⟨1, [7], by decide⟩, ⟨2, [], by decide⟩, ⟨3, [], by decide⟩]
      [[1, 1, 0, 0, 0, 7, 2], [0, 0, 0, 0, 3, 0, 0, 0, 0]] := by
  refine ((cut_messages_iff (γ := Unit) (υ := Unit) (by decide) 0).1 _ _).mpr ⟨?_, ?_⟩
  · intro before data hpre done m m' rest hmsgs hnot hle
    rcases done with _ | ⟨x, _ | ⟨y, done⟩⟩
    · cases hmsgs
      -- the second frame does not come with the first one
      rcases before with _ | ⟨b, before⟩
      · obtain rfl := (List.cons_prefix_cons.mp hpre).1
        exact absurd hle (by decide)
      · obtain rfl := (List.cons_prefix_cons.mp hpre).1
        refine absurd ?_ hnot
        exact List.IsPrefix.trans (by decide) (List.prefix_append _ _)
    · cases hmsgs
      rfl
    · have := congrArg List.length hmsgs
      simp only [List.length_append, List.length_cons, List.length_nil] at this
      omega
  · intro done m m' rest hmsgs _
    rcases done with _ | ⟨x, _ | ⟨y, done⟩⟩
    · cases hmsgs
      exact fun hc => hc.elim (fun h => nomatch h) fun h => nomatch h
    · cases hmsgs
      exact Handled.Closing.not_fine.mt (not_not_intro ⟨rfl, rfl⟩)
    · have := congrArg List.length hmsgs
      simp only [List.length_append, List.length_cons, List.length_nil] at this
      omega

-- A parser that raises Not_found on the first frame leaves the second one, which has come
-- with it, in the buffer.
theorem cut_messages_leaves : ¬ ∀ (parse : Int → Bytes → Except Exn Unit)
    (f : Unit → ℕ → Handled ℕ Unit) (msgs : List Frame) (reads : List Bytes),
    reads.flatten = stream msgs →
      HandsOver (cutMessages parse f) (parsed parse f) 0 msgs reads := by
  intro h
  have hbad := h (fun opcode _ => if opcode = 1 then .error .notFound else .ok ())
    (fun _ n => ⟨n, false, .ok ()⟩) [⟨1, [], by decide⟩, ⟨2, [], by decide⟩]
    [[1, 0, 0, 0, 0, 2, 0, 0, 0, 0]] (by decide)
  have hok := ((handsOver_iff (by decide)).mp hbad).1 [] _ (List.prefix_refl _) [] _ _ [] rfl
    (by decide) (by decide)
  cases hok

end Mldonkey.Donkey.Cut
