import Mldonkey.Donkey.LittleEndian
import Mldonkey.Lib.Framing

-- The frames of the GUI protocol, and gui_cut_messages, which cuts the bytes of a
-- socket into messages.
namespace Mldonkey.Gui

open BigEndian (bufInt8)
open Donkey.LittleEndian

abbrev Bytes := List UInt8

def byte (i : Int) : UInt8 := .ofNat (i % 256).toNat

def strInt (s : Bytes) (pos : Nat) (i : Int) : Bytes :=
  (((s.set pos (byte i)).set (pos + 1) (byte (i / 2 ^ 8))).set (pos + 2) (byte (i / 2 ^ 16))).set
    (pos + 3) (byte (i / 2 ^ 24))

-- A message is an opcode and what its writer puts behind it; the length of both has
-- four bytes in the frame.
structure Message where
  opcode : UInt16
  payload : Bytes
  fits : payload.length + 2 < 2 ^ 32

def Message.written (m : Message) : Bytes := bufInt16 m.opcode.toNat ++ m.payload

-- gui_send, given what the writer of the message has put into the buffer.
def guiSend (written : Bytes) : Bytes :=
  let s := bufInt 0 ++ written
  strInt s 0 (s.length - 4)

-- What the handler gets: its string begins with the opcode.
def Message.call (m : Message) : Int × Bytes := (m.opcode.toNat, m.written)

inductive Outcome where
  | returns
  | notFound
  | raises
  deriving DecidableEq, Repr

-- What a call of the handler does to the reader: it may close the socket, and end with an
-- exception.
structure Called where
  closes : Bool
  outcome : Outcome
  deriving DecidableEq, Repr

-- The loop goes on behind the call, or the socket does not live on.
def Called.Fine (c : Called) : Prop := c.closes = false ∧ c.outcome = .returns

def Called.Ends (c : Called) : Prop := c.closes = true ∨ c.outcome = .raises

-- A handler, as far as the reader sees it: what its last call does, after all its calls.
abbrev Handler := List (Int × Bytes) → Called

-- `buf` holds the bytes from b.pos to b.pos + b.len, and `len` is b.len: closing the socket
-- empties the string, but leaves the length. `handled` are the calls.
structure Reader where
  buf : Bytes
  len : Nat
  handled : List (Int × Bytes)
  closed : Bool
  deriving DecidableEq, Repr

namespace Reader

def fresh : Reader := ⟨[], 0, [], false⟩

def bufUsed (r : Reader) (nused : Nat) : Reader :=
  if nused = r.len then { r with buf := [], len := 0 }
  else { r with buf := r.buf.drop nused, len := r.len - nused }

def close (r : Reader) : Reader := { r with buf := [], closed := true }

def call (r : Reader) (c : Called) : Reader := if c.closes then r.close else r

-- After a call of the handler, in the try around the loop.
def caught (o : Outcome) (r : Reader) (continued : Reader × Outcome) : Reader × Outcome :=
  match o with
  | .returns => continued
  | .notFound => (r, .returns)
  | .raises => (r, .raises)

-- The while loop. The exception that ends it is caught around it, and so is the one
-- of a handler; each round uses up at least four bytes. Behind a handler that has closed the
-- socket there is no byte to read in the string.
def cutLoop (f : Handler) : Nat → Reader → Reader × Outcome
  | 0, r => (r, .returns)
  | fuel + 1, r =>
      if 4 ≤ r.len then
        match getInt r.buf 0 with
        | none => (r, .raises)
        | some msgLen =>
            if 4 + msgLen ≤ r.len then
              match sub r.buf 4 msgLen.toNat with
              | none => (r, .raises)
              | some s =>
                  let r := r.bufUsed (msgLen.toNat + 4)
                  match getInt16 s 0 with
                  | none => (r, .raises)
                  | some opcode =>
                      let r := { r with handled := r.handled ++ [(opcode, s)] }
                      let c := f r.handled
                      let r := r.call c
                      caught c.outcome r (cutLoop f fuel r)
            else (r, .returns)
      else (r, .returns)

def guiCutMessages (f : Handler) (r : Reader) : Reader × Outcome := cutLoop f r.len r

-- A read event of an open socket. An exception that leaves the reader closes the socket.
def read (f : Handler) (r : Reader) (data : Bytes) : Reader :=
  if r.closed then r
  else
    match guiCutMessages f { r with buf := r.buf ++ data, len := r.len + data.length } with
    | (r, .raises) => r.close
    | (r, _) => r

end Reader

def Message.frame (m : Message) : Bytes := guiSend m.written

def stream (msgs : List Message) : Bytes := Lib.Framing.stream Message.frame msgs

def calls (msgs : List Message) : List (Int × Bytes) := msgs.map Message.call

-- Bytes that no whole message begins with.
def Incomplete (tail : Bytes) : Prop :=
  tail.length < 4 ∨ ∃ n, getInt tail 0 = some n ∧ tail.length < 4 + n

theorem stream_cons (m : Message) (msgs : List Message) :
    stream (m :: msgs) = m.frame ++ stream msgs := rfl

theorem stream_append (l l' : List Message) : stream (l ++ l') = stream l ++ stream l' :=
  Lib.Framing.stream_append l l'

theorem frame_eq (m : Message) : m.frame = bufInt64_32 m.written.length ++ m.written := by
  have hlen : ((bufInt 0 ++ m.written).length : Int) - 4 = m.written.length := by
    rw [List.length_append, length_bufInt]
    omega
  rw [Message.frame, guiSend]
  simp only [hlen]
  rfl

@[simp] theorem length_written (m : Message) : m.written.length = m.payload.length + 2 := by
  rw [Message.written, List.length_append, length_bufInt16, Nat.add_comm]

@[simp] theorem length_frame (m : Message) : m.frame.length = m.written.length + 4 := by
  rw [frame_eq, List.length_append, length_bufInt64_32, Nat.add_comm]

theorem getInt_frame {m : Message} {rest : Bytes} :
    getInt (bufInt64_32 m.written.length ++ rest) 0 = some (m.written.length : Int) := by
  have hfits := m.fits
  rw [getInt_bufInt64_32 List.drop_zero, length_written]
  congr 1
  omega

theorem getInt16_written (m : Message) : getInt16 m.written 0 = some (m.opcode.toNat : Int) := by
  have := m.opcode.toNat_lt
  exact getInt16_drop List.drop_zero (by omega)

theorem incomplete_of_cut {m : Message} {B : Bytes} (h : B <+: m.frame)
    (hlt : B.length < m.frame.length) : Incomplete B := by
  by_cases hshort : B.length < 4
  · exact .inl hshort
  · rw [length_frame] at hlt
    rw [frame_eq] at h
    obtain ⟨B', rfl⟩ : bufInt64_32 m.written.length <+: B :=
      List.prefix_of_prefix_length_le (List.prefix_append _ _) h (by rw [length_bufInt64_32]; omega)
    exact .inr ⟨_, getInt_frame, by omega⟩

theorem not_incomplete_of_frame {m : Message} {tail : Bytes} (h : m.frame <+: tail) :
    ¬ Incomplete tail := by
  have hle := h.length_le
  obtain ⟨rest, rfl⟩ := h
  rw [length_frame] at hle
  rintro (hlt | ⟨n, hn, hlt⟩)
  · omega
  · rw [frame_eq, List.append_assoc] at hn
    obtain rfl := Option.some.inj (getInt_frame.symm.trans hn)
    omega

theorem prefix_stream {msgs : List Message} {B : Bytes} (h : B <+: stream msgs) :
    ∃ done rest tail, msgs = done ++ rest ∧ B = stream done ++ tail ∧ Incomplete tail :=
  Lib.Framing.prefix_stream (.inl (by simp)) (fun _ _ _ => incomplete_of_cut) h

theorem Called.notFound {c : Called} (hf : ¬ c.Fine) (he : ¬ c.Ends) : c.outcome = .notFound := by
  rcases c with ⟨_ | _, _ | _ | _⟩
  · exact absurd ⟨rfl, rfl⟩ hf
  · rfl
  · exact absurd (.inr rfl) he
  all_goals exact absurd (.inl rfl) he

namespace Reader

variable {f : Handler} {r : Reader} {fuel : Nat}

theorem bufUsed_eq (hlen : r.len = r.buf.length) (nused : Nat) :
    r.bufUsed nused = { r with buf := r.buf.drop nused, len := (r.buf.drop nused).length } := by
  rw [bufUsed]
  split
  · next h =>
      rw [h, hlen, List.drop_length]
      rfl
  · rw [List.length_drop, hlen]

theorem cutLoop_incomplete (hlen : r.len = r.buf.length) (h : Incomplete r.buf) :
    cutLoop f fuel r = (r, .returns) := by
  cases fuel with
  | zero => rfl
  | succ fuel =>
      rw [cutLoop]
      rcases h with h | ⟨n, hn, hlt⟩
      · rw [if_neg (by omega)]
      · simp only [hn]
        rw [if_neg (show ¬ 4 + n ≤ (r.len : Int) by omega), ite_self]

theorem cutLoop_emptied (h : r.buf = []) : (cutLoop f fuel r).1 = r := by
  cases fuel with
  | zero => rfl
  | succ fuel =>
      rw [cutLoop, h]
      split
      · rfl
      · rfl

theorem cutLoop_frame {m : Message} {rest : Bytes} (hlen : r.len = r.buf.length)
    (hbuf : r.buf = m.frame ++ rest) :
    let c := f (r.handled ++ [m.call])
    let r' := Reader.call ⟨rest, rest.length, r.handled ++ [m.call], r.closed⟩ c
    cutLoop f (fuel + 1) r = caught c.outcome r' (cutLoop f fuel r') := by
  have hlong : r.len = m.written.length + 4 + rest.length := by
    rw [hlen, hbuf, List.length_append, length_frame]
  have hused := bufUsed_eq hlen (m.written.length + 4)
  rw [frame_eq, List.append_assoc] at hbuf
  have hget : getInt r.buf 0 = some (m.written.length : Int) := hbuf ▸ getInt_frame
  have hdrop : r.buf.drop 4 = m.written ++ rest := by
    rw [hbuf]
    rfl
  have hsub : sub r.buf 4 m.written.length = some m.written := sub_drop hdrop rfl (by omega)
  have hrest : r.buf.drop (m.written.length + 4) = rest := by
    rw [Nat.add_comm, ← List.drop_drop, hdrop, List.drop_left]
  rw [hrest] at hused
  rw [cutLoop, if_pos (by omega)]
  simp only [hget, Int.toNat_natCast, hsub, hused, getInt16_written]
  rw [if_pos (by omega)]
  rfl

-- What a run of the loop over `now ++ left` and an incomplete message makes of the reader: it
-- has handed over `now`, and the last call decides whether it leaves a message and whether the
-- socket lives on.
structure Ran (f : Handler) (r : Reader) (now left : List Message) (tail : Bytes)
    (res : Reader × Outcome) : Prop where
  handled : res.1.handled = r.handled ++ calls now
  stopped : left = [] ∨ now ≠ [] ∧ ¬ (f (r.handled ++ calls now)).Fine
  dies_iff : res.1.closed = true ∨ res.2 = .raises ↔
    now ≠ [] ∧ (f (r.handled ++ calls now)).Ends
  emptied : res.1.closed = true → res.1.buf = []
  opened : res.1.closed = false → res.1.buf = stream left ++ tail ∧ res.1.len = res.1.buf.length

theorem cutLoop_stream {msgs : List Message} {tail : Bytes} (htail : Incomplete tail)
    (hopen : r.closed = false) (hlen : r.len = r.buf.length) (hbuf : r.buf = stream msgs ++ tail)
    (hfuel : msgs.length ≤ fuel) :
    ∃ now left, msgs = now ++ left ∧ Ran f r now left tail (cutLoop f fuel r) := by
  induction msgs generalizing r fuel with
  | nil =>
      rw [cutLoop_incomplete hlen (hbuf ▸ htail)]
      refine ⟨[], [], rfl, (List.append_nil _).symm, .inl rfl, by simp [hopen], ?_,
        fun _ => ⟨hbuf, hlen⟩⟩
      rw [hopen]
      exact fun h => nomatch h
  | cons m msgs ih =>
      rw [List.length_cons] at hfuel
      obtain ⟨fuel, rfl⟩ := Nat.exists_eq_add_one_of_ne_zero (show fuel ≠ 0 by omega)
      rw [stream_cons, List.append_assoc] at hbuf
      have hframe := @cutLoop_frame f r fuel m _ hlen hbuf
      have hone : r.handled ++ calls [m] = r.handled ++ [m.call] := rfl
      generalize hc : f (r.handled ++ [m.call]) = c at hframe
      cases hcl : c.closes with
      | true =>
          have hrun : (cutLoop f (fuel + 1) r).1 =
              ⟨[], (stream msgs ++ tail).length, r.handled ++ [m.call], true⟩ := by
            rw [hframe]
            simp only [call, hcl, if_pos, close]
            cases c.outcome with
            | returns => exact cutLoop_emptied rfl
            | notFound => rfl
            | raises => rfl
          have hends : c.Ends := .inl hcl
          have hnot : ¬ c.Fine := fun h => nomatch hcl.symm.trans h.1
          generalize cutLoop f (fuel + 1) r = res at hrun
          refine ⟨[m], msgs, rfl, ?_, .inr ⟨by simp, by rwa [hone, hc]⟩, ?_, ?_, ?_⟩
          · rw [hrun]
            rfl
          · rw [hrun, hone, hc]
            exact iff_of_true (.inl rfl) ⟨by simp, hends⟩
          · rw [hrun]
            exact fun _ => rfl
          · rw [hrun]
            exact fun h => nomatch h
      | false =>
          simp only [call, hcl, Bool.false_eq_true, if_false] at hframe
          rw [hframe]
          have hstop : c.outcome ≠ .returns → ∃ now left, m :: msgs = now ++ left ∧
              Ran f r now left tail
                (⟨stream msgs ++ tail, (stream msgs ++ tail).length, r.handled ++ [m.call],
                  r.closed⟩, if c.outcome = .raises then .raises else .returns) := by
            intro hne
            have hnot : ¬ c.Fine := fun h => hne h.2
            refine ⟨[m], msgs, rfl, rfl, .inr ⟨by simp, by rwa [hone, hc]⟩, ?_,
              fun hno => absurd (hopen.symm.trans hno) (by simp), fun _ => ⟨rfl, rfl⟩⟩
            rw [hone, hc, Called.Ends, hcl, hopen]
            cases c.outcome <;> simp
          cases hout : c.outcome with
          | returns =>
              obtain ⟨now, left, rfl, hran⟩ := @ih ⟨stream msgs ++ tail,
                (stream msgs ++ tail).length, r.handled ++ [m.call], r.closed⟩ fuel hopen rfl rfl
                (by omega)
              have hcalls : r.handled ++ [m.call] ++ calls now = r.handled ++ calls (m :: now) :=
                List.append_assoc _ _ _
              refine ⟨m :: now, left, rfl, hran.handled.trans hcalls, ?_, ?_, hran.emptied,
                hran.opened⟩
              · exact hran.stopped.imp id fun h => ⟨by simp, hcalls ▸ h.2⟩
              · have hiff := hran.dies_iff
                rw [hcalls] at hiff
                refine hiff.trans (and_congr_left fun hends => iff_of_true ?_ (by simp))
                rintro rfl
                rw [hone, hc, Called.Ends, hcl, hout] at hends
                simp at hends
          | notFound =>
              have := hstop (by simp [hout])
              rwa [hout] at this
          | raises =>
              have := hstop (by simp [hout])
              rwa [hout] at this

-- Where the reader stands when the bytes B of the stream have arrived.
structure At (f : Handler) (msgs : List Message) (B : Bytes) (r : Reader) (done rest : List Message) :
    Prop where
  msgs_eq : msgs = done ++ rest
  handled : r.handled = calls done
  arrived : stream done <+: B
  closed_iff : r.closed = true ↔ done ≠ [] ∧ (f (calls done)).Ends
  emptied : r.closed = true → r.buf = []
  opened : r.closed = false → B = stream done ++ r.buf ∧ r.len = r.buf.length ∧
    (Incomplete r.buf ∨ done ≠ [] ∧ (f (calls done)).outcome = .notFound)

variable {msgs done rest now left : List Message} {B data tail : Bytes}

theorem Ran.read (hopen : r.closed = false)
    (h : Ran f r now left tail
      (guiCutMessages f { r with buf := r.buf ++ data, len := r.len + data.length })) :
    Ran f r now left tail (r.read f data, .returns) := by
  rw [Reader.read, if_neg (by simp [hopen])]
  rcases hres : guiCutMessages f { r with buf := r.buf ++ data, len := r.len + data.length }
    with ⟨r', o⟩
  rw [hres] at h
  cases o with
  | raises =>
      refine ⟨h.handled, h.stopped, ?_, fun _ => rfl, fun hno => nomatch hno⟩
      rw [← h.dies_iff]
      simp [close]
  | returns => exact h
  | notFound =>
      refine ⟨h.handled, h.stopped, ?_, h.emptied, h.opened⟩
      rw [← h.dies_iff]
      simp

theorem At.read (h : At f msgs B r done rest) (hpre : B ++ data <+: stream msgs) :
    ∃ done' rest', At f msgs (B ++ data) (r.read f data) done' rest' := by
  cases hopen : r.closed with
  | true =>
      rw [Reader.read, if_pos hopen]
      exact ⟨done, rest,
        { h with
          arrived := h.arrived.trans (List.prefix_append _ _)
          opened := fun hno => nomatch hopen.symm.trans hno }⟩
  | false =>
      obtain ⟨hbytes, hlen, -⟩ := h.opened hopen
      have hbuf : r.buf ++ data <+: stream rest := by
        rw [hbytes, h.msgs_eq, stream_append, List.append_assoc, List.prefix_append_right_inj] at hpre
        exact hpre
      obtain ⟨whole, later, tail, rfl, htail, hinc⟩ := prefix_stream hbuf
      have hlong : r.len + data.length = (r.buf ++ data).length := by
        rw [hlen, List.length_append]
      have hfuel : whole.length ≤ r.len + data.length := by
        have hle : whole.length ≤ (stream whole).length :=
          Lib.Framing.length_le_stream fun m _ => by
            rw [length_frame]
            omega
        rw [hlong, htail, List.length_append]
        omega
      obtain ⟨now, left, rfl, hran⟩ := @cutLoop_stream f
        { r with buf := r.buf ++ data, len := r.len + data.length } _ whole tail hinc hopen hlong
        htail hfuel
      have hran' : Ran f r now left tail (guiCutMessages f
          { r with buf := r.buf ++ data, len := r.len + data.length }) :=
        ⟨hran.handled, hran.stopped, hran.dies_iff, hran.emptied, hran.opened⟩
      replace hran := hran'.read hopen
      have hcalls : r.handled ++ calls now = calls (done ++ now) := by
        rw [h.handled, calls, calls, calls, List.map_append]
      have hB : B ++ data = stream (done ++ now) ++ (stream left ++ tail) := by
        rw [hbytes, List.append_assoc, htail]
        simp only [stream_append, List.append_assoc]
      have hdies : (r.read f data).closed = true ↔
          now ≠ [] ∧ (f (calls (done ++ now))).Ends := by
        rw [← hcalls, ← hran.dies_iff]
        simp
      refine ⟨done ++ now, left ++ later, ?_, hran.handled.trans hcalls, ?_, ?_, hran.emptied,
        fun hno => ?_⟩
      · rw [h.msgs_eq, List.append_assoc, List.append_assoc]
      · rw [hB]
        exact List.prefix_append _ _
      · rw [hdies]
        refine and_congr_left fun hends => ⟨fun hne => by simp [hne], fun hne => ?_⟩
        -- the last call is one of this read, since the socket was open before
        rintro rfl
        rw [List.append_nil] at hends hne
        exact nomatch hopen.symm.trans (h.closed_iff.mpr ⟨hne, hends⟩)
      · obtain ⟨hbuf', hlen'⟩ := hran.opened hno
        have hbuf' : (r.read f data).buf = stream left ++ tail := hbuf'
        refine ⟨by rw [hbuf', hB], hlen', ?_⟩
        rcases hran.stopped with rfl | ⟨hne, hf⟩
        · exact .inl (by rw [hbuf']; exact hinc)
        · refine .inr ⟨by simp [hne], ?_⟩
          rw [hcalls] at hf
          exact Called.notFound hf fun hends => nomatch hno.symm.trans (hdies.mpr ⟨hne, hends⟩)

theorem At.reads (h : At f msgs B r done rest) {reads : List Bytes}
    (hpre : B ++ reads.flatten <+: stream msgs) :
    ∃ done' rest', At f msgs (B ++ reads.flatten) (reads.foldl (Reader.read f) r) done' rest' := by
  induction reads generalizing B r done rest with
  | nil => exact ⟨done, rest, by simpa using h⟩
  | cons data reads ih =>
      rw [List.flatten_cons, ← List.append_assoc] at hpre ⊢
      obtain ⟨done', rest', h'⟩ := h.read ((List.prefix_append _ _).trans hpre)
      exact ih h' hpre

end Reader

-- However a stream is cut, the handler is called on its messages in their order. As long as the
-- socket is open the bytes of the others are in the buffer, and all whole messages are handed
-- over, unless the last call of the handler has raised Not_found. The socket is closed exactly
-- when the last call has closed it or raised another exception.
theorem gui_cut_messages_calls (f : Handler) {msgs : List Message} {reads : List Bytes}
    (h : reads.flatten <+: stream msgs) :
    let r := reads.foldl (Reader.read f) Reader.fresh
    ∃ done rest, msgs = done ++ rest ∧ r.handled = calls done ∧ stream done <+: reads.flatten ∧
      (r.closed = true ↔ done ≠ [] ∧ (f (calls done)).Ends) ∧ (r.closed = true → r.buf = []) ∧
      (r.closed = false → reads.flatten = stream done ++ r.buf ∧
        (Incomplete r.buf ∨ done ≠ [] ∧ (f (calls done)).outcome = .notFound) ∧
          (Incomplete r.buf → ∀ arrived, arrived <+: msgs → stream arrived <+: reads.flatten →
            arrived <+: done)) := by
  have hstart : Reader.At f msgs [] Reader.fresh [] msgs :=
    ⟨rfl, rfl, List.prefix_rfl, by simp [Reader.fresh], fun _ => rfl,
      fun _ => ⟨rfl, rfl, .inl (.inl (by simp [Reader.fresh]))⟩⟩
  obtain ⟨done, rest, hat⟩ := hstart.reads h
  rw [List.nil_append] at hat
  refine ⟨done, rest, hat.msgs_eq, hat.handled, hat.arrived, hat.closed_iff, hat.emptied,
    fun hopen => ?_⟩
  obtain ⟨hbytes, -, hended⟩ := hat.opened hopen
  refine ⟨hbytes, hended, fun hinc arrived harr hB => ?_⟩
  rw [hat.msgs_eq] at harr
  rw [hbytes] at hB
  exact Lib.Framing.arrived_prefix (fun _ _ => not_incomplete_of_frame) hinc harr hB

-- A handler that raises Not_found on the first message and closes the socket on the second one
def closesSecond : Handler := fun handled =>
  ⟨handled.length = 2, if handled.length = 1 then .notFound else .returns⟩

-- The third message has come with the second one.
theorem gui_cut_messages_calls_second :
    let msgs : List Message := [⟨1, [7], by decide⟩, ⟨2, [], by decide⟩, ⟨3, [], by decide⟩]
    let r := [[3, 0, 0, 0, 1, 0, 7, 2], [0, 0, 0, 2, 0, 2, 0, 0, 0, 3, 0]].foldl
      (Reader.read closesSecond) Reader.fresh
    ∃ done rest, msgs = done ++ rest ∧ r.handled = calls done ∧
      (r.closed = true ↔ done ≠ [] ∧ (closesSecond (calls done)).Ends) ∧
      (r.closed = true → r.buf = []) := by
  intro msgs r
  obtain ⟨done, rest, hmsgs, hhandled, -, hclosed, hbuf, -⟩ :=
    @gui_cut_messages_calls closesSecond msgs
      [[3, 0, 0, 0, 1, 0, 7, 2], [0, 0, 0, 2, 0, 2, 0, 0, 0, 3, 0]] (by decide)
  exact ⟨done, rest, hmsgs, hhandled, hclosed, hbuf⟩

-- A handler that raises Not_found on the first message leaves the second one, which
-- has come with it.
theorem gui_cut_messages_calls_false : ¬ ∀ (f : Handler) (msgs : List Message) (reads : List Bytes),
    reads.flatten = stream msgs →
      (reads.foldl (Reader.read f) Reader.fresh).handled = calls msgs ∧
        Incomplete (reads.foldl (Reader.read f) Reader.fresh).buf := by
  intro h
  have hbad := (h (fun _ => ⟨false, .notFound⟩) [⟨1, [7], by decide⟩, ⟨2, [], by decide⟩]
    [[3, 0, 0, 0, 1, 0, 7, 2, 0, 0, 0, 2, 0]] (by decide)).1
  exact absurd hbad (by decide)

end Mldonkey.Gui
