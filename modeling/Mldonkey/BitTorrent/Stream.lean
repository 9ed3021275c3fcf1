import Mldonkey.BitTorrent.Messages
import Mldonkey.Lib.Framing

-- bt_handler: the messages of a peer as they are cut from the bytes of its socket.
namespace Mldonkey.BitTorrent

open BigEndian

-- What a call of the handler does to the reader.
structure Called where
  closes : Bool
  raises : Bool
  deriving DecidableEq, Repr

-- The handler, as far as the reader sees it: what its last call does, after all its calls.
abbrev Handler := List (Int × Bytes) → Called

-- `buf` holds the bytes from b.pos to b.pos + b.len, and `len` is b.len: closing the socket
-- empties the string, but leaves the length. `handled` are the opcode and the payload of the
-- messages that were passed to the handler.
structure Client where
  buf : Bytes
  len : Nat
  receivedPeerId : Bool
  closed : Bool
  handled : List (Int × Bytes)
  deriving DecidableEq, Repr

namespace Client

def fresh : Client := ⟨[], 0, false, false, []⟩

def bufUsed (c : Client) (nused : Nat) : Client :=
  if nused = c.len then { c with buf := [], len := 0 }
  else { c with buf := c.buf.drop nused, len := c.len - nused }

def close (c : Client) : Client := { c with buf := [], closed := true }

def call (handler : Handler) (c : Client) (opcode : Int) (payload : Bytes) : Client :=
  let c := { c with handled := c.handled ++ [(opcode, payload)] }
  if (handler c.handled).closes then c.close else c

-- An exception of the parser or of the handler is only logged.
def deliver (handler : Handler) (c : Client) (opcode : Int) (payload : Bytes) : Client :=
  match parsing opcode payload with
  | some _ => c.call handler opcode payload
  | none => c

-- The while loop; each round uses up at least 4 bytes. Behind a handler that has closed the
-- socket there is no byte to read in the string, and the exception ends the loop.
def readLoop (handler : Handler) : Nat → Client → Client
  | 0, c => c
  | fuel + 1, c =>
      if 4 ≤ c.len then
        match getInt c.buf 0 with
        | none => c
        | some msgLen =>
            if msgLen < 0 then readLoop handler fuel (c.bufUsed c.len).close
            else if 20000 < msgLen then readLoop handler fuel (c.bufUsed c.len).close
            else if 4 + msgLen ≤ c.len then
              let c := c.bufUsed 4
              if 0 < msgLen then
                match getInt8 c.buf 0 with
                | none => c
                | some opcode =>
                    let payload := (c.buf.drop 1).take (msgLen.toNat - 1)
                    readLoop handler fuel ((c.bufUsed msgLen.toNat).deliver handler opcode payload)
              else readLoop handler fuel c
            else c
      else c

-- What is behind the peer id waits for the next event. A handler that raises an exception on
-- it closes the socket.
def btHandler (handler : Handler) (c : Client) : Client :=
  if c.receivedPeerId then readLoop handler c.len c
  else if 20 ≤ c.len then
    let payload := c.buf.take 20
    match parsing (-1) payload with
    | none => c
    | some _ =>
        let c := { c.bufUsed 20 with receivedPeerId := true }.call handler (-1) payload
        if (handler c.handled).raises then (c.bufUsed c.len).close else c
  else c

-- A read event of the socket.
def read (handler : Handler) (c : Client) (data : Bytes) : Client :=
  if c.closed then c
  else btHandler handler { c with buf := c.buf ++ data, len := c.len + data.length }

end Client

-- A message on the wire, the keep-alive included.
def frame (m : Bytes) : Bytes := bufInt m.length ++ m

def frames (msgs : List Bytes) : Bytes := (msgs.map frame).flatten

-- What a message delivers: nothing for a keep-alive, and nothing if it does not parse.
def delivers (m : Bytes) : Option (Int × Bytes) :=
  match m with
  | [] => none
  | opcode :: payload =>
      match parsing opcode.toNat payload with
      | some _ => some (opcode.toNat, payload)
      | none => none

-- Bytes that no whole message begins with.
def Incomplete (tail : Bytes) : Prop :=
  tail.length < 4 ∨ ∃ n, getInt tail 0 = some n ∧ n ≤ 20000 ∧ tail.length < 4 + n

theorem frames_cons (m : Bytes) (msgs : List Bytes) : frames (m :: msgs) = frame m ++ frames msgs := rfl

theorem frames_append (l l' : List Bytes) : frames (l ++ l') = frames l ++ frames l' := by
  rw [frames, frames, frames, List.map_append, List.flatten_append]

@[simp] theorem length_frame (m : Bytes) : (frame m).length = m.length + 4 := by
  rw [frame, List.length_append, length_bufInt]
  omega

namespace Client

variable {handler : Handler} {c : Client} {fuel : Nat}

theorem bufUsed_eq (hlen : c.len = c.buf.length) (nused : Nat) :
    c.bufUsed nused = { c with buf := c.buf.drop nused, len := (c.buf.drop nused).length } := by
  rw [bufUsed]
  split
  · next h =>
      rw [h, hlen, List.drop_length]
      rfl
  · rw [List.length_drop, hlen]

theorem bufUsed_len (c : Client) : c.bufUsed c.len = { c with buf := [], len := 0 } := if_pos rfl

theorem readLoop_incomplete (hlen : c.len = c.buf.length) (h : Incomplete c.buf) :
    readLoop handler fuel c = c := by
  cases fuel with
  | zero => rfl
  | succ fuel =>
      rw [readLoop]
      rcases h with h | ⟨n, hn, hle, hlt⟩
      · rw [if_neg (by omega)]
      · have := (getInt_range hn).1
        simp only [hn]
        rw [if_neg (show ¬ n < 0 by omega), if_neg (show ¬ 20000 < n by omega),
          if_neg (show ¬ 4 + n ≤ (c.len : Int) by omega), ite_self]

theorem readLoop_emptied (h : c.buf = []) : readLoop handler fuel c = c := by
  cases fuel with
  | zero => rfl
  | succ fuel =>
      rw [readLoop, h]
      split
      · rfl
      · rfl

-- What a message does to the client
def receive (handler : Handler) (c : Client) (m : Bytes) : Client :=
  match delivers m with
  | some (opcode, payload) => c.call handler opcode payload
  | none => c

theorem readLoop_frame {m rest : Bytes} (hlen : c.len = c.buf.length) (hm : m.length ≤ 20000)
    (hbuf : c.buf = frame m ++ rest) :
    readLoop handler (fuel + 1) c = readLoop handler fuel
      ({ c with buf := rest, len := rest.length }.receive handler m) := by
  have hget : getInt c.buf 0 = some (m.length : Int) := by
    rw [hbuf, frame, List.append_assoc]
    exact getInt_bufInt (by omega) _
  have hlong : c.len = m.length + 4 + rest.length := by
    rw [hlen, hbuf, List.length_append, length_frame]
  have hdrop : c.buf.drop 4 = m ++ rest := by
    rw [hbuf, frame, List.append_assoc]
    rfl
  have hused := bufUsed_eq hlen 4
  rw [hdrop] at hused
  have hused' := @bufUsed_eq { c with buf := m ++ rest, len := (m ++ rest).length } rfl m.length
  rw [List.drop_left] at hused'
  rw [readLoop, if_pos (by omega)]
  simp only [hget, hused]
  rw [if_neg (by omega), if_neg (by omega), if_pos (by omega)]
  cases m with
  | nil =>
      rw [if_neg (by simp)]
      rfl
  | cons opcode payload =>
      rw [if_pos (by simp)]
      have hop : getInt8 (opcode :: payload ++ rest) 0 = some (opcode.toNat : Int) := rfl
      have hpay : ((opcode :: payload ++ rest).drop 1).take
          ((opcode :: payload).length - 1) = payload := by
        simp
      simp only [hop, Int.toNat_natCast, hpay, hused', deliver, receive, delivers]
      cases parsing opcode.toNat payload <;> rfl

-- What a run of the loop over `now ++ left` and an incomplete message makes of the client: `now`
-- has been taken off and delivered, and it has stopped before the end only if the last call has
-- closed the socket.
structure Ran (handler : Handler) (c : Client) (now left : List Bytes) (tail : Bytes)
    (c' : Client) : Prop where
  handled : c'.handled = c.handled ++ now.filterMap delivers
  peerId : c'.receivedPeerId = c.receivedPeerId
  closed : c'.closed = true → c'.buf = [] ∧ (handler c'.handled).closes = true ∧
    now.filterMap delivers ≠ []
  opened : c'.closed = false → left = [] ∧ c'.buf = tail ∧ c'.len = tail.length ∧
    (now.filterMap delivers = [] ∨ (handler c'.handled).closes = false)

theorem readLoop_frames {msgs : List Bytes} {tail : Bytes} (hlen : ∀ m ∈ msgs, m.length ≤ 20000)
    (htail : Incomplete tail) (hopen : c.closed = false) (hbuf : c.buf = frames msgs ++ tail)
    (hlong : c.len = c.buf.length) (hfuel : msgs.length ≤ fuel) :
    ∃ now left, msgs = now ++ left ∧ Ran handler c now left tail (readLoop handler fuel c) := by
  induction msgs generalizing c fuel with
  | nil =>
      rw [readLoop_incomplete hlong (hbuf ▸ htail)]
      refine ⟨[], [], rfl, (List.append_nil _).symm, rfl, fun hno => ?_,
        fun _ => ⟨rfl, hbuf, ?_, .inl rfl⟩⟩
      · rw [hopen] at hno
        cases hno
      · rw [hlong, hbuf]
        rfl
  | cons m msgs ih =>
      obtain ⟨fuel, rfl⟩ := Nat.exists_eq_add_one_of_ne_zero
        (show fuel ≠ 0 by rw [List.length_cons] at hfuel; omega)
      have hfuel' : msgs.length ≤ fuel := by
        rw [List.length_cons] at hfuel
        omega
      obtain ⟨hm, hlen⟩ := List.forall_mem_cons.mp hlen
      rw [frames_cons, List.append_assoc] at hbuf
      rw [readLoop_frame hlong hm hbuf]
      -- the client behind the message
      generalize hc : ({ c with buf := _, len := _ } : Client) = c₁
      have hhandled : c₁.handled = c.handled := by rw [← hc]
      have hpeer : c₁.receivedPeerId = c.receivedPeerId := by rw [← hc]
      have hopen₁ : c₁.closed = false := by rw [← hc]; exact hopen
      have hbuf₁ : c₁.buf = frames msgs ++ tail := by rw [← hc]
      have hlong₁ : c₁.len = c₁.buf.length := by rw [← hc]
      rw [receive]
      cases hd : delivers m with
      | none =>
          obtain ⟨now, left, rfl, hran⟩ := ih hlen hopen₁ hbuf₁ hlong₁ hfuel'
          have hnow : (m :: now).filterMap delivers = now.filterMap delivers :=
            List.filterMap_cons_none hd
          refine ⟨m :: now, left, rfl, ?_, hran.peerId.trans hpeer, ?_, ?_⟩
          · rw [hnow, ← hhandled]
            exact hran.handled
          · rw [hnow]
            exact hran.closed
          · rw [hnow]
            exact hran.opened
      | some p =>
          have hone : [m].filterMap delivers = [p] := by simp [hd]
          simp only [call]
          cases hcl : (handler (c₁.handled ++ [p])).closes with
          | true =>
              rw [if_pos rfl, readLoop_emptied rfl]
              refine ⟨[m], msgs, rfl, ?_, hpeer, fun _ => ⟨rfl, hcl, by simp [hd]⟩,
                fun hno => nomatch hno⟩
              rw [hone, ← hhandled]
              rfl
          | false =>
              rw [if_neg (by simp)]
              obtain ⟨now, left, rfl, hran⟩ :=
                @ih { c₁ with handled := c₁.handled ++ [p] } fuel hlen hopen₁ hbuf₁ hlong₁ hfuel'
              have hnow : (m :: now).filterMap delivers = p :: now.filterMap delivers :=
                List.filterMap_cons_some hd
              have hcalls : c₁.handled ++ [p] ++ now.filterMap delivers =
                  c.handled ++ (m :: now).filterMap delivers := by
                rw [hnow, hhandled, List.append_assoc]
                rfl
              refine ⟨m :: now, left, rfl, hran.handled.trans hcalls, hran.peerId.trans hpeer,
                fun hno => ?_, fun hno => ?_⟩
              · exact ⟨(hran.closed hno).1, (hran.closed hno).2.1, by simp [hnow]⟩
              · obtain ⟨hleft, hb, hl, hends⟩ := hran.opened hno
                refine ⟨hleft, hb, hl, .inr ?_⟩
                rcases hends with hnil | hends
                · rw [hran.handled, hnil, List.append_nil]
                  exact hcl
                · exact hends

end Client

theorem not_incomplete_of_frame {m tail : Bytes} (hm : m.length ≤ 20000) (h : frame m <+: tail) :
    ¬ Incomplete tail := by
  obtain ⟨rest, rfl⟩ := h
  have hget : getInt (frame m ++ rest) 0 = some (m.length : Int) := by
    rw [frame, List.append_assoc]
    exact getInt_bufInt (by omega) _
  rintro (hlt | ⟨n, hn, -, hlt⟩)
  · rw [List.length_append, length_frame] at hlt
    omega
  · obtain rfl := Option.some.inj (hget.symm.trans hn)
    rw [List.length_append, length_frame] at hlt
    omega

-- The bytes that have arrived are whole messages and an incomplete one.
theorem prefix_frames {msgs : List Bytes} {B : Bytes} (hlen : ∀ m ∈ msgs, m.length ≤ 20000)
    (h : B <+: frames msgs) :
    ∃ done rest tail, msgs = done ++ rest ∧ B = frames done ++ tail ∧ Incomplete tail := by
  have hcut : ∀ m ∈ msgs, ∀ B, B <+: frame m → B.length < (frame m).length → Incomplete B := by
    intro m hmem B hB hlt
    have hm := hlen m hmem
    by_cases hshort : B.length < 4
    · exact .inl hshort
    · obtain ⟨B', rfl⟩ : bufInt m.length <+: B :=
        List.prefix_of_prefix_length_le (List.prefix_append _ _) hB
          (by rw [length_bufInt]; omega)
      rw [length_frame] at hlt
      exact .inr ⟨m.length, getInt_bufInt (by omega) _, by omega, by omega⟩
  exact Lib.Framing.prefix_stream (.inl (by simp)) hcut h

def stream (peerId : Bytes) (msgs : List Bytes) : Bytes := peerId ++ frames msgs

-- The handler gets the peer id, and then the messages in their order.
def expected (peerId : Bytes) (msgs : List Bytes) : List (Int × Bytes) :=
  (-1, peerId) :: msgs.filterMap delivers

-- The last call has closed the socket, or raised an exception on the peer id.
def Handler.Ends (handler : Handler) (calls : List (Int × Bytes)) : Prop :=
  (handler calls).closes = true ∨ calls.length = 1 ∧ (handler calls).raises = true

theorem expected_append (peerId : Bytes) (l l' : List Bytes) :
    expected peerId (l ++ l') = expected peerId l ++ l'.filterMap delivers := by
  rw [expected, expected, List.filterMap_append]
  rfl

-- An exception on a message does not end anything.
theorem Handler.ends_append (handler : Handler) {peerId : Bytes} {msgs : List Bytes}
    {calls : List (Int × Bytes)} (h : calls ≠ []) :
    handler.Ends (expected peerId msgs ++ calls) ↔
      (handler (expected peerId msgs ++ calls)).closes = true := by
  have hpos := List.length_pos_of_ne_nil h
  refine or_iff_left fun hraises => ?_
  have := hraises.1
  rw [expected, List.length_append, List.length_cons] at this
  omega

namespace Client

-- Where the client stands when the bytes B of its stream have arrived.
inductive At (handler : Handler) (peerId : Bytes) (msgs : List Bytes) (B : Bytes) : Client → Prop
  | before (h : B.length < 20) : At handler peerId msgs B ⟨B, B.length, false, false, []⟩
  | reading {done rest : List Bytes} {tail : Bytes} (hmsgs : msgs = done ++ rest)
      (hB : B = peerId ++ (frames done ++ tail)) (hlives : ¬ handler.Ends (expected peerId done)) :
      At handler peerId msgs B ⟨tail, tail.length, true, false, expected peerId done⟩
  | closed {done rest : List Bytes} {len : Nat} (hmsgs : msgs = done ++ rest)
      (hends : handler.Ends (expected peerId done)) :
      At handler peerId msgs B ⟨[], len, true, true, expected peerId done⟩

variable {handler : Handler} {peerId B data : Bytes} {msgs : List Bytes} {c : Client}

-- Once the peer id has been read, an event delivers every whole message, or the handler closes
-- the socket.
theorem read_reading {done rest : List Bytes} {tail : Bytes} (hlen : ∀ m ∈ rest, m.length ≤ 20000)
    (hpre : tail ++ data <+: frames rest) (hlives : ¬ handler.Ends (expected peerId done)) :
    ∃ now left, rest = now ++ left ∧
      ((∃ len, handler.Ends (expected peerId (done ++ now)) ∧
          read handler ⟨tail, tail.length, true, false, expected peerId done⟩ data =
            ⟨[], len, true, true, expected peerId (done ++ now)⟩) ∨
        ∃ tail', tail ++ data = frames now ++ tail' ∧ Incomplete tail' ∧
          ¬ handler.Ends (expected peerId (done ++ now)) ∧
          read handler ⟨tail, tail.length, true, false, expected peerId done⟩ data =
            ⟨tail', tail'.length, true, false, expected peerId (done ++ now)⟩) := by
  obtain ⟨whole, later, tail', rfl, htail, hinc⟩ := prefix_frames hlen hpre
  have hlen' : ∀ m ∈ whole, m.length ≤ 20000 := fun m hm => hlen m (by simp [hm])
  have hlong : tail.length + data.length = (tail ++ data).length := List.length_append.symm
  have hfuel : whole.length ≤ tail.length + data.length := by
    have hcount : whole.length ≤ (frames whole).length :=
      Lib.Framing.length_le_stream fun m _ => by rw [length_frame]; omega
    rw [hlong, htail, List.length_append]
    omega
  obtain ⟨now, left, rfl, hran⟩ := @readLoop_frames handler
    ⟨tail ++ data, tail.length + data.length, true, false, expected peerId done⟩ _ whole tail'
    hlen' hinc rfl htail hlong hfuel
  refine ⟨now, left ++ later, List.append_assoc _ _ _, ?_⟩
  have hread : read handler ⟨tail, tail.length, true, false, expected peerId done⟩ data =
      readLoop handler (tail.length + data.length)
        ⟨tail ++ data, tail.length + data.length, true, false, expected peerId done⟩ := rfl
  rw [hread]
  generalize readLoop handler (tail.length + data.length)
    ⟨tail ++ data, tail.length + data.length, true, false, expected peerId done⟩ = c' at hran
  obtain ⟨buf, len, receivedPeerId, closed, handled⟩ := c'
  obtain rfl : receivedPeerId = true := hran.peerId
  obtain rfl : handled = expected peerId done ++ now.filterMap delivers := hran.handled
  cases closed with
  | true =>
      obtain ⟨hbuf, hcloses, hne⟩ := hran.closed rfl
      obtain rfl : buf = [] := hbuf
      rw [expected_append]
      exact .inl ⟨len, (handler.ends_append hne).mpr hcloses, rfl⟩
  | false =>
      obtain ⟨rfl, hbuf, hlen, hends⟩ := hran.opened rfl
      obtain rfl : buf = tail' := hbuf
      obtain rfl : len = buf.length := hlen
      rw [List.append_nil] at htail
      rw [expected_append]
      refine .inr ⟨buf, htail, hinc, ?_, rfl⟩
      by_cases hne : now.filterMap delivers = []
      · rwa [hne, List.append_nil]
      · rw [handler.ends_append hne]
        exact fun h => nomatch (hends.resolve_left hne).symm.trans h

theorem frames_prefix {done rest : List Bytes} {tail : Bytes}
    (hpre : peerId ++ (frames done ++ tail) ++ data <+: stream peerId (done ++ rest)) :
    tail ++ data <+: frames rest := by
  rw [stream, frames_append, List.append_assoc, List.append_assoc,
    List.prefix_append_right_inj, List.prefix_append_right_inj] at hpre
  exact hpre

theorem At.read (hpid : peerId.length = 20) (hlen : ∀ m ∈ msgs, m.length ≤ 20000)
    (h : At handler peerId msgs B c) (hpre : B ++ data <+: stream peerId msgs) :
    At handler peerId msgs (B ++ data) (c.read handler data) := by
  cases h with
  | before hB =>
      have hlong : B.length + data.length = (B ++ data).length := List.length_append.symm
      show At handler peerId msgs (B ++ data)
        (btHandler handler ⟨B ++ data, B.length + data.length, false, false, []⟩)
      rw [btHandler, if_neg (by simp)]
      by_cases h20 : 20 ≤ B.length + data.length
      · obtain ⟨rest, hrest⟩ : peerId <+: B ++ data :=
          List.prefix_of_prefix_length_le (List.prefix_append _ _) hpre (by omega)
        have htake : (B ++ data).take 20 = peerId := by
          rw [← hrest]
          exact List.take_left' hpid
        have hdrop : (B ++ data).drop 20 = rest := by
          rw [← hrest]
          exact List.drop_left' hpid
        have hused := @bufUsed_eq ⟨B ++ data, B.length + data.length, false, false, []⟩ hlong 20
        rw [hdrop] at hused
        have hparse : parsing (-1) peerId = some (.peerID peerId) := by simp [parsing]
        have hcalls : [] ++ [((-1 : Int), peerId)] = expected peerId [] := rfl
        rw [if_pos h20]
        simp only [htake, hparse, hused, call, hcalls, bufUsed_len]
        cases hcl : (handler (expected peerId [])).closes with
        | true =>
            simp only [if_pos, close]
            have hends : handler.Ends (expected peerId []) := .inl hcl
            split
            · exact .closed (List.nil_append msgs).symm hends
            · exact .closed (List.nil_append msgs).symm hends
        | false =>
            simp only [Bool.false_eq_true, if_false]
            split
            · next hraises =>
                have hends : handler.Ends (expected peerId []) := .inr ⟨rfl, hraises⟩
                exact .closed (List.nil_append msgs).symm hends
            · next hraises =>
                refine .reading (List.nil_append msgs).symm hrest.symm ?_
                rintro (h | ⟨-, h⟩)
                · rw [hcl] at h
                  cases h
                · exact hraises h
      · rw [if_neg h20, hlong]
        exact .before (by omega)
  | closed hmsgs hends => exact .closed hmsgs hends
  | reading hmsgs hB hlives =>
      subst hmsgs hB
      obtain ⟨now, left, rfl, hread⟩ :=
        read_reading (fun m hm => hlen m (by simp [hm])) ( frames_prefix hpre) hlives
      rcases hread with ⟨len, hends, hread⟩ | ⟨tail', htail, -, hlives', hread⟩
      · rw [hread]
        exact .closed (List.append_assoc _ _ _).symm hends
      · rw [hread]
        refine .reading (List.append_assoc _ _ _).symm ?_ hlives'
        rw [frames_append, List.append_assoc, List.append_assoc, htail, List.append_assoc]

theorem At.reads (hpid : peerId.length = 20) (hlen : ∀ m ∈ msgs, m.length ≤ 20000)
    (h : At handler peerId msgs B c) {reads : List Bytes}
    (hpre : B ++ reads.flatten <+: stream peerId msgs) :
    At handler peerId msgs (B ++ reads.flatten) (reads.foldl (Client.read handler) c) := by
  induction reads generalizing B c with
  | nil => simpa using h
  | cons data reads ih =>
      rw [List.flatten_cons, ← List.append_assoc] at hpre ⊢
      exact ih (h.read hpid hlen ((List.prefix_append _ _).trans hpre)) hpre

-- What the state says of the messages delivered, of the bytes used up and of the socket.
theorem At.handled (h : At handler peerId msgs B c) : c.handled <+: expected peerId msgs := by
  cases h with
  | before => exact List.nil_prefix
  | reading hmsgs =>
      rw [hmsgs, expected_append]
      exact List.prefix_append _ _
  | closed hmsgs =>
      rw [hmsgs, expected_append]
      exact List.prefix_append _ _

theorem At.used (h : At handler peerId msgs B c) (hopen : c.closed = false) :
    ∃ k, B = ((peerId :: msgs.map frame).take k).flatten ++ c.buf := by
  cases h with
  | before => exact ⟨0, rfl⟩
  | closed => cases hopen
  | @reading done _ tail hmsgs hB =>
      refine ⟨done.length + 1, ?_⟩
      rw [List.take_succ_cons, hmsgs, List.map_append, List.take_left' (by simp), hB,
        List.flatten_cons, List.append_assoc]
      rfl

theorem At.closed_iff (h : At handler peerId msgs B c) :
    c.closed = true ↔ c.handled ≠ [] ∧ handler.Ends c.handled := by
  cases h with
  | before => simp
  | reading _ _ hlives => simp [hlives]
  | closed _ hends => exact iff_of_true rfl ⟨List.cons_ne_nil _ _, hends⟩

-- The next event delivers what had arrived before it, if the socket is open behind it.
theorem At.all (hpid : peerId.length = 20) (hlen : ∀ m ∈ msgs, m.length ≤ 20000)
    (h : At handler peerId msgs B c) (hpre : B ++ data <+: stream peerId msgs) {arrived : List Bytes}
    (harr : arrived <+: msgs) (hB : stream peerId arrived <+: B)
    (hopen : (c.read handler data).closed = false) :
    expected peerId arrived <+: (c.read handler data).handled := by
  cases h with
  | before hlt =>
      have := hB.length_le
      rw [stream, List.length_append] at this
      omega
  | closed => cases hopen
  | @reading done rest tail hmsgs hB' hlives =>
      subst hmsgs hB'
      obtain ⟨now, left, rfl, hread⟩ :=
        read_reading (fun m hm => hlen m (by simp [hm])) ( frames_prefix hpre) hlives
      rcases hread with ⟨len, hends, hread⟩ | ⟨tail', htail, hinc, hlives', hread⟩
      · rw [hread] at hopen
        cases hopen
      · have hprefix : arrived <+: done ++ now := by
          have hframes := hB.trans (List.prefix_append _ data)
          rw [stream, List.append_assoc, List.append_assoc, List.prefix_append_right_inj,
            htail, ← List.append_assoc, ← frames_append] at hframes
          have hwhole : ∀ m ∈ arrived, frame m <+: tail' → ¬ Incomplete tail' := fun m hm hle =>
            not_incomplete_of_frame (hlen m (harr.subset hm)) hle
          rw [← List.append_assoc] at harr
          exact Lib.Framing.arrived_prefix hwhole hinc harr hframes
        obtain ⟨more, hmore⟩ := hprefix
        rw [hread, ← hmore, expected_append]
        exact List.prefix_append _ _

end Client

-- However a stream is cut, the handler gets a prefix of its messages, and the socket is closed
-- exactly when the last call has closed it, or raised an exception on the peer id. As long as it
-- is open the buffer has lost whole messages only, and an event delivers all that had arrived
-- before.
theorem bt_handler_frames (handler : Handler) {peerId : Bytes} (hpid : peerId.length = 20)
    {msgs : List Bytes} (hlen : ∀ m ∈ msgs, m.length ≤ 20000) {reads : List Bytes} {data : Bytes}
    (hreads : reads.flatten ++ data <+: stream peerId msgs) :
    let c := reads.foldl (Client.read handler) Client.fresh
    c.handled <+: expected peerId msgs ∧
      (c.closed = true ↔ c.handled ≠ [] ∧ handler.Ends c.handled) ∧
      (c.closed = false →
        ∃ k, reads.flatten = ((peerId :: msgs.map frame).take k).flatten ++ c.buf) ∧
      ∀ arrived, arrived <+: msgs → stream peerId arrived <+: reads.flatten →
        (c.read handler data).closed = false →
          expected peerId arrived <+: (c.read handler data).handled := by
  have hstart : Client.At handler peerId msgs [] Client.fresh := .before (by simp)
  have hpre : [] ++ reads.flatten <+: stream peerId msgs := (List.prefix_append _ data).trans hreads
  have hat := hstart.reads hpid hlen hpre
  rw [List.nil_append] at hat
  exact ⟨hat.handled, hat.closed_iff, hat.used,
    fun arrived harr hB hopen => hat.all hpid hlen hreads harr hB hopen⟩

-- A handler that raises an exception on each message, and closes the socket on the third call
def closesThird : Handler := fun handled => ⟨handled.length = 3, 1 < handled.length⟩

-- The first message comes in two events, and the third message is behind the one that closes the
-- socket.
theorem bt_handler_frames_closed :
    let c := [List.replicate 20 7 ++ [0, 0, 0, 5, 4, 0], [0, 0, 1], [0, 0, 0, 0, 0, 0, 0, 1, 2,
      0, 0, 0, 1, 3]].foldl (Client.read closesThird) Client.fresh
    c.handled <+: expected (List.replicate 20 7) [[4, 0, 0, 0, 1], [], [2], [3]] ∧
      (c.closed = true ↔ c.handled ≠ [] ∧ closesThird.Ends c.handled) := by
  have h := @bt_handler_frames closesThird (List.replicate 20 7) (by decide)
    [[4, 0, 0, 0, 1], [], [2], [3]] (by decide) [List.replicate 20 7 ++ [0, 0, 0, 5, 4, 0],
      [0, 0, 1], [0, 0, 0, 0, 0, 0, 0, 1, 2, 0, 0, 0, 1, 3]] [] (by decide)
  exact ⟨h.1, h.2.1⟩

-- The opcode and the payload of a message, whatever they are.
def pair (m : Bytes) : Option (Int × Bytes) :=
  match m with
  | [] => none
  | opcode :: payload => some (opcode.toNat, payload)

-- No message has the opcode 10: it is left out, and the next one is delivered.
theorem bt_handler_frames_false : ¬ ∀ (handler : Handler) (peerId : Bytes)
    (msgs reads : List Bytes), peerId.length = 20 → (∀ m ∈ msgs, m.length ≤ 20000) →
      reads.flatten <+: stream peerId msgs →
      (reads.foldl (Client.read handler) Client.fresh).handled <+:
        (-1, peerId) :: msgs.filterMap pair := by
  intro h
  have hbad := h (fun _ => ⟨false, false⟩) (List.replicate 20 7) [[10], [2]]
    [List.replicate 20 7, [0, 0, 0, 1, 10, 0, 0, 0, 1, 2]] (by decide) (by decide) (by decide)
  exact absurd hbad (by decide)

end Mldonkey.BitTorrent
