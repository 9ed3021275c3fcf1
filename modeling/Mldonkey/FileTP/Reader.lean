import Mldonkey.FileTP.Header

-- The body that follows a reply: the reader that client_parse_header installs.
namespace Mldonkey.FileTP

open Bencode (Bytes chr ofString)

-- The buffer of a socket: `len` bytes of `buf`, from `pos` on.
structure Buffer where
  buf : Bytes
  pos : Int
  len : Int

def bufUsed (b : Buffer) (nused : Int) : Buffer :=
  if nused = b.len then ⟨[], 0, 0⟩ else { b with len := b.len - nused, pos := b.pos + nused }

-- The bytes of a read, wherever the string is moved for them.
def Buffer.add (b : Buffer) (data : Bytes) : Buffer :=
  { b with buf := b.buf.take (b.pos + b.len).toNat ++ data, len := b.len + data.length }

-- A call of CommonSwarming.received: the offset, how many bytes of the buffer it was
-- given, how many there were, and the bytes.
structure Pass where
  offset : Int64
  nread : Int
  available : Int
  bytes : Bytes

inductive Mode where
  | reader
  | header
  | closed
deriving DecidableEq

structure Reading where
  counterPos : Int64
  b : Buffer
  ranges : List (Int64 × Int64)
  passed : List Pass
  mode : Mode

-- Int64.to_int: the lower 63 bits
def toInt63 (x : Int64) : Int := Int.bmod x.toInt (2 ^ 63)

-- One call of the reader, and whether it raised an exception. The exception at the
-- end of the last range leaves the reader where it is.
def readerCall (endPos : Int64) (downloading : Bool) (st : Reading) : Reading × Bool :=
  if downloading = false then ({ st with mode := .closed }, true)
  else
    let avail := Int64.ofInt st.b.len
    let toRead := if endPos - st.counterPos ≤ avail then endPos - st.counterPos else avail
    let toReadInt := toInt63 toRead
    let bytes := (st.b.buf.drop st.b.pos.toNat).take toReadInt.toNat
    let st := { st with
      passed := st.passed ++ [⟨st.counterPos, toReadInt, st.b.len, bytes⟩]
      b := bufUsed st.b toReadInt
      counterPos := st.counterPos + toRead }
    if st.counterPos = endPos then
      match st.ranges with
      | [] => (st, true)
      | _ :: tail =>
          if tail = [] then ({ st with ranges := tail }, true)
          else ({ st with ranges := tail, mode := .header }, false)
    else (st, false)

-- iter_read, as long as the reader is the handler: what the header handler then does
-- with the rest of the buffer is the next reply.
def iterRead (endPos : Int64) (downloading : Bool) (st : Reading) : Reading :=
  if _ : 0 < st.b.len then
    let r := readerCall endPos downloading st
    if _ : (r.2 = false ∧ r.1.mode = .reader) ∧ r.1.b.len < st.b.len then
      iterRead endPos downloading r.1
    else r.1
  else st
termination_by st.b.len.toNat
decreasing_by exact (Int.toNat_lt_toNat ‹0 < st.b.len›).2 (And.right ‹_ ∧ _›)

-- What a read brings: bytes, and whether the file is still being downloaded then. A
-- buffer that is too small for it closes the connection.
def onRead (maxBufSize : Fin (2 ^ 62)) (endPos : Int64) (st : Reading) (event : Bytes × Bool) :
    Reading :=
  if st.mode = .reader then
    if st.b.len + event.1.length ≤ maxBufSize.val then
      iterRead endPos event.2 { st with b := st.b.add event.1 }
    else { st with mode := .closed }
  else st

-- The reader as it is installed, with what has come behind the header as the
-- first of the reads.
def start (startPos : Int64) (ranges : List (Int64 × Int64)) : Reading :=
  { counterPos := startPos, b := ⟨[], 0, 0⟩, ranges, passed := [], mode := .reader }

def body (maxBufSize : Fin (2 ^ 62)) (startPos endPos : Int64) (ranges : List (Int64 × Int64))
    (events : List (Bytes × Bool)) : Reading :=
  events.foldl (onRead maxBufSize endPos) (start startPos ranges)

def arrived (events : List (Bytes × Bool)) : Bytes := (events.map Prod.fst).flatten

def data (passed : List Pass) : Bytes := (passed.map Pass.bytes).flatten

-- What has been passed is what has arrived, piece by piece from `startPos` on and no
-- further than `endPos`.
structure Faithful (startPos endPos : Int64) (bytes : Bytes) (st : Reading) : Prop where
  offsets : ∀ l p r, st.passed = l ++ p :: r → p.offset.toInt = startPos.toInt + (data l).length
  bounded : ∀ p ∈ st.passed, 0 ≤ p.nread ∧ p.nread ≤ p.available ∧ p.bytes.length = p.nread
  counter : st.counterPos.toInt = startPos.toInt + (data st.passed).length
  counter_le : st.counterPos ≤ endPos
  arrived : data st.passed <+: bytes
  all : st.mode ≠ .closed → data st.passed = bytes.take (endPos.toInt - startPos.toInt).toNat
  header : st.mode = .header → st.counterPos = endPos

-- A body that is read right, however it is cut: the header mode comes back at its end
-- and where further ranges are to come.
def ReadRight (startPos endPos : Int64) : Prop :=
  ∀ maxBufSize ranges events,
    Faithful startPos endPos (arrived events) (body maxBufSize startPos endPos ranges events) ∧
    ((body maxBufSize startPos endPos ranges events).mode = .reader →
      (body maxBufSize startPos endPos ranges events).counterPos = endPos →
      (body maxBufSize startPos endPos ranges events).passed = [] ∨ ranges.length < 2)

-- A range that is one of the file, and whose length is an Int64.
structure Span (size startPos endPos : Int64) : Prop where
  le : startPos ≤ endPos
  le_size : endPos ≤ size
  length : endPos.toInt - startPos.toInt < 2 ^ 63

section Body

variable {startPos endPos size : Int64} {st : Reading} {bytes new : Bytes}
  {ranges : List (Int64 × Int64)} {downloading : Bool}

-- The reader between two reads. Where it stays at the end of the last range, bytes
-- pile up behind it.
structure Waiting (endPos : Int64) (ranges : List (Int64 × Int64)) (bytes : Bytes)
    (st : Reading) : Prop where
  pos : 0 ≤ st.b.pos
  len : 0 ≤ st.b.len
  buf : (st.b.buf.length : Int) = st.b.pos + st.b.len
  rest : data st.passed ++ st.b.buf.drop st.b.pos.toNat = bytes
  again : st.ranges = ranges ∧ (st.passed = [] ∨ st.counterPos ≠ endPos) ∨ ranges.length < 2

theorem data_append (l : List Pass) (p : Pass) : data (l ++ [p]) = data l ++ p.bytes := by
  simp [data]

theorem toInt_sub_of_span {a b : Int64} (h : a.toInt ≤ b.toInt) (hlt : b.toInt - a.toInt < 2 ^ 63) :
    (b - a).toInt = b.toInt - a.toInt := by
  rw [Int64.toInt_sub]
  exact Int.bmod_eq_of_le (by omega) (by omega)

theorem toInt_ofInt_of_lt {n : Int} (h : 0 ≤ n) (hlt : n < 2 ^ 62) : (Int64.ofInt n).toInt = n := by
  exact Int64.toInt_ofInt_of_le (by omega) (by omega)

-- Bytes that come when nothing is read any more.
theorem Faithful.extend (h : Faithful startPos endPos bytes st) (hmode : st.mode ≠ .reader)
    (new : Bytes) : Faithful startPos endPos (bytes ++ new) st where
  offsets := h.offsets
  bounded := h.bounded
  counter := h.counter
  counter_le := h.counter_le
  arrived := h.arrived.trans (List.prefix_append ..)
  header := h.header
  all := by
    intro hclosed
    have hheader : st.mode = .header := by
      cases hm : st.mode <;> simp_all
    have hlen : (data st.passed).length = (endPos.toInt - startPos.toInt).toNat := by
      have := h.counter
      rw [h.header hheader] at this
      omega
    rw [← hlen]
    exact List.prefix_iff_eq_take.1 (h.arrived.trans (List.prefix_append ..))

-- The connection is closed in the middle.
theorem Faithful.close (h : Faithful startPos endPos bytes st) (b : Buffer) (new : Bytes) :
    Faithful startPos endPos (bytes ++ new) { st with b, mode := .closed } where
  offsets := h.offsets
  bounded := h.bounded
  counter := h.counter
  counter_le := h.counter_le
  arrived := h.arrived.trans (List.prefix_append ..)
  header := by simp
  all := by simp

-- How many bytes the reader takes: what is left of the range, or all there are.
theorem toRead_eq (hspan : Span size startPos endPos) (hcounter : startPos.toInt ≤ st.counterPos.toInt)
    (hle : st.counterPos ≤ endPos) (hlen : 0 ≤ st.b.len) (hmax : st.b.len < 2 ^ 62) :
    ∃ k : Int64, (if endPos - st.counterPos ≤ Int64.ofInt st.b.len then endPos - st.counterPos
        else Int64.ofInt st.b.len) = k ∧
      k.toInt = min (endPos.toInt - st.counterPos.toInt) st.b.len ∧ toInt63 k = k.toInt := by
  have hle' : st.counterPos.toInt ≤ endPos.toInt := Int64.le_iff_toInt_le.1 hle
  have hsub := toInt_sub_of_span hle' (by have := hspan.length; omega)
  have hofInt := toInt_ofInt_of_lt hlen hmax
  refine ⟨_, rfl, ?_, ?_⟩
  · split
    · next h =>
        rw [Int64.le_iff_toInt_le, hsub, hofInt] at h
        omega
    · next h =>
        rw [Int64.le_iff_toInt_le, hsub, hofInt] at h
        omega
  · rw [toInt63]
    refine Int.bmod_eq_of_le ?_ ?_
    · split <;> omega
    · split
      · next h =>
          rw [Int64.le_iff_toInt_le, hsub, hofInt] at h
          omega
      · omega

theorem Waiting.bytes_length (hw : Waiting endPos ranges bytes st) :
    (st.b.buf.drop st.b.pos.toNat).length = st.b.len.toNat := by
  have := hw.pos
  have := hw.len
  have := hw.buf
  rw [List.length_drop]
  omega

theorem bufUsed_spec (hw : Waiting endPos ranges bytes st) {n : Int} (hn : 0 ≤ n) :
    0 ≤ (bufUsed st.b n).pos ∧ (bufUsed st.b n).len = st.b.len - n ∧
      ((bufUsed st.b n).buf.length : Int) = (bufUsed st.b n).pos + (bufUsed st.b n).len ∧
      (bufUsed st.b n).buf.drop (bufUsed st.b n).pos.toNat =
        (st.b.buf.drop st.b.pos.toNat).drop n.toNat := by
  have hpos := hw.pos
  have hbuf := hw.buf
  rw [bufUsed]
  split
  · next h =>
      refine ⟨le_refl _, by simp [h], by simp, ?_⟩
      exact (List.drop_eq_nil_of_le (by rw [hw.bytes_length]; omega)).symm
  · refine ⟨by simp only; omega, rfl, by simp only; omega, ?_⟩
    rw [List.drop_drop, Int.toNat_add hpos hn]

-- What one call of the reader passes: what is left of the range, or all there is.
theorem Faithful.pass (hf : Faithful startPos endPos bytes st)
    (hw : Waiting endPos ranges (bytes ++ new) st) {k : Int64}
    (hk : k.toInt = min (endPos.toInt - st.counterPos.toInt) st.b.len) (b : Buffer)
    (ranges' : List (Int64 × Int64)) (mode : Mode)
    (hmode : mode = .header → st.counterPos + k = endPos) :
    (st.counterPos + k).toInt = st.counterPos.toInt + k.toInt ∧
    Faithful startPos endPos (bytes ++ new)
      { counterPos := st.counterPos + k, b, ranges := ranges', mode
        passed := st.passed ++ [⟨st.counterPos, k.toInt, st.b.len,
          (st.b.buf.drop st.b.pos.toNat).take k.toInt.toNat⟩] } := by
  have hle := Int64.le_iff_toInt_le.1 hf.counter_le
  have hcounter := hf.counter
  have hlen := hw.len
  have hsum : (st.counterPos + k).toInt = st.counterPos.toInt + k.toInt := by
    have hend := Int64.toInt_lt endPos
    have hstart := Int64.le_toInt startPos
    rw [Int64.toInt_add]
    exact Int.bmod_eq_of_le (by omega) (by omega)
  have htake : ((st.b.buf.drop st.b.pos.toNat).take k.toInt.toNat).length = k.toInt.toNat := by
    rw [List.length_take, hw.bytes_length]
    omega
  have hprefix : data (st.passed ++ [⟨st.counterPos, k.toInt, st.b.len,
      (st.b.buf.drop st.b.pos.toNat).take k.toInt.toNat⟩]) <+: bytes ++ new := by
    rw [data_append, ← hw.rest]
    exact (List.prefix_append_right_inj _).2 (List.take_prefix ..)
  have hnew : ((st.counterPos + k).toInt : Int) = startPos.toInt + (data (st.passed ++
      [⟨st.counterPos, k.toInt, st.b.len,
        (st.b.buf.drop st.b.pos.toNat).take k.toInt.toNat⟩])).length := by
    rw [data_append, List.length_append, htake, hsum, hcounter]
    omega
  refine ⟨hsum, ?_, ?_, hnew, ?_, hprefix, fun _ => ?_, hmode⟩
  · intro l p r heq
    rcases List.eq_nil_or_concat r with rfl | ⟨r, q, rfl⟩
    · obtain ⟨rfl, hp⟩ := List.append_inj' heq rfl
      rw [← (List.cons.inj hp).1]
      exact hcounter
    · rw [List.concat_eq_append, ← List.cons_append, ← List.append_assoc] at heq
      exact hf.offsets l p r (List.append_inj' heq rfl).1
  · intro p hp
    rcases List.mem_append.1 hp with hp | hp
    · exact hf.bounded p hp
    · rw [List.mem_singleton.1 hp]
      refine ⟨by simp only; omega, by simp only; omega, ?_⟩
      simp only [htake]
      omega
  · rw [Int64.le_iff_toInt_le, hsum]
    omega
  · by_cases hall : k.toInt = st.b.len
    · have hdata : data (st.passed ++ [⟨st.counterPos, k.toInt, st.b.len,
          (st.b.buf.drop st.b.pos.toNat).take k.toInt.toNat⟩]) = bytes ++ new := by
        rw [data_append, List.take_of_length_le (by rw [hw.bytes_length, hall]), hw.rest]
      rw [hdata, List.take_of_length_le]
      rw [hdata] at hnew
      omega
    · have hn : (data (st.passed ++ [⟨st.counterPos, k.toInt, st.b.len,
          (st.b.buf.drop st.b.pos.toNat).take k.toInt.toNat⟩])).length =
          (endPos.toInt - startPos.toInt).toNat := by
        omega
      rw [← hn]
      exact List.prefix_iff_eq_take.1 hprefix

theorem readerCall_spec (downloading : Bool) (hspan : Span size startPos endPos)
    (hf : Faithful startPos endPos bytes st) (hmode : st.mode = .reader)
    (hw : Waiting endPos ranges (bytes ++ new) st) (hmax : st.b.len < 2 ^ 62) :
    Faithful startPos endPos (bytes ++ new) (readerCall endPos downloading st).1 ∧
      ((readerCall endPos downloading st).1.mode = .reader →
        Waiting endPos ranges (bytes ++ new) (readerCall endPos downloading st).1 ∧
        ((readerCall endPos downloading st).2 = false →
          (readerCall endPos downloading st).1.b.len = 0)) := by
  cases downloading with
  | false => exact ⟨hf.close st.b new, by simp [readerCall]⟩
  | true =>
      have hcounter := hf.counter
      obtain ⟨k, hk, hkmin, hk63⟩ := toRead_eq hspan (by omega) hf.counter_le hw.len hmax
      have hle := Int64.le_iff_toInt_le.1 hf.counter_le
      have hlen := hw.len
      obtain ⟨hpos, hblen, hbuf, hdrop⟩ := @bufUsed_spec _ _ _ _ hw k.toInt (by omega)
      have hrest : data (st.passed ++ [⟨st.counterPos, k.toInt, st.b.len,
          (st.b.buf.drop st.b.pos.toNat).take k.toInt.toNat⟩]) ++
          (bufUsed st.b k.toInt).buf.drop (bufUsed st.b k.toInt).pos.toNat = bytes ++ new := by
        rw [hdrop, data_append, List.append_assoc, List.take_append_drop, hw.rest]
      simp only [readerCall, Bool.true_eq_false, if_false, hk, hk63]
      by_cases hend : st.counterPos + k = endPos
      · simp only [hend, if_true]
        cases hranges : st.ranges with
        | nil =>
            have := (hf.pass hw hkmin (bufUsed st.b k.toInt) [] st.mode fun _ => hend).2
            rw [hend] at this
            refine ⟨this, fun _ => ⟨⟨hpos, by simp only; omega, hbuf, hrest, .inr ?_⟩, by simp⟩⟩
            rcases hw.again with ⟨hsame, -⟩ | hshort
            · simp [← hsame, hranges]
            · exact hshort
        | cons r tail =>
            by_cases htail : tail = []
            · have := (hf.pass hw hkmin (bufUsed st.b k.toInt) tail st.mode fun _ => hend).2
              rw [hend] at this
              simp only [htail, if_true] at this ⊢
              refine ⟨this, fun _ => ⟨⟨hpos, by simp only; omega, hbuf, hrest, .inr ?_⟩, by simp⟩⟩
              rcases hw.again with ⟨hsame, -⟩ | hshort
              · simp [← hsame, hranges, htail]
              · exact hshort
            · have := (hf.pass hw hkmin (bufUsed st.b k.toInt) tail .header fun _ => hend).2
              rw [hend] at this
              simp only [htail, if_false]
              exact ⟨this, by simp⟩
      · have hpass := hf.pass hw hkmin (bufUsed st.b k.toInt) st.ranges st.mode fun hm =>
          absurd (hmode.symm.trans hm) (by decide)
        simp only [hend, if_false]
        refine ⟨hpass.2, fun hm => ⟨⟨hpos, by simp only; omega, hbuf, hrest, ?_⟩, fun _ => ?_⟩⟩
        · rcases hw.again with ⟨hsame, -⟩ | hshort
          · exact .inl ⟨hsame, .inr hend⟩
          · exact .inr hshort
        · have hne : (st.counterPos + k).toInt ≠ endPos.toInt := fun h => hend (Int64.toInt_inj.1 h)
          rw [hpass.1] at hne
          simp only [hblen]
          omega

theorem iterRead_spec (hspan : Span size startPos endPos)
    (hf : Faithful startPos endPos bytes st) (hmode : st.mode = .reader)
    (hw : Waiting endPos ranges (bytes ++ new) st) (hmax : st.b.len < 2 ^ 62) :
    Faithful startPos endPos (bytes ++ new) (iterRead endPos downloading st) ∧
      ((iterRead endPos downloading st).mode = .reader →
        Waiting endPos ranges (bytes ++ new) (iterRead endPos downloading st)) := by
  obtain ⟨hf', hw'⟩ := readerCall_spec downloading hspan hf hmode hw hmax
  rw [iterRead]
  by_cases hlen : 0 < st.b.len
  · simp only [hlen, dite_true]
    split
    · next h =>
        -- the buffer is empty then, and the loop ends
        have hempty := (hw' h.1.2).2 h.1.1
        rw [iterRead, dif_neg (by omega)]
        exact ⟨hf', fun hm => (hw' hm).1⟩
    · exact ⟨hf', fun hm => (hw' hm).1⟩
  · have hzero : st.b.len = 0 := by
      have := hw.len
      omega
    have hnil : st.b.buf.drop st.b.pos.toNat = [] :=
      List.eq_nil_of_length_eq_zero (by rw [hw.bytes_length, hzero]; rfl)
    have hrest := hw.rest
    rw [hnil, List.append_nil] at hrest
    simp only [hlen, dite_false]
    refine ⟨⟨hf.offsets, hf.bounded, hf.counter, hf.counter_le, by rw [hrest], fun _ => ?_,
      hf.header⟩, fun _ => hw⟩
    rw [hrest, List.take_of_length_le]
    have hcounter := hf.counter
    have := Int64.le_iff_toInt_le.1 hf.counter_le
    rw [hrest] at hcounter
    omega

theorem onRead_spec (maxBufSize : Fin (2 ^ 62)) (hspan : Span size startPos endPos) (event : Bytes × Bool)
    (hf : Faithful startPos endPos bytes st)
    (hw : st.mode = .reader → Waiting endPos ranges bytes st) :
    Faithful startPos endPos (bytes ++ event.1) (onRead maxBufSize endPos st event) ∧
      ((onRead maxBufSize endPos st event).mode = .reader →
        Waiting endPos ranges (bytes ++ event.1) (onRead maxBufSize endPos st event)) := by
  rw [onRead]
  by_cases hmode : st.mode = .reader
  · rw [if_pos hmode]
    split
    · next hfits =>
        obtain ⟨hpos, hlen, hbuf, hrest, hagain⟩ := hw hmode
        have htake : st.b.buf.take (st.b.pos + st.b.len).toNat = st.b.buf :=
          List.take_of_length_le (by omega)
        have hmax := maxBufSize.isLt
        have hfadd : Faithful startPos endPos bytes { st with b := st.b.add event.1 } :=
          ⟨hf.offsets, hf.bounded, hf.counter, hf.counter_le, hf.arrived, hf.all, hf.header⟩
        refine iterRead_spec hspan hfadd hmode ⟨hpos, ?_, ?_, ?_, hagain⟩ ?_
        · simp only [Buffer.add]
          omega
        · simp only [Buffer.add, htake, List.length_append]
          omega
        · simp only [Buffer.add, htake]
          rw [List.drop_append_of_le_length (by omega), ← List.append_assoc, hrest]
        · simp only [Buffer.add]
          omega
    · exact ⟨hf.close st.b event.1, by simp⟩
  · rw [if_neg hmode]
    exact ⟨hf.extend hmode event.1, fun h => absurd h hmode⟩

-- Where the range is one of the file, the body is read right.
theorem Span.readRight (hspan : Span size startPos endPos) : ReadRight startPos endPos := by
  intro maxBufSize ranges events
  have hstart : Faithful startPos endPos [] (start startPos ranges) :=
    ⟨by simp [start], by simp [start], by simp [start, data], hspan.le, by simp [start, data],
      by simp [start, data], by simp [start]⟩
  have hwait : (start startPos ranges).mode = .reader →
      Waiting endPos ranges [] (start startPos ranges) := fun _ =>
    ⟨le_refl _, le_refl _, by simp [start], by simp [start, data], .inl ⟨rfl, .inl rfl⟩⟩
  have hrun : ∀ (events : List (Bytes × Bool)) (bytes : Bytes) (st : Reading),
      Faithful startPos endPos bytes st → (st.mode = .reader → Waiting endPos ranges bytes st) →
      Faithful startPos endPos (bytes ++ arrived events)
          (events.foldl (onRead maxBufSize endPos) st) ∧
        ((events.foldl (onRead maxBufSize endPos) st).mode = .reader →
          Waiting endPos ranges (bytes ++ arrived events)
            (events.foldl (onRead maxBufSize endPos) st)) := by
    intro events
    induction events with
    | nil =>
        intro bytes st hf hw
        simpa [arrived] using ⟨hf, hw⟩
    | cons event events ih =>
        intro bytes st hf hw
        have := ih _ _ (onRead_spec maxBufSize hspan event hf hw).1
          (onRead_spec maxBufSize hspan event hf hw).2
        rwa [List.append_assoc] at this
  obtain ⟨hf, hw⟩ := hrun events [] _ hstart hwait
  refine ⟨hf, fun hm hend => ?_⟩
  rcases (hw hm).again with ⟨-, hpassed | hne⟩ | hshort
  · exact .inl hpassed
  · exact absurd hend hne
  · exact .inr hshort

end Body

-- Which replies of an HTTP mirror are to be trusted.

open Bencode (int64OfString)

-- The range that is selected is one of the file, and its body is read right.
def Trusty (header : Bytes) (request : Option (List (Int64 × Int64))) (size : Int64) : Prop :=
  ∀ startPos endPos, clientParseHeader header request size = some (startPos, endPos) →
    startPos ≤ endPos ∧ endPos ≤ size ∧ ReadRight startPos endPos

-- What would have to be checked of the numbers in a Content-Range.
def Named.Fits (size : Int64) : Named → Prop
  | .star => 0 ≤ size
  | .upTo x y => Span size x (y + 1)
  | .full x y z => if y = z then Span size (x - 1) size else Span size x (y + 1)

-- And of a reply: the numbers that it names, or else the range that was requested,
-- where the reply is taken to be one to that.
def Fits (header : Bytes) (request : Option (List (Int64 × Int64))) (size : Int64) : Prop :=
  ∀ ranges code headers, request = some ranges → parseReply header = some (code, headers) →
    match namedRange headers with
    | some named => named.Fits size
    | none => ∀ len startPos endPos rest, ranges = (startPos, endPos) :: rest →
        (code = 206 ∨ code = 200) →
        (findHeader headers "content-length").bind int64OfString = some len →
        len = endPos - startPos → Span size startPos endPos

variable {startPos endPos size : Int64} {header : Bytes} {request : Option (List (Int64 × Int64))}

-- A range with a length that is no Int64: the first read is counted as the whole of it.
theorem counterPos_of_overflow
    (hlen : 2 ^ 63 ≤ endPos.toInt - startPos.toInt) :
    (body ⟨1, by norm_num⟩ startPos endPos [] [([0], true)]).counterPos = endPos := by
  have hneg : endPos - startPos ≤ 1 := by
    have := Int64.toInt_lt endPos
    have := Int64.le_toInt startPos
    have hone : (1 : Int64).toInt = 1 := by decide
    have hsub : (endPos - startPos).toInt = endPos.toInt - startPos.toInt - 2 ^ 64 := by
      rw [Int64.toInt_sub, Int.bmod_def, Int.emod_eq_of_lt (by omega) (by omega), if_neg (by omega)]
      norm_num
    rw [Int64.le_iff_toInt_le, hone, hsub]
    omega
  have hend : startPos + (endPos - startPos) = endPos := by
    rw [Int64.add_comm, Int64.sub_add_cancel]
  simp only [body, List.foldl_cons, List.foldl_nil, onRead, start, if_true, List.length_singleton,
    Buffer.add]
  rw [if_pos (by norm_num), iterRead, dif_pos (by norm_num)]
  simp [readerCall, hneg, hend]

theorem span_of_readRight (hle : startPos ≤ endPos) (hsize : endPos ≤ size)
    (h : ReadRight startPos endPos) : Span size startPos endPos := by
  refine ⟨hle, hsize, ?_⟩
  by_contra hlen
  have hread := (h ⟨1, by norm_num⟩ [] [([0], true)]).1
  have hcounter := hread.counter
  rw [counterPos_of_overflow (by omega)] at hcounter
  have := hread.arrived.length_le
  simp only [arrived, List.map_cons, List.map_nil, List.flatten_cons, List.flatten_nil,
    List.append_nil, List.length_singleton] at this
  omega

theorem fits_iff_span (named : Named) :
    named.Fits size ↔ Span size (named.select size).1 (named.select size).2 := by
  cases named with
  | star =>
      refine ⟨fun h => ⟨h, Int64.le_refl _, ?_⟩, fun h => h.le⟩
      have := Int64.toInt_lt size
      simpa [Named.select] using this
  | upTo x y => exact Iff.rfl
  | full x y z =>
      simp only [Named.Fits, Named.select]
      split <;> exact Iff.rfl

theorem trusty_iff_span : Trusty header request size ↔ ∀ startPos endPos,
    clientParseHeader header request size = some (startPos, endPos) → Span size startPos endPos := by
  constructor
  · intro h s e hsel
    obtain ⟨hle, hsize, hread⟩ := h s e hsel
    exact span_of_readRight hle hsize hread
  · intro h s e hsel
    have hspan := h s e hsel
    exact ⟨hspan.le, hspan.le_size, hspan.readRight⟩

-- The reply is read right exactly when its numbers fit the file.
theorem trusty_iff_fits : Trusty header request size ↔ Fits header request size := by
  rw [trusty_iff_span]
  constructor
  · rintro h ranges code headers rfl hreply
    cases hnamed : namedRange headers with
    | some named =>
        refine (fits_iff_span named).2 (h _ _ ?_)
        simp [clientParseHeader, hreply, hnamed]
    | none =>
        rintro len s e rest rfl hcode hlen rfl
        refine h s e ?_
        obtain ⟨text, htext, hparse⟩ := Option.bind_eq_some_iff.1 hlen
        have hcode' : ¬ (code ≠ 206 ∧ code ≠ 200) := by omega
        simp [clientParseHeader, hreply, hnamed, requestedRange, hcode', htext, hparse]
  · intro h s e hsel
    rw [clientParseHeader] at hsel
    obtain ⟨ranges, hrequest, hsel⟩ := Option.bind_eq_some_iff.1 hsel
    obtain ⟨⟨code, headers⟩, hreply, hsel⟩ := Option.bind_eq_some_iff.1 hsel
    have hfits := h ranges code headers hrequest hreply
    cases hnamed : namedRange headers with
    | some named =>
        simp only [hnamed, Option.some.injEq] at hsel hfits
        have := (fits_iff_span named).1 hfits
        rwa [hsel] at this
    | none =>
        simp only [hnamed] at hsel hfits
        rw [requestedRange] at hsel
        split at hsel
        · cases hsel
        · next hcode =>
            obtain ⟨text, htext, hsel⟩ := Option.bind_eq_some_iff.1 hsel
            obtain ⟨len, hlen, hsel⟩ := Option.bind_eq_some_iff.1 hsel
            cases ranges with
            | nil => cases hsel
            | cons r rest =>
                obtain ⟨s', e'⟩ := r
                simp only [ne_eq, ite_not] at hsel
                split at hsel
                · next heq =>
                    rw [Option.some.injEq, Prod.mk.injEq] at hsel
                    obtain ⟨rfl, rfl⟩ := hsel
                    exact hfits len s' e' rest rfl (by omega)
                      (Option.bind_eq_some_iff.2 ⟨text, htext, hlen⟩) heq
                · cases hsel

-- A range that ends before it begins: the reader is to take four bytes back.
theorem backward_range : ¬ Trusty
    (ofString "HTTP/1.1 206 Partial Content\r\nContent-Range: bytes 10-5/100\r\n\r")
    (some [(0, 100)]) 100 :=
  fun h => absurd (h 10 6 (by decide)).1 (by decide)

end Mldonkey.FileTP
