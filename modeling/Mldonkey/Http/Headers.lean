import Mathlib.Data.List.Basic
import Mathlib.Tactic

-- The header readers of the HTTP server and client: they wait for the first empty line.
namespace Mldonkey.Http

abbrev Bytes := List UInt8

-- The string of a socket buffer, of which the bytes before `pos` are used up. bufUsed gives an
-- empty buffer a new string.
structure Buf where
  buf : Bytes
  pos : ℕ
  valid : pos = 0 ∨ pos < buf.length

namespace Buf

def empty : Buf := ⟨[], 0, .inl rfl⟩

def content (b : Buf) : Bytes := b.buf.drop b.pos

-- The bytes of a read, wherever the string is moved for them
def add (b : Buf) (data : Bytes) : Buf :=
  ⟨b.buf ++ data, b.pos, b.valid.imp_right fun h => by rw [List.length_append]; omega⟩

def bufUsed (b : Buf) (nused : ℕ) : Buf :=
  if h : b.pos + nused < b.buf.length then ⟨b.buf, b.pos + nused, .inr h⟩ else empty

end Buf

-- The number of bytes up to the end of the first empty line
def emptyLine : Bytes → Option ℕ
  | [] => none
  | c :: s =>
    if c = 10 ∧ [10] <+: s then some 2
    else if c = 10 ∧ [13, 10] <+: s then some 3
    else (emptyLine s).map (· + 1)

-- What both readers do with a buffer to which a read has added `nread` bytes
def headerReader (b : Buf) (nread : ℕ) : Option (Bytes × Buf) :=
  let endPos := b.buf.length
  let newPos := endPos - nread
  let newPos := newPos - 1
  match emptyLine (b.buf.drop newPos) with
  | some n =>
    let len := newPos + n - b.pos
    some ((b.buf.drop b.pos).take len, b.bufUsed len)
  | none => none

def requestHandler (b : Buf) (nread : ℕ) : Option (Bytes × Buf) := headerReader b nread

def readHeader (b : Buf) (nread : ℕ) : Option (Bytes × Buf) := headerReader b nread

-- A socket, whether the header reader is still its reader, and the headers for which that has
-- called its handler
structure Conn where
  buf : Buf
  reading : Bool
  calls : List Bytes

def Conn.initial : Conn := ⟨.empty, true, []⟩

-- `stays` tells of each header whether its handler leaves the reader in place.
def onRead (reader : Buf → ℕ → Option (Bytes × Buf)) (stays : Bytes → Bool) (c : Conn)
    (data : Bytes) : Conn :=
  let b := c.buf.add data
  if c.reading then
    match reader b data.length with
    | some (header, b) => ⟨b, stays header, c.calls ++ [header]⟩
    | none => { c with buf := b }
  else { c with buf := b }

def run (reader : Buf → ℕ → Option (Bytes × Buf)) (stays : Bytes → Bool) (c : Conn)
    (reads : List Bytes) : Conn :=
  reads.foldl (onRead reader stays) c

lemma run_append (reader : Buf → ℕ → Option (Bytes × Buf)) (stays : Bytes → Bool) (c : Conn)
    (reads reads' : List Bytes) :
    run reader stays c (reads ++ reads') = run reader stays (run reader stays c reads) reads' :=
  List.foldl_append

-- An empty line, LF LF or LF CR LF, ends at byte k
def EndsAt (s : Bytes) (k : ℕ) : Prop :=
  ∃ a line b, (line = [10, 10] ∨ line = [10, 13, 10]) ∧ s = a ++ line ++ b ∧
    k = (a ++ line).length

-- It is the first one that does
def FirstEnd (s : Bytes) (k : ℕ) : Prop := EndsAt s k ∧ ∀ k' < k, ¬ EndsAt s k'

section EmptyLine

variable {s t : Bytes} {k n : ℕ} {c : UInt8}

lemma EndsAt.two_le (h : EndsAt s k) : 2 ≤ k ∧ k ≤ s.length := by
  obtain ⟨a, line, b, rfl | rfl, rfl, rfl⟩ := h <;> simp

lemma endsAt_cons : EndsAt (c :: s) n ↔
    c = 10 ∧ (n = 2 ∧ [10] <+: s ∨ n = 3 ∧ [13, 10] <+: s) ∨ ∃ k, n = k + 1 ∧ EndsAt s k := by
  constructor
  · rintro ⟨a, line, b, hline, hs, rfl⟩
    cases a with
    | nil =>
      left
      rcases hline with rfl | rfl
      · obtain ⟨rfl, rfl⟩ := List.cons.inj hs
        exact ⟨rfl, .inl ⟨rfl, b, rfl⟩⟩
      · obtain ⟨rfl, rfl⟩ := List.cons.inj hs
        exact ⟨rfl, .inr ⟨rfl, b, rfl⟩⟩
    | cons c' a =>
      obtain ⟨rfl, rfl⟩ := List.cons.inj hs
      exact .inr ⟨(a ++ line).length, rfl, a, line, b, hline, rfl, rfl⟩
  · rintro (⟨rfl, ⟨rfl, b, rfl⟩ | ⟨rfl, b, rfl⟩⟩ | ⟨k, rfl, a, line, b, hline, rfl, rfl⟩)
    · exact ⟨[], [10, 10], b, .inl rfl, rfl, rfl⟩
    · exact ⟨[], [10, 13, 10], b, .inr rfl, rfl, rfl⟩
    · exact ⟨c :: a, line, b, hline, rfl, rfl⟩

lemma EndsAt.append_left (h : EndsAt s k) (u : Bytes) : EndsAt (u ++ s) (u.length + k) := by
  obtain ⟨a, line, b, hline, rfl, rfl⟩ := h
  exact ⟨u ++ a, line, b, hline, by simp, by simp⟩

lemma EndsAt.append_right (h : EndsAt s k) (t : Bytes) : EndsAt (s ++ t) k := by
  obtain ⟨a, line, b, hline, rfl, rfl⟩ := h
  exact ⟨a, line, b ++ t, hline, by simp, rfl⟩

lemma EndsAt.of_append (h : EndsAt (s ++ t) k) (hk : k ≤ s.length) : EndsAt s k := by
  obtain ⟨a, line, b, hline, heq, rfl⟩ := h
  have hprefix : a ++ line <+: s :=
    List.prefix_of_prefix_length_le ⟨b, heq.symm⟩ (List.prefix_append s t) hk
  obtain ⟨b', rfl⟩ := hprefix
  exact ⟨a, line, b', hline, rfl, rfl⟩

lemma emptyLine_spec (s : Bytes) :
    (∀ n, emptyLine s = some n → FirstEnd s n) ∧ (emptyLine s = none → ∀ k, ¬ EndsAt s k) := by
  induction s with
  | nil => exact ⟨by simp [emptyLine], fun _ k h => by have := h.two_le; simp at this; omega⟩
  | cons c s ih =>
    rw [emptyLine]
    split_ifs with h2 h3
    · refine ⟨fun n hn => ?_, by simp⟩
      obtain rfl := Option.some.inj hn
      refine ⟨endsAt_cons.mpr (.inl ⟨h2.1, .inl ⟨rfl, h2.2⟩⟩), fun k hk h => ?_⟩
      have := h.two_le
      omega
    · refine ⟨fun n hn => ?_, by simp⟩
      obtain rfl := Option.some.inj hn
      refine ⟨endsAt_cons.mpr (.inl ⟨h3.1, .inr ⟨rfl, h3.2⟩⟩), fun k hk h => ?_⟩
      rcases endsAt_cons.mp h with ⟨hc, ⟨-, hs⟩ | ⟨rfl, -⟩⟩ | ⟨k, rfl, htail⟩
      · exact h2 ⟨hc, hs⟩
      · omega
      · have := htail.two_le
        omega
    · -- No empty line begins here
      have htail {n : ℕ} (h : EndsAt (c :: s) n) : ∃ k, n = k + 1 ∧ EndsAt s k := by
        rcases endsAt_cons.mp h with ⟨hc, ⟨-, hs⟩ | ⟨-, hs⟩⟩ | h
        · exact absurd ⟨hc, hs⟩ h2
        · exact absurd ⟨hc, hs⟩ h3
        · exact h
      refine ⟨fun n hn => ?_, fun hnone k h => ?_⟩
      · obtain ⟨m, hm, rfl⟩ := Option.map_eq_some_iff.mp hn
        obtain ⟨hend, hfirst⟩ := ih.1 m hm
        refine ⟨endsAt_cons.mpr (.inr ⟨m, rfl, hend⟩), fun k hk h => ?_⟩
        obtain ⟨k, rfl, hk'⟩ := htail h
        exact hfirst k (by omega) hk'
      · obtain ⟨k, rfl, hk'⟩ := htail h
        exact ih.2 (Option.map_eq_none_iff.mp hnone) k hk'

lemma FirstEnd.emptyLine_eq (h : FirstEnd s k) : emptyLine s = some k := by
  cases hs : emptyLine s with
  | none => exact absurd h.1 ((emptyLine_spec s).2 hs k)
  | some n =>
    obtain ⟨hn, hfirst⟩ := (emptyLine_spec s).1 n hs
    have hle : ¬ k < n := fun hlt => hfirst k hlt h.1
    have hge : ¬ n < k := fun hlt => h.2 n hlt hn
    rw [show n = k by omega]

lemma emptyLine_eq_none_iff : emptyLine s = none ↔ ∀ k, ¬ EndsAt s k := by
  refine ⟨(emptyLine_spec s).2, fun h => ?_⟩
  cases hs : emptyLine s with
  | none => rfl
  | some n => exact absurd ((emptyLine_spec s).1 n hs).1 (h n)

end EmptyLine

-- The byte before the new ones, which both readers look at again
def lastByte (s : Bytes) : Bytes := s.drop (s.length - 1)

section Reader

variable {b : Buf} {data : Bytes}

@[simp] lemma Buf.content_empty : Buf.empty.content = [] := rfl

lemma Buf.content_add (b : Buf) (data : Bytes) : (b.add data).content = b.content ++ data := by
  have hle : b.pos ≤ b.buf.length := by have := b.valid; omega
  exact List.drop_append_of_le_length hle

lemma Buf.content_bufUsed (b : Buf) (n : ℕ) : (b.bufUsed n).content = b.content.drop n := by
  rw [content, content, List.drop_drop, bufUsed]
  split_ifs with h
  · rfl
  · have hnil : b.buf.drop (b.pos + n) = [] := List.drop_eq_nil_of_le (by omega)
    rw [hnil]
    rfl

lemma Buf.drop_add (b : Buf) (data : Bytes) :
    (b.add data).buf.drop ((b.add data).buf.length - data.length - 1) =
      lastByte b.content ++ data := by
  have hvalid := b.valid
  have hlen : (b.add data).buf.length - data.length - 1 = b.buf.length - 1 := by
    show (b.buf ++ data).length - data.length - 1 = _
    rw [List.length_append, Nat.add_sub_cancel]
  have hlast : b.buf.drop (b.buf.length - 1) = lastByte b.content := by
    rw [lastByte, content, List.drop_drop, List.length_drop]
    congr 1
    omega
  rw [hlen, ← hlast]
  exact List.drop_append_of_le_length (Nat.sub_le _ _)

-- The readers in terms of what the buffer holds
lemma headerReader_add (b : Buf) (data : Bytes) :
    ∃ b' : ℕ → Buf, (∀ n, (b' n).content = (b.content ++ data).drop (b.content.length - 1 + n)) ∧
      headerReader (b.add data) data.length =
        (emptyLine (lastByte b.content ++ data)).map fun n =>
          ((b.content ++ data).take (b.content.length - 1 + n), b' n) := by
  have hvalid := b.valid
  have hlen (n : ℕ) : (b.add data).buf.length - data.length - 1 + n - (b.add data).pos =
      b.content.length - 1 + n := by
    show (b.buf ++ data).length - data.length - 1 + n - b.pos = _
    rw [List.length_append, Buf.content, List.length_drop, Nat.add_sub_cancel]
    omega
  refine ⟨fun n => (b.add data).bufUsed (b.content.length - 1 + n), fun n => ?_, ?_⟩
  · rw [Buf.content_bufUsed, Buf.content_add]
  · rw [headerReader]
    dsimp only
    rw [Buf.drop_add]
    cases emptyLine (lastByte b.content ++ data) with
    | none => rfl
    | some n =>
      simp only [Option.map_some, hlen]
      rw [← Buf.content_add]
      rfl

end Reader

section Runs

variable (stays : Bytes → Bool) {c : Conn} {reads : List Bytes} {data : Bytes} {n k : ℕ}

lemma onRead_none (hreading : c.reading = true)
    (h : ∀ j, ¬ EndsAt (lastByte c.buf.content ++ data) j) :
    onRead headerReader stays c data = { c with buf := c.buf.add data } := by
  obtain ⟨b', -, hreader⟩ := headerReader_add c.buf data
  rw [emptyLine_eq_none_iff.mpr h, Option.map_none] at hreader
  simp [onRead, hreading, hreader]

lemma onRead_some (hreading : c.reading = true)
    (h : emptyLine (lastByte c.buf.content ++ data) = some n) :
    let len := c.buf.content.length - 1 + n
    let header := (c.buf.content ++ data).take len
    ∃ b : Buf, b.content = (c.buf.content ++ data).drop len ∧
      onRead headerReader stays c data = ⟨b, stays header, c.calls ++ [header]⟩ := by
  obtain ⟨b', hb', hreader⟩ := headerReader_add c.buf data
  rw [h, Option.map_some] at hreader
  exact ⟨b' n, hb' n, by simp [onRead, hreading, hreader]⟩

lemma lastByte_append_endsAt (s data : Bytes) {j : ℕ} (h : EndsAt (lastByte s ++ data) j) :
    EndsAt (s ++ data) (s.length - 1 + j) := by
  have hsplit : s ++ data = s.take (s.length - 1) ++ (lastByte s ++ data) := by
    rw [lastByte, ← List.append_assoc, List.take_append_drop]
  have hlen : (s.take (s.length - 1)).length = s.length - 1 := by
    rw [List.length_take]
    omega
  have hleft := h.append_left (s.take (s.length - 1))
  rwa [hlen, ← hsplit] at hleft

lemma run_quiet (c : Conn) (reads : List Bytes) (hreading : c.reading = true)
    (h : ∀ j, ¬ EndsAt (c.buf.content ++ reads.flatten) j) :
    (run headerReader stays c reads).calls = c.calls ∧
      (run headerReader stays c reads).reading = true ∧
      (run headerReader stays c reads).buf.content = c.buf.content ++ reads.flatten := by
  induction reads generalizing c with
  | nil => exact ⟨rfl, hreading, by simp [run]⟩
  | cons data reads ih =>
    rw [List.flatten_cons, ← List.append_assoc] at h
    have hnone : ∀ j, ¬ EndsAt (lastByte c.buf.content ++ data) j := fun j hj =>
      h _ ((lastByte_append_endsAt _ _ hj).append_right _)
    have hcontent := c.buf.content_add data
    rw [run, List.foldl_cons, onRead_none stays hreading hnone]
    have hrest := ih { c with buf := c.buf.add data } hreading (by rwa [hcontent])
    rw [hcontent] at hrest
    simpa [run] using hrest

lemma calls_grow (c : Conn) (reads : List Bytes) :
    c.calls <+: (run headerReader stays c reads).calls := by
  induction reads generalizing c with
  | nil => exact List.prefix_refl _
  | cons data reads ih =>
    refine List.IsPrefix.trans ?_ (ih (onRead headerReader stays c data))
    rw [onRead]
    split
    · split
      · exact List.prefix_append _ _
      · exact List.prefix_refl _
    · exact List.prefix_refl _

lemma run_closed (hreading : c.reading = false) (reads : List Bytes) :
    (run headerReader stays c reads).calls = c.calls := by
  induction reads generalizing c with
  | nil => rfl
  | cons data reads ih =>
    rw [run, List.foldl_cons, onRead]
    simp only [hreading, Bool.false_eq_true, if_false]
    exact ih (c := { c with buf := c.buf.add data, reading := false }) rfl

-- No read brings the end of an empty line, as the readers see them, to a buffer with `s`
def Silent : Bytes → List Bytes → Prop
  | _, [] => True
  | s, data :: reads => (∀ j, ¬ EndsAt (lastByte s ++ data) j) ∧ Silent (s ++ data) reads

lemma calls_eq_iff (hreading : c.reading = true) :
    (run headerReader stays c reads).calls = c.calls ↔ Silent c.buf.content reads := by
  induction reads generalizing c with
  | nil => exact iff_of_true rfl trivial
  | cons data reads ih =>
    rw [Silent]
    by_cases hnone : ∀ j, ¬ EndsAt (lastByte c.buf.content ++ data) j
    · rw [run, List.foldl_cons, onRead_none stays hreading hnone, ← c.buf.content_add]
      exact (ih (c := { c with buf := c.buf.add data }) hreading).trans
        (and_iff_right hnone).symm
    · refine iff_of_false (fun heq => ?_) fun h => hnone h.1
      obtain ⟨n, hn⟩ := Option.ne_none_iff_exists'.mp (mt emptyLine_eq_none_iff.mp hnone)
      obtain ⟨b, -, hread⟩ := onRead_some stays hreading hn
      have hgrow := calls_grow stays (onRead headerReader stays c data) reads
      rw [run, List.foldl_cons] at heq
      rw [run, heq, hread] at hgrow
      simpa using hgrow.length_le

end Runs

-- What is asked of a reader when the read `r` comes after others and brings byte k
structure Recognises (reader : Buf → ℕ → Option (Bytes × Buf)) (stays : Bytes → Bool)
    (before : List Bytes) (r : Bytes) (after : List Bytes) (k : ℕ) : Prop where
  waits : (run reader stays .initial before).calls = []
  calls : (run reader stays .initial (before ++ [r])).calls = [(before ++ [r]).flatten.take k]
  leaves : (run reader stays .initial (before ++ [r])).buf.content =
    (before ++ [r]).flatten.drop k
  once : (run reader stays .initial (before ++ r :: after)).calls =
    [(before ++ [r]).flatten.take k]

-- The read before byte k ends with the CR of the empty line LF CR LF
def CutAfterCR (before : List Bytes) (r : Bytes) (k : ℕ) : Prop :=
  before.flatten.length + 1 = k ∧ [10, 13, 10] <:+ (before ++ [r]).flatten.take k

section Recognition

variable {stays : Bytes → Bool} {before after : List Bytes} {r : Bytes} {k : ℕ}

lemma take_lastByte (s : Bytes) : s.take (s.length - 1) ++ lastByte s = s :=
  List.take_append_drop _ s

-- Both readers look far enough back for every empty line but a cut one
lemma emptyLine_window {s r : Bytes} (hfirst : FirstEnd (s ++ r) k) (hlt : s.length < k) :
    emptyLine (lastByte s ++ r) = some (k - (s.length - 1)) ↔
      ¬ (s.length + 1 = k ∧ [10, 13, 10] <:+ (s ++ r).take k) := by
  have hsplit : s ++ r = s.take (s.length - 1) ++ (lastByte s ++ r) := by
    rw [← List.append_assoc, take_lastByte]
  have hinit : (s.take (s.length - 1)).length = s.length - 1 := by
    rw [List.length_take]
    omega
  have hle := hfirst.1.two_le.2
  constructor
  · rintro hfound ⟨hk, a, ha⟩
    have hlen : a.length + 3 = k := by
      have := congrArg List.length ha
      rw [List.length_append, List.length_take, Nat.min_eq_left hle] at this
      simpa using this
    -- The window begins with the CR, and with LF if an empty line ends after two bytes
    have hcr : (s ++ r)[k - 2]? = some 13 := by
      rw [← List.getElem?_take_of_lt (show k - 2 < k by omega), ← ha,
        List.getElem?_append_right (by omega), show k - 2 - a.length = 1 by omega]
      rfl
    obtain ⟨⟨a', line, b, hline, heq, htwo⟩, -⟩ := (emptyLine_spec _).1 _ hfound
    have hlf : (s ++ r)[k - 2]? = some 10 := by
      have ha' : a' = [] := by
        rw [List.length_append] at htwo
        refine List.eq_nil_of_length_eq_zero ?_
        rcases hline with rfl | rfl <;> simp at htwo <;> omega
      have hhead : (lastByte s ++ r)[0]? = some 10 := by
        rw [heq, ha']
        rcases hline with rfl | rfl <;> rfl
      rw [hsplit, List.getElem?_append_right (by omega), hinit,
        show k - 2 - (s.length - 1) = 0 by omega, hhead]
    rw [hcr] at hlf
    simp at hlf
  · intro hcut
    obtain ⟨⟨a, line, b, hline, heq, hk⟩, hmin⟩ := hfirst
    rw [List.length_append] at hk
    have hstart : s.length - 1 ≤ a.length := by
      by_contra hlt'
      rcases hline with rfl | rfl
      · simp at hk
        omega
      · simp only [List.length_cons, List.length_nil] at hk
        refine hcut ⟨by omega, a, ?_⟩
        rw [heq, List.take_append_of_le_length (by simp [hk]),
          List.take_of_length_le (by simp [hk])]
    have hprefix : s.take (s.length - 1) <+: a := by
      have hbefore : a <+: s ++ r := ⟨line ++ b, by rw [heq, List.append_assoc]⟩
      exact List.prefix_of_prefix_length_le ⟨_, hsplit.symm⟩ hbefore (by omega)
    obtain ⟨a', rfl⟩ := hprefix
    refine FirstEnd.emptyLine_eq ⟨⟨a', line, b, hline, ?_, ?_⟩, fun j hj hend => ?_⟩
    · rw [hsplit, List.append_assoc, List.append_assoc, List.append_right_inj] at heq
      rw [heq, List.append_assoc]
    · rw [List.length_append] at hk ⊢
      omega
    · exact hmin _ (by omega) (lastByte_append_endsAt s r hend)

variable (before after r)

-- The reader calls its handler for the first empty line and leaves the rest, if no read ends
-- inside the line, and it is not called again if it is replaced or sees no other line.
theorem headerReader_recognises_iff (hfirst : FirstEnd (before ++ r :: after).flatten k)
    (hlt : before.flatten.length < k) (hle : k ≤ (before ++ [r]).flatten.length) :
    Recognises headerReader stays before r after k ↔
      ¬ CutAfterCR before r k ∧
        (stays ((before ++ [r]).flatten.take k) = true →
          Silent ((before ++ [r]).flatten.drop k) after) := by
  have hflatten : (before ++ [r]).flatten = before.flatten ++ r := by simp
  have hwhole : (before ++ r :: after).flatten = before.flatten ++ r ++ after.flatten := by simp
  rw [hwhole] at hfirst
  rw [hflatten] at hle ⊢
  have hfirst' : FirstEnd (before.flatten ++ r) k :=
    ⟨hfirst.1.of_append hle, fun k' hk' h => hfirst.2 k' hk' (h.append_right _)⟩
  obtain ⟨hcalls, hreading, hcontent⟩ := run_quiet stays .initial before rfl
    fun j hj => by
      have hj' : EndsAt before.flatten j := hj
      exact hfirst'.2 j (by have := hj'.two_le; omega) (hj'.append_right r)
  have hcontent' : (run headerReader stays .initial before).buf.content = before.flatten :=
    hcontent
  have hwindow := emptyLine_window hfirst' hlt
  generalize hc : run headerReader stays .initial before = c at *
  have hstep : run headerReader stays .initial (before ++ [r]) =
      onRead headerReader stays c r := by
    rw [run_append, hc]
    rfl
  have hrest : run headerReader stays .initial (before ++ r :: after) =
      run headerReader stays (onRead headerReader stays c r) after := by
    rw [run_append, hc]
    rfl
  by_cases hcut : CutAfterCR before r k
  · -- The readers find nothing, or an empty line further on
    refine iff_of_false (fun hrec => ?_) fun h => h.1 hcut
    have hcalls' := hrec.calls
    rw [hstep, hflatten] at hcalls'
    rw [CutAfterCR, hflatten] at hcut
    cases hfound : emptyLine (lastByte c.buf.content ++ r) with
    | none =>
      rw [onRead_none stays hreading (emptyLine_eq_none_iff.mp hfound)] at hcalls'
      simp [hcalls, Conn.initial] at hcalls'
    | some n =>
      obtain ⟨b, -, hread⟩ := onRead_some stays hreading hfound
      have hn := ((emptyLine_spec _).1 n hfound).1
      have hend := (lastByte_append_endsAt _ _ hn).two_le.2
      rw [hread, hcalls, hcontent', Conn.initial, List.nil_append, List.singleton_inj] at hcalls'
      have hlen := congrArg List.length hcalls'
      rw [hcontent'] at hfound hend
      rw [List.length_take, List.length_take, Nat.min_eq_left hend, Nat.min_eq_left hle] at hlen
      refine hwindow.mp ?_ hcut
      rw [hfound, ← hlen, Nat.add_sub_cancel_left]
  · have hfound := hwindow.mpr (by rwa [CutAfterCR, hflatten] at hcut)
    rw [← hcontent'] at hfound
    obtain ⟨b, hb, hread⟩ := onRead_some stays hreading hfound
    have hk : c.buf.content.length - 1 + (k - (c.buf.content.length - 1)) = k := by
      rw [hcontent']
      omega
    rw [hk, hcontent'] at hb hread
    rw [hcalls, Conn.initial, List.nil_append] at hread
    have hquiet : (run headerReader stays .initial (before ++ r :: after)).calls =
        [(before.flatten ++ r).take k] ↔ (stays ((before.flatten ++ r).take k) = true →
          Silent ((before.flatten ++ r).drop k) after) := by
      rw [hrest, hread, ← hb]
      cases hstays : stays ((before.flatten ++ r).take k) with
      | true => exact (calls_eq_iff stays rfl).trans (by simp)
      | false => exact iff_of_true (run_closed stays rfl after) (by simp)
    rw [and_iff_right hcut, ← hquiet]
    refine ⟨fun hrec => ?_, fun honce => ⟨?_, ?_, ?_, ?_⟩⟩
    · rw [← hflatten]
      exact hrec.once
    · rw [hc, hcalls]
      rfl
    · rw [hstep, hread, hflatten]
    · rw [hstep, hread, hflatten, hb]
    · rw [honce, hflatten]

-- The same for the server and the client
theorem header_recognised_iff (hfirst : FirstEnd (before ++ r :: after).flatten k)
    (hlt : before.flatten.length < k) (hle : k ≤ (before ++ [r]).flatten.length) :
    (Recognises requestHandler stays before r after k ↔
      ¬ CutAfterCR before r k ∧
        (stays ((before ++ [r]).flatten.take k) = true →
          Silent ((before ++ [r]).flatten.drop k) after)) ∧
    (Recognises readHeader stays before r after k ↔
      ¬ CutAfterCR before r k ∧
        (stays ((before ++ [r]).flatten.take k) = true →
          Silent ((before ++ [r]).flatten.drop k) after)) :=
  ⟨headerReader_recognises_iff before after r hfirst hlt hle,
    headerReader_recognises_iff before after r hfirst hlt hle⟩

-- "A" LF CR LF "B", cut before the last LF
lemma firstEnd_example : FirstEnd [65, 10, 13, 10, 66] 4 :=
  (emptyLine_spec _).1 4 (by decide)

theorem header_recognised_iff_example :
    Recognises requestHandler (fun _ => true) [[65], [10]] [13, 10, 66] [] 4 := by
  refine (header_recognised_iff [[65], [10]] [] [13, 10, 66] firstEnd_example (by decide)
    (by decide)).1.mpr ⟨?_, fun _ => trivial⟩
  rintro ⟨hlen, -⟩
  exact absurd hlen (by decide)

-- The read that ends with the CR hides the empty line from both readers
theorem header_missed :
    FirstEnd ([[65, 10, 13]] ++ [10, 66] :: [] : List Bytes).flatten 4 ∧
      (run requestHandler (fun _ => true) .initial [[65, 10, 13], [10, 66]]).calls = [] ∧
      (run readHeader (fun _ => true) .initial [[65, 10, 13], [10, 66]]).calls = [] ∧
      ¬ Recognises requestHandler (fun _ => true) [[65, 10, 13]] [10, 66] [] 4 := by
  refine ⟨firstEnd_example, by decide, by decide, fun h => ?_⟩
  exact absurd h.calls (by decide)

end Recognition

end Mldonkey.Http
