import Mldonkey.Lib.Framing

-- A reader that takes whole messages off what has arrived of a stream and hands them to
-- a handler, after whose calls it may stop.
namespace Mldonkey.Lib.Reading

open Framing (stream stream_cons stream_append)

variable {M β : Type*}

-- What stands at the beginning of a buffer: no whole message, bytes that raise an
-- exception when they have been used up, or a message.
inductive Step (M β : Type*) where
  | incomplete
  | fails (rest : List β)
  | message (m : M) (rest : List β)

structure Reader (M β : Type*) where
  buf : List β
  handled : List M

def fresh : Reader M β := ⟨[], []⟩

variable (step : List β → Step M β) (goesOn : List M → Bool)

-- The handler sees all messages so far, the new one last.
def loop : ℕ → Reader M β → Reader M β
  | 0, r => r
  | fuel + 1, r =>
    match step r.buf with
    | .incomplete => r
    | .fails rest => { r with buf := rest }
    | .message m rest =>
      let r := ⟨rest, r.handled ++ [m]⟩
      if goesOn r.handled then loop fuel r else r

-- Every round uses up bytes.
def read (r : Reader M β) (data : List β) : Reader M β :=
  loop step goesOn (r.buf.length + data.length) { r with buf := r.buf ++ data }

variable {step goesOn}

section Streams

variable {frame : M → List β} {Incomplete : List β → Prop} {msgs : List M}

-- The frames are messages for the reader, and the bytes of none are not.
structure Frames (step : List β → Step M β) (frame : M → List β) (Incomplete : List β → Prop)
    (msgs : List M) : Prop where
  message : ∀ m ∈ msgs, ∀ rest, step (frame m ++ rest) = .message m rest
  ne_nil : ∀ m ∈ msgs, 0 < (frame m).length
  stops : ∀ tail, Incomplete tail → step tail = .incomplete
  nil : Incomplete []
  cut : ∀ m ∈ msgs, ∀ B, B <+: frame m → B.length < (frame m).length → Incomplete B

theorem Frames.tail {m : M} (h : Frames step frame Incomplete (m :: msgs)) :
    Frames step frame Incomplete msgs where
  message := fun m' hm => h.message m' (List.mem_cons_of_mem m hm)
  ne_nil := fun m' hm => h.ne_nil m' (List.mem_cons_of_mem m hm)
  stops := h.stops
  nil := h.nil
  cut := fun m' hm => h.cut m' (List.mem_cons_of_mem m hm)

theorem Frames.right {done rest : List M}
    (h : Frames step frame Incomplete (done ++ rest)) : Frames step frame Incomplete rest := by
  induction done with
  | nil => exact h
  | cons m done ih => exact ih h.tail

theorem Frames.left {done rest : List M}
    (h : Frames step frame Incomplete (done ++ rest)) : Frames step frame Incomplete done where
  message := fun m hm => h.message m (List.mem_append_left rest hm)
  ne_nil := fun m hm => h.ne_nil m (List.mem_append_left rest hm)
  stops := h.stops
  nil := h.nil
  cut := fun m hm => h.cut m (List.mem_append_left rest hm)

theorem loop_incomplete {r : Reader M β} (h : step r.buf = .incomplete) (fuel : ℕ) :
    loop step goesOn fuel r = r := by
  cases fuel with
  | zero => rfl
  | succ fuel => rw [loop, h]

theorem loop_message {r : Reader M β} {m : M} {rest : List β}
    (h : step r.buf = .message m rest) (fuel : ℕ) :
    loop step goesOn (fuel + 1) r =
      if goesOn (r.handled ++ [m]) then loop step goesOn fuel ⟨rest, r.handled ++ [m]⟩
      else ⟨rest, r.handled ++ [m]⟩ := by
  rw [loop, h]

-- The loop hands over messages until one is incomplete or the handler ends it.
theorem loop_stream (h : Frames step frame Incomplete msgs) {tail : List β}
    (htail : Incomplete tail) {r : Reader M β} (hbuf : r.buf = stream frame msgs ++ tail)
    {fuel : ℕ} (hfuel : msgs.length ≤ fuel) (goesOn : List M → Bool) :
    ∃ done rest, msgs = done ++ rest ∧
      loop step goesOn fuel r = ⟨stream frame rest ++ tail, r.handled ++ done⟩ ∧
        (rest = [] ∨ done ≠ [] ∧ goesOn (r.handled ++ done) = false) := by
  induction msgs generalizing r fuel with
  | nil =>
    have hstep : step r.buf = .incomplete := by
      rw [hbuf]
      exact h.stops tail htail
    refine ⟨[], [], rfl, ?_, .inl rfl⟩
    rw [loop_incomplete hstep, List.append_nil, ← hbuf]
  | cons m msgs ih =>
    rw [List.length_cons] at hfuel
    obtain ⟨fuel, rfl⟩ := Nat.exists_eq_add_one_of_ne_zero (show fuel ≠ 0 by omega)
    have hstep : step r.buf = .message m (stream frame msgs ++ tail) := by
      rw [hbuf, stream_cons, List.append_assoc]
      exact h.message m List.mem_cons_self _
    rw [loop_message hstep]
    by_cases hgo : goesOn (r.handled ++ [m]) = true
    · rw [if_pos hgo]
      obtain ⟨done, rest, rfl, hrun, hend⟩ :=
        @ih h.tail ⟨stream frame msgs ++ tail, r.handled ++ [m]⟩ rfl fuel (by omega)
      rw [List.append_assoc, List.singleton_append] at hrun hend
      exact ⟨m :: done, rest, rfl, hrun, hend.imp id fun hend => ⟨List.cons_ne_nil _ _, hend.2⟩⟩
    · rw [if_neg hgo]
      exact ⟨[m], msgs, rfl, rfl, .inr ⟨List.cons_ne_nil _ _, Bool.not_eq_true _ ▸ hgo⟩⟩

-- Where the reader stands when the bytes B of the stream have arrived
structure At (goesOn : List M → Bool) (frame : M → List β) (Incomplete : List β → Prop)
    (msgs : List M) (B : List β) (r : Reader M β) (rest : List M) : Prop where
  msgs_eq : msgs = r.handled ++ rest
  bytes : B = stream frame r.handled ++ r.buf
  ended : Incomplete r.buf ∨ r.handled ≠ [] ∧ goesOn r.handled = false

theorem At.read {B data : List β} {r : Reader M β} {rest : List M}
    (h : Frames step frame Incomplete msgs) (hat : At goesOn frame Incomplete msgs B r rest)
    (hpre : B ++ data <+: stream frame msgs) :
    ∃ rest', At goesOn frame Incomplete msgs (B ++ data) (read step goesOn r data) rest' := by
  have hrest : Frames step frame Incomplete rest := (hat.msgs_eq ▸ h).right
  have hbuf : r.buf ++ data <+: stream frame rest := by
    rw [hat.bytes, hat.msgs_eq, stream_append, List.append_assoc,
      List.prefix_append_right_inj] at hpre
    exact hpre
  obtain ⟨whole, later, tail, rfl, htail, hinc⟩ :=
    Framing.prefix_stream hrest.nil hrest.cut hbuf
  have hfuel : whole.length ≤ r.buf.length + data.length := by
    have hle := Framing.length_le_stream hrest.left.ne_nil
    rw [← List.length_append, htail, List.length_append]
    omega
  obtain ⟨now, left, rfl, hrun, hend⟩ := loop_stream hrest.left hinc
    (r := { r with buf := r.buf ++ data }) htail hfuel goesOn
  refine ⟨left ++ later, ?_, ?_, ?_⟩
  · rw [Reading.read, hrun, hat.msgs_eq, List.append_assoc, List.append_assoc]
  · rw [Reading.read, hrun, hat.bytes, List.append_assoc, htail, stream_append, stream_append,
      List.append_assoc, List.append_assoc]
  · rw [Reading.read, hrun]
    rcases hend with rfl | ⟨hne, hgo⟩
    · exact .inl hinc
    · exact .inr ⟨List.append_ne_nil_of_right_ne_nil _ hne, hgo⟩

theorem At.reads {B : List β} {r : Reader M β} {rest : List M} {reads : List (List β)}
    (h : Frames step frame Incomplete msgs) (hat : At goesOn frame Incomplete msgs B r rest)
    (hpre : B ++ reads.flatten <+: stream frame msgs) :
    ∃ rest', At goesOn frame Incomplete msgs (B ++ reads.flatten)
      (reads.foldl (Reading.read step goesOn) r) rest' := by
  induction reads generalizing B r rest with
  | nil => exact ⟨rest, by simpa using hat⟩
  | cons data reads ih =>
    rw [List.flatten_cons, ← List.append_assoc] at hpre ⊢
    obtain ⟨rest', hat'⟩ := hat.read h ((List.prefix_append _ _).trans hpre)
    exact ih hat' hpre

-- However a stream is cut, its messages are handed over in their order, and the bytes of
-- the others are in the buffer. All whole messages are handed over, unless the handler
-- has ended the last loop.
theorem reads_handled (h : Frames step frame Incomplete msgs)
    (hwhole : ∀ m ∈ msgs, ∀ tail, frame m <+: tail → ¬ Incomplete tail)
    {reads : List (List β)} (hpre : reads.flatten <+: stream frame msgs) :
    let r := reads.foldl (read step goesOn) fresh
    (∃ rest, msgs = r.handled ++ rest) ∧ reads.flatten = stream frame r.handled ++ r.buf ∧
      (Incomplete r.buf ∨ r.handled ≠ [] ∧ goesOn r.handled = false) ∧
        (Incomplete r.buf → ∀ arrived, arrived <+: msgs → stream frame arrived <+: reads.flatten →
          arrived <+: r.handled) := by
  have hstart : At goesOn frame Incomplete msgs [] fresh msgs := ⟨rfl, rfl, .inl h.nil⟩
  obtain ⟨rest, hat⟩ := hstart.reads h hpre
  rw [List.nil_append] at hat
  refine ⟨⟨rest, hat.msgs_eq⟩, hat.bytes, hat.ended, fun hinc arrived harr hB => ?_⟩
  have hmem : ∀ m ∈ arrived, m ∈ msgs := fun m hm => harr.subset hm
  rw [hat.bytes] at hB
  rw [hat.msgs_eq] at harr
  exact Framing.arrived_prefix (fun m hm => hwhole m (hmem m hm) _) hinc harr hB

end Streams

end Mldonkey.Lib.Reading
