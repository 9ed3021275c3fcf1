import Mathlib.Data.List.Basic
import Mathlib.Tactic

-- Messages in frames that follow one another, and a stream of them that is cut
-- anywhere.
namespace Mldonkey.Lib.Framing

variable {M β : Type*} (frame : M → List β)

def stream (msgs : List M) : List β := (msgs.map frame).flatten

variable {frame}

theorem stream_cons (m : M) (msgs : List M) :
    stream frame (m :: msgs) = frame m ++ stream frame msgs := rfl

theorem stream_append (l l' : List M) :
    stream frame (l ++ l') = stream frame l ++ stream frame l' := by
  rw [stream, stream, stream, List.map_append, List.flatten_append]

theorem length_le_stream {msgs : List M} (h : ∀ m ∈ msgs, 0 < (frame m).length) :
    msgs.length ≤ (stream frame msgs).length := by
  induction msgs with
  | nil => exact Nat.zero_le _
  | cons m msgs ih =>
      obtain ⟨hm, hmsgs⟩ := List.forall_mem_cons.mp h
      have := ih hmsgs
      rw [stream_cons, List.length_append, List.length_cons]
      omega

variable {Incomplete : List β → Prop} {msgs : List M}

theorem prefix_stream (hnil : Incomplete [])
    (hcut : ∀ m ∈ msgs, ∀ B, B <+: frame m → B.length < (frame m).length → Incomplete B)
    {B : List β} (h : B <+: stream frame msgs) :
    ∃ done rest tail, msgs = done ++ rest ∧ B = stream frame done ++ tail ∧ Incomplete tail := by
  induction msgs generalizing B with
  | nil => exact ⟨[], [], [], rfl, List.prefix_nil.mp h, hnil⟩
  | cons m msgs ih =>
      obtain ⟨hm, hmsgs⟩ := List.forall_mem_cons.mp hcut
      rw [stream_cons] at h
      by_cases hle : (frame m).length ≤ B.length
      · obtain ⟨B', rfl⟩ := List.prefix_of_prefix_length_le (List.prefix_append _ _) h hle
        obtain ⟨done, rest, tail, rfl, rfl, htail⟩ :=
          ih hmsgs ((List.prefix_append_right_inj _).mp h)
        exact ⟨m :: done, rest, tail, rfl, by rw [stream_cons, List.append_assoc], htail⟩
      · have hB : B <+: frame m :=
          List.prefix_of_prefix_length_le h (List.prefix_append _ _) (by omega)
        exact ⟨[], m :: msgs, B, rfl, rfl, hm B hB (by omega)⟩

-- With no whole frame left, all frames that have arrived are among those taken off.
theorem arrived_prefix {done rest arrived : List M} {tail : List β}
    (hwhole : ∀ m ∈ arrived, frame m <+: tail → ¬ Incomplete tail) (hinc : Incomplete tail)
    (hmsgs : arrived <+: done ++ rest) (h : stream frame arrived <+: stream frame done ++ tail) :
    arrived <+: done := by
  rcases List.prefix_or_prefix_of_prefix hmsgs (List.prefix_append done rest) with hle | ⟨more, rfl⟩
  · exact hle
  · cases more with
    | nil => simp
    | cons m more =>
        rw [stream_append, List.prefix_append_right_inj, stream_cons] at h
        exact absurd hinc (hwhole m (by simp) ((List.prefix_append _ _).trans h))

end Mldonkey.Lib.Framing
