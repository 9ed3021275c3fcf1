import Mldonkey.Swarming.Priorities

-- The block of an offset, and the blocks and pieces that an iteration over intervals
-- meets.
namespace Mldonkey.Swarming

open Effects HalfOpen

namespace Store

variable {s : Store} {a e x : Int}

-- Have the block and the interval a byte in common?
def meets (s : Store) (interval : Int × Int) (i : Nat) : Bool :=
  max (s.computeBlockBegin i) interval.1 < min (s.computeBlockEnd i) interval.2

def meeting (s : Store) (interval : Int × Int) : List Nat :=
  (List.range s.blocks.length).filter (s.meets interval)

-- What a block has in common with an interval
def common (s : Store) (interval : Int × Int) (i : Nat) : Piece where
  num := i
  blockBegin := s.computeBlockBegin i
  blockEnd := s.computeBlockEnd i
  intervalBegin := max (s.computeBlockBegin i) interval.1
  intervalEnd := min (s.computeBlockEnd i) interval.2

def Piece.span (p : Piece) : Int × Int := (p.intervalBegin, p.intervalEnd)

lemma Placed.begin_le_begin (h : s.Placed) {i j : Nat} (hij : i ≤ j) (hj : j < s.blocks.length) :
    s.computeBlockBegin i ≤ s.computeBlockBegin j := by
  rcases Nat.lt_or_eq_of_le hij with hlt | rfl
  · exact (h.le (by omega)).trans (h.end_le_begin hlt hj)
  · exact le_rfl

lemma Placed.end_le_end (h : s.Placed) {i j : Nat} (hij : i ≤ j) (hj : j < s.blocks.length) :
    s.computeBlockEnd i ≤ s.computeBlockEnd j := by
  rcases Nat.lt_or_eq_of_le hij with hlt | rfl
  · exact (h.end_le_begin hlt hj).trans (h.le hj)
  · exact le_rfl

-- From a block on whose end lies behind the beginning of the interval, the blocks that
-- meet it are the next ones.
lemma iterBlocks_eq (h : s.Placed) (hsize : 0 < s.size) (hae : a < e) :
    ∀ left i : Nat, i + left = s.blocks.length → (0 < left → a < s.computeBlockEnd i) →
      s.iterBlocks e left i (s.computeBlockBegin i) (max (s.computeBlockBegin i) a) =
        ((List.range' i left).filter (s.meets (a, e))).map (s.common (a, e))
  | 0, i, _, _ => rfl
  | left + 1, i, hi, ha => by
    have ha := ha (Nat.succ_pos left)
    rw [iterBlocks]
    by_cases hlt : s.computeBlockBegin i < e
    · have hb := h.lt hsize i (by omega)
      have hmeets : s.meets (a, e) i = true :=
        decide_eq_true (max_lt (lt_min hb hlt) (lt_min ha hae))
      rw [if_pos hlt, List.range'_succ, List.filter_cons_of_pos hmeets, List.map_cons]
      refine congrArg (_ :: ·) ?_
      rcases Nat.eq_zero_or_pos left with rfl | hpos
      · rfl
      have hnext := h.end_eq_begin (i := i) (by omega)
      have hrest := iterBlocks_eq h hsize hae left (i + 1) (by omega) fun _ =>
        ha.trans_le (h.end_le_end (Nat.le_succ i) (by omega))
      rwa [← hnext, max_eq_left ha.le] at hrest
    · rw [if_neg hlt, List.filter_eq_nil_iff.mpr, List.map_nil]
      intro j hj
      obtain ⟨hij, hj⟩ := List.mem_range'_1.mp hj
      have := h.begin_le_begin hij (by omega)
      rw [meets, decide_eq_true_eq]
      dsimp only
      omega

-- The pieces follow each other without a gap.
lemma tiles_iterBlocks (h : s.Placed) (hsize : 0 < s.size) (he : e ≤ s.size) :
    ∀ (left i : Nat) (x : Int), i + (left + 1) = s.blocks.length →
      s.computeBlockBegin i ≤ x → x < s.computeBlockEnd i → x < e →
      Tiles x ((s.iterBlocks e (left + 1) i (s.computeBlockBegin i) x).map Piece.span) e := by
  intro left
  induction left with
  | zero =>
    intro i x hi hb hx hxe
    have hend : e ≤ s.computeBlockEnd i := he.trans (h.end_last (by omega)).ge
    rw [iterBlocks, if_pos (by omega)]
    exact ⟨rfl, lt_min hx hxe, min_eq_right hend⟩
  | succ left ih =>
    intro i x hi hb hx hxe
    have hnext := h.end_eq_begin (i := i) (by omega)
    rw [iterBlocks, if_pos (by omega)]
    refine ⟨rfl, lt_min hx hxe, ?_⟩
    change Tiles (min (s.computeBlockEnd i) e) _ e
    by_cases hend : s.computeBlockEnd i < e
    · rw [min_eq_left hend.le, hnext]
      rw [hnext] at hend
      exact ih (i + 1) _ (by omega) le_rfl (h.lt hsize (i + 1) (by omega)) hend
    · rw [min_eq_right (not_lt.mp hend), iterBlocks, if_neg hend]
      rfl

lemma pieces_eq (h : s.Placed) {interval : Int × Int} (hpos : 0 ≤ interval.1) :
    s.pieces interval = (s.meeting interval).map (s.common interval) := by
  obtain ⟨a, e⟩ := interval
  have hclip : ∀ j ∈ List.range s.blocks.length,
      s.meets (a, e) j = s.meets (min a s.size, min e s.size) j ∧
      (s.meets (a, e) j = true →
        s.common (a, e) j = s.common (min a s.size, min e s.size) j) := by
    intro j hj
    have hend := h.end_le_size (List.mem_range.mp hj)
    refine ⟨?_, fun hmeets => ?_⟩
    · rw [meets, meets, decide_eq_decide]
      dsimp only
      omega
    have hlt := of_decide_eq_true hmeets
    dsimp only at hlt
    rw [common, common, Piece.mk.injEq]
    refine ⟨rfl, rfl, rfl, ?_, ?_⟩
    · change max _ a = max _ (min a s.size)
      omega
    · change min _ e = min _ (min e s.size)
      omega
  have hfilter : s.meeting (a, e) = s.meeting (min a s.size, min e s.size) :=
    List.filter_congr fun j hj => (hclip j hj).1
  have hmap : (s.meeting (a, e)).map (s.common (a, e)) =
      (s.meeting (min a s.size, min e s.size)).map (s.common (min a s.size, min e s.size)) := by
    rw [← hfilter]
    refine List.map_congr_left fun j hj => ?_
    obtain ⟨hj, hmeets⟩ := List.mem_filter.mp hj
    exact (hclip j hj).2 hmeets
  rw [hmap, pieces]
  dsimp only
  split
  case isTrue hlt =>
    have hsize := h.size_nonneg
    have hpos' : 0 ≤ min a s.size := le_min hpos hsize
    obtain ⟨hn, hb, he⟩ := blockNum_spec h hpos' (by omega)
    set i := s.blockNum (min a s.size)
    have hiter := iterBlocks_eq h (by omega) hlt (s.blocks.length - i) i (by omega) fun _ => he
    rw [max_eq_right hb] at hiter
    -- the blocks before end at or before the interval
    have hbefore : (List.range i).filter (s.meets (min a s.size, min e s.size)) = [] := by
      refine List.filter_eq_nil_iff.mpr fun j hj => ?_
      have := h.end_le_begin (List.mem_range.mp hj) hn
      rw [meets, decide_eq_true_eq]
      dsimp only
      omega
    have hsplit : List.range s.blocks.length =
        List.range i ++ List.range' i (s.blocks.length - i) := by
      rw [List.range_eq_range', List.range_eq_range', ← Nat.add_sub_of_le hn.le,
        ← List.range'_append_1, Nat.zero_add, Nat.add_sub_cancel_left]
    rw [hiter, meeting, hsplit, List.filter_append, hbefore, List.nil_append]
  case isFalse hge =>
    rw [meeting, List.filter_eq_nil_iff.mpr, List.map_nil]
    intro j hj
    rw [meets, decide_eq_true_eq]
    dsimp only
    omega

lemma tiles_pieces (h : s.Placed) {interval : Int × Int} (hpos : 0 ≤ interval.1)
    (hlt : min interval.1 s.size < min interval.2 s.size) :
    Tiles (min interval.1 s.size) ((s.pieces interval).map Piece.span) (min interval.2 s.size) := by
  have hsize := h.size_nonneg
  have hpos' : 0 ≤ min interval.1 s.size := by omega
  obtain ⟨hn, hb, he⟩ := blockNum_spec h hpos' (by omega)
  rw [pieces]
  dsimp only
  rw [if_pos hlt]
  obtain ⟨left, hleft⟩ : ∃ left, s.blocks.length - s.blockNum (min interval.1 s.size) = left + 1 :=
    ⟨_, (Nat.sub_add_cancel (by omega)).symm⟩
  rw [hleft]
  exact tiles_iterBlocks h (by omega) (min_le_right _ _) left _ _ (by omega) hb he hlt

lemma iterBlocks_congr {s' : Store} (hl : s'.layout = s.layout) :
    ∀ (left i : Nat) (b x : Int), s'.iterBlocks e left i b x = s.iterBlocks e left i b x
  | 0, _, _, _ => rfl
  | left + 1, i, b, x => by
    rw [iterBlocks, iterBlocks, computeBlockEnd_congr hl]
    dsimp only
    rw [iterBlocks_congr hl left]

lemma pieces_congr {s' : Store} (hl : s'.layout = s.layout) (interval : Int × Int) :
    s'.pieces interval = s.pieces interval := by
  have hsize : s'.size = s.size := congrArg (·.1) hl
  have hpos : s'.blockPos = s.blockPos := congrArg (·.2.1) hl
  have hblocks : s'.blocks.length = s.blocks.length := congrArg (·.2.2) hl
  have hnum : s'.blockNum = s.blockNum := by
    funext x
    rw [blockNum, blockNum, hpos]
  rw [pieces, pieces, hsize, hnum, hblocks]
  simp only [iterBlocks_congr hl, computeBlockBegin_congr hl]

end Store

section Runs

variable {s : State} {f : Store.Piece → Act Unit}

-- The search is a total function of the offsets in the file, and finds the only block.
lemma computeBlockNum_eq (h : s.Placed) {pos : Int} (hpos : 0 ≤ pos) (hlt : pos < s.size) :
    ∃ i < s.blocks.length, computeBlockNum pos s = .ok i s ∧ ∀ j < s.blocks.length,
      s.computeBlockBegin j ≤ pos ∧ pos < s.computeBlockEnd j ↔ j = i := by
  obtain ⟨hn, hb, he⟩ := Store.blockNum_spec h hpos hlt
  have hrun : computeBlockNum pos s = .ok (s.blockNum pos) s := by
    unfold computeBlockNum check
    simp only [bind, EStateM.bind, get, getThe, MonadStateOf.get, EStateM.get]
    rw [if_pos ⟨hpos, hlt⟩]
    rfl
  refine ⟨s.blockNum pos, hn, hrun, fun j hj => ⟨fun hin => ?_, ?_⟩⟩
  · exact h.unique hj hn hin ⟨hb, he⟩
  · rintro rfl
    exact ⟨hb, he⟩

-- An interval that is not behind its end begins in the file.
def Accepted (interval : Int × Int) : Prop := interval.1 < interval.2 → 0 ≤ interval.1

lemma iterIntervals_cons (h : 0 < s.size → s.Placed) {interval : Int × Int}
    (hin : Accepted interval) (intervals : List (Int × Int)) :
    iterIntervals f (interval :: intervals) s =
      (forM (s.pieces interval) f >>= fun _ => iterIntervals f intervals) s := by
  unfold iterIntervals
  rw [List.forM_cons]
  simp only [bind, EStateM.bind, get, getThe, MonadStateOf.get, EStateM.get]
  by_cases hlt : min interval.1 s.size < min interval.2 s.size
  · have hpos := hin (by omega)
    have hpos' : 0 ≤ min interval.1 s.size := by omega
    obtain ⟨i, -, hnum, -⟩ := computeBlockNum_eq (h (by omega)) hpos' (by omega)
    rw [if_pos hlt, EStateM.bind, hnum]
  · have hnil : s.pieces interval = [] := by
      rw [Store.pieces]
      exact if_neg hlt
    rw [if_neg hlt, hnil]
    rfl

lemma layout_forM (hf : ∀ p s, Outcome (f p) (fun _ s' => s'.layout = s.layout) (fun _ _ => True) s)
    (l : List Store.Piece) (s : State) :
    Outcome (forM l f) (fun _ s' => s'.layout = s.layout) (fun _ _ => True) s :=
  Outcome.forM rfl fun p _ s' hs' => (hf p s').mono (fun _ _ h => h.trans hs') fun _ _ h => h

lemma iterIntervals_eq
    (hf : ∀ p s, Outcome (f p) (fun _ s' => s'.layout = s.layout) (fun _ _ => True) s)
    (intervals : List (Int × Int)) (hin : ∀ interval ∈ intervals, Accepted interval) {s₀ : Store}
    (h : 0 < s₀.size → s₀.Placed) (hl : s.layout = s₀.layout) :
    iterIntervals f intervals s = forM (intervals.flatMap s₀.pieces) f s := by
  induction intervals generalizing s with
  | nil => rfl
  | cons interval intervals ih =>
    have hsize : s.size = s₀.size := congrArg (·.1) hl
    have hplaced : 0 < s.size → s.Placed := fun hs => (h (hsize ▸ hs)).congr hl
    rw [iterIntervals_cons hplaced (hin interval List.mem_cons_self), List.flatMap_cons,
      List.forM_append, Store.pieces_congr hl]
    have hout := layout_forM hf (s₀.pieces interval) s
    simp only [Outcome, bind, EStateM.bind] at hout ⊢
    cases hrun : forM (s₀.pieces interval) f s with
    | ok a s' =>
      rw [hrun] at hout
      exact ih (fun i hi => hin i (List.mem_cons_of_mem _ hi)) (hout.trans hl)
    | error e s' => rfl

end Runs

-- A swarmer that has the blocks of one that a run reaches: the search finds the block of
-- each offset, and a function is called for the pieces of the intervals.
theorem intervals_iterated {verifiers : Verifier → Prop} {ok : State → Op → Prop} {s₀ s : State}
    (hs : Reachable verifiers ok s₀) (hl : s.layout = s₀.layout) :
    (∀ pos, 0 ≤ pos → pos < s.size → ∃ i < s.blocks.length, computeBlockNum pos s = .ok i s ∧
      ∀ j < s.blocks.length,
        s.computeBlockBegin j ≤ pos ∧ pos < s.computeBlockEnd j ↔ j = i) ∧
    (∀ (f : Store.Piece → Act Unit) (intervals : List (Int × Int)),
      (∀ p s, Outcome (f p) (fun _ s' => s'.layout = s.layout) (fun _ _ => True) s) →
      (∀ interval ∈ intervals, Accepted interval) →
      iterIntervals f intervals s = forM (intervals.flatMap s.pieces) f s) ∧
    (∀ interval, Accepted interval →
      s.pieces interval = (s.meeting interval).map (s.common interval) ∧
      if min interval.1 s.size < min interval.2 s.size then
        Tiles (min interval.1 s.size) ((s.pieces interval).map Store.Piece.span)
          (min interval.2 s.size)
      else s.pieces interval = []) := by
  have hsize : s.size = s₀.size := congrArg (·.1) hl
  have hplaced : 0 < s.size → s.Placed := fun hs' =>
    ((State.Laid.reachable hs).placed (hsize ▸ hs')).congr hl
  refine ⟨fun pos hpos hlt => computeBlockNum_eq (hplaced (by omega)) hpos hlt,
    fun f intervals hf hin => iterIntervals_eq hf intervals hin hplaced rfl,
    fun interval hin => ?_⟩
  by_cases hlt : min interval.1 s.size < min interval.2 s.size
  · have hpos := hin (by omega)
    have hp := hplaced (by omega)
    rw [if_pos hlt]
    exact ⟨Store.pieces_eq hp hpos, Store.tiles_pieces hp hpos hlt⟩
  · have hnil : s.pieces interval = [] := if_neg hlt
    rw [if_neg hlt]
    refine ⟨?_, hnil⟩
    rw [hnil, Store.meeting, List.filter_eq_nil_iff.mpr, List.map_nil]
    intro i hi hmeets
    have hi := List.mem_range.mp hi
    have hmeets := of_decide_eq_true hmeets
    have hpos := hin (by omega)
    have hend : s.computeBlockEnd i ≤ s.size := by
      by_cases hs' : 0 < s.size
      · exact (hplaced hs').end_le_size hi
      · obtain ⟨hblocks, hone⟩ := (State.Laid.reachable hs).single (by omega)
        have hblocks' : s.blockPos = [0] := (congrArg (·.2.1) hl).trans hblocks
        have hone' : s.blocks.length = 1 := (congrArg (·.2.2) hl).trans hone
        rw [Store.computeBlockEnd, hblocks', if_pos]
        simp only [List.length_cons, List.length_nil]
        omega
    omega

-- An interval within a file of ten bytes
theorem intervals_iterated_ten : ∃ s : State, s.size = 10 ∧
    Tiles 2 ((s.pieces (2, 12)).map Store.Piece.span) 10 := by
  obtain ⟨s, hs, -, -, hsize⟩ := exists_created (show 0 < 10 by decide) (show 0 < 4 by decide)
  have hsize' : s.size = 10 := hsize
  obtain ⟨-, -, hpieces⟩ := intervals_iterated hs rfl
  obtain ⟨-, htiles⟩ := hpieces (2, 12) fun _ => by decide
  rw [hsize', if_pos (by decide)] at htiles
  exact ⟨s, hsize', htiles⟩

-- An interval that begins below 0 stops the iteration, although it meets a block.
theorem intervals_iterated_false : startTen.meeting (-5, 3) = [0] ∧
    iterIntervals (fun _ => pure ()) [(-5, 3)] startTen =
      .error (.assertFailure .computeBlockNum) startTen :=
  ⟨by decide, rfl⟩

end Mldonkey.Swarming
