import Mldonkey.Swarming.Stable

-- What set_present makes present, and what present_intervals tells of it.
namespace Mldonkey.Swarming

open Effects HalfOpen

namespace Store

variable {s : Store}

section BlockNum

-- The search ends at the block whose beginning is the last one not behind the position.
lemma searchBlock_spec {b : List Int} {pos : Int} {len : Nat} : ∀ fuel min max : Nat,
    max ≤ min + fuel → min ≤ max → max < len → b.getD min 0 ≤ pos →
    (max + 1 < len → pos < b.getD (max + 1) 0) →
    searchBlock b pos fuel min max < len ∧ b.getD (searchBlock b pos fuel min max) 0 ≤ pos ∧
      (searchBlock b pos fuel min max + 1 < len →
        pos < b.getD (searchBlock b pos fuel min max + 1) 0)
  | 0, min, max, hfuel, hle, hlen, hmin, hmax => by
    obtain rfl : min = max := by omega
    exact ⟨hlen, hmin, hmax⟩
  | fuel + 1, min, max, hfuel, hle, hlen, hmin, hmax => by
    rw [searchBlock]
    split
    case isTrue heq =>
      subst heq
      exact ⟨hlen, hmin, hmax⟩
    case isFalse hne =>
      dsimp only
      split
      case isTrue hmed =>
        split
        case isTrue hlow =>
          refine searchBlock_spec fuel min _ (by omega) (by omega) (by omega) hmin fun _ => ?_
          rwa [Nat.sub_add_cancel (by omega)]
        case isFalse hhigh =>
          exact searchBlock_spec fuel _ max (by omega) (by omega) hlen (not_lt.mp hhigh) hmax
      case isFalse hmed =>
        obtain rfl : max = min + 1 := by omega
        split
        case isTrue hlow => exact ⟨by omega, hmin, fun _ => hlow⟩
        case isFalse hhigh => exact ⟨hlen, not_lt.mp hhigh, hmax⟩

lemma blockNum_spec (h : s.Placed) {pos : Int} (hpos : 0 ≤ pos) (hlt : pos < s.size) :
    s.blockNum pos < s.blocks.length ∧ s.computeBlockBegin (s.blockNum pos) ≤ pos ∧
      pos < s.computeBlockEnd (s.blockNum pos) := by
  have hn := h.nonempty
  have hlen := h.positions
  have hfirst : s.blockPos.getD 0 0 ≤ pos := h.first.le.trans hpos
  obtain ⟨h1, h2, h3⟩ := @searchBlock_spec s.blockPos pos s.blocks.length s.blockPos.length 0
    (s.blockPos.length - 1) (by omega) (by omega) (by omega) hfirst (by omega)
  refine ⟨h1, h2, ?_⟩
  rw [computeBlockEnd]
  split
  case isTrue => exact hlt
  case isFalse hlast => exact h3 (by rw [blockNum] at hlast; omega)

end BlockNum

section Pieces

-- A piece of an interval inside of its block
structure Piece.Inside (s : Store) (p : Piece) : Prop where
  num_lt : p.num < s.blocks.length
  blockBegin : p.blockBegin = s.computeBlockBegin p.num
  blockEnd : p.blockEnd = s.computeBlockEnd p.num
  begin_le : p.blockBegin ≤ p.intervalBegin
  end_le : p.intervalEnd ≤ p.blockEnd

def Piece.Has (p : Piece) (y : Int) : Prop := p.intervalBegin ≤ y ∧ y < p.intervalEnd

lemma iterBlocks_inside (h : s.Placed) (hsize : 0 < s.size) {e : Int} (he : e ≤ s.size) :
    ∀ (left i : Nat) (x : Int), i + left = s.blocks.length →
      (left = 0 → e ≤ x) → (0 < left → s.computeBlockBegin i ≤ x ∧ x < s.computeBlockEnd i) →
      (∀ p ∈ s.iterBlocks e left i (s.computeBlockBegin i) x, p.Inside s) ∧
      ∀ y, (∃ p ∈ s.iterBlocks e left i (s.computeBlockBegin i) x, p.Has y) ↔ x ≤ y ∧ y < e
  | 0, i, x, hi, hend, _ => by
    have := hend rfl
    simp only [iterBlocks, List.not_mem_nil, false_and, exists_false, false_iff]
    exact ⟨fun p hp => hp.elim, fun y => by omega⟩
  | left + 1, i, x, hi, _, hin => by
    obtain ⟨hb, hx⟩ := hin (Nat.succ_pos left)
    rw [iterBlocks]
    split
    case isFalse hge =>
      refine ⟨fun p hp => absurd hp List.not_mem_nil, fun y => ?_⟩
      simp only [List.not_mem_nil, false_and, exists_false, false_iff]
      omega
    case isTrue hlt =>
      dsimp only
      have hnext : s.computeBlockEnd i = s.computeBlockBegin (i + 1) ∨ left = 0 := by
        rcases Nat.eq_zero_or_pos left with hz | hpos
        · exact .inr hz
        · exact .inl (h.end_eq_begin (by omega))
      obtain ⟨hall, hhas⟩ : (∀ p ∈ s.iterBlocks e left (i + 1) (s.computeBlockEnd i)
          (s.computeBlockEnd i), p.Inside s) ∧ ∀ y, (∃ p ∈ s.iterBlocks e left (i + 1)
          (s.computeBlockEnd i) (s.computeBlockEnd i), p.Has y) ↔
            s.computeBlockEnd i ≤ y ∧ y < e := by
        rcases Nat.eq_zero_or_pos left with hz | hpos
        · subst hz
          have hlast := h.end_last (i := i) (by omega)
          simp only [iterBlocks, List.not_mem_nil, false_and, exists_false, false_iff]
          exact ⟨fun p hp => hp.elim, fun y => by omega⟩
        · rw [h.end_eq_begin (by omega)]
          exact iterBlocks_inside h hsize he left (i + 1) _ (by omega) (by omega)
            fun _ => ⟨le_rfl, h.lt hsize (i + 1) (by omega)⟩
      refine ⟨fun p hp => ?_, fun y => ?_⟩
      · rcases List.mem_cons.mp hp with rfl | hp
        · exact ⟨by change i < _; omega, rfl, rfl, hb, min_le_left _ _⟩
        · exact hall p hp
      · simp only [List.mem_cons, exists_eq_or_imp, hhas]
        simp only [Piece.Has]
        omega

lemma pieces_inside (h : s.Placed) {a b : Int} (ha : 0 ≤ a) :
    (∀ p ∈ s.pieces (a, b), p.Inside s) ∧
      ∀ y, (∃ p ∈ s.pieces (a, b), p.Has y) ↔ min a s.size ≤ y ∧ y < min b s.size := by
  simp only [pieces]
  split
  case isFalse hge =>
    refine ⟨fun p hp => absurd hp List.not_mem_nil, fun y => ?_⟩
    simp only [List.not_mem_nil, false_and, exists_false, false_iff]
    omega
  case isTrue hlt =>
    have hsize := h.size_nonneg
    obtain ⟨hn, hb, he⟩ := @blockNum_spec s h (min a s.size) (by omega) (by omega)
    exact iterBlocks_inside h (by omega) (min_le_right b s.size) _ _ _ (by omega) (by omega)
      fun _ => ⟨hb, he⟩

end Pieces

end Store

namespace State

open Store

variable {s s' s'' : State} {A A' : Int → Prop}

-- A swarmer whose blocks and ranges are in order, with its first frontend and file
structure Good (s : State) : Prop where
  books : Books False False s.toStore
  networks_pos : 0 < s.networks.length
  files_pos : 0 < s.files.length

-- The missing bytes of a kind become present and are counted.
structure Makes (A : Int → Prop) (s s' : State) : Prop where
  good : Good s'
  layout : s'.layout = s.layout
  fills : ∃ w, Fills w s s' ∧ ∀ y, y ∈ w ↔ s.Missing y ∧ A y

lemma Makes.refl (h : Good s) : Makes (fun _ => False) s s :=
  ⟨h, rfl, ∅, .refl s, fun y => by simp⟩

lemma Makes.trans (h : Makes A s s') (h' : Makes A' s' s'') :
    Makes (fun y => A y ∨ A' y) s s'' := by
  obtain ⟨w, hw, hmem⟩ := h.fills
  obtain ⟨w', hw', hmem'⟩ := h'.fills
  refine ⟨h'.good, h'.layout.trans h.layout, w ∪ w', hw.trans hw', fun y => ?_⟩
  rw [Finset.mem_union, hmem, hmem', hw.missing, hmem]
  tauto

lemma Makes.congr (h : Makes A s s') (hA : ∀ y, s.Missing y → (A y ↔ A' y)) : Makes A' s s' := by
  obtain ⟨w, hw, hmem⟩ := h.fills
  refine ⟨h.good, h.layout, w, hw, fun y => ?_⟩
  rw [hmem]
  exact and_congr_right fun hy => hA y hy

lemma Good.moves (h : Good s) (hb : Books False False s'.toStore) (hm : Moves s s') : Good s' :=
  ⟨hb, by rw [hm.networks_length]; exact h.networks_pos,
    by rw [hm.files_length]; exact h.files_pos⟩

lemma forM_makes {β : Type} {f : β → Act Unit} {B : β → Int → Prop} {g : Int × List Int × Nat}
    {E : Exn → State → Prop} (l : List β) (hf : ∀ x ∈ l, ∀ s, Good s → s.layout = g →
      Outcome (f x) (fun _ s' => Makes (B x) s s') E s)
    (h : Good s) (hg : s.layout = g) :
    Outcome (forM l f) (fun _ s' => Makes (fun y => ∃ x ∈ l, B x y) s s') E s := by
  induction l generalizing s with
  | nil =>
    rw [List.forM_nil, outcome_pure]
    exact (Makes.refl h).congr fun y _ => by simp
  | cons x l ih =>
    rw [List.forM_cons]
    refine (hf x List.mem_cons_self s h hg).bind fun _ s' h1 => ?_
    refine (ih (fun x' hx' => hf x' (List.mem_cons_of_mem x hx')) h1.good
      (h1.layout.trans hg)).mono (fun _ s'' h2 => ?_) fun _ _ he => he
    exact (h1.trans h2).congr fun y _ => by simp

lemma makes_setCompletedBlock {i : Nat} (h : Good s) (hi : i < s.blocks.length) :
    Makes (fun y => s.computeBlockBegin i ≤ y ∧ y < s.computeBlockEnd i) s
      (s.setCompletedBlock none i) := by
  have hmoves := setCompletedBlock_moves h.books hi none
  refine ⟨h.moves (setCompletedBlock_books h.books hi none) hmoves, hmoves.evolves.layout, _,
    setCompletedBlock_fills h.books hi h.files_pos none, fun y => ?_⟩
  rw [mem_missingAt]
  constructor
  · rintro ⟨hin, hmiss⟩
    exact ⟨(h.books.placed.missing_iff hi hin).mpr hmiss, hin⟩
  · rintro ⟨hmiss, hin⟩
    exact ⟨hin, (h.books.placed.missing_iff hi hin).mp hmiss⟩

lemma makes_setPresentBlock {i : Nat} {b : BlockId} {ib ie : Int} (h : Good s)
    (hi : i < s.blocks.length) (hb : s.blockAt i = .partialBlock b)
    (hib : s.computeBlockBegin i ≤ ib) (hie : ie ≤ s.computeBlockEnd i) :
    Outcome (setPresentBlock b ib ie) (fun _ s' => Makes (fun y => ib ≤ y ∧ y < ie) s s')
      (fun _ _ => False) s := by
  refine (setPresentBlock_outcome h.books h.networks_pos h.files_pos hi hb
    (fun hd => hd.elim)).mono (fun _ s' hs' => ?_) fun _ _ hno => hno
  obtain ⟨hbooks, hmoves, w, hw, hmem⟩ := hs'
  refine ⟨h.moves hbooks hmoves, hmoves.evolves.layout, w, hw, fun y => ?_⟩
  rw [hmem]
  refine and_congr_right fun _ => ⟨fun hy => hy.2, fun hy => ⟨⟨by omega, by omega⟩, hy⟩⟩

lemma makes_newBlock {i : Nat} (h : Good s) (hsize : 0 < s.size) (hi : i < s.blocks.length)
    (hb : s.blockAt i = .emptyBlock) : Makes (fun _ => False) s (s.newBlock i) := by
  have hadd : Makes (fun _ => False) s (s.withStore (·.addBlock i)) := by
    refine ⟨⟨h.books.addBlock hsize hi, h.networks_pos, h.files_pos⟩, layout_addBlock _ i, ∅,
      ⟨fun y => ?_, fun y hy => absurd hy (Finset.notMem_empty y), ?_⟩, fun y => by simp⟩
    · rw [toStore_withStore, h.books.missing_addBlock hi hb]
      simp
    · simp [State.file, withStore]
  simp only [State.newBlock]
  split
  · have hsame := setSwarmerStatePartial_books (s.withStore (·.addBlock i)) i
    have hstate : Makes (fun _ => False) (s.withStore (·.addBlock i))
        ((s.withStore (·.addBlock i)).setSwarmerStatePartial i) := by
      refine ⟨⟨?_, ?_, ?_⟩, ?_, ∅, hsame.fills, fun y => by simp⟩
      · rw [hsame.store]
        exact hadd.good.books
      · rw [hsame.networks_length]
        exact hadd.good.networks_pos
      · rw [hsame.files_length]
        exact hadd.good.files_pos
      · rw [hsame.store]
    exact (hadd.trans hstate).congr fun y _ => by simp
  · exact hadd

lemma makes_setPresentPiece {p : Store.Piece} (h : Good s) (hsize : 0 < s.size)
    (hp : p.Inside s.toStore) :
    Outcome (setPresentPiece p) (fun _ s' => Makes p.Has s s') (fun _ _ => False) s := by
  have hbegin := hp.blockBegin
  have hend := hp.blockEnd
  have hle := hp.begin_le
  have hge := hp.end_le
  -- Nothing of a block that is done is missing.
  have hdone (hno : ∀ y, ¬ s.MissingIn (s.blockAt p.num) y) : Makes p.Has s s := by
    refine (Makes.refl h).congr fun y hy => ⟨fun hf => hf.elim, fun hhas => ?_⟩
    have hin : s.computeBlockBegin p.num ≤ y ∧ y < s.computeBlockEnd p.num := by
      rw [Piece.Has] at hhas
      omega
    exact hno y ((h.books.placed.missing_iff hp.num_lt hin).mp hy)
  unfold setPresentPiece
  rw [outcome_get_bind]
  split
  case h_1 hb =>
    split
    case isTrue hwhole =>
      rw [outcome_modify_bind, outcome_modify_bind, outcome_modify, hbegin, hend,
        completeWhole_eq hb]
      refine (makes_setCompletedBlock h hp.num_lt).congr fun y _ => ?_
      rw [Piece.Has]
      omega
    case isFalse =>
      have hnew := makes_newBlock h hsize hp.num_lt hb
      have hlen : p.num < (s.newBlock p.num).blocks.length := by
        have := congrArg (fun g => g.2.2) hnew.layout
        simp only [Store.layout] at this
        rw [this]
        exact hp.num_lt
      rw [outcome_modify_bind]
      refine (makes_setPresentBlock hnew.good hlen ?_ ?_ ?_).mono (fun _ s' hs' => ?_)
        fun _ _ hno => hno
      · rw [blockAt_newBlock, if_pos ⟨rfl, hp.num_lt⟩]
      · rw [computeBlockBegin_congr hnew.layout]
        omega
      · rw [computeBlockEnd_congr hnew.layout]
        omega
      · exact (hnew.trans hs').congr fun y _ => by simp [Piece.Has]
  case h_2 b hb => exact makes_setPresentBlock h hp.num_lt hb (by omega) (by omega)
  case h_3 hb => exact hdone fun y => by rw [hb]; exact id
  case h_4 hb => exact hdone fun y => by rw [hb]; exact id

-- The intervals lie in the file.
def InFile (size : Int) (intervals : List (Int × Int)) : Prop :=
  ∀ p ∈ intervals, 0 ≤ p.1 ∧ p.1 ≤ size ∧ 0 ≤ p.2 ∧ p.2 ≤ size

lemma makes_iterIntervals {intervals : List (Int × Int)} (h : Good s)
    (hin : InFile s.size intervals) :
    Outcome (iterIntervals setPresentPiece intervals)
      (fun _ s' => Makes (Covers intervals) s s') (fun _ _ => False) s := by
  unfold iterIntervals
  refine (forM_makes (B := fun (p : Int × Int) y => p.1 ≤ y ∧ y < p.2) (g := s.layout) intervals
    (fun p hp s' h' hg => ?_) h rfl).mono (fun _ s' hs' => hs') fun _ _ hno => hno
  obtain ⟨h1, h2, h3, h4⟩ := hin p hp
  have hsize : s'.size = s.size := congrArg (fun g => g.1) hg
  rw [outcome_get_bind]
  obtain ⟨hall, hhas⟩ := pieces_inside h'.books.placed (a := p.1) (b := p.2) h1
  split
  case isTrue hlt =>
    unfold computeBlockNum
    rw [outcome_bind, outcome_get_bind, outcome_bind, outcome_check]
    refine ⟨fun _ => ?_, fun hno => hno ⟨by omega, by omega⟩⟩
    rw [outcome_pure]
    refine (forM_makes (B := fun q y => q.Has y) (g := s'.layout) (s'.pieces p)
      (fun q hq s'' h'' hg' => ?_) h' rfl).mono (fun _ s'' hs'' => ?_) fun _ _ hno => hno
    · have hi := hall q hq
      refine makes_setPresentPiece h'' ?_ ⟨?_, ?_, ?_, hi.begin_le, hi.end_le⟩
      · rw [show s''.size = s'.size from congrArg (fun g => g.1) hg']
        omega
      · rw [show s''.blocks.length = s'.blocks.length from congrArg (fun g => g.2.2) hg']
        exact hi.num_lt
      · rw [computeBlockBegin_congr hg']
        exact hi.blockBegin
      · rw [computeBlockEnd_congr hg']
        exact hi.blockEnd
    · refine hs''.congr fun y _ => ?_
      rw [hhas]
      omega
  case isFalse hge =>
    rw [outcome_pure]
    refine (Makes.refl h').congr fun y _ => ⟨fun hf => hf.elim, fun hy => hge ?_⟩
    omega

-- The disk space that is marked afterwards changes nothing else, even if that fails.
lemma after_markDiskSpace (intervals : List (Int × Int)) (s : State) :
    Outcome (forM intervals fun i => markDiskSpacePreallocated i.1 i.2)
      (fun _ s' => ∃ a, s' = { s with diskAllocated := a })
      (fun _ s' => ∃ a, s' = { s with diskAllocated := a }) s := by
  refine Outcome.forM ⟨s.diskAllocated, rfl⟩ fun i _ s1 h1 => ?_
  refine (diskBlocks_reads i.1 i.2 s1).outcome_bind (fun _ _ => h1) fun l => ?_
  refine Outcome.forM h1 fun n _ s2 h2 => ?_
  unfold setDiskAllocated
  rw [outcome_get_bind, outcome_bind, outcome_check]
  obtain ⟨a, rfl⟩ := h2
  exact ⟨fun _ => ⟨_, rfl⟩, fun _ => ⟨a, rfl⟩⟩

lemma makes_setPresent {intervals : List (Int × Int)} (h : Good s)
    (hin : InFile s.size intervals) :
    Makes (Covers intervals) s (after (setPresent intervals) s) := by
  have hout : Outcome (setPresent intervals) (fun _ s' => Makes (Covers intervals) s s')
      (fun _ s' => Makes (Covers intervals) s s') s := by
    unfold setPresent
    refine ((makes_iterIntervals h hin).mono (fun _ _ h' => h') fun _ _ hno => hno.elim).bind
      fun _ s1 h1 => ?_
    have hdisk (s2 : State) (h2 : ∃ a, s2 = { s1 with diskAllocated := a }) :
        Makes (Covers intervals) s s2 := by
      obtain ⟨a, rfl⟩ := h2
      obtain ⟨w, hw, hmem⟩ := h1.fills
      exact ⟨⟨h1.good.books, h1.good.networks_pos, h1.good.files_pos⟩, h1.layout, w,
        ⟨hw.missing, hw.before, hw.downloaded⟩, hmem⟩
    rw [outcome_get_bind]
    split
    case h_1 => exact h1
    case h_2 =>
      exact (after_markDiskSpace intervals s1).mono (fun _ s2 h2 => hdisk s2 h2)
        fun _ s2 h2 => hdisk s2 h2
  unfold Outcome at hout
  unfold after
  split at hout
  case h_1 => exact hout
  case h_2 => exact hout

end State

namespace Store

variable {s : Store}

-- A reversed list of intervals up to a point: each begins behind the end of the next one.
structure UpTo (B : Int → Prop) (pos : Int) (acc : List (Int × Int)) : Prop where
  apart : acc.Pairwise fun p q => q.2 < p.1
  lt : ∀ p ∈ acc, p.1 < p.2
  end_le : ∀ p ∈ acc, p.2 ≤ pos
  covers : ∀ y, Covers acc y ↔ B y ∧ y < pos

variable {B : Int → Prop} {pos lo hi : Int} {acc : List (Int × Int)}

lemma UpTo.skip (h : UpTo B pos acc) (hhi : pos ≤ hi) (hB : ∀ y, pos ≤ y → y < hi → ¬ B y) :
    UpTo B hi acc := by
  refine ⟨h.apart, h.lt, fun p hp => (h.end_le p hp).trans hhi, fun y => ?_⟩
  rw [h.covers]
  refine ⟨fun hy => ⟨hy.1, by omega⟩, fun hy => ⟨hy.1, ?_⟩⟩
  by_contra hge
  exact hB y (by omega) hy.2 hy.1

-- An interval is added, or the last one grows.
lemma UpTo.append (h : UpTo B pos acc) (hhi : pos ≤ hi)
    (hB : ∀ y, pos ≤ y → y < hi → B y) : UpTo B hi (appendInterval (pos, hi) acc) := by
  unfold appendInterval
  have hcovers (y : Int) : B y ∧ y < hi ↔ (B y ∧ y < pos) ∨ pos ≤ y ∧ y < hi := by
    constructor
    · rintro ⟨hy, hlt⟩
      by_cases hpos : y < pos
      · exact .inl ⟨hy, hpos⟩
      · exact .inr ⟨by omega, hlt⟩
    · rintro (⟨hy, hlt⟩ | ⟨hge, hlt⟩)
      · exact ⟨hy, by omega⟩
      · exact ⟨hB y hge hlt, hlt⟩
  split
  case isTrue heq =>
    have heq' : pos = hi := heq
    exact heq' ▸ h
  case isFalse hne =>
    have hlt : pos < hi := lt_of_le_of_ne hhi hne
    cases acc with
    | nil =>
      refine ⟨List.pairwise_singleton _ _, fun p hp => ?_, fun p hp => ?_, fun y => ?_⟩
      · rw [List.mem_singleton] at hp
        exact hp ▸ hlt
      · rw [List.mem_singleton] at hp
        exact hp ▸ le_rfl
      · rw [hcovers, ← h.covers]
        simp
    | cons last others =>
      have hlast := h.end_le last List.mem_cons_self
      obtain ⟨hfirst, hrest⟩ := List.pairwise_cons.mp h.apart
      have hlastlt := h.lt last List.mem_cons_self
      dsimp only
      split
      case isTrue hgap =>
        have hgap' : last.2 < pos := hgap
        refine ⟨List.pairwise_cons.mpr ⟨fun q hq => ?_, h.apart⟩, fun p hp => ?_, fun p hp => ?_,
          fun y => ?_⟩
        · rcases List.mem_cons.mp hq with rfl | hq
          · exact hgap'
          · have := hfirst q hq
            show q.2 < pos
            omega
        · rcases List.mem_cons.mp hp with rfl | hp
          · exact hlt
          · exact h.lt p hp
        · rcases List.mem_cons.mp hp with rfl | hp
          · exact le_rfl
          · exact (h.end_le p hp).trans hhi
        · rw [hcovers, ← h.covers, covers_cons, or_comm]
      case isFalse htouch =>
        have htouch' : ¬ last.2 < pos := htouch
        have hend : last.2 = pos := by omega
        refine ⟨List.pairwise_cons.mpr ⟨hfirst, hrest⟩, fun p hp => ?_, fun p hp => ?_,
          fun y => ?_⟩
        · rcases List.mem_cons.mp hp with rfl | hp
          · show last.1 < hi
            omega
          · exact h.lt p (List.mem_cons_of_mem _ hp)
        · rcases List.mem_cons.mp hp with rfl | hp
          · exact le_rfl
          · exact (h.end_le p (List.mem_cons_of_mem _ hp)).trans hhi
        · rw [hcovers, ← h.covers, covers_cons, covers_cons]
          have hsplit : last.1 ≤ y ∧ y < hi ↔ (last.1 ≤ y ∧ y < last.2) ∨ pos ≤ y ∧ y < hi := by
            omega
          rw [hsplit]
          tauto

-- The ranges of a partial block are left out.
lemma upTo_ranges (hi : Int) : ∀ (l : List RangeId) (pos : Int) (acc : List (Int × Int)),
    UpTo B pos acc → Chain pos (s.spans l) hi →
    (∀ y, pos ≤ y → y < hi → (B y ↔ ¬ Covers (s.spans l) y)) →
    let found := l.foldl (fun (found : List (Int × Int) × Int) r =>
      (appendInterval (found.2, (s.range r).rangeBegin) found.1, (s.range r).rangeEnd)) (acc, pos)
    UpTo B hi (appendInterval (found.2, hi) found.1)
  | [], pos, acc, h, hc, hB => h.append hc fun y h1 h2 => (hB y h1 h2).mpr covers_nil
  | r :: l, pos, acc, h, hc, hB => by
    obtain ⟨h1, h2, h3⟩ := hc
    have h1' : pos ≤ (s.range r).rangeBegin := h1
    have h2' : (s.range r).rangeBegin < (s.range r).rangeEnd := h2
    have hend := h3.le
    have hend' : (s.range r).rangeEnd ≤ hi := hend
    rw [List.foldl_cons]
    refine upTo_ranges hi l (s.range r).rangeEnd _ ?_ h3 fun y hy hlt => ?_
    · refine (h.append h1' fun y hge hlt => ?_).skip h2'.le fun y hge hlt => ?_
      · rw [hB y hge (by omega), spans_cons, covers_cons]
        rintro (⟨hle, -⟩ | hcov)
        · have hle' : (s.range r).rangeBegin ≤ y := hle
          omega
        · have hbounds : (s.range r).rangeEnd ≤ y := (h3.covers_bounds hcov).1
          omega
      · rw [hB y (by omega) (by omega), spans_cons, covers_cons, not_not]
        exact .inl ⟨hge, hlt⟩
    · rw [hB y (by omega) hlt, spans_cons, covers_cons]
      refine not_congr ⟨fun hcov => ?_, .inr⟩
      rcases hcov with ⟨-, hlt'⟩ | hcov
      · have hlt'' : y < (s.range r).rangeEnd := hlt'
        omega
      · exact hcov

-- The bytes of the file that are not missing
def Present (s : Store) (y : Int) : Prop := (0 ≤ y ∧ y < s.size) ∧ ¬ s.Missing y

lemma upTo_appendBlock (h : Books False False s) {i : Nat} (hi : i < s.blocks.length)
    (hacc : UpTo s.Present (s.computeBlockBegin i) acc) :
    UpTo s.Present (s.computeBlockEnd i) (s.appendBlock acc i) := by
  have hle := h.placed.le hi
  have h0 := h.placed.begin_nonneg hi
  have hsize := h.placed.end_le_size hi
  have hpresent (y : Int) (hge : s.computeBlockBegin i ≤ y) (hlt : y < s.computeBlockEnd i) :
      s.Present y ↔ ¬ s.MissingIn (s.blockAt i) y := by
    rw [Present, h.placed.missing_iff hi ⟨hge, hlt⟩]
    exact ⟨fun hp => hp.2, fun hm => ⟨⟨by omega, by omega⟩, hm⟩⟩
  rw [appendBlock]
  split
  case h_1 hb =>
    refine hacc.skip hle fun y hge hlt => ?_
    rw [hpresent y hge hlt, hb, not_not]
    trivial
  case h_2 hb =>
    refine hacc.append hle fun y hge hlt => ?_
    rw [hpresent y hge hlt, hb]
    exact id
  case h_3 hb =>
    refine hacc.append hle fun y hge hlt => ?_
    rw [hpresent y hge hlt, hb]
    exact id
  case h_4 b hb =>
    refine upTo_ranges (s.computeBlockEnd i) (s.ranges b) (s.computeBlockBegin i) acc hacc
      (h.tidy i hi b hb).chain fun y hge hlt => ?_
    rw [hpresent y hge hlt, hb]
    rfl

lemma upTo_range (h : Books False False s) : ∀ n ≤ s.blocks.length,
    UpTo s.Present (if n = 0 then 0 else s.computeBlockEnd (n - 1))
      ((List.range n).foldl s.appendBlock [])
  | 0, _ => by
    refine ⟨List.Pairwise.nil, fun p hp => absurd hp List.not_mem_nil,
      fun p hp => absurd hp List.not_mem_nil, fun y => ?_⟩
    rw [if_pos rfl]
    refine ⟨fun hy => absurd hy covers_nil, fun hy => ?_⟩
    have := hy.1.1
    omega
  | n + 1, hn => by
    have ih := upTo_range h n (by omega)
    have hbegin : (if n = 0 then 0 else s.computeBlockEnd (n - 1)) = s.computeBlockBegin n := by
      split
      case isTrue hz => rw [hz, h.placed.first]
      case isFalse hz =>
        have hnext := h.placed.end_eq_begin (i := n - 1) (by omega)
        rwa [Nat.sub_add_cancel (by omega)] at hnext
    rw [hbegin] at ih
    rw [List.range_succ, List.foldl_append, List.foldl_cons, List.foldl_nil,
      if_neg (Nat.succ_ne_zero n), Nat.add_sub_cancel]
    exact upTo_appendBlock h (by omega) ih

lemma upTo_presentIntervals (h : Books False False s) :
    UpTo s.Present s.size s.presentIntervals.reverse := by
  have hall := upTo_range h s.blocks.length le_rfl
  have hpos := h.placed.nonempty
  rw [if_neg hpos.ne', h.placed.end_last (by omega)] at hall
  rwa [presentIntervals, List.reverse_reverse]

-- The maximal intervals of a set, in order: no two touch.
structure MaximalIntervals (B : Int → Prop) (l : List (Int × Int)) : Prop where
  apart : l.Pairwise fun p q => p.2 < q.1
  nonempty : ∀ p ∈ l, p.1 < p.2
  covers : ∀ y, Covers l y ↔ B y

lemma maximal_presentIntervals (h : Books False False s) :
    MaximalIntervals s.Present s.presentIntervals := by
  have hall := upTo_presentIntervals h
  have hmem (p : Int × Int) : p ∈ s.presentIntervals ↔ p ∈ s.presentIntervals.reverse :=
    List.mem_reverse.symm
  refine ⟨List.pairwise_reverse.mp hall.apart, fun p hp => hall.lt p ((hmem p).mp hp),
    fun y => ?_⟩
  have hcovers := hall.covers y
  simp only [Covers, List.mem_reverse] at hcovers
  rw [Covers, hcovers]
  exact ⟨fun hy => hy.1, fun hy => ⟨hy, hy.1.2⟩⟩

end Store

-- A new swarmer of ten bytes with chunks of four
def startTen : State :=
  (createSwarmer 10).associate
    { chunkSize := 4
      nchunks := 3
      convertedVerifiedBitmap := VB.create 3 .stateMissing
      ncompleteChunks := 0
      nverifiedChunks := 0
      verifier := .forceVerification
      blocksOfChunk := List.replicate 3 []
      chunkOfBlock := []
      fd := 0 } ⟨10, 0, .fileDownloading⟩

namespace State

open Store

-- In every swarmer that is in order, set_present adds the bytes of the intervals, counts the new
-- ones, and leaves the swarmer in order. The list of present intervals then has the bytes that are
-- present, also if the marking of the disk space has failed.
theorem set_present_exact {s : State} {intervals : List (Int × Int)} (h : Good s)
    (hin : InFile s.size intervals) :
    Good (after (setPresent intervals) s) ∧
    (∀ y, y ∈ (after (setPresent intervals) s).present ↔ y ∈ s.present ∨ Covers intervals y) ∧
    ((after (setPresent intervals) s).file 0).downloaded = (s.file 0).downloaded +
      ((after (setPresent intervals) s).present \ s.present).card ∧
    MaximalIntervals (fun y => y ∈ (after (setPresent intervals) s).present)
      (after (setPresent intervals) s).presentIntervals := by
  have hmakes := makes_setPresent h hin
  set s' := after (setPresent intervals) s
  obtain ⟨w, hw, hmem⟩ := hmakes.fills
  have hsize : s'.size = s.size := congrArg (fun g => g.1) hmakes.layout
  have hpresent (y : Int) : y ∈ s'.present ↔ y ∈ s.present ∨ Covers intervals y := by
    rw [mem_present, mem_present, hw.missing, hmem, hsize]
    have hcovers : Covers intervals y → 0 ≤ y ∧ y < s.size := by
      rintro ⟨p, hp, h1, h2⟩
      obtain ⟨h3, -, -, h4⟩ := hin p hp
      omega
    tauto
  refine ⟨hmakes.good, hpresent, ?_, ?_⟩
  · have hnew : s'.present \ s.present = w := by
      ext y
      rw [Finset.mem_sdiff, hpresent, hmem, mem_present]
      have hbounds := fun hm : s.Missing y => h.books.placed.missing_bounds hm
      have hcovers : Covers intervals y → 0 ≤ y ∧ y < s.size := by
        rintro ⟨p, hp, h1, h2⟩
        obtain ⟨h3, -, -, h4⟩ := hin p hp
        omega
      tauto
    rw [hnew]
    exact hw.downloaded
  · have hmax := maximal_presentIntervals hmakes.good.books
    exact ⟨hmax.apart, hmax.nonempty, fun y => (hmax.covers y).trans mem_present.symm⟩

lemma startTen_good : Good startTen := by
  have hlen : startTen.blocks.length = 3 := by decide
  refine ⟨⟨⟨rfl, by decide, by decide, by decide, fun _ i hi => ?_, fun hz => ?_⟩,
    fun b r hr => absurd hr List.not_mem_nil, fun r hr => absurd hr (Nat.not_lt_zero r),
    fun i hi b hb => ?_⟩, by decide, by decide⟩
  · rw [hlen] at hi
    interval_cases i <;> decide
  · exact absurd hz (by decide)
  · rw [hlen] at hi
    interval_cases i <;> cases hb

-- Intervals that overlap each other and what is there, in a file of three blocks
theorem set_present_exact_ten :
    let s := after (setPresent [(2, 5)]) startTen
    let s' := after (setPresent [(4, 7), (1, 3)]) s
    (s'.file 0).downloaded = (s.file 0).downloaded + (s'.present \ s.present).card ∧
      s'.presentIntervals = [(1, 7)] := by
  have hs : Good (after (setPresent [(2, 5)]) startTen) := by
    refine (set_present_exact startTen_good ?_).1
    intro p hp
    obtain rfl := List.mem_singleton.mp hp
    decide
  refine ⟨(set_present_exact hs ?_).2.2.1, by decide⟩
  intro p hp
  simp only [List.mem_cons, List.not_mem_nil, or_false] at hp
  rcases hp with rfl | rfl <;> decide

end State

end Mldonkey.Swarming
