import Mldonkey.Swarming.Ledger.Present
import Mldonkey.Swarming.Selecting

namespace Mldonkey.Swarming

open Effects

namespace Store

-- A piece that iter_intervals passes on for `interval` lies in its block.
structure Piece.In (s : Store) (interval : Int × Int) (p : Piece) : Prop where
  num_lt : p.num < s.blocks.length
  blockBegin : p.blockBegin = s.computeBlockBegin p.num
  blockEnd : p.blockEnd = s.computeBlockEnd p.num
  intervalBegin : p.intervalBegin = min interval.1 s.size ∨
    p.intervalBegin = s.computeBlockBegin p.num
  intervalEnd : p.intervalEnd = min p.blockEnd (min interval.2 s.size)

theorem computeBlockEnd_succ {s : Store} (h : s.blockPos.length = s.blocks.length) {i : Nat}
    (hi : i + 1 < s.blocks.length) : s.computeBlockEnd i = s.computeBlockBegin (i + 1) := by
  rw [computeBlockEnd, if_neg (by omega), computeBlockBegin]

theorem iterBlocks_in {s : Store} (h : s.blockPos.length = s.blocks.length)
    {interval : Int × Int} :
    ∀ (left i : Nat) (intervalBegin : Int), i + left = s.blocks.length →
      (intervalBegin = min interval.1 s.size ∨ intervalBegin = s.computeBlockBegin i) →
      ∀ p ∈ s.iterBlocks (min interval.2 s.size) left i (s.computeBlockBegin i) intervalBegin,
        p.In s interval
  | 0, _, _, _, _, p, hp => by simp [iterBlocks] at hp
  | left + 1, i, intervalBegin, hi, hb, p, hp => by
      simp only [iterBlocks] at hp
      split at hp
      · rcases List.mem_cons.mp hp with rfl | hp
        · exact ⟨by simp; omega, rfl, rfl, hb, rfl⟩
        · cases left with
          | zero => simp [iterBlocks] at hp
          | succ left =>
              rw [s.computeBlockEnd_succ h (by omega)] at hp
              exact iterBlocks_in h _ (i + 1) _ (by omega) (.inr rfl) p hp
      · simp at hp

theorem searchBlock_le (b : List Int) (chunkPos : Int) :
    ∀ (fuel min max : Nat), min ≤ max → searchBlock b chunkPos fuel min max ≤ max
  | 0, _, _, h => h
  | fuel + 1, min, max, h => by
      simp only [searchBlock]
      split
      · omega
      · split
        · split
          · have := searchBlock_le b chunkPos fuel min ((min + max) / 2 - 1) (by omega)
            omega
          · exact searchBlock_le b chunkPos fuel _ max (by omega)
        · split <;> omega

theorem pieces_in {s : Store} (h : s.blockPos.length = s.blocks.length)
    (hpos : 0 < s.blocks.length) {interval : Int × Int} {p : Piece}
    (hp : p ∈ s.pieces interval) : p.In s interval := by
  simp only [pieces] at hp
  split at hp
  · have hnum : s.blockNum (min interval.1 s.size) ≤ s.blockPos.length - 1 :=
      searchBlock_le _ _ _ 0 _ (by omega)
    exact iterBlocks_in h _ _ _ (by omega) (.inl rfl) p hp
  · simp at hp

end Store

-- What an invariant has to stand for the operations on blocks to keep it. `P`
-- holds of the offsets at which the intervals of set_present begin, `R` of the
-- block records that are handed to an uploader, and `C` of the ranges that
-- find_range may pick for an uploader and a size, with those it merges with them
-- and the end of the block; `W` is what a priority of some block tells.
structure Stable (g : Int × List Int × Nat) (P : Int → Prop) (I : State → Prop)
    (R : State → BlockId → Prop)
    (C : Nat → Int → State → RangeId → List RangeId → Int → Prop) (W : Prop)
    (G : Exn → Prop) : Prop where
  calm : ∀ {e : Exn}, e.Calm → G e
  positions : g.2.1.length = g.2.2
  nonempty : 0 < g.2.2
  layout : ∀ {s}, I s → s.layout = g
  disk : ∀ {s a}, I s → I { s with diskAllocated := a }
  write : ∀ {s w}, I s → I { s with written := w }
  sized : 0 < g.1 → W
  wanted : ∀ {s i}, I s → s.prioritiesBitmap.getD i 0 ≠ 0 → W
  start : ∀ {s i}, W → I s → i < s.blocks.length → s.blockAt i = .emptyBlock →
    I (s.newBlock i) ∧ R (s.newBlock i) s.nextBlock ∧ ∀ b, R s b → R (s.newBlock i) b
  complete : ∀ {s} i, I s → I (s.setCompletedBlock none i)
  present : ∀ {s i b ib ie}, I s → i < s.blocks.length → s.blockAt i = .partialBlock b →
    P ib ∨ ib = s.computeBlockBegin i → ie ≤ s.computeBlockEnd i →
    Outcome (setPresentBlock b ib ie) (fun _ => I) (Ends I G) s
  receive : ∀ {s u key t ie}, I s → u ∈ s.uploaders → key ∈ u.ranges →
    (s.range key.2.2).rangeBegin < ie → ie ≤ (s.range key.2.2).rangeEnd →
    Outcome (rangeReceived (some t) key.2.2 (s.range key.2.2).rangeBegin ie) (fun _ => I)
      (Ends I G) s
  verify : ∀ {s fileVerify k j}, I s →
    Outcome (verifyChunk fileVerify k j)
      (fun _ s' => I s' ∧ ∀ up rangeSize r q e, C up rangeSize s r q e → C up rangeSize s' r q e)
      (fun e s' => Ends I G e s' ∧
        ∀ up rangeSize r q e, C up rangeSize s r q e → C up rangeSize s' r q e) s
  prune : ∀ {s} up, I s → I (s.removeCompletedUploaderRanges up)
  pick : ∀ {s r q e up rangeSize}, I s → C up rangeSize s r q e →
    I (s.takeCluster up r q rangeSize e)
  permute : ∀ {s up n b last}, I s → n < (s.uploader up).ncomplete →
    (s.uploader up).completeBlocks[n]? = some b →
    (s.uploader up).completeBlocks[(s.uploader up).ncomplete - 1]? = some last →
    I (s.modifyUploader up fun u =>
      { u with
        completeBlocks := (u.completeBlocks.set n last).set (u.ncomplete - 1) b
        ncomplete := u.ncomplete - 1 })
  dropComplete : ∀ {s up n}, I s → n + 1 = (s.uploader up).ncomplete →
    I (s.modifyUploader up fun u => { u with ncomplete := n })
  dropPartial : ∀ {s up n}, I s → n + 1 = Uploader.npartial (s.uploader up) →
    I (s.modifyUploader up fun u => { u with npartial := n })
  current : ∀ {s i b}, I s → i < s.blocks.length → s.blockAt i = .partialBlock b → R s b
  aside : ∀ {s up f b}, R s b → R (s.modifyUploader up f) b
  unselect : ∀ {s} up, I s → I (s.clearUploaderBlocks up)
  choose : ∀ {s up} {blocks : List UploaderBlock}, I s → (∀ b ∈ blocks, R s b.block) →
    I ((blocks.foldl (fun s b => s.incrNuploading (s.block b.block).num) s).modifyUploader up
      fun u => { u with blocks := blocks })
  count : ∀ {s} i, I s → I (s.incrAvailability i)
  declare : ∀ {s up} {f : Uploader → Uploader},
    (∀ u, (f u).ranges = u.ranges ∧ (f u).blocks = []) → I s → I (s.modifyUploader up f)
  register : ∀ {s} {u : Uploader}, u.ranges = [] → u.blocks = [] → I s →
    I { s with uploaders := s.uploaders ++ [u] }
  clear : ∀ {s} up, I s → I (s.clearUploaderIntervals up)
  release : ∀ {s} up, I s → I (s.clearUploaderRanges up)
  strategy : ∀ {s x}, I s → I { s with strategy := x }
  fileState : ∀ {s k x}, I s → I (s.modifyFile k fun f => { f with state := x })
  prioritize : ∀ {s l}, I s → I (State.swarmerRecomputePrioritiesBitmap
    { s with prioritiesIntervals := l })

-- What the run of an operation relies on beyond the rules of `Stable`. The
-- operations that need more are left out.
def Op.Fits (P : Int → Prop) (C : Nat → Int → State → RangeId → List RangeId → Int → Prop)
    (s : State) : Op → Prop
  | .setPresent intervals => ∀ interval ∈ intervals, P (min interval.1 s.size)
  | .setAbsent listAbsent => ∀ interval ∈ complementary [] 0 s.size listAbsent,
      P (min interval.1 s.size)
  | .findRange _ up rangeSize =>
      let s := s.removeCompletedUploaderRanges up
      ∀ b moreBlocks r q, (s.uploader up).blocks = b :: moreBlocks →
        (s.searchBlocks (s.uploader up) rangeSize dummyRangesCluster b moreBlocks
          ).2.ranges.reverse = r :: q →
        C up rangeSize s r q (s.searchBlocks (s.uploader up) rangeSize dummyRangesCluster b
          moreBlocks).1.blockEnd
  | .verifyAllChunks | .verifyAllChunksImmediately .. | .setChunksVerifiedBitmap ..
  | .setVerifier .. | .merge _ => False
  | _ => True

namespace Stable

variable {g : Int × List Int × Nat} {P : Int → Prop} {I : State → Prop}
  {R : State → BlockId → Prop} {C : Nat → Int → State → RangeId → List RangeId → Int → Prop}
  {W : Prop} {G : Exn → Prop} {s : State} {fileVerify : FileVerify}

theorem size_eq (h : Stable g P I R C W G) (hs : I s) : s.size = g.1 :=
  congrArg Prod.fst (h.layout hs)

theorem blocks_length (h : Stable g P I R C W G) (hs : I s) : s.blocks.length = g.2.2 :=
  congrArg (fun x => x.2.2) (h.layout hs)

theorem blockPos_length (h : Stable g P I R C W G) (hs : I s) :
    s.blockPos.length = s.blocks.length := by
  rw [h.blocks_length hs, ← h.positions]
  exact congrArg (fun x => x.2.1.length) (h.layout hs)

theorem raise (h : Stable g P I R C W G) (hs : I s) {e : Exn} (he : e.Calm) : Ends I G e s :=
  ⟨hs, h.calm he⟩

theorem verifyChunk (h : Stable g P I R C W G) (hs : I s) (k j : Nat) :
    Outcome (verifyChunk fileVerify k j) (fun _ => I) (Ends I G) s :=
  (h.verify hs).mono (fun _ _ h => h.1) fun _ _ h => h.1

theorem selecting (h : Stable g P I R C W G) (up : Nat) :
    Selecting fileVerify up W I R (Ends I G) where
  raise hs he := h.raise hs he
  recover he := he.1
  wanted hs hp := h.wanted hs hp
  verify hs _ := h.verifyChunk hs 0 _
  permute := h.permute
  dropComplete := h.dropComplete
  dropPartial := h.dropPartial
  start hW hs hi hb := (h.start hW hs hi hb).1
  started hW hs hi hb := (h.start hW hs hi hb).2
  current hs hi hb := h.current hs hi hb
  aside := h.aside
  unselect := h.unselect up
  choose := h.choose

theorem findBlocks (h : Stable g P I R C W G) (hs : I s) (up : Nat) (sourcesPerChunk : Int)
    (random : Nat → Nat) :
    Outcome (findBlocks fileVerify sourcesPerChunk random up) (fun _ => I) (Ends I G) s :=
  (h.selecting up).findBlocks hs sourcesPerChunk random

-- The search works on the state without the completed ranges.
theorem findRange (h : Stable g P I R C W G) (hs : I s) (up : Nat) (rangeSize : Int)
    (hC : (Op.findRange fileVerify up rangeSize).Fits P C s) :
    Outcome (findRange fileVerify up rangeSize) (fun _ => I) (Ends I G) s := by
  unfold Swarming.findRange
  have h₁ := h.prune up hs
  simp only [Op.Fits] at hC
  rw [outcome_modify_bind, outcome_get_bind]
  generalize s.removeCompletedUploaderRanges up = s₁ at h₁ hC
  dsimp only
  split
  · exact h.raise h₁ (by simp [Exn.Calm])
  · next b moreBlocks hb =>
      have hC := fun r q => hC b moreBlocks r q hb
      generalize s₁.searchBlocks (s₁.uploader up) rangeSize dummyRangesCluster b moreBlocks = best
        at hC
      have hpick : ∀ s', I s' → (∀ r q, best.2.ranges.reverse = r :: q →
          C up rangeSize s' r q best.1.blockEnd) → Outcome
            (pickCluster up rangeSize best.1.blockEnd best.2.ranges.reverse)
            (fun _ => I) (Ends I G) s' := by
        intro s' hs' hC'
        unfold pickCluster
        split
        · exact h.raise hs' (by simp [Exn.Calm])
        · next r q hr =>
            rw [outcome_modify_bind, outcome_get_bind]
            exact h.pick hs' (hC' r q hr)
      have hraise : ∀ {e : Exn} {s' : State}, (I s' ∧ ∀ r q, best.2.ranges.reverse = r :: q →
          C up rangeSize s' r q best.1.blockEnd) → e.Calm → Ends I G e s' ∧ ∀ r q,
            best.2.ranges.reverse = r :: q → C up rangeSize s' r q best.1.blockEnd :=
        fun hs' he => ⟨h.raise hs'.1 he, hs'.2⟩
      refine (Reads.check _ (by simp [Exn.Calm])).outcome_bind (fun _ he => h.raise h₁ he)
        fun _ => ?_
      split
      · refine ((checkOtherBlocks_outcome (I := fun s' => I s' ∧ ∀ r q,
          best.2.ranges.reverse = r :: q → C up rangeSize s' r q best.1.blockEnd)
          hraise (fun he => ⟨he.1.1, he.2⟩) (fun hs' _ => ?_) _ _ ⟨h₁, hC⟩).mono
            (fun _ _ h => h) fun _ _ he => he.1).bind fun _ s' hs' => hpick s' hs'.1 hs'.2
        exact (h.verify hs'.1).mono
          (fun _ _ hv => ⟨hv.1, fun r q hr => hv.2 up rangeSize r q _ (hs'.2 r q hr)⟩)
          fun _ _ hv => ⟨hv.1, fun r q hr => hv.2 up rangeSize r q _ (hs'.2 r q hr)⟩
      · exact hpick s₁ h₁ hC

theorem setDiskAllocated (h : Stable g P I R C W G) (hs : I s) (m : Nat) :
    Outcome (setDiskAllocated m) (fun _ => I) (Ends I G) s := by
  unfold Swarming.setDiskAllocated
  rw [outcome_get_bind]
  exact (Reads.check _ (by simp [Exn.Calm])).outcome_bind (fun _ he => h.raise hs he)
    fun _ => h.disk hs

theorem iterIntervals (h : Stable g P I R C W G) {f : Store.Piece → Act Unit}
    {intervals : List (Int × Int)}
    (hf : ∀ interval ∈ intervals, ∀ p s, 0 < s.size → p.In s.toStore interval → I s →
      Outcome (f p) (fun _ => I) (Ends I G) s) (hs : I s) :
    Outcome (iterIntervals f intervals) (fun _ => I) (Ends I G) s := by
  unfold Swarming.iterIntervals
  refine Outcome.forM hs fun interval hmem s' hs' => ?_
  rw [outcome_get_bind]
  split
  · unfold computeBlockNum
    rw [outcome_bind, outcome_get_bind, outcome_bind, outcome_check]
    refine ⟨fun hpos => ?_, fun _ => h.raise hs' (by simp [Exn.Calm])⟩
    refine Outcome.forM hs' fun p hp s'' hs'' => ?_
    have hin := Store.pieces_in (h.blockPos_length hs') (h.blocks_length hs' ▸ h.nonempty) hp
    have hl : s''.layout = s'.layout := (h.layout hs'').trans (h.layout hs').symm
    refine hf interval hmem p s'' ?_ ⟨?_, ?_, ?_, ?_, ?_⟩ hs''
    · rw [h.size_eq hs'', ← h.size_eq hs']; omega
    · rw [h.blocks_length hs'', ← h.blocks_length hs']; exact hin.num_lt
    · rw [Store.computeBlockBegin_congr hl]; exact hin.blockBegin
    · rw [Store.computeBlockEnd_congr hl]; exact hin.blockEnd
    · rw [Store.computeBlockBegin_congr hl, h.size_eq hs'', ← h.size_eq hs']
      exact hin.intervalBegin
    · rw [h.size_eq hs'', ← h.size_eq hs']; exact hin.intervalEnd
  · exact hs'

end Stable

theorem completeWhole_eq {s : State} {i : Nat} (hb : s.blockAt i = .emptyBlock) :
    ((s.withStore (·.setBlockAt i .completeBlock)).mustVerifyBlock i).addFileDownloaded none
      (s.computeBlockEnd i - s.computeBlockBegin i) = s.setCompletedBlock none i := by
  have hbit : ∀ s' : State, s'.verifiedBitmap = s.verifiedBitmap → s'.bit i = s.bit i :=
    fun s' h => by simp only [State.bit, h]
  simp only [State.setCompletedBlock, hb, State.mustVerifyBlock, State.setSwarmerStateComplete]
  rw [hbit (s.withStore _) rfl, hbit (s.addFileDownloaded none _) rfl]
  cases s.bit i <;> rfl

namespace Stable

variable {g : Int × List Int × Nat} {P : Int → Prop} {I : State → Prop}
  {R : State → BlockId → Prop} {C : Nat → Int → State → RangeId → List RangeId → Int → Prop}
  {W : Prop} {G : Exn → Prop} {s : State} {fileVerify : FileVerify}

theorem setPresentPiece (h : Stable g P I R C W G) {interval : Int × Int} {p : Store.Piece}
    (hP : P (min interval.1 s.size)) (hpos : 0 < s.size) (hp : p.In s.toStore interval)
    (hs : I s) : Outcome (setPresentPiece p) (fun _ => I) (Ends I G) s := by
  have hbegin : P p.intervalBegin ∨ p.intervalBegin = s.computeBlockBegin p.num :=
    hp.intervalBegin.imp_left fun h => by rw [h]; exact hP
  have hend : p.intervalEnd ≤ s.computeBlockEnd p.num := by
    rw [hp.intervalEnd, hp.blockEnd]; omega
  unfold Swarming.setPresentPiece
  rw [outcome_get_bind]
  split
  · next hb =>
      split
      · rw [outcome_modify_bind, outcome_modify_bind, outcome_modify, hp.blockBegin, hp.blockEnd,
          completeWhole_eq hb]
        exact h.complete _ hs
      · obtain ⟨hstart, -, -⟩ := h.start (h.sized (h.size_eq hs ▸ hpos)) hs hp.num_lt hb
        have hl := (h.layout hstart).trans (h.layout hs).symm
        have hlt : p.num < (s.newBlock p.num).blocks.length := by
          rw [h.blocks_length hstart, ← h.blocks_length hs]; exact hp.num_lt
        rw [outcome_modify_bind]
        refine h.present hstart hlt ?_ ?_ ?_
        · rw [State.blockAt_newBlock, if_pos ⟨rfl, hp.num_lt⟩]
        · rw [Store.computeBlockBegin_congr hl]; exact hbegin
        · rw [Store.computeBlockEnd_congr hl]; exact hend
  · next b hb => exact h.present hs hp.num_lt hb hbegin hend
  · exact hs
  · exact hs

theorem setPresent (h : Stable g P I R C W G) {intervals : List (Int × Int)}
    (hP : ∀ interval ∈ intervals, P (min interval.1 g.1)) (hs : I s) :
    Outcome (setPresent intervals) (fun _ => I) (Ends I G) s := by
  unfold Swarming.setPresent
  refine (h.iterIntervals (fun interval hi p s hpos hp hs =>
    h.setPresentPiece (by rw [h.size_eq hs]; exact hP interval hi) hpos hp hs) hs).bind fun _ s' hs' => ?_
  rw [outcome_get_bind]
  split
  · exact h.raise hs' (by simp [Exn.Calm])
  · refine Outcome.forM hs' fun i _ s'' hs'' => ?_
    exact (diskBlocks_reads _ _ s'').outcome_bind (fun _ he => h.raise hs'' he)
      fun l => Outcome.forM hs'' fun m _ s₁ hs₁ => h.setDiskAllocated hs₁ m

theorem setAbsent (h : Stable g P I R C W G) {listAbsent : List (Int × Int)}
    (hP : ∀ interval ∈ complementary [] 0 g.1 listAbsent, P (min interval.1 g.1)) (hs : I s) :
    Outcome (setAbsent listAbsent) (fun _ => I) (Ends I G) s := by
  unfold Swarming.setAbsent
  rw [outcome_get_bind, h.size_eq hs]
  exact h.setPresent hP hs

-- Marking disk blocks as allocated changes neither ranges nor uploaders.
theorem preallocateDiskSpace_outcome (h : Stable g P I R C W G) (hs : I s)
    (copyChunk : Nat → Bool) (intervalBegin intervalEnd : Int) :
    Outcome (preallocateDiskSpace copyChunk intervalBegin intervalEnd)
      (fun _ s' => I s' ∧ ∃ a, s' = { s with diskAllocated := a })
      (fun _ s' => I s' ∧ ∃ a, s' = { s with diskAllocated := a }) s := by
  have hs₀ : I s ∧ ∃ a, s = { s with diskAllocated := a } := ⟨hs, _, rfl⟩
  unfold preallocateDiskSpace
  refine (diskBlocks_reads _ _ s).outcome_bind (fun _ _ => hs₀) fun l => ?_
  refine Outcome.forM hs₀ fun m _ s' hs' => ?_
  have hs₁ := hs'
  obtain ⟨hI, a, rfl⟩ := hs'
  rw [outcome_get_bind]
  refine (Reads.check _ (by simp [Exn.Calm])).outcome_bind (fun _ _ => hs₁) fun _ => ?_
  refine (Reads.check _ (by simp [Exn.Calm])).outcome_bind (fun _ _ => hs₁) fun _ => ?_
  unfold Swarming.setDiskAllocated
  rw [outcome_get_bind]
  exact (Reads.check _ (by simp [Exn.Calm])).outcome_bind (fun _ _ => hs₁)
    fun _ => ⟨h.disk hI, _, rfl⟩

theorem receivedRange (h : Stable g P I R C W G) (hs : I s) {u : Uploader}
    {key : Int × Int × RangeId} (hu : u ∈ s.uploaders) (hkey : key ∈ u.ranges) (disk : Disk)
    (t : Nat) (fileBegin fileEnd : Int) (str : List UInt8) (stringBegin : Nat) :
    Outcome (receivedRange disk t fileBegin fileEnd str stringBegin key.2.2)
      (fun _ s' => I s' ∧ s'.uploaders = s.uploaders) (Ends I G) s := by
  unfold Swarming.receivedRange
  rw [outcome_get_bind]
  dsimp only
  split
  · split
    · next hlen =>
        split
        · exact h.raise hs (by simp [Exn.Calm])
        · next t' l hn =>
            refine Outcome.bind ((h.preallocateDiskSpace_outcome hs _ _ _).tryCatch
              (E := Ends I G) fun _ _ he => he) fun _ s₁ hs₁ => ?_
            obtain ⟨hI, a, rfl⟩ := hs₁
            unfold fileWrite
            refine Outcome.bind (P := fun _ s' =>
              ∃ w, s' = { s with diskAllocated := a, written := w } ∧ I s') ?_ fun _ s₂ hs₂ => ?_
            · exact (Reads.check _ (by simp [Exn.Calm])).outcome_bind
                (fun _ he => h.raise hI he) fun _ => ⟨_, rfl, h.write hI⟩
            · obtain ⟨w, rfl, hI₂⟩ := hs₂
              have hrest := State.rangeReceived_rest { s with diskAllocated := a, written := w }
                (by simp [hn]) (some t) key.2.2 (s.range key.2.2).rangeBegin
                (min fileEnd (s.range key.2.2).rangeEnd)
              have hle : (s.range key.2.2).rangeBegin < min fileEnd (s.range key.2.2).rangeEnd ∧
                  min fileEnd (s.range key.2.2).rangeEnd ≤ (s.range key.2.2).rangeEnd := by omega
              have hrec := h.receive (t := t) hI₂ hu hkey hle.1 hle.2
              exact (hrec.and hrest).mono (fun _ _ h => ⟨h.1, h.2.uploaders⟩) fun _ _ h => h.1
    · exact ⟨hs, rfl⟩
  · exact ⟨hs, rfl⟩

theorem received (h : Stable g P I R C W G) (hs : I s) (disk : Disk) {up : Nat}
    (hup : up < s.uploaders.length) (fileBegin : Int64) (str : List UInt8)
    (stringBegin stringLen : Nat) :
    Outcome (Swarming.received disk up fileBegin str stringBegin stringLen) (fun _ => I) (Ends I G) s := by
  have hu : s.uploader up ∈ s.uploaders := by
    simp [State.uploader, hup]
  unfold Swarming.received
  refine (Reads.check _ (by simp [Exn.Calm])).outcome_bind (fun _ he => h.raise hs he) fun _ => ?_
  split
  · rw [outcome_get_bind]
    dsimp only
    split
    · refine Outcome.tryCatch (P := Ends I G) ?_ fun e s' he => ⟨h.prune up he.1, he.2⟩
      refine Outcome.bind (P := fun _ s' => I s' ∧ s'.uploaders = s.uploaders) ?_
        fun _ s' hs' => h.prune up hs'.1
      refine Outcome.forM ⟨hs, rfl⟩ fun key hkey s' hs' => ?_
      exact (h.receivedRange hs'.1 (hs'.2.symm ▸ hu) hkey _ _ _ _ _ _).mono
        (fun _ _ h' => ⟨h'.1, h'.2.trans hs'.2⟩) fun _ _ h => h
    · exact hs
  · exact hs

theorem computeBitmap (h : Stable g P I R C W G) (hs : I s) (k : Nat) :
    Outcome (computeBitmap fileVerify k) (fun _ => I) (Ends I G) s := by
  unfold Swarming.computeBitmap
  rw [outcome_get_bind]
  dsimp only
  split
  · refine Outcome.forM hs fun j _ s' hs' => ?_
    rw [outcome_get_bind]
    split
    · exact h.verifyChunk hs' k j
    · exact hs'
  · exact hs

theorem verifyOneChunk (h : Stable g P I R C W G) (hs : I s) :
    Outcome (verifyOneChunk fileVerify) (fun _ => I) (Ends I G) s := by
  unfold Swarming.verifyOneChunk
  rw [outcome_get_bind]
  split
  · exact h.verifyChunk hs _ _
  · exact hs

theorem setFrontendStateComplete (h : Stable g P I R C W G) (hs : I s) (k j : Nat) :
    I (s.setFrontendStateComplete k j) := by
  have hfold : ∀ (l : List Nat) {s : State}, I s →
      I (l.foldl (fun s i => s.setCompletedBlock none i) s) := by
    intro l
    induction l with
    | nil => exact fun hs => hs
    | cons i l ih => exact fun hs => ih (h.complete i hs)
  unfold State.setFrontendStateComplete
  split
  · exact hfold _ hs
  · exact hfold _ hs
  · exact hs
  · exact hs

theorem setChunksVerifiedBitmap (h : Stable g P I R C W G) {k : Nat}
    (hmark : ∀ s j, I s → Outcome (setFrontendStateVerified k j) (fun _ => I) (Ends I G) s)
    (hs : I s) (bitmap : VerificationBitmap) :
    Outcome (setChunksVerifiedBitmap k bitmap) (fun _ => I) (Ends I G) s := by
  unfold Swarming.setChunksVerifiedBitmap
  refine Outcome.forM hs fun j _ s' hs' => ?_
  split
  · exact hs'
  · exact hs'
  · rw [outcome_get_bind]
    exact (Reads.check _ (by simp [Exn.Calm])).outcome_bind (fun _ he => h.raise hs' he)
      fun _ => h.setFrontendStateComplete hs' k j
  · rw [outcome_get_bind]
    exact (Reads.check _ (by simp [Exn.Calm])).outcome_bind (fun _ he => h.raise hs' he)
      fun _ => hmark s' j hs'

theorem countIntervals (h : Stable g P I R C W G) (hs : I s) (t : Nat) (intervals : Intervals) :
    Outcome (countIntervals t intervals) (fun _ => I) (Ends I G) s := by
  cases intervals with
  | availableIntervals intervals => exact h.iterIntervals (fun _ _ p _ _ _ hs => h.count p.num hs) hs
  | availableBitv bitmap =>
      refine Outcome.forM hs fun j _ s' hs' => ?_
      rw [outcome_get_bind]
      exact (Reads.check _ (by simp [Exn.Calm])).outcome_bind (fun _ he => h.raise hs' he)
        fun _ => Outcome.forM hs' fun i _ _ hs'' => h.count i hs''

theorem setUploaderIntervals (h : Stable g P I R C W G) (hs : I s) (up : Nat)
    (intervals : Intervals) :
    Outcome (setUploaderIntervals up intervals) (fun _ => I) (Ends I G) s := by
  unfold Swarming.setUploaderIntervals
  rw [outcome_get_bind]
  dsimp only
  split
  · exact hs
  · exact (h.countIntervals hs _ intervals).bind fun _ _ hs' =>
      h.declare (fun _ => ⟨rfl, rfl⟩) hs'

theorem registerUploader (h : Stable g P I R C W G) (hs : I s) (t : Nat) (intervals : Intervals) :
    Outcome (registerUploader t intervals) (fun _ => I) (Ends I G) s := by
  unfold Swarming.registerUploader
  rw [outcome_get_bind, outcome_modify_bind]
  exact h.setUploaderIntervals (h.register rfl rfl hs) _ intervals

theorem updateUploaderIntervals (h : Stable g P I R C W G) (hs : I s) (up : Nat)
    (intervals : Intervals) :
    Outcome (updateUploaderIntervals up intervals) (fun _ => I) (Ends I G) s := by
  unfold Swarming.updateUploaderIntervals
  rw [outcome_modify_bind]
  exact h.setUploaderIntervals (h.clear up hs) up intervals

end Stable

-- The only exception of insert_prio_interval is its own assert.
theorem insertPrioEnd_error {lastEnd newEnd newPrio : Int} {e : Exn} :
    ∀ {prevPrio : Int} {l : List (Int × Int)},
      insertPrioEnd lastEnd newEnd newPrio prevPrio l = .error e →
        e = .assertFailure .insertPrioInterval
  | _, [], h => by simp [insertPrioEnd] at h
  | prevPrio, (pos, prio) :: l, h => by
      simp only [insertPrioEnd] at h
      split at h
      · exact insertPrioEnd_error h
      · split at h
        · exact nomatch h
        · split at h
          · simpa using h.symm
          · exact nomatch h

theorem insertPrio_error {lastEnd newStart newEnd newPrio : Int} {e : Exn} :
    ∀ {prevPrio : Int} {l : List (Int × Int)},
      insertPrio lastEnd newStart newEnd newPrio prevPrio l = .error e →
        e = .assertFailure .insertPrioInterval := by
  have hend : ∀ {prevPrio : Int} {l : List (Int × Int)} {f : List (Int × Int) → List (Int × Int)},
      (do let rest ← insertPrioEnd lastEnd newEnd newPrio prevPrio l
          return f rest : Except Exn _) = .error e → e = .assertFailure .insertPrioInterval := by
    intro prevPrio l f h
    cases hr : insertPrioEnd lastEnd newEnd newPrio prevPrio l with
    | error e' =>
        rw [hr] at h
        cases h
        exact insertPrioEnd_error hr
    | ok rest => rw [hr] at h; exact nomatch h
  intro prevPrio l h
  induction l generalizing prevPrio with
  | nil => exact hend h
  | cons x l ih =>
      obtain ⟨pos, prio⟩ := x
      simp only [insertPrio] at h
      split at h
      · cases hr : insertPrio lastEnd newStart newEnd newPrio prio l with
        | error e' =>
            rw [hr] at h
            cases h
            exact ih hr
        | ok rest => rw [hr] at h; exact nomatch h
      · split at h
        · exact hend h
        · split at h
          · simpa using h.symm
          · exact hend h

theorem insertPrioInterval_error {intervals : List (Int × Int)}
    {lastEnd newStart newEnd newPrio : Int} {e : Exn}
    (h : insertPrioInterval intervals lastEnd newStart newEnd newPrio = .error e) :
    e = .assertFailure .insertPrioInterval := by
  unfold insertPrioInterval at h
  split at h
  · exact insertPrio_error h
  · simpa using h.symm

namespace Stable

variable {g : Int × List Int × Nat} {P : Int → Prop} {I : State → Prop}
  {R : State → BlockId → Prop} {C : Nat → Int → State → RangeId → List RangeId → Int → Prop}
  {W : Prop} {G : Exn → Prop} {s : State} {fileVerify : FileVerify}

theorem swarmerSetInterval (h : Stable g P I R C W G) (hs : I s) (newStart newEnd newPrio : Int) :
    Outcome (swarmerSetInterval newStart newEnd newPrio) (fun _ => I) (Ends I G) s := by
  unfold Swarming.swarmerSetInterval
  rw [outcome_get_bind]
  split
  · exact h.prioritize hs
  · next e he => exact h.raise hs (by simp [insertPrioInterval_error he, Exn.Calm])

-- The operations that need no more than these rules keep the invariant.
theorem run (h : Stable g P I R C W G) (hs : I s) {op : Op} (hop : op.Valid s)
    (hfits : op.Fits P C s) : Outcome op.run (fun _ => I) (Ends I G) s := by
  cases op with
  | setPresent intervals => exact h.setPresent (h.size_eq hs ▸ hfits) hs
  | setAbsent listAbsent => exact h.setAbsent (h.size_eq hs ▸ hfits) hs
  | registerUploader t intervals => exact h.registerUploader hs t intervals
  | updateUploaderIntervals up intervals => exact h.updateUploaderIntervals hs up intervals
  | clearUploaderIntervals up => exact h.clear up hs
  | clearUploaderRanges up => exact h.release up hs
  | unregisterUploader up => exact h.release up (h.clear up hs)
  | findBlocks fileVerify sourcesPerChunk random up =>
      exact (h.findBlocks hs up sourcesPerChunk random).bind fun _ _ hs' => hs'
  | findRange fileVerify up rangeSize =>
      exact (h.findRange hs up rangeSize hfits).bind fun _ _ hs' => hs'
  | received disk up fileBegin str stringBegin stringLen =>
      exact h.received hs disk hop fileBegin str stringBegin stringLen
  | verifyChunk fileVerify k j => exact h.verifyChunk hs k j
  | verifyOneChunk fileVerify => exact h.verifyOneChunk hs
  | computeBitmap fileVerify k => exact h.computeBitmap hs k
  | verifyAllChunks => exact hfits.elim
  | verifyAllChunksImmediately fileVerify k => exact hfits.elim
  | setChunksVerifiedBitmap k bitmap => exact hfits.elim
  | setVerifier k f => exact hfits.elim
  | setStrategy strategy => exact h.strategy hs
  | setFileState k state => exact h.fileState hs
  | swarmerSetInterval newStart newEnd newPrio => exact h.swarmerSetInterval hs _ _ _
  | merge f2 => exact hfits.elim

end Stable

end Mldonkey.Swarming
