import Mldonkey.Swarming.SetPresent
import Mldonkey.Swarming.Tags.Runs

-- What becomes present and verified when the characters of a saved download are set again.
namespace Mldonkey.Swarming

open Effects HalfOpen State Store

-- The blocks in `l` are verified, besides those that were.
structure State.Verifies (l : List Nat) (s s' : State) : Prop extends Rest s s' where
  blocks_length : s'.blocks.length = s.blocks.length
  verified : ∀ i, s'.blockAt i = .verifiedBlock ↔
    s.blockAt i = .verifiedBlock ∨ i ∈ l ∧ i < s.blocks.length

section Verifies

variable {s s' s'' : State} {l l' : List Nat} {i : Nat}

theorem State.Rest.verifies (h : Rest s s') (hb : s'.blocks = s.blocks) : Verifies [] s s' :=
  ⟨h, by rw [hb], fun i => by simp [Store.blockAt, hb]⟩

theorem State.Verifies.refl (s : State) : Verifies [] s s := (Rest.refl s).verifies rfl

theorem State.Verifies.trans (h : Verifies l s s') (h' : Verifies l' s' s'') :
    Verifies (l ++ l') s s'' := by
  refine ⟨h.toRest.trans h'.toRest, h'.blocks_length.trans h.blocks_length, fun i => ?_⟩
  rw [h'.verified, h.verified, h.blocks_length, List.mem_append, or_and_right, or_assoc]

theorem State.SameBooks.verifies (h : SameBooks s s') : Verifies [] s s' :=
  h.toRest.verifies (congrArg Store.blocks h.store)

theorem blocks_length_completeAt (s : Store) (i : Nat) :
    (s.completeAt i).blocks.length = s.blocks.length := by
  unfold Store.completeAt
  split
  · rfl
  · rfl
  · exact List.length_set
  · exact List.length_set.trans (congrArg List.length (blocks_closeRanges s _))

theorem verifies_setCompletedBlock (s : State) (maybeT : Option Nat) (i : Nat) :
    Verifies [] s (s.setCompletedBlock maybeT i) := by
  have hat : ∀ j, (s.setCompletedBlock maybeT i).blockAt j =
      if j = i ∧ i < s.blocks.length ∧ s.blockAt i ≠ .verifiedBlock then .completeBlock
      else s.blockAt j := fun j => by
    rw [toStore_setCompletedBlock, blockAt_completeAt]
  refine ⟨s.rest_setCompletedBlock maybeT i, ?_, fun j => ?_⟩
  · rw [toStore_setCompletedBlock]
    exact blocks_length_completeAt s.toStore i
  · rw [hat]
    split
    · next hj => simp [hj.1, hj.2.2]
    · simp

theorem verifies_setVerifiedBlock (s : State) (i : Nat) :
    Outcome (setVerifiedBlock i) (fun _ s' => Verifies [i] s s') (fun _ _ => True) s := by
  unfold setVerifiedBlock
  rw [outcome_get_bind]
  split
  · next hb =>
    refine ⟨.refl s, rfl, fun j => (or_iff_left_of_imp ?_).symm⟩
    rintro ⟨hj, -⟩
    exact List.mem_singleton.mp hj ▸ hb
  · rw [outcome_modify_bind, outcome_modify_bind]
    have hc := verifies_setCompletedBlock s none i
    have hset : Verifies [i] s ((s.setCompletedBlock none i).withStore
        (·.setBlockAt i .verifiedBlock)) := by
      refine ⟨hc.toRest.trans (rest_withStore _ _), List.length_set.trans hc.blocks_length,
        fun j => ?_⟩
      rw [toStore_withStore, Store.blockAt_setBlockAt, hc.blocks_length, List.mem_singleton]
      split
      · next hj => exact iff_of_true rfl (.inr ⟨hj.1, hj.1 ▸ hj.2⟩)
      · next hj =>
        rw [hc.verified]
        simp only [List.not_mem_nil, false_and, or_false]
        refine (or_iff_left ?_).symm
        rintro ⟨rfl, hj'⟩
        exact hj ⟨rfl, hj'⟩
    exact (setSwarmerStateVerified_books _ i).mono
      (fun _ s' h => (hset.trans h.verifies)) fun _ _ _ => trivial

theorem forM_setVerifiedBlock_verifies : ∀ (l : List Nat) (s : State),
    Outcome (forM l setVerifiedBlock) (fun _ s' => Verifies l s s') (fun _ _ => True) s
  | [], s => by
    rw [List.forM_nil, outcome_pure]
    exact .refl s
  | i :: l, s => by
    rw [List.forM_cons]
    refine (verifies_setVerifiedBlock s i).bind fun _ s₁ h₁ => ?_
    exact (forM_setVerifiedBlock_verifies l s₁).mono (fun _ s₂ h₂ => h₁.trans h₂)
      fun _ _ h => h

theorem verifies_newBlock (hb : s.blockAt i = .emptyBlock) : Verifies [] s (s.newBlock i) := by
  have hadd : Verifies [] s (s.withStore (·.addBlock i)) := by
    refine ⟨rest_withStore s _, List.length_set, fun j => ?_⟩
    show (s.toStore.addBlock i).blockAt j = _ ↔ _
    rw [Store.addBlock]
    show ((_ : Store).setBlockAt i _).blockAt j = _ ↔ _
    rw [Store.blockAt_setBlockAt]
    split
    · next hj => simp [hj.1, hb]
    · simp [Store.blockAt, Store.allocBlock, Store.allocRange]
  unfold State.newBlock
  dsimp only
  split
  · exact hadd.trans (setSwarmerStatePartial_books _ i).verifies
  · exact hadd

theorem verifies_blockReceived (hv : (s.frontend 0).verifier ≠ .noVerification) (num : Nat) :
    Outcome (blockReceived num) (fun _ s' => Verifies [] s s')
      (fun _ s' => Verifies [] s s') s := by
  have hmust : Verifies [] s ((s.setCompletedBlock (some 0) num).mustVerifyBlock num) :=
    (verifies_setCompletedBlock s (some 0) num).trans (setSwarmerStateComplete_books _ num).verifies
  unfold blockReceived
  rw [outcome_get_bind]
  split
  case h_3 => exact .refl s
  case h_4 => exact .refl s
  -- without a chunk number the first frontend decides
  all_goals
    split
    · exact .refl s
    · next t l hn =>
      have ht : s.frontend 0 = t := by simp [frontend, hn]
      split
      · next hver => exact absurd (ht ▸ hver) hv
      · exact hmust

theorem verifies_rangeReceived (hv : (s.frontend 0).verifier ≠ .noVerification)
    (maybeT : Option Nat) (r : RangeId) (intervalBegin intervalEnd : Int) :
    Outcome (rangeReceived maybeT r intervalBegin intervalEnd) (fun _ s' => Verifies [] s s')
      (fun _ s' => Verifies [] s s') s := by
  unfold rangeReceived
  rw [outcome_get_bind]
  dsimp only
  split
  · rw [outcome_modify_bind]
    have hadvance : Verifies [] s (s.advanceRange maybeT r
        (max (min intervalEnd (s.range r).rangeEnd) (s.range r).rangeBegin)) :=
      (rest_advanceRange s maybeT r _).verifies (by rw [toStore_advanceRange]; rfl)
    split
    · split
      · exact hadvance.trans ((rest_withStore _ _).verifies rfl)
      · refine (verifies_blockReceived ?_ _).mono (fun _ _ h => hadvance.trans h)
          fun _ _ h => hadvance.trans h
        rw [hadvance.verifier]
        exact hv
    · exact hadvance
  · exact .refl s

theorem verifies_setPresentBlock (hv : (s.frontend 0).verifier ≠ .noVerification) (b : BlockId)
    (intervalBegin intervalEnd : Int) :
    Outcome (setPresentBlock b intervalBegin intervalEnd) (fun _ s' => Verifies [] s s')
      (fun _ s' => Verifies [] s s') s := by
  have hsplit : ∀ (l : List RangeId) (s' : State), Verifies [] s s' →
      Verifies [] s (l.foldl (fun s r => s.withStore (·.splitRange r intervalBegin)) s') := by
    intro l
    induction l with
    | nil => exact fun _ h => h
    | cons r l ih =>
      exact fun s' h => ih _ (h.trans ((rest_withStore s' _).verifies
        (s'.toStore.splitRange_map r intervalBegin).blocks))
  unfold setPresentBlock
  rw [outcome_modify_bind, outcome_get_bind]
  refine Outcome.forM (I := fun s' => Verifies [] s s') (hsplit _ s (.refl s)) fun r _ s' h => ?_
  refine (verifies_rangeReceived ?_ none r _ _).mono (fun _ _ h' => h.trans h')
    fun _ _ h' => h.trans h'
  rw [h.verifier]
  exact hv

theorem verifies_setPresentPiece (hv : (s.frontend 0).verifier ≠ .noVerification)
    (p : Store.Piece) : Outcome (setPresentPiece p) (fun _ s' => Verifies [] s s')
      (fun _ s' => Verifies [] s s') s := by
  unfold setPresentPiece
  rw [outcome_get_bind]
  split
  · next hb =>
    split
    · rw [outcome_modify_bind, outcome_modify_bind, outcome_modify]
      have hset : Verifies [] s (s.withStore (·.setBlockAt p.num .completeBlock)) := by
        refine ⟨rest_withStore s _, List.length_set, fun j => ?_⟩
        rw [toStore_withStore, Store.blockAt_setBlockAt]
        split
        · next hj => simp [hj.1, hb]
        · simp
      refine (hset.trans (setSwarmerStateComplete_books _ p.num).verifies).trans
        ((rest_addFileDownloaded _ none _).verifies ?_)
      rw [toStore_addFileDownloaded]
    · have hnew := verifies_newBlock hb
      rw [outcome_modify_bind]
      refine (verifies_setPresentBlock ?_ _ _ _).mono (fun _ _ h => hnew.trans h)
        fun _ _ h => hnew.trans h
      rw [hnew.verifier]
      exact hv
  · exact verifies_setPresentBlock hv _ _ _
  · exact .refl s
  · exact .refl s

-- set_present verifies nothing if the primary checks its chunks.
theorem verifies_setPresent (hv : (s.frontend 0).verifier ≠ .noVerification)
    (intervals : List (Int × Int)) : Outcome (setPresent intervals) (fun _ s' => Verifies [] s s')
      (fun _ s' => Verifies [] s s') s := by
  have hstep : ∀ {s' : State}, Verifies [] s s' → (s'.frontend 0).verifier ≠ .noVerification :=
    fun h => by
      rw [h.verifier]
      exact hv
  unfold setPresent iterIntervals
  refine Outcome.bind (P := fun _ s' => Verifies [] s s') ?_ fun _ s₁ h₁ => ?_
  · refine Outcome.forM (I := fun s' => Verifies [] s s') (.refl s) fun interval _ s' h => ?_
    rw [outcome_get_bind]
    split
    · unfold computeBlockNum
      rw [outcome_bind, outcome_get_bind, outcome_bind, outcome_check]
      refine ⟨fun _ => ?_, fun _ => h⟩
      exact Outcome.forM (I := fun s' => Verifies [] s s') h fun p _ s'' h' =>
        (verifies_setPresentPiece (hstep h') p).mono (fun _ _ h'' => h'.trans h'')
          fun _ _ h'' => h'.trans h''
    · exact h
  · rw [outcome_get_bind]
    split
    · exact h₁
    · have hdisk : ∀ {s₂ : State}, (∃ a, s₂ = { s₁ with diskAllocated := a }) →
          Verifies [] s s₂ := by
        rintro s₂ ⟨a, rfl⟩
        refine h₁.trans (Rest.verifies ?_ rfl)
        exact ⟨rfl, rfl, fun _ => rfl, rfl, rfl, rfl, rfl⟩
      exact (after_markDiskSpace intervals s₁).mono (fun _ _ h₂ => hdisk h₂) fun _ _ h₂ => hdisk h₂

end Verifies

section Makes

variable {s s' : State} {A : Int → Prop} {i j k : Nat}

theorem State.SameBooks.makes (hs : SameBooks s s') (h : Good s) :
    Makes (fun _ => False) s s' := by
  refine ⟨⟨?_, ?_, ?_⟩, congrArg Store.layout hs.store, ∅, hs.fills, fun y => by simp⟩
  · rw [hs.store]
    exact h.books
  · rw [hs.networks_length]
    exact h.networks_pos
  · rw [hs.files_length]
    exact h.files_pos

theorem State.Makes.after {s₀ : State} (h' : Makes A s s') (h : Makes (fun _ => False) s₀ s) :
    Makes A s₀ s' := (h.trans h').congr fun y _ => by simp

-- Nothing becomes present in a block that is complete.
theorem makes_done (h : Good s) (hi : i < s.blocks.length) (hd : (s.blockAt i).state.Done) :
    Makes (fun y => s.computeBlockBegin i ≤ y ∧ y < s.computeBlockEnd i) s s :=
  (Makes.refl h).congr fun _ hy =>
    ⟨fun hf => hf.elim, fun hin => not_missing_of_done h.books.placed hi hin hd hy⟩

theorem makes_setVerifiedBlock (h : Good s) (hi : i < s.blocks.length) :
    Outcome (setVerifiedBlock i)
      (fun _ s' => Makes (fun y => s.computeBlockBegin i ≤ y ∧ y < s.computeBlockEnd i) s s')
      (fun _ _ => True) s := by
  refine (setVerifiedBlock_sealed s i).mono (fun _ s' hs' => ?_) fun _ _ _ => trivial
  rcases hs' with ⟨hv, rfl⟩ | hseal
  · exact makes_done h hi (by simp [hv, BlockV.state])
  · have hc := hseal.completed h.books hi h.files_pos
    have hm := hc.moves h.books hi
    refine ⟨h.moves (hc.books h.books hi) hm, hm.evolves.layout, _, hc.fills h.books hi,
      fun y => ?_⟩
    rw [mem_missingAt]
    constructor
    · rintro ⟨hin, hmiss⟩
      exact ⟨(h.books.placed.missing_iff hi hin).mpr hmiss, hin⟩
    · rintro ⟨hmiss, hin⟩
      exact ⟨hin, (h.books.placed.missing_iff hi hin).mp hmiss⟩

-- The blocks of a chunk hold its bytes.
theorem Shaped.mem_chunk (h : Shaped s) (hs : 0 < s.size) (hk : k < s.networks.length) {y : Int}
    (hy : 0 ≤ y ∧ y < s.size) :
    (∃ i ∈ (s.frontend k).blockNums j, s.computeBlockBegin i ≤ y ∧ y < s.computeBlockEnd i) ↔
      (y / (s.frontend k).chunkSize).toNat = j := by
  have hnums : ∀ i, i ∈ (s.frontend k).blockNums j ↔
      i < s.blocks.length ∧ (s.frontend k).chunkNum i = j :=
    fun i => h.mem_blockNums (frontend_mem hk)
  constructor
  · rintro ⟨i, hi, hin⟩
    obtain ⟨hlt, rfl⟩ := (hnums i).mp hi
    exact h.chunkAt hk hlt hin
  · intro hj
    obtain ⟨i, hi, hin⟩ := (h.laid.placed hs).exists_block hy
    exact ⟨i, (hnums i).mpr ⟨hi, (h.chunkAt hk hi hin).symm.trans hj⟩, hin⟩

-- The bytes of chunk `j` of the primary
def State.InChunk (s : State) (j : Nat) (y : Int) : Prop :=
  (y / (s.frontend 0).chunkSize).toNat = j

-- Chunk `j` is complete: its bytes become present, and the blocks in `l` verified.
structure State.Marks (j : Nat) (l : List Nat) (s s' : State) : Prop where
  makes : Makes (s.InChunk j) s s'
  verifies : Verifies l s s'

variable {p q : Prop}

theorem Shaped.bounds (h : Shaped s) (hs : 0 < s.size) {y : Int} (hy : s.Missing y) :
    0 ≤ y ∧ y < s.size := (h.laid.placed hs).missing_bounds hy

-- A chunk that is complete already has its bytes.
theorem marks_done (h : Shaped s) (hs : 0 < s.size) (hg : Good s) (hm : Marked none p q s)
    (hd : ((s.frontend 0).chunk j).Done) : Makes (s.InChunk j) s s := by
  have hj : j < (s.frontend 0).convertedVerifiedBitmap.length := by
    by_contra hge
    rw [Frontend.chunk_of_length_le (Nat.not_lt.mp hge)] at hd
    exact absurd hd (by decide)
  have hall := (hm.tagged.done j hj (by simp)).mp hd
  refine (Makes.refl hg).congr fun y hy => ⟨fun hf => hf.elim, fun hin => ?_⟩
  obtain ⟨i, hi, hyi⟩ := (h.mem_chunk hs hm.tagged.networks_pos (h.bounds hs hy)).mpr hin
  have hdone := hall i hi
  rw [hm.tagged.agree] at hdone
  exact not_missing_of_done hg.books.placed (hm.tagged.mem_blockNums.mp hi).1 hyi hdone hy

theorem setFrontendStateComplete_marks (h : Shaped s) (hs : 0 < s.size) (hg : Good s)
    (hm : Marked none p q s) : Marks j [] s (s.setFrontendStateComplete 0 j) := by
  have hfold : ∀ (l : List Nat) {s : State}, Good s → (∀ i ∈ l, i < s.blocks.length) →
      Makes (fun y => ∃ i ∈ l, s.computeBlockBegin i ≤ y ∧ y < s.computeBlockEnd i) s
        (l.foldl (fun s i => s.setCompletedBlock none i) s) ∧
      Verifies [] s (l.foldl (fun s i => s.setCompletedBlock none i) s) := by
    intro l
    induction l with
    | nil => exact fun hg _ => ⟨(Makes.refl hg).congr fun y _ => by simp, .refl _⟩
    | cons i l ih =>
      intro s hg hl
      have hone := makes_setCompletedBlock hg (hl i List.mem_cons_self)
      have hlayout := hone.layout
      have hrest := ih hone.good fun i' hi' => by
        rw [show (s.setCompletedBlock none i).blocks.length = s.blocks.length from
          congrArg (fun g => g.2.2) hlayout]
        exact hl i' (List.mem_cons_of_mem i hi')
      simp only [computeBlockBegin_congr hlayout, computeBlockEnd_congr hlayout] at hrest
      exact ⟨(hone.trans hrest.1).congr fun y _ => by simp,
        (verifies_setCompletedBlock s none i).trans hrest.2⟩
  have hblocks := hfold ((s.frontend 0).blockNums j) hg fun i hi =>
    (hm.tagged.mem_blockNums.mp hi).1
  have hchunk : Marks j [] s (((s.frontend 0).blockNums j).foldl
      (fun s i => s.setCompletedBlock none i) s) :=
    ⟨hblocks.1.congr fun y hy => h.mem_chunk hs hm.tagged.networks_pos (h.bounds hs hy),
      hblocks.2⟩
  unfold State.setFrontendStateComplete
  split
  · exact hchunk
  · exact hchunk
  · next hc => exact ⟨marks_done h hs hg hm (hc ▸ by decide), .refl s⟩
  · next hc => exact ⟨marks_done h hs hg hm (hc ▸ by decide), .refl s⟩

theorem forM_setVerifiedBlock_makes (h : Shaped s) (hs : 0 < s.size) (hn : 0 < s.networks.length)
    {s₁ : State} (hg : Good s₁) (hlayout : s₁.layout = s.layout) :
    Outcome (forM ((s.frontend 0).blockNums j) setVerifiedBlock)
      (fun _ s' => Makes (s.InChunk j) s₁ s') (fun _ _ => True) s₁ := by
  have hmem : ∀ i, i ∈ (s.frontend 0).blockNums j ↔
      i < s.blocks.length ∧ (s.frontend 0).chunkNum i = j :=
    fun i => h.mem_blockNums (frontend_mem hn)
  refine (forM_makes (B := fun i y => s.computeBlockBegin i ≤ y ∧ y < s.computeBlockEnd i)
    (g := s.layout) ((s.frontend 0).blockNums j) (fun i hi s' hg' hlayout' => ?_) hg hlayout).mono
    (fun _ s' h' => h'.congr fun y hy => h.mem_chunk hs hn ?_) fun _ _ h => h
  · have hlen : i < s'.blocks.length := by
      rw [show s'.blocks.length = s.blocks.length from congrArg (fun g => g.2.2) hlayout']
      exact ((hmem i).mp hi).1
    rw [← computeBlockBegin_congr hlayout', ← computeBlockEnd_congr hlayout']
    exact makes_setVerifiedBlock hg' hlen
  · have := hg.books.placed.missing_bounds hy
    rwa [show s₁.size = s.size from congrArg (fun g => g.1) hlayout] at this

theorem setFrontendStateVerified_marks (h : Shaped s) (hs : 0 < s.size) (hg : Good s)
    (hm : Marked none p q s) : Outcome (setFrontendStateVerified 0 j)
      (fun _ s' => Marks j ((s.frontend 0).blockNums j) s s') (fun _ _ => True) s := by
  have hn := hm.tagged.networks_pos
  have hmark : ∀ {f : Frontend → Frontend}, (∀ t, (f t).verifier = t.verifier) →
      (∀ t, (f t).blocksOfChunk = t.blocksOfChunk) → Outcome (do
        modify (·.modifyFrontend 0 f)
        markVerified 0 j) (fun _ s' => Marks j ((s.frontend 0).blockNums j) s s')
        (fun _ _ => True) s := by
    intro f hf hb
    unfold markVerified
    rw [outcome_modify_bind, outcome_modify_bind, if_pos rfl, outcome_get_bind]
    have hsame := (sameBooks_modifyFrontend hf s 0).trans
      (sameBooks_modifyFrontend (f := (·.setChunk j .stateVerified)) (fun _ => rfl) _ 0)
    have hnums : (((s.modifyFrontend 0 f).modifyFrontend 0
        (·.setChunk j .stateVerified)).frontend 0).blockNums j = (s.frontend 0).blockNums j := by
      have hlen : 0 < (s.modifyFrontend 0 f).networks.length :=
        (List.length_modify _ _ _).symm ▸ hn
      rw [frontend_modifyFrontend, if_pos ⟨rfl, hlen⟩, frontend_modifyFrontend, if_pos ⟨rfl, hn⟩]
      exact congrArg (fun l => l.getD j []) (hb _)
    rw [hnums]
    generalize (s.modifyFrontend 0 f).modifyFrontend 0 (·.setChunk j .stateVerified) = s₁ at hsame
    have hmakes := hsame.makes hg
    refine ((forM_setVerifiedBlock_makes h hs hn hmakes.good hmakes.layout).and
      (forM_setVerifiedBlock_verifies _ s₁)).mono (fun _ s' h' => ?_) fun _ _ _ => trivial
    exact ⟨h'.1.after hmakes, hsame.verifies.trans h'.2⟩
  unfold setFrontendStateVerified
  rw [outcome_get_bind]
  split
  · exact hmark (fun _ => rfl) fun _ => rfl
  · exact hmark (fun _ => rfl) fun _ => rfl
  · exact hmark (fun _ => rfl) fun _ => rfl
  · next hc =>
    refine ⟨marks_done h hs hg hm (hc ▸ by decide), .refl s, rfl, fun i => ?_⟩
    refine (or_iff_left_of_imp ?_).symm
    rintro ⟨hi, -⟩
    have hbit := hm.tagged.verified_blocks j (by simp) hc i hi
    rw [hm.tagged.agree] at hbit
    exact (state_verified_iff _).mp hbit

end Makes

-- What is saved of a swarmer beside the state of its bytes
def State.settings (s : State) : (Strategy × List (Int × Int)) × (Int × List Bool) :=
  ((s.strategy, s.prioritiesIntervals), (s.diskAllocationBlockSize, s.diskAllocated))

theorem frame_settings (τ : TableValues) (d : (Strategy × List (Int × Int)) × (Int × List Bool)) :
    Frame τ fun s => s.tables = τ ∧ s.settings = d :=
  frame_value τ d (fun _ _ => rfl) (fun _ _ => rfl) (fun _ _ => rfl) fun _ _ _ => rfl

theorem Shaped.congr {s s' : State} (h : Shaped s) (ht : s'.tables = s.tables) : Shaped s' := by
  refine ⟨h.mapped.congr ht, h.laid.congr ht, chunked_congr ht h.chunked, ?_⟩
  have hsize : s'.size = s.size := congrArg (·.1.1) ht
  have hpos : s'.blockPos = s.blockPos := congrArg (·.1.2.1) ht
  have hnet : s'.networks.map Frontend.chunkSize = s.networks.map Frontend.chunkSize := by
    have := congrArg (fun τ : TableValues => τ.2.2.map (·.1)) ht
    simpa [State.tables, Frontend.tables, Function.comp_def] using this
  intro hs x h₀ hx hdvd
  rw [hpos]
  refine h.cut (hsize ▸ hs) x h₀ (hsize ▸ hx) ?_
  have hmem : ∀ l : List Frontend, (∃ t ∈ l, t.chunkSize ∣ x) ↔
      ∃ c ∈ l.map Frontend.chunkSize, c ∣ x := fun l => by simp
  rw [hmem, hnet] at hdvd
  exact (hmem _).mpr hdvd

section Loading

variable {q : Prop} {n m : Nat} {g : Int × List Int × Nat} {s₀ s : State}
  {bitmap : VerificationBitmap}

-- What the first `m` characters of a bitmap have made of a swarmer
structure State.Loaded (q : Prop) (bitmap : VerificationBitmap) (m : Nat) (s₀ s : State) :
    Prop where
  tags : Tags True q s₀.networks.length s₀.layout s
  tables : s.tables = s₀.tables
  settings : s.settings = s₀.settings
  makes : Makes (fun y => ∃ j < m, (VB.get bitmap j).Done ∧ s₀.InChunk j y) s₀ s
  verifies : ∃ l, Verifies l s₀ s ∧ ∀ i, i ∈ l ↔
    ∃ j < m, VB.get bitmap j = .stateVerified ∧ i ∈ (s₀.frontend 0).blockNums j

theorem State.Loaded.start (h : Tags True q s.networks.length s.layout s) (hg : Good s) :
    Loaded q bitmap 0 s s :=
  ⟨h, rfl, rfl, (Makes.refl hg).congr fun y _ => by simp, [], .refl s, fun i => by simp⟩

theorem frontend_tables (h : s.tables = s₀.tables) (k : Nat) :
    (s.frontend k).tables = (s₀.frontend k).tables := by
  have hmap : ∀ l : List Frontend, (l.getD k default).tables =
      (l.map Frontend.tables).getD k (default : Frontend).tables := fun l => by
    rw [List.getD_map]
  rw [State.frontend, State.frontend, hmap, hmap]
  exact congrArg (fun τ : TableValues => τ.2.2.getD k (default : Frontend).tables) h

theorem inChunk_congr (h : s.tables = s₀.tables) {j : Nat} {y : Int} :
    s.InChunk j y ↔ s₀.InChunk j y := by
  rw [InChunk, InChunk,
    show (s.frontend 0).chunkSize = (s₀.frontend 0).chunkSize from
      congrArg (·.1) (frontend_tables h 0)]

theorem blockNums_congr (h : s.tables = s₀.tables) (j : Nat) :
    (s.frontend 0).blockNums j = (s₀.frontend 0).blockNums j :=
  congrArg (fun t => t.2.2.1.getD j []) (frontend_tables h 0)

-- One more character of a chunk that is not complete
theorem State.Loaded.skip (h : Loaded q bitmap m s₀ s) (hc : ¬ (VB.get bitmap m).Done) :
    Loaded q bitmap (m + 1) s₀ s := by
  obtain ⟨l, hl, hmem⟩ := h.verifies
  have hv : VB.get bitmap m ≠ .stateVerified := fun hv => hc (.inr hv)
  refine ⟨h.tags, h.tables, h.settings, h.makes.congr fun y _ => ?_, l, hl, fun i => ?_⟩
  · rw [Nat.exists_lt_succ_right, or_iff_left fun hy => hc hy.1]
  · rw [hmem, Nat.exists_lt_succ_right, or_iff_left fun hi => hv hi.1]

-- One more character of a complete chunk
theorem State.Loaded.mark {s' : State} {l : List Nat} (h : Loaded q bitmap m s₀ s)
    (hc : (VB.get bitmap m).Done) (ht : Tags True q s₀.networks.length s₀.layout s')
    (hs : s'.tables = s.tables ∧ s'.settings = s.settings) (hm : Marks m l s s')
    (hl : ∀ i, i ∈ l ↔ VB.get bitmap m = .stateVerified ∧ i ∈ (s₀.frontend 0).blockNums m) :
    Loaded q bitmap (m + 1) s₀ s' := by
  obtain ⟨l', hl', hmem⟩ := h.verifies
  refine ⟨ht, hs.1.trans h.tables, hs.2.trans h.settings, (h.makes.trans hm.makes).congr
    fun y _ => ?_, l' ++ l, hl'.trans hm.verifies, fun i => ?_⟩
  · rw [Nat.exists_lt_succ_right, inChunk_congr h.tables, and_iff_right hc]
  · rw [List.mem_append, hmem, hl, Nat.exists_lt_succ_right]

-- The characters of a bitmap of as many chunks as there are are all set.
theorem setChunksVerifiedBitmap_loads (h : Shaped s) (hs : 0 < s.size) (hg : Good s)
    (ht : Tags True q s.networks.length s.layout s)
    (hlen : bitmap.length ≤ (s.frontend 0).convertedVerifiedBitmap.length) :
    Outcome (setChunksVerifiedBitmap 0 bitmap) (fun _ s' => Loaded q bitmap bitmap.length s s')
      (fun _ _ => False) s := by
  have hn := ht.tagged.networks_pos
  unfold Swarming.setChunksVerifiedBitmap
  generalize bitmap.length = m at hlen ⊢
  induction m with
  | zero =>
    rw [List.range_zero, List.forM_nil, outcome_pure]
    exact .start ht hg
  | succ m ih =>
    rw [List.range_succ, List.forM_append]
    refine (ih (by omega)).bind fun _ s' hs' => ?_
    have hshaped := h.congr hs'.tables
    have hsize : 0 < s'.size := (congrArg (·.1.1) hs'.tables : s'.size = s.size) ▸ hs
    have hlt : m < (s'.frontend 0).convertedVerifiedBitmap.length := by
      have : (s'.frontend 0).convertedVerifiedBitmap.length =
          (s.frontend 0).convertedVerifiedBitmap.length :=
        congrArg (·.2.1) (frontend_tables hs'.tables 0)
      omega
    have hframe := frame_settings s'.tables s'.settings
    rw [List.forM_cons]
    refine Outcome.bind (P := fun _ s'' => Loaded q bitmap (m + 1) s s'') ?_ fun _ s'' hs'' => ?_
    · split
      · next hc => exact hs'.skip (hc ▸ by decide)
      · next hc => exact hs'.skip (hc ▸ by decide)
      · next hc =>
        rw [outcome_get_bind, outcome_bind, outcome_check]
        refine ⟨fun _ => ?_, fun hno => hno hlt⟩
        exact hs'.mark (hc ▸ by decide) (hs'.tags.setFrontendStateComplete 0 m).1
          (hframe.setFrontendStateComplete 0 m ⟨rfl, rfl⟩)
          (setFrontendStateComplete_marks hshaped hsize hs'.makes.good hs'.tags.toMarked)
          fun i => by simp [hc]
      · next hc =>
        rw [outcome_get_bind, outcome_bind, outcome_check]
        refine ⟨fun _ => ?_, fun hno => hno hlt⟩
        have hmarks := setFrontendStateVerified_marks (j := m) hshaped hsize hs'.makes.good
          hs'.tags.toMarked
        refine (((hs'.tags.setFrontendStateVerified (j := m) hn fun _ h0 => absurd h0 (by simp)).and
          (hframe.setFrontendStateVerified (inTables_of_lt rfl hlt) s' ⟨rfl, rfl⟩)).and hmarks).mono
          (fun _ s'' h'' => ?_) fun _ _ he => he.1.1
        exact hs'.mark (hc ▸ by decide) h''.1.1.1 h''.1.2 h''.2 fun i => by
          simp [hc, blockNums_congr hs'.tables]
    · rw [List.forM_nil, outcome_pure]
      exact hs''

end Loading

section Present

variable {τ : TableValues} {I : State → Prop} {s : State} {intervals : List (Int × Int)}

theorem Frame.iterIntervals (h : Frame τ I) (intervals : List (Int × Int)) :
    Preserves I (iterIntervals setPresentPiece intervals) := by
  have hpiece : ∀ p : Store.Piece, Preserves I (setPresentPiece p) := fun p => by
    refine Preserves.get_bind fun s hs => ?_
    split
    · split
      · refine Preserves.bind (Preserves.modify fun s => h.setBlockAt _ _) (fun _ => ?_) s hs
        refine Preserves.bind (Preserves.modify fun s => h.setSwarmerStateComplete _) fun _ => ?_
        exact Preserves.modify fun s => h.addFileDownloaded none _
      · exact Preserves.bind (Preserves.modify fun s => h.newBlock _)
          (fun _ => h.setPresentBlock _ _ _) s hs
    · exact h.setPresentBlock _ _ _ s hs
    · exact Preserves.pure () s hs
    · exact Preserves.pure () s hs
  refine Preserves.forM fun interval _ => Preserves.get_bind fun s hs => ?_
  split
  · unfold computeBlockNum
    rw [outcome_bind, outcome_get_bind, outcome_bind, outcome_check]
    exact ⟨fun _ => Preserves.forM (fun p _ => hpiece p) s hs, fun _ => hs⟩
  · exact hs

-- The disk blocks of the file have their bits.
def State.DiskFits (s : State) : Prop :=
  0 < s.diskAllocationBlockSize ∧
    (s.size - 1).tdiv s.diskAllocationBlockSize < s.diskAllocated.length

theorem State.DiskFits.congr {s' : State} (h : s.DiskFits) (hsize : s'.size = s.size)
    (hset : s'.settings = s.settings) : s'.DiskFits := by
  have hblock : s'.diskAllocationBlockSize = s.diskAllocationBlockSize := congrArg (·.2.1) hset
  have hbits : s'.diskAllocated = s.diskAllocated := congrArg (·.2.2) hset
  rw [DiskFits, hblock, hbits, hsize]
  exact h

theorem markDiskSpacePreallocated_fits (h : s.DiskFits) {interval : Int × Int}
    (hin : InFile s.size [interval]) :
    Outcome (markDiskSpacePreallocated interval.1 interval.2)
      (fun _ s' => ∃ a, a.length = s.diskAllocated.length ∧ s' = { s with diskAllocated := a })
      (fun _ _ => False) s := by
  obtain ⟨h₁, h₂, h₃, h₄⟩ := hin interval (List.mem_singleton_self _)
  unfold markDiskSpacePreallocated
  refine Outcome.bind (P := fun l s' => s' = s ∧ ∀ n ∈ l, n < s.diskAllocated.length) ?_ ?_
  · unfold diskBlocks
    rw [outcome_get_bind]
    split
    · rw [outcome_bind, outcome_check]
      refine ⟨fun _ => ?_, fun hno => hno ⟨by omega, by omega⟩⟩
      rw [outcome_bind, outcome_check]
      refine ⟨fun _ => ⟨rfl, fun n hn => ?_⟩, fun hno => hno ⟨by omega, by omega⟩⟩
      obtain ⟨hpos, hfits⟩ := h
      rw [Int.tdiv_eq_ediv_of_nonneg (by omega)] at hfits
      rw [Int.tdiv_eq_ediv_of_nonneg (by omega), Int.tdiv_eq_ediv_of_nonneg (by omega),
        List.mem_range'_1] at hn
      have hle := Int.ediv_le_ediv hpos (show interval.2 - 1 ≤ s.size - 1 by omega)
      have hnonneg := Int.ediv_nonneg (show 0 ≤ interval.2 - 1 by omega) hpos.le
      omega
    · exact ⟨rfl, fun n hn => absurd hn List.not_mem_nil⟩
  · rintro l s' ⟨rfl, hl⟩
    refine Outcome.forM ⟨_, rfl, rfl⟩ fun n hn s₁ hs₁ => ?_
    obtain ⟨a, ha, rfl⟩ := hs₁
    unfold setDiskAllocated
    rw [outcome_get_bind, outcome_bind, outcome_check]
    exact ⟨fun _ => ⟨_, List.length_set.trans ha, rfl⟩, fun hno => hno (ha ▸ hl n hn)⟩

-- What set_present makes of a swarmer whose primary checks its chunks
structure State.Presents (intervals : List (Int × Int)) (s s' : State) : Prop where
  tables : s'.tables = s.tables
  strategy : s'.strategy = s.strategy
  prioritiesIntervals : s'.prioritiesIntervals = s.prioritiesIntervals
  makes : Makes (Covers intervals) s s'
  verifies : Verifies [] s s'

-- set_present does not fail on intervals of the file.
theorem setPresent_presents (h : s.DiskFits) (hg : Good s) (hin : InFile s.size intervals)
    (hv : (s.frontend 0).verifier ≠ .noVerification) :
    Outcome (setPresent intervals) (fun _ => Presents intervals s) (fun _ _ => False) s := by
  have hmakes := makes_setPresent hg hin
  have hverifies := verifies_setPresent hv intervals
  suffices hfits : Outcome (setPresent intervals) (fun _ s' => s'.tables = s.tables ∧
      s'.strategy = s.strategy ∧ s'.prioritiesIntervals = s.prioritiesIntervals)
      (fun _ _ => False) s by
    unfold Outcome at *
    unfold after at hmakes
    cases hres : setPresent intervals s with
    | error e s' => simp only [hres] at hfits
    | ok a s' =>
      simp only [hres] at hfits hmakes hverifies
      exact ⟨hfits.1, hfits.2.1, hfits.2.2, hmakes, hverifies⟩
  unfold setPresent
  refine (((makes_iterIntervals hg hin).and ((frame_settings s.tables s.settings).iterIntervals
    intervals s ⟨rfl, rfl⟩)).mono (fun _ _ hs => hs) fun _ _ hno => hno.1).bind fun _ s₁ hs₁ => ?_
  obtain ⟨hm, ht, hset⟩ := hs₁
  have hstrategy : s₁.strategy = s.strategy := congrArg (·.1.1) hset
  have hprio : s₁.prioritiesIntervals = s.prioritiesIntervals := congrArg (·.1.2) hset
  have hsize : s₁.size = s.size := congrArg (·.1.1) ht
  have hfits := h.congr hsize hset
  rw [outcome_get_bind]
  split
  · next hnil => exact absurd hm.good.networks_pos (by simp [hnil])
  · refine (Outcome.forM (I := fun s' => ∃ a, a.length = s₁.diskAllocated.length ∧
      s' = { s₁ with diskAllocated := a }) ⟨_, rfl, rfl⟩
      fun interval hi s' hs' => ?_).mono (fun _ s' hs' => ?_) fun _ _ hno => hno
    · obtain ⟨a, ha, rfl⟩ := hs'
      refine (markDiskSpacePreallocated_fits ?_ ?_).mono
        (fun _ s'' hs'' => ?_) fun _ _ hno => hno
      · refine ⟨hfits.1, ?_⟩
        show (s₁.size - 1).tdiv s₁.diskAllocationBlockSize < a.length
        rw [ha]
        exact hfits.2
      · rintro p hp
        obtain rfl := List.mem_singleton.mp hp
        show 0 ≤ _ ∧ _ ≤ s₁.size ∧ 0 ≤ _ ∧ _ ≤ s₁.size
        exact hsize ▸ hin p hi
      · obtain ⟨a', ha', rfl⟩ := hs''
        exact ⟨a', ha'.trans ha, rfl⟩
    · obtain ⟨a, -, rfl⟩ := hs'
      exact ⟨ht, hstrategy, hprio⟩

end Present

end Mldonkey.Swarming
