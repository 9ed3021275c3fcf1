import Mldonkey.Swarming.SetPresent
import Mldonkey.Swarming.Tags.Runs

-- What holds of a swarmer in every run, whatever its networks and their clients ask for.
namespace Mldonkey.Swarming

open Effects HalfOpen State Store

variable {verifiers : Verifier → Prop} {ok : State → Op → Prop} {s : State}

theorem Store.MaximalIntervals.gapped {B : Int → Prop} {l : List (Int × Int)}
    (h : MaximalIntervals B l) : Gapped l := ⟨h.nonempty, h.apart⟩

-- A swarmer that says the same of each byte reports the same intervals.
theorem presentIntervals_congr {s' : State} (h : Store.Books False False s.toStore)
    (h' : Store.Books False False s'.toStore) (hsize : s'.size = s.size)
    (hmissing : ∀ x, s'.Missing x ↔ s.Missing x) : s'.presentIntervals = s.presentIntervals := by
  have hl := maximal_presentIntervals h
  have hl' := maximal_presentIntervals h'
  refine hl'.gapped.ext hl.gapped fun x => ?_
  rw [hl'.covers, hl.covers, Present, Present, hsize, hmissing]

-- A merge cuts the blocks of any swarmer at the chunks of the new frontend: no byte is lost or
-- gained, none is verified by it, and the primary's file keeps its count.
theorem merge_keeps_bytes (h : Reachable verifiers ok s) (hs : 0 < s.size) (f2 : MergedFile) :
    (Op.next (.merge f2) s).presentIntervals = s.presentIntervals ∧
    (∀ x, (Op.next (.merge f2) s).Missing x ↔ s.Missing x) ∧
    (∀ x, (Op.next (.merge f2) s).Verified x ↔ s.Verified x) ∧
    ((Op.next (.merge f2) s).file 0).downloaded = (s.file 0).downloaded ∧
    (Op.next (.merge f2) s).written = s.written := by
  rcases merge_associates s f2 with heq | ⟨t, file, ht, -, heq⟩
  · rw [heq]
    exact ⟨rfl, fun _ => Iff.rfl, fun _ => Iff.rfl, rfl, rfl⟩
  · have haccounted := accounted_of_reachable h hs
    have ha : Attached file s (s.associate t file) := associate_attached (Shaped.reachable h).laid
      hs ht.chunkSize haccounted.ledger.books haccounted.bits file
    rw [heq]
    refine ⟨presentIntervals_congr haccounted.ledger.books (ha.books fun hn => (hn.elim id id).elim)
      ha.size ha.missing, ha.missing, ha.verified, ?_, ha.written⟩
    rw [State.file, State.file, ha.files, List.getD_append _ _ _ _ haccounted.ledger.files_pos]

theorem fresh_startTen {verifiers : Verifier → Prop} (h : verifiers .forceVerification) :
    Fresh verifiers startTen := ⟨10, 4, .forceVerification, .fileDownloading, h, rfl⟩

theorem merge_keeps_bytes_ten :
    (Op.next (.merge ⟨10, 3, .noVerification, 0, 0, 0, .fileDownloading, 1⟩)
      (Op.next (.setPresent [(2, 5)]) startTen)).presentIntervals = [(2, 5)] := by
  have h : Reachable (fun _ => True) (fun _ _ => True) (Op.next (.setPresent [(2, 5)]) startTen) :=
    .step (.start (fresh_startTen trivial)) ⟨trivial, trivial⟩
  have hs : (Op.next (.setPresent [(2, 5)]) startTen).presentIntervals = [(2, 5)] := by decide
  exact (merge_keeps_bytes h (by decide) _).1.trans hs

theorem merge_calm (f2 : MergedFile) (s : State) :
    Outcome (merge f2) (fun _ _ => True) (fun e _ => e.Calm) s := by
  unfold Swarming.merge
  rw [outcome_get_bind, outcome_bind, outcome_check]
  refine ⟨fun _ => ?_, fun _ => by simp [Exn.Calm]⟩
  rw [outcome_bind]
  cases hc : createFrontend f2.size f2.chunkSize with
  | error e =>
    refine (outcome_throw e _ _ s).mpr ?_
    unfold createFrontend at hc
    split at hc
    · cases hc
      simp [Exn.Calm]
    · dsimp only at hc
      split at hc
      · cases hc
        simp [Exn.Calm]
      · cases hc
  | ok t =>
    refine (outcome_pure t _ _ s).mpr ?_
    split
    · simp [Exn.Calm]
    · rw [outcome_bind, outcome_check]
      refine ⟨fun _ => ?_, fun _ => by simp [Exn.Calm]⟩
      rw [outcome_bind, outcome_check]
      exact ⟨fun _ => trivial, fun _ => by simp [Exn.Calm]⟩

-- With a primary that verifies its chunks, and without a check of all chunks, the characters tell
-- of each block what it is, of the primary's chunks what their blocks are. A swarmer of one
-- frontend then never fails on a chunk that it resets.
theorem characters_agree (h : Reachable (· ≠ .noVerification) (fun _ op => op.Trusting) s)
    (hs : 0 < s.size) :
    (∀ i, s.bit i = (s.blockAt i).state) ∧
    (∀ j < (s.frontend 0).convertedVerifiedBitmap.length,
      (((s.frontend 0).chunk j).Done ↔
        ∀ i ∈ (s.frontend 0).blockNums j, (s.blockAt i).state.Done) ∧
      ((s.frontend 0).chunk j = .stateVerified ↔
        ∀ i ∈ (s.frontend 0).blockNums j, s.blockAt i = .verifiedBlock)) ∧
    (s.networks.length = 1 → ∀ op : Op, op.Valid s → op.Trusting →
      Outcome op.run (fun _ _ => True)
        (fun e _ => e ≠ .assertFailure .setFrontendStateMissing) s) := by
  have htrusted : Trusted False s := .reachable (fun hok => ⟨hok, fun hq => hq.elim⟩) h hs
  have ht := htrusted.marked.tagged
  have hverified : ∀ i, s.bit i = .stateVerified ↔ s.blockAt i = .verifiedBlock := fun i => by
    rw [ht.agree, state_verified_iff]
  refine ⟨ht.agree, fun j hj => ⟨?_, fun hc i hi => ?_, fun hall => ?_⟩, fun hone op hop hok => ?_⟩
  · rw [ht.done j hj (by simp)]
    simp only [ht.agree]
  · exact (hverified i).mp (ht.verified_blocks j (by simp) hc i hi)
  · obtain ⟨i, hi, rfl⟩ := ht.primary_tabled.exists_block j hj
    exact htrusted.marked.fromPrimary trivial i hi
      ((hverified i).mpr (hall i (ht.mem_blockNums.mpr ⟨hi, rfl⟩)))
  · by_cases hmerge : ∃ f2, op = .merge f2
    · obtain ⟨f2, rfl⟩ := hmerge
      exact (merge_calm f2 s).mono (fun _ _ _ => trivial) fun _ _ he => he
    · have hplaced := (accounted_of_reachable h hs).ledger.books.placed
      have hallows : Allows True s.networks.length Exn.Calm := by
        refine ⟨fun _ he => he, fun k hk hpos => ?_⟩
        have := hpos trivial
        omega
      exact (htrusted.tags.run hallows hplaced.positions hplaced.nonempty hop hok
        (fun hq => hq.elim) fun f2 heq => hmerge ⟨f2, heq⟩).mono (fun _ _ _ => trivial)
          fun _ _ he => he.2

theorem characters_agree_ten :
    (Op.next (.verifyChunk (fun _ _ _ => .ok true) 0 0)
      (Op.next (.setPresent [(0, 4)]) startTen)).bit 0 = .stateVerified := by
  have h : Reachable (· ≠ .noVerification) (fun _ op => op.Trusting)
      (Op.next (.verifyChunk (fun _ _ _ => .ok true) 0 0)
        (Op.next (.setPresent [(0, 4)]) startTen)) :=
    .step (.step (.start (fresh_startTen (by decide))) ⟨trivial, trivial⟩)
      ⟨⟨by decide, by decide⟩, trivial⟩
  exact ((characters_agree h (by decide)).1 0).trans (by decide)

-- An uploader that still holds ranges of blocks that a merge renumbers could fill them twice.
def Op.MergesIdle (s : State) : Op → Prop
  | .merge _ => ∀ u ∈ s.uploaders, u.ranges = []
  | _ => True

-- verify_all_chunks counts the blocks whose characters are those of missing ones.
def Op.RechecksAll : Op → Prop
  | .verifyAllChunks | .verifyAllChunksImmediately .. => True
  | _ => False

def countedFacts : Facts := ⟨True, True, False, False, id⟩

theorem accounts_counted {op : Op} (hmerge : op.MergesIdle s) (hall : ¬ op.RechecksAll) :
    op.Accounts countedFacts s := by
  cases op with
  | setPresent intervals => exact id
  | setAbsent listAbsent => exact id
  | findRange fileVerify up rangeSize => exact fun hn => hn.elim
  | verifyAllChunks => exact absurd trivial hall
  | verifyAllChunksImmediately fileVerify k => exact absurd trivial hall
  | merge f2 => exact ⟨fun _ => hmerge, fun hn => (hn.elim id id).elim⟩
  | _ => trivial

theorem Store.total_presentIntervals (h : Store.Books False False s.toStore) :
    total s.presentIntervals = s.present.card := by
  have hmax := maximal_presentIntervals h
  have hmem : ∀ p ∈ s.presentIntervals, 0 ≤ p.1 ∧ p.2 ≤ s.size := fun p hp => by
    have hlt := hmax.nonempty p hp
    have hfirst := (hmax.covers p.1).mp ⟨p, hp, le_rfl, hlt⟩
    have hlast := (hmax.covers (p.2 - 1)).mp ⟨p, hp, by omega, by omega⟩
    have := hfirst.1
    have := hlast.1
    omega
  have hchain : Chain 0 s.presentIntervals s.size := hmax.gapped.chain h.placed.size_nonneg
    (fun p hp => (hmem p hp).1) fun p hp => (hmem p hp).2
  classical
  rw [← hchain.card_covers]
  congr 2
  ext x
  rw [Finset.mem_filter, Finset.mem_Ico, hmax.covers, mem_present]
  exact ⟨fun hx => hx.2, fun hx => ⟨hx.1, hx⟩⟩

-- The primary's file counts each byte that is there once.
theorem downloaded_present
    (h : Reachable verifiers (fun s op => op.MergesIdle s ∧ ¬ op.RechecksAll) s)
    (hs : 0 < s.size) :
    (s.file 0).downloaded = total s.presentIntervals ∧
    MaximalIntervals (fun x => (0 ≤ x ∧ x < s.size) ∧ ¬ s.Missing x) s.presentIntervals ∧
    0 ≤ (s.file 0).downloaded ∧ (s.file 0).downloaded ≤ s.size ∧
    ((s.file 0).downloaded = s.size ↔ ∀ x, ¬ s.Missing x) := by
  have haccounted : Accounted countedFacts s :=
    Accounted.reachable (fun _ _ hop => accounts_counted hop.1 hop.2) h hs
  have hbooks := haccounted.ledger.books
  have hcounted : (s.file 0).downloaded = s.present.card := haccounted.ledger.counted trivial
  have hcard : ((Finset.Ico 0 s.size).card : Int) = s.size := by
    rw [Int.card_Ico]
    omega
  have hsub : s.present ⊆ Finset.Ico 0 s.size := fun x hx =>
    Finset.mem_Ico.mpr (mem_present.mp hx).1
  have hle := Finset.card_le_card hsub
  refine ⟨hcounted.trans (total_presentIntervals hbooks).symm, maximal_presentIntervals hbooks,
    ?_, ?_, fun hall x hmiss => ?_, fun hnone => ?_⟩
  · omega
  · omega
  · have heq : s.present = Finset.Ico 0 s.size := Finset.eq_of_subset_of_card_le hsub (by omega)
    have hx : x ∈ s.present := heq ▸ Finset.mem_Ico.mpr (hbooks.placed.missing_bounds hmiss)
    exact (mem_present.mp hx).2 hmiss
  · have heq : s.present = Finset.Ico 0 s.size := hsub.antisymm fun x hx =>
      mem_present.mpr ⟨Finset.mem_Ico.mp hx, hnone x⟩
    rw [hcounted, heq, hcard]

theorem downloaded_present_ten :
    ((Op.next (.setPresent [(2, 5), (4, 7)]) startTen).file 0).downloaded = total [(2, 7)] := by
  have h : Reachable (fun _ => True) (fun s op => op.MergesIdle s ∧ ¬ op.RechecksAll)
      (Op.next (.setPresent [(2, 5), (4, 7)]) startTen) :=
    .step (.start (fresh_startTen trivial)) ⟨trivial, trivial, id⟩
  exact (downloaded_present h (by decide)).1.trans (by decide)

-- split_blocks computes what the blocks that it cuts still miss before their places are known.
def Op.MergesWhole (s : State) : Op → Prop
  | .merge _ => ∀ b, ¬ s.Current b
  | _ => True

def summedFacts : Facts := ⟨False, False, True, False, id⟩

theorem accounts_summed {op : Op} (h : op.MergesWhole s) : op.Accounts summedFacts s := by
  refine Op.accounts_of_unselected id id fun f2 hop => ?_
  subst hop
  exact ⟨False.elim, fun _ => h⟩

-- The record of a partial block knows where the block lies; its ranges follow each other inside
-- of it, and what it says remains is what they miss.
theorem remaining_total (h : Reachable verifiers (fun s op => op.MergesWhole s) s)
    (hs : 0 < s.size) {i : Nat} (hi : i < s.blocks.length) {b : BlockId}
    (hb : s.blockAt i = .partialBlock b) :
    ((s.block b).num = i ∧ (s.block b).blockBegin = s.computeBlockBegin i ∧
      (s.block b).blockEnd = s.computeBlockEnd i) ∧
    s.ranges b ≠ [] ∧ (∀ r ∈ s.ranges b, (s.range r).block = b) ∧
    Chain (s.computeBlockBegin i) (s.spans (s.ranges b)) (s.computeBlockEnd i) ∧
    (s.block b).remaining = total (s.spans (s.ranges b)) := by
  have haccounted : Accounted summedFacts s :=
    Accounted.reachable (fun _ _ hop => accounts_summed hop) h hs
  have ht := haccounted.ledger.books.tidy i hi b hb
  exact ⟨⟨ht.num, ht.blockBegin, ht.blockEnd⟩, ht.ranges_ne, fun r hr => (ht.owned r hr).1,
    ht.chain, ht.remaining trivial⟩

theorem remaining_total_ten :
    ((Op.next (.setPresent [(2, 5)]) startTen).block 0).remaining = 2 := by
  have h : Reachable (fun _ => True) (fun s op => op.MergesWhole s)
      (Op.next (.setPresent [(2, 5)]) startTen) :=
    .step (.start (fresh_startTen trivial)) ⟨trivial, trivial⟩
  have hb : (Op.next (.setPresent [(2, 5)]) startTen).blockAt 0 = .partialBlock 0 := by decide
  exact (remaining_total h (by decide) (by decide) hb).2.2.2.2.trans (by decide)

-- Nobody loses a part of a range that is selected: the ranges that find_range cuts or merges are
-- free, and set_present, which splits ranges anywhere, is not called.
def Op.SharesWhole (s : State) : Op → Prop
  | .setPresent _ | .setAbsent _ => False
  | .findRange _ up rangeSize => s.PicksFree up rangeSize
  | .merge _ => ∀ b, ¬ s.Current b
  | _ => True

def sharedFacts : Facts := ⟨False, False, True, True, id⟩

theorem accounts_shared {op : Op} (h : op.SharesWhole s) : op.Accounts sharedFacts s := by
  cases op with
  | setPresent intervals => exact h.elim
  | setAbsent listAbsent => exact h.elim
  | findRange fileVerify up rangeSize => exact fun _ => h
  | verifyAllChunks => exact id
  | verifyAllChunksImmediately fileVerify k => exact id
  | merge f2 => exact ⟨fun hn => hn.elim, fun _ => h⟩
  | _ => trivial

-- A range of a partial block counts the uploaders that hold it, and the block what remains of the
-- ranges that none holds.
theorem unselected_total (h : Reachable verifiers (fun s op => op.SharesWhole s) s)
    (hs : 0 < s.size) {i : Nat} (hi : i < s.blocks.length) {b : BlockId}
    (hb : s.blockAt i = .partialBlock b) :
    (∀ r ∈ s.ranges b, (s.range r).nuploading = s.holders r) ∧
    (s.block b).remaining = total (s.spans (s.ranges b)) ∧
    (s.block b).unselectedRemaining =
      total (s.spans ((s.ranges b).filter fun r => s.holders r = 0)) := by
  have haccounted : Accounted sharedFacts s :=
    Accounted.reachable (fun _ _ hop => accounts_shared hop) h hs
  have hl := haccounted.ledger
  have ht := hl.books.tidy i hi b hb
  have hshared := hl.shared trivial b ⟨i, hi, hb⟩
  refine ⟨hshared, ht.remaining trivial, (ht.unselected trivial).trans ?_⟩
  rw [unselectedSpans, List.filter_map, List.map_map]
  refine congrArg total (congrArg _ (List.filter_congr fun r hr => ?_))
  simp [hshared r hr]

-- An uploader with all of the file is asked for a part of a block.
def askedTen : State :=
  Op.next (.findBlocks (fun _ _ _ => .ok true) 1 (fun _ => 0) 0)
    (Op.next (.registerUploader 0 (.availableIntervals [(0, 10)])) startTen)

theorem picksFree_askedTen : askedTen.PicksFree 0 1 := by
  intro b moreBlocks r q _ best _
  have hfree : ((askedTen.removeCompletedUploaderRanges 0).range r).nuploading = 0 := by
    cases r with
    | zero => decide
    | succ r => rfl
  exact .inl hfree

def pickedTen : State := Op.next (.findRange (fun _ _ _ => .ok true) 0 1) askedTen

theorem reachable_pickedTen :
    Reachable (fun _ => True) (fun s op => op.SharesWhole s ∧ op.MergesIdle s) pickedTen := by
  refine .step (.step (.step (.start (fresh_startTen trivial)) ⟨?_, trivial, trivial⟩)
    ⟨?_, trivial, trivial⟩) ⟨?_, picksFree_askedTen, trivial⟩
  · show 0 < startTen.networks.length
    decide
  · show 0 < (Op.next (.registerUploader 0 (.availableIntervals [(0, 10)]))
      startTen).uploaders.length
    decide
  · show 0 < askedTen.uploaders.length
    decide

theorem unselected_total_ten : (pickedTen.block 0).unselectedRemaining = 1 := by
  have h : Reachable (fun _ => True) (fun s op => op.SharesWhole s) pickedTen :=
    reachable_pickedTen.mono (fun _ => id) fun _ _ hop => ⟨hop.1, hop.2.1⟩
  have hb : pickedTen.blockAt 2 = .partialBlock 0 := by decide
  have hs : total (pickedTen.spans ((pickedTen.ranges 0).filter fun r =>
      pickedTen.holders r = 0)) = 1 := by decide
  exact (unselected_total h (by decide) (by decide) hb).2.2.trans hs

end Mldonkey.Swarming
