import Mldonkey.Swarming.Ledger.Present

namespace Mldonkey.Swarming

open Effects HalfOpen

-- What a ledger claims beyond the order of the ranges: that uploaders hold
-- ranges of blocks in use only, that the file counts the bytes present, and
-- what the two sums of a partial block are.
structure Facts where
  held : Prop
  counted : Prop
  remaining : Prop
  selected : Prop
  held_of_counted : counted → held

namespace State

-- The number of uploaders that hold a range.
def holders (s : State) (r : RangeId) : Nat :=
  s.uploaders.countP fun u => inUploaderRanges r u.ranges

def nums (s : Store) (blocks : List UploaderBlock) : List Nat :=
  blocks.map fun b => (s.block b.block).num

-- How often block `i` was given to an uploader.
def selectors (s : State) (i : Nat) : Nat :=
  (s.uploaders.map fun u => (nums s.toStore u.blocks).count i).sum

end State

open State Store

-- The blocks, their ranges and what the uploaders hold of them agree. `P` tells
-- at which offsets no selected range may be cut.
structure Ledger (a : Facts) (P : Int → Prop) (s : State) : Prop where
  books : Books a.remaining a.selected s.toStore
  networks_pos : 0 < s.networks.length
  files_pos : 0 < s.files.length
  nuploading_length : s.nuploading.length = s.blocks.length
  priorities : ∀ i, s.prioritiesBitmap.getD i 0 ≠ 0 → 0 < s.size
  keys_lt : ∀ u ∈ s.uploaders, ∀ key ∈ u.ranges, key.2.2 < s.nextRange
  keys_nodup : ∀ u ∈ s.uploaders, (u.ranges.map fun key => key.2.2).Nodup
  holders_le : ∀ r < s.nextRange, s.holders r ≤ (s.range r).nuploading
  kept : ∀ u ∈ s.uploaders, ∀ key ∈ u.ranges, s.Kept key.2.2
  held : a.held → ∀ u ∈ s.uploaders, ∀ key ∈ u.ranges, s.Held key.2.2
  blocks_lt : ∀ u ∈ s.uploaders, ∀ b ∈ u.blocks, b.block < s.nextBlock
  selectors_le : ∀ i, s.selectors i ≤ s.nuploading.getD i 0
  chosen : a.held → ∀ u ∈ s.uploaders, ∀ b ∈ u.blocks, s.Chosen b.block
  counted : a.counted → s.Counted
  shared : a.selected → ∀ b, s.Current b → ∀ r ∈ s.ranges b,
    (s.range r).nuploading = s.holders r
  safe : a.selected → ∀ x, P x → ∀ b, s.Current b → ∀ r ∈ s.ranges b,
    (s.range r).rangeBegin < x → x < (s.range r).rangeEnd → (s.range r).nuploading = 0

namespace Ledger

variable {a : Facts} {P P' : Int → Prop} {s s' : State} {i : Nat} {b : BlockId} {r : RangeId}

theorem mem_keys {r : RangeId} {list : List (Int × Int × RangeId)} :
    inUploaderRanges r list = true ↔ ∃ key ∈ list, key.2.2 = r := by
  simp [inUploaderRanges]

theorem holders_eq_zero {s : State} :
    s.holders r = 0 ↔ ∀ u ∈ s.uploaders, ∀ key ∈ u.ranges, key.2.2 ≠ r := by
  simp only [holders, List.countP_eq_zero, mem_keys]
  refine forall₂_congr fun u _ => ?_
  push Not
  rfl

theorem holders_fresh (h : Ledger a P s) (hr : s.nextRange ≤ r) : s.holders r = 0 :=
  holders_eq_zero.mpr fun u hu key hkey e =>
    absurd (h.keys_lt u hu key hkey) (by rw [e]; exact Nat.not_lt.mpr hr)

theorem holders_congr (h : s'.uploaders = s.uploaders) (r : RangeId) :
    s'.holders r = s.holders r := by simp only [holders, h]

theorem selectors_congr (h : Ledger a P s) (hu : s'.uploaders = s.uploaders)
    (hnum : ∀ b < s.nextBlock, (s'.block b).num = (s.block b).num) (i : Nat) :
    s'.selectors i = s.selectors i := by
  simp only [selectors, hu]
  refine congrArg List.sum (List.map_congr_left fun u hmem => ?_)
  have : nums s'.toStore u.blocks = nums s.toStore u.blocks :=
    List.map_congr_left fun b hb => hnum b.block (h.blocks_lt u hmem b hb)
  rw [this]

-- The steps on blocks keep the ledger.
theorem moves (h : Ledger a P s) (hm : Moves s s')
    (hb : Books a.remaining a.selected s'.toStore) (hc : a.counted → s'.Counted) :
    Ledger a P s' where
  books := hb
  networks_pos := by rw [hm.networks_length]; exact h.networks_pos
  files_pos := by rw [hm.files_length]; exact h.files_pos
  nuploading_length := by
    rw [hm.nuploading, h.nuploading_length]
    exact (congrArg (fun g => g.2.2) hm.evolves.layout).symm
  priorities i hi := by
    rw [hm.prioritiesBitmap] at hi
    have := h.priorities i hi
    rwa [← show s'.size = s.size from congrArg (fun g => g.1) hm.evolves.layout] at this
  keys_lt u hu key hkey := by
    rw [hm.uploaders] at hu
    exact (h.keys_lt u hu key hkey).trans_le hm.evolves.nextRange
  keys_nodup u hu := h.keys_nodup u (hm.uploaders ▸ hu)
  holders_le r hr := by
    rw [holders_congr hm.uploaders]
    by_cases hlt : r < s.nextRange
    · rw [hm.evolves.nuploading r hlt]; exact h.holders_le r hlt
    · rw [h.holders_fresh (Nat.not_lt.mp hlt)]; exact Nat.zero_le _
  kept u hu key hkey := by
    rw [hm.uploaders] at hu
    exact hm.evolves.kept _ (h.keys_lt u hu key hkey) (h.kept u hu key hkey)
  held ha u hu key hkey := by
    rw [hm.uploaders] at hu
    exact hm.evolves.held _ (h.keys_lt u hu key hkey) (h.kept u hu key hkey)
      (h.held ha u hu key hkey)
  blocks_lt u hu b hb := by
    rw [hm.uploaders] at hu
    exact (h.blocks_lt u hu b hb).trans_le hm.evolves.nextBlock
  selectors_le i := by
    rw [h.selectors_congr hm.uploaders hm.evolves.num, hm.nuploading]
    exact h.selectors_le i
  chosen ha u hu b hb := by
    rw [hm.uploaders] at hu
    exact hm.evolves.chosen _ (h.blocks_lt u hu b hb) (h.chosen ha u hu b hb)
  counted := hc
  shared ha b hcur r hr := by
    rw [holders_congr hm.uploaders]
    by_cases hlt : r < s.nextRange
    · obtain ⟨h₁, h₂⟩ := hm.evolves.linked b hcur r hr hlt
      rw [hm.evolves.nuploading r hlt]
      exact h.shared ha b h₁ r h₂
    · have hge := Nat.not_lt.mp hlt
      rw [h.holders_fresh hge]
      exact hm.evolves.fresh r hge (hb.owned b r hr).2
  safe ha x hx b hcur r hr h₁ h₂ := by
    by_cases hlt : r < s.nextRange
    · obtain ⟨h₃, h₄⟩ := hm.evolves.linked b hcur r hr hlt
      have hs := hm.evolves.shrinks r hlt
      rw [hm.evolves.nuploading r hlt]
      exact h.safe ha x hx b h₃ r h₄ (by omega) (by omega)
    · exact hm.evolves.fresh r (Nat.not_lt.mp hlt) (hb.owned b r hr).2

-- A step that fills bytes.
theorem fills (h : Ledger a P s) (hm : Moves s s')
    (hb : Books a.remaining a.selected s'.toStore) (hf : a.counted → ∃ w, Fills w s s') :
    Ledger a P s' :=
  h.moves hm hb fun hc => by
    obtain ⟨w, hw⟩ := hf hc
    exact (hw.counted_iff h.books.placed (congrArg (fun g => g.1) hm.evolves.layout)).mpr
      (h.counted hc)

-- A step that takes bytes away again.
theorem drains (h : Ledger a P s) (hm : Moves s s')
    (hb : Books a.remaining a.selected s'.toStore) (hf : a.counted → ∃ w, Fills w s' s) :
    Ledger a P s' :=
  h.moves hm hb fun hc => by
    obtain ⟨w, hw⟩ := hf hc
    exact (hw.counted_iff hb.placed (congrArg (fun g => g.1) hm.evolves.layout).symm).mp
      (h.counted hc)

theorem sameBooks (h : Ledger a P s) (hs : SameBooks s s') : Ledger a P s' :=
  h.fills hs.moves (hs.store ▸ h.books) fun _ => ⟨∅, hs.fills⟩

theorem seals (h : Ledger a P s) (hs : Sealed i s s') : Ledger a P s' := by
  obtain ⟨hb, hm, hf⟩ := hs.keeps h.books h.files_pos
  exact h.fills hm hb fun _ => hf

theorem completes (h : Ledger a P s) (i : Nat) (maybeT : Option Nat) :
    Ledger a P (s.setCompletedBlock maybeT i) := h.seals ⟨maybeT, .inl (.refl _)⟩

theorem newBlock (h : Ledger a P s) (hs : 0 < s.size) (hi : i < s.blocks.length)
    (hb : s.blockAt i = .emptyBlock) : Ledger a P (s.newBlock i) := by
  have hadd : Ledger a P (s.withStore (·.addBlock i)) := by
    refine h.fills ⟨rest_withStore s _, .addBlock h.books hb⟩ (h.books.addBlock hs hi)
      fun _ => ⟨∅, fun y => ?_, by simp, by simp [State.file, withStore]⟩
    rw [toStore_withStore, h.books.missing_addBlock hi hb]
    simp
  simp only [State.newBlock]
  split
  · exact hadd.sameBooks (setSwarmerStatePartial_books _ i)
  · exact hadd

end Ledger

namespace Store

variable {c d : Prop} {s s' s'' : Store} {b : BlockId} {r : RangeId} {i : Nat}

-- Ranges are closed with their blocks, but never cut or joined.
structure Settles (s s' : Store) : Prop where
  owner : ∀ r, (s'.range r).block = (s.range r).block
  nuploading : ∀ r, (s'.range r).nuploading = (s.range r).nuploading
  range : ∀ r, s'.range r = s.range r ∨ s'.Void r
  next : ∀ r, s'.rangeNext r = s.rangeNext r ∨ s'.rangeNext r = none
  link : ∀ r, r ∈ s.ranges (s.range r).block →
    r ∈ s'.ranges (s.range r).block ∧ s'.range r = s.range r ∨ s'.Void r ∧ s'.rangeNext r = none

theorem Settles.refl (s : Store) : Settles s s :=
  ⟨fun _ => rfl, fun _ => rfl, fun _ => .inl rfl, fun _ => .inl rfl, fun _ h => .inl ⟨h, rfl⟩⟩

theorem Settles.void (h : Settles s s') (hr : s.Void r) : s'.Void r := by
  rcases h.range r with e | e
  · unfold Store.Void at hr ⊢
    rw [e]
    exact hr
  · exact e

theorem Settles.last (h : Settles s s') (hr : s.rangeNext r = none) : s'.rangeNext r = none := by
  rcases h.next r with e | e
  · rw [e]; exact hr
  · exact e

theorem Settles.trans (h : Settles s s') (h' : Settles s' s'') : Settles s s'' where
  owner r := (h'.owner r).trans (h.owner r)
  nuploading r := (h'.nuploading r).trans (h.nuploading r)
  range r := by
    rcases h'.range r with e | e
    · rcases h.range r with e' | e'
      · exact .inl (e.trans e')
      · exact .inr (h'.void e')
    · exact .inr e
  next r := by
    rcases h'.next r with e | e
    · rcases h.next r with e' | e'
      · exact .inl (e.trans e')
      · exact .inr (e.trans e')
    · exact .inr e
  link r hr := by
    rcases h.link r hr with ⟨hm, e⟩ | ⟨hv, hn⟩
    · have := h'.link r (by rw [e]; exact hm)
      rw [e] at this
      exact this
    · exact .inr ⟨h'.void hv, h'.last hn⟩

theorem Settles.setBlockAt (s : Store) (i : Nat) (v : BlockV) : Settles s (s.setBlockAt i v) :=
  ⟨fun _ => rfl, fun _ => rfl, fun _ => .inl rfl, fun _ => .inl rfl, fun _ h => .inl ⟨h, rfl⟩⟩

theorem nextIn_take_one (r : RangeId) (l : List RangeId) : nextIn r (l.take 1) = none := by
  cases l <;> simp [nextIn]

theorem Settles.closeRanges (howned : ∀ r ∈ s.ranges b, (s.range r).block = b) :
    Settles s (s.closeRanges b) := by
  have hrange := range_closeRanges howned
  have howner : ∀ r, ((s.closeRanges b).range r).block = (s.range r).block := fun r => by
    rw [hrange]
    split <;> rfl
  have hnext : ∀ r, (s.range r).block = b → (s.closeRanges b).rangeNext r = none := fun r hr => by
    have := ranges_closeRanges howned
    simp only [Store.ranges] at this
    rw [Store.rangeNext, howner, hr, this]
    exact nextIn_take_one r _
  have hother : ∀ b' ≠ b, (s.closeRanges b).ranges b' = s.ranges b' :=
    fun b' hb => (closeRanges_only howned).ranges hb
  refine ⟨howner, fun r => ?_, fun r => ?_, fun r => ?_, fun r hr => ?_⟩
  · rw [hrange]
    split <;> rfl
  · rw [hrange]
    split
    · next hm =>
        refine .inr ?_
        unfold Store.Void
        rw [hrange, if_pos hm]
    · exact .inl rfl
  · by_cases hb : (s.range r).block = b
    · exact .inr (hnext r hb)
    · refine .inl ?_
      have := hother _ hb
      simp only [Store.ranges] at this
      rw [Store.rangeNext, Store.rangeNext, howner, this]
  · by_cases hb : (s.range r).block = b
    · refine .inr ⟨?_, hnext r hb⟩
      unfold Store.Void
      rw [hrange, if_pos (hb ▸ hr)]
    · refine .inl ⟨by rw [hother _ hb]; exact hr, ?_⟩
      rw [hrange, if_neg fun hm => hb (howned r hm)]

theorem Settles.completeAt (h : Books c d s) (i : Nat) : Settles s (s.completeAt i) := by
  unfold Store.completeAt
  split
  · exact .refl s
  · exact .refl s
  · exact .setBlockAt s i _
  · next b _ =>
      exact (Settles.closeRanges fun r hr => (h.owned b r hr).1).trans (.setBlockAt _ i _)

end Store

open State Store

-- What verifying chunks may do to the ranges.
structure State.Settled (s s' : State) : Prop extends Moves s s' where
  settles : Settles s.toStore s'.toStore

theorem State.Settled.refl (s : State) : Settled s s := ⟨.refl s, .refl _⟩

theorem State.Settled.trans {s s' s'' : State} (h : Settled s s') (h' : Settled s' s'') :
    Settled s s'' := ⟨h.toMoves.trans h'.toMoves, h.settles.trans h'.settles⟩

theorem State.SameBooks.settled {s s' : State} (h : SameBooks s s') : Settled s s' :=
  ⟨h.moves, h.store ▸ .refl _⟩

namespace Ledger

variable {a : Facts} {P : Int → Prop} {s s' s₀ : State} {i j k : Nat} {b : BlockId} {r : RangeId}
  {fileVerify : FileVerify}

-- The ledger, with the ranges as they may have come from those in `s₀`.
def Since (a : Facts) (P : Int → Prop) (s₀ s : State) : Prop := Ledger a P s ∧ Settled s₀ s

theorem Since.sameBooks (h : Since a P s₀ s) (hs : SameBooks s s') : Since a P s₀ s' :=
  ⟨h.1.sameBooks hs, h.2.trans hs.settled⟩

theorem Since.seals (h : Since a P s₀ s) (hs : Sealed i s s') : Since a P s₀ s' := by
  refine ⟨h.1.seals hs, h.2.trans ⟨(hs.keeps h.1.books h.1.files_pos).2.1, ?_⟩⟩
  have hc := Settles.completeAt h.1.books i
  rcases hs.store with e | e
  · rw [e]; exact hc
  · rw [e]; exact hc.trans (.setBlockAt _ i _)

abbrev Ends (a : Facts) (P : Int → Prop) (s₀ : State) (_ : Exn) (s : State) : Prop :=
  Since a P s₀ s

theorem Since.setVerifiedBlock (h : Since a P s₀ s) (i : Nat) :
    Outcome (setVerifiedBlock i) (fun _ => Since a P s₀) (Ends a P s₀) s :=
  (setVerifiedBlock_sealed s i).mono
    (fun _ _ hs => hs.elim (fun e => e.2 ▸ h) h.seals) fun _ _ hs => h.seals hs.1

theorem Since.resetBlock (h : Since a P s₀ s) (i : Nat) :
    Outcome (resetBlock i) (fun _ => Since a P s₀) (Ends a P s₀) s := by
  unfold Swarming.resetBlock
  rw [outcome_get_bind]
  split
  · exact h.sameBooks (setSwarmerStateMissing_books s i)
  · exact h.sameBooks (setSwarmerStatePartial_books s i)
  · next hb =>
      rw [outcome_modify_bind, outcome_modify_bind, outcome_modify]
      refine Since.sameBooks ?_ (setSwarmerStateMissing_books _ i)
      have hi : i < s.blocks.length := by
        by_contra hn
        rw [blockAt_of_length_le (Nat.not_lt.mp hn)] at hb
        exact nomatch hb
      have hst : ((s.addFileDownloaded none (s.computeBlockBegin i - s.computeBlockEnd i)
          ).withStore (·.setBlockAt i .emptyBlock)).toStore =
          s.toStore.setBlockAt i .emptyBlock := by
        rw [toStore_withStore, toStore_addFileDownloaded]
      have hm : Moves s ((s.addFileDownloaded none (s.computeBlockBegin i - s.computeBlockEnd i)
          ).withStore (·.setBlockAt i .emptyBlock)) := by
        refine ⟨(rest_addFileDownloaded s none _).trans (rest_withStore _ _), ?_⟩
        rw [hst]
        exact .setBlockAt (by simp [hb]) isWhole_empty
      refine ⟨h.1.drains hm (hst ▸ h.1.books.setBlockAt isWhole_empty) fun _ =>
        ⟨Finset.Ico (s.computeBlockBegin i) (s.computeBlockEnd i), fun y => ?_, fun y hy => ?_, ?_⟩,
        h.2.trans ⟨hm, hst ▸ .setBlockAt _ i _⟩⟩
      · rw [hst, h.1.books.placed.missing_reset hi hb, Finset.mem_Ico]
      · rw [hst]
        rw [Finset.mem_Ico] at hy
        have hl := layout_setBlockAt s.toStore i .emptyBlock
        refine ⟨i, by rw [show (s.toStore.setBlockAt i .emptyBlock).blocks.length =
          s.blocks.length from List.length_set]; exact hi, ?_, ?_, ?_⟩
        · rw [computeBlockBegin_congr hl]; exact hy.1
        · rw [computeBlockEnd_congr hl]; exact hy.2
        · rw [Store.blockAt_setBlockAt, if_pos ⟨rfl, hi⟩]
          trivial
      · have hle := h.1.books.placed.le hi
        have hd := downloaded_addFileDownloaded s none
          (s.computeBlockBegin i - s.computeBlockEnd i) h.1.files_pos
        have hfile : ∀ s : State, ((s.withStore (·.setBlockAt i .emptyBlock)).file 0) = s.file 0 :=
          fun _ => rfl
        rw [hfile, hd, Int.card_Ico]
        omega
  · exact h

theorem Since.setFrontendStateMissing (h : Since a P s₀ s) (k j : Nat) :
    Outcome (setFrontendStateMissing k j) (fun _ => Since a P s₀) (Ends a P s₀) s := by
  have hsame : ∀ {f : Frontend → Frontend} {s : State}, (∀ t, (f t).verifier = t.verifier) →
      Since a P s₀ s → Since a P s₀ (s.modifyFrontend k f) :=
    fun hf h => h.sameBooks (sameBooks_modifyFrontend hf _ k)
  unfold Swarming.setFrontendStateMissing
  rw [outcome_get_bind]
  dsimp only
  rw [outcome_bind, outcome_check]
  refine ⟨fun _ => ?_, fun _ => h⟩
  rw [outcome_bind, outcome_check]
  refine ⟨fun _ => ?_, fun _ => h⟩
  rw [outcome_modify_bind]
  have h₁ := hsame (f := fun t => { t with ncompleteChunks := t.ncompleteChunks - 1 })
    (fun _ => rfl) h
  split
  · rw [outcome_modify_bind]
    exact Outcome.forM (hsame (f := (·.setChunk j .stateMissing)) (fun _ => rfl) h₁)
      fun i _ _ h => h.resetBlock i
  · exact hsame (f := (·.setChunk j .statePartial)) (fun _ => rfl) h₁

theorem Since.markVerified (h : Since a P s₀ s) (k j : Nat) :
    Outcome (markVerified k j) (fun _ => Since a P s₀) (Ends a P s₀) s := by
  unfold Swarming.markVerified
  rw [outcome_modify_bind]
  have h₁ := h.sameBooks (sameBooks_modifyFrontend (f := (·.setChunk j .stateVerified))
    (fun _ => rfl) s k)
  split
  · rw [outcome_get_bind]
    exact Outcome.forM h₁ fun i _ _ h => h.setVerifiedBlock i
  · exact h₁

theorem Since.setFrontendStateVerified (h : Since a P s₀ s) (k j : Nat) :
    Outcome (setFrontendStateVerified k j) (fun _ => Since a P s₀) (Ends a P s₀) s := by
  have hmark : ∀ {f : Frontend → Frontend}, (∀ t, (f t).verifier = t.verifier) → Outcome
      (do modify (·.modifyFrontend k f); Swarming.markVerified k j) (fun _ => Since a P s₀)
      (Ends a P s₀) s := by
    intro f hf
    rw [outcome_modify_bind]
    exact (h.sameBooks (sameBooks_modifyFrontend hf s k)).markVerified k j
  unfold Swarming.setFrontendStateVerified
  rw [outcome_get_bind]
  split
  · exact hmark fun _ => rfl
  · exact hmark fun _ => rfl
  · exact hmark fun _ => rfl
  · exact h

theorem Since.verifyChunk (h : Since a P s₀ s) (fileVerify : FileVerify) (k j : Nat) :
    Outcome (verifyChunk fileVerify k j) (fun _ => Since a P s₀) (Ends a P s₀) s := by
  unfold Swarming.verifyChunk
  rw [outcome_get_bind]
  dsimp only
  split
  · split
    · exact h
    · exact h
    · exact h.setFrontendStateVerified k j
    · split
      · unfold verifyOneHash
        rw [outcome_get_bind]
        dsimp only
        split
        · exact h.setFrontendStateVerified k j
        · exact h.setFrontendStateMissing k j
        · exact h
        · exact h
      · rw [outcome_bind, outcome_check]
        refine ⟨fun _ => ?_, fun _ => h⟩
        unfold verifyWholeFile
        rw [outcome_get_bind]
        dsimp only
        split
        · split
          · exact Outcome.forM h fun j _ _ h => h.setFrontendStateVerified k j
          · refine Outcome.forM h fun j _ s' h' => ?_
            rw [outcome_get_bind]
            split
            · exact h'.setFrontendStateMissing k j
            · exact h'
          · exact h
          · exact h
        · exact h
  · exact h

end Ledger

end Mldonkey.Swarming
