import Mldonkey.Swarming.Geometry

-- What attaching a frontend leaves of the blocks: every byte stays what it was.
namespace Mldonkey.Swarming

open Effects HalfOpen

namespace State

variable {s₀ s s' : State} {chunkSize : Int} {i : Nat} {newBlocks : List NewBlock}

-- The blocks and their characters aside, the state is the same.
def Beside (s s' : State) : Prop :=
  s' = { s with toStore := s'.toStore, verifiedBitmap := s'.verifiedBitmap }

theorem Beside.trans {s s' s'' : State} (h : Beside s s') (h' : Beside s' s'') : Beside s s'' :=
  Eq.trans h' (congrArg (fun x : State =>
    { x with toStore := s''.toStore, verifiedBitmap := s''.verifiedBitmap }) h)

-- What the walk has put, and what is left, say of each byte what the old blocks did.
structure Contents (s₀ s : State) (i : Nat) (newBlocks : List NewBlock) : Prop where
  bitmap_length : s.verifiedBitmap.length = s.blocks.length
  beside : Beside s₀ s
  divided : s.Divided (s.listing i newBlocks)
  redivides : Store.Redivides s₀.toStore (s₀.listing 0 []) s.toStore (s.listing i newBlocks)

theorem leftBlock_eq (s : State) (i : Nat) (b1 : BlockId) (blockBegin : Int) :
    s.leftBlock i b1 blockBegin = ⟨s.partBlock b1, blockBegin, s.partState b1 (s.bit i)⟩ := by
  unfold leftBlock Store.partBlock Store.partState
  split
  · rfl
  · split <;> rfl

theorem beside_cutPart (s : State) (i : Nat) (cutPos : Int) (b1 b2 : BlockId) :
    Beside s (((s.cutAt i cutPos).withStore (·.cutPartial b1 cutPos)).setRightBlock i b2) := by
  unfold setRightBlock
  split
  · rfl
  · split <;> rfl

theorem cutPart_store (s : State) (i : Nat) (b2 : BlockId) : ∃ blocks,
    (s.setRightBlock i b2).toStore = { s.toStore with blocks := blocks } ∧
      (s.setRightBlock i b2).verifiedBitmap.length = s.verifiedBitmap.length ∧
      blocks.length = s.blocks.length := by
  unfold setRightBlock
  split
  · exact ⟨_, rfl, VB.length_set _ _ _, List.length_set⟩
  · split
    · exact ⟨_, rfl, VB.length_set _ _ _, List.length_set⟩
    · exact ⟨_, rfl, rfl, List.length_set⟩

theorem walks_contents (s₀ : State) (chunkSize : Int) : Walks chunkSize (Contents s₀) where
  pass _ hi _ h :=
    ⟨h.bitmap_length, h.beside, by rw [listing_pass hi]; exact h.divided,
      by rw [listing_pass hi]; exact h.redivides⟩
  whole {s i chunkBegin newBlocks} hturn hi hlt hw h := by
    have hlist := listing_split hi newBlocks
    have hend := (listBegin_pending hturn.positions hi).symm
    have hd := h.divided
    have hr := h.redivides
    rw [hlist] at hd hr
    have hp := Store.Parts.of_whole hd ⟨s.blockAt i, s.computeBlockBegin i, s.bit i⟩
      (chunkBegin + chunkSize) (s.computeBlockEnd i) hw
    have hlist' := listing_cut hi hturn.positions (s.layout_cutAt i (chunkBegin + chunkSize))
      (fun _ _ => ⟨rfl, rfl⟩) newBlocks ⟨s.blockAt i, s.computeBlockBegin i, s.bit i⟩
    refine ⟨h.bitmap_length, h.beside.trans rfl, ?_, ?_⟩
    · rw [hlist']
      exact (hp.divided hend hd).arrays _ _
    · rw [hlist']
      exact (hr.trans (hp.redivides hend (hturn.here hi) hlt hd)).trans (.arrays _ _ _ _)
  part {s i chunkBegin newBlocks b1} hturn hi hlt hb h := by
    have hlist := listing_split hi newBlocks
    have hend := (listBegin_pending hturn.positions hi).symm
    have hd := h.divided
    have hr := h.redivides
    rw [hlist] at hd hr
    -- the array of positions is changed first
    have hd₁ := hd.arrays s.blocks (s.blockPos.set i (chunkBegin + chunkSize))
    have hr₁ := hr.trans (.arrays _ _ s.blocks (s.blockPos.set i (chunkBegin + chunkSize)))
    have hsound := hd₁.sound (⟨s.blockAt i, s.computeBlockBegin i, s.bit i⟩, s.computeBlockBegin i,
      s.computeBlockEnd i) (by
        show _ ∈ extents s.size _
        rw [Store.extents_old hend]
        exact List.mem_append_right _ List.mem_cons_self) b1 hb
    have hp := Store.Parts.of_partial hd₁ ⟨s.blockAt i, s.computeBlockBegin i, s.bit i⟩
      (chunkBegin + chunkSize) hsound hb (hturn.here hi).le
    obtain ⟨blocks, hstore, hbits, hblocks⟩ :=
      cutPart_store ((s.cutAt i (chunkBegin + chunkSize)).withStore
        (·.cutPartial b1 (chunkBegin + chunkSize))) i s.nextBlock
    have hmap := (s.cutAt i (chunkBegin + chunkSize)).toStore.cutPartial_map b1
      (chunkBegin + chunkSize)
    have hlen : i < ((s.cutAt i (chunkBegin + chunkSize)).withStore
        (·.cutPartial b1 (chunkBegin + chunkSize))).blocks.length := hmap.blocks ▸ hi
    have hlist' := listing_cut hi hturn.positions
      (s.layout_cutPart i (chunkBegin + chunkSize) b1 s.nextBlock) (fun j hj => by
        rw [setRightBlock_at _ hlen, if_neg hj, setRightBlock_bit, if_neg fun h => hj h.1]
        exact ⟨congrArg (·.getD j .emptyBlock) hmap.blocks, rfl⟩) newBlocks
      (((s.cutAt i (chunkBegin + chunkSize)).withStore
        (·.cutPartial b1 (chunkBegin + chunkSize))).leftBlock i b1 (s.computeBlockBegin i))
    rw [setRightBlock_at _ hlen, if_pos rfl, setRightBlock_bit,
      if_pos ⟨rfl, by exact h.bitmap_length ▸ hi⟩, leftBlock_eq] at hlist'
    refine ⟨?_, h.beside.trans (beside_cutPart _ _ _ _ _), ?_, ?_⟩
    · rw [hbits, hstore]
      exact h.bitmap_length.trans (hblocks.trans (congrArg List.length hmap.blocks)).symm
    · rw [leftBlock_eq, hlist', hstore]
      exact (hp.divided hend hd₁).arrays _ _
    · rw [leftBlock_eq, hlist', hstore]
      exact (hr₁.trans (hp.redivides hend (hturn.here hi) hlt hd₁)).trans (.arrays _ _ _ _)

-- The arrays are filled from place `i` on; the records of the partial blocks get their numbers.
structure Rebuilt (l : List NewBlock) (i : Nat) (s s' : State) : Prop where
  beside : Beside s s'
  size : s'.size = s.size
  nextBlock : s'.nextBlock = s.nextBlock
  nextRange : s'.nextRange = s.nextRange
  range : s'.range = s.range
  blocks : s'.blocks = s.blocks.take i ++ l.map NewBlock.block
  bitmap : s'.verifiedBitmap = s.verifiedBitmap.take i ++ l.map NewBlock.state
  record : ∀ b, (s'.block b).blockBegin = (s.block b).blockBegin ∧
    (s'.block b).blockEnd = (s.block b).blockEnd ∧ s'.ranges b = s.ranges b
  other : ∀ b : BlockId, (∀ new ∈ l, new.block ≠ .partialBlock b) → s'.block b = s.block b
  num : ∀ j new, l[j]? = some new → ∀ b : BlockId, new.block = .partialBlock b →
    (s'.block b).num = i + j

theorem take_set_succ {α : Type} {l : List α} {i : Nat} (h : i < l.length) (x : α) :
    (l.set i x).take (i + 1) = l.take i ++ [x] := by
  rw [List.take_add_one, List.take_set_of_le le_rfl, List.getElem?_set_self h]
  rfl

-- One turn fills place `i`.
theorem Rebuilt.cons {new : NewBlock} {l : List NewBlock} {s₁ : State} (hbeside : Beside s s₁)
    (hstore : s₁.size = s.size ∧ s₁.nextBlock = s.nextBlock ∧ s₁.nextRange = s.nextRange ∧
      s₁.range = s.range)
    (hb : s₁.blocks = s.blocks.set i new.block) (hi : i < s.blocks.length)
    (hv : s₁.verifiedBitmap = s.verifiedBitmap.set i new.state) (hi' : i < s.verifiedBitmap.length)
    (hrecord : ∀ b, (s₁.block b).blockBegin = (s.block b).blockBegin ∧
      (s₁.block b).blockEnd = (s.block b).blockEnd ∧ s₁.ranges b = s.ranges b)
    (hother : ∀ b : BlockId, new.block ≠ .partialBlock b → s₁.block b = s.block b)
    (hnum : ∀ b : BlockId, new.block = .partialBlock b → (s₁.block b).num = i)
    (hap : ∀ new' ∈ l, ∀ b : BlockId, new.block = .partialBlock b → new'.block ≠ .partialBlock b)
    (h : Rebuilt l (i + 1) s₁ s') : Rebuilt (new :: l) i s s' where
  beside := hbeside.trans h.beside
  size := h.size.trans hstore.1
  nextBlock := h.nextBlock.trans hstore.2.1
  nextRange := h.nextRange.trans hstore.2.2.1
  range := h.range.trans hstore.2.2.2
  blocks := by rw [h.blocks, hb, take_set_succ hi, List.append_assoc]; rfl
  bitmap := by rw [h.bitmap, hv, take_set_succ hi', List.append_assoc]; rfl
  record b := by
    obtain ⟨h₁, h₂, h₃⟩ := h.record b
    obtain ⟨h₁', h₂', h₃'⟩ := hrecord b
    exact ⟨h₁.trans h₁', h₂.trans h₂', h₃.trans h₃'⟩
  other b hn := (h.other b fun new' hnew => hn new' (List.mem_cons_of_mem _ hnew)).trans
    (hother b (hn new List.mem_cons_self))
  num j new' hj b hb := by
    cases j with
    | zero =>
      obtain rfl : new = new' := by simpa using hj
      rw [h.other b fun new' hnew => hap new' hnew b hb, hnum b hb]
      rfl
    | succ j =>
      rw [h.num j new' (by simpa using hj) b hb]
      omega

theorem rebuildFrom_rebuilt (l : List NewBlock) (s : State) (i : Nat)
    (hb : s.blocks.length = i + l.length) (hv : s.verifiedBitmap.length = i + l.length)
    (hap : l.Pairwise fun x y => ∀ b : BlockId, x.block = .partialBlock b →
      y.block ≠ .partialBlock b) : Rebuilt l i s (rebuildFrom s i l) := by
  induction l generalizing s i with
  | nil =>
    rw [List.length_nil, Nat.add_zero] at hb hv
    refine ⟨rfl, rfl, rfl, rfl, rfl, ?_, ?_, fun _ => ⟨rfl, rfl, rfl⟩, fun _ _ => rfl,
      fun j new hj => nomatch hj⟩
    · simp [rebuildFrom, ← hb]
    · simp [rebuildFrom, ← hv]
  | cons new l ih =>
    rw [List.length_cons] at hb hv
    obtain ⟨hnew, hap⟩ := List.pairwise_cons.mp hap
    unfold rebuildFrom
    dsimp only
    split
    · next b hblock =>
      refine @Rebuilt.cons s _ i new _ _ ?_ ?_ ?_ (by omega) ?_ (by omega)
        (fun b' => ?_) (fun b' hne => ?_) (fun b' hb' => ?_) hnew (ih _ _ ?_ ?_ hap)
      · exact rfl
      · exact ⟨rfl, rfl, rfl, rfl⟩
      · exact rfl
      · exact rfl
      · show ((Function.update _ _ _ : BlockId → Block) b').blockBegin = _ ∧
          ((Function.update _ _ _ : BlockId → Block) b').blockEnd = _ ∧
          ((Function.update _ _ _ : BlockId → Block) b').ranges = _
        rw [Function.update_apply]
        split
        · next e => exact e ▸ ⟨rfl, rfl, rfl⟩
        · exact ⟨rfl, rfl, rfl⟩
      · have hne' : b' ≠ b := fun e => hne (e ▸ hblock)
        exact Function.update_of_ne hne' _ _
      · cases hblock.symm.trans hb'
        show ((Function.update _ _ _ : BlockId → Block) b).num = i
        rw [Function.update_self]
      · exact List.length_set.trans (hb.trans (by omega))
      · exact (VB.length_set _ _ _).trans (hv.trans (by omega))
    · next hne =>
      refine @Rebuilt.cons s _ i new _ _ ?_ ?_ ?_ (by omega) ?_ (by omega)
        (fun _ => ?_) (fun _ _ => ?_) (fun b' hb' => absurd hb' (hne b')) hnew (ih _ _ ?_ ?_ hap)
      · exact rfl
      · exact ⟨rfl, rfl, rfl, rfl⟩
      · exact rfl
      · exact rfl
      · exact ⟨rfl, rfl, rfl⟩
      · exact rfl
      · exact List.length_set.trans (hb.trans (by omega))
      · exact (VB.length_set _ _ _).trans (hv.trans (by omega))

end State

theorem length_extents (size : Int) (l : List NewBlock) : (extents size l).length = l.length := by
  induction l with
  | nil => rfl
  | cons new l ih => rw [extents, List.length_cons, List.length_cons, ih]

theorem getElem?_extents (size : Int) (l : List NewBlock) (i : Nat) :
    (extents size l)[i]? = l[i]?.map fun new => (new, new.pos,
      if l.length = i + 1 then size else (l.map NewBlock.pos).getD (i + 1) 0) := by
  induction l generalizing i with
  | nil => rfl
  | cons new l ih =>
    cases i with
    | zero => cases l <;> simp [extents, listBegin]
    | succ i => simp [extents, ih]

namespace Store

variable {s s' : Store} {l l' : List NewBlock} {x : Int}

-- The byte at `x` was verified.
def Verified (s : Store) (x : Int) : Prop :=
  ∃ i < s.blocks.length, s.computeBlockBegin i ≤ x ∧ x < s.computeBlockEnd i ∧
    s.blockAt i = .verifiedBlock

-- The arrays of a store hold the blocks of a list.
structure Arrays (s : Store) (l : List NewBlock) : Prop where
  blocks : s.blocks = l.map NewBlock.block
  blockPos : s.blockPos = l.map NewBlock.pos

theorem Arrays.getElem? (h : s.Arrays l) {i : Nat} (hi : i < s.blocks.length) :
    ∃ new, l[i]? = some new ∧ new.block = s.blockAt i ∧
      (extents s.size l)[i]? = some (new, s.computeBlockBegin i, s.computeBlockEnd i) := by
  have hlen : s.blocks.length = l.length := by rw [h.blocks, List.length_map]
  have hi' : i < l.length := hlen ▸ hi
  refine ⟨l[i], List.getElem?_eq_getElem hi', ?_, ?_⟩
  · simp [blockAt, h.blocks, hi']
  · rw [getElem?_extents, List.getElem?_eq_getElem hi', Option.map_some, computeBlockBegin,
      computeBlockEnd, h.blockPos, List.length_map]
    simp [hi']

theorem Arrays.byteIn (h : s.Arrays l) (p : BlockV → Prop) (x : Int) :
    (∃ i < s.blocks.length, s.computeBlockBegin i ≤ x ∧ x < s.computeBlockEnd i ∧
      p (s.blockAt i)) ↔ ByteIn s.size l x fun new => p new.block := by
  have hlen : (extents s.size l).length = s.blocks.length := by
    rw [h.blocks, List.length_map, length_extents]
  constructor
  · rintro ⟨i, hi, h₁, h₂, h₃⟩
    obtain ⟨new, -, hb, he⟩ := h.getElem? hi
    exact ⟨_, List.mem_of_getElem? he, h₁, h₂, (congrArg p hb).mpr h₃⟩
  · rintro ⟨e, he, h₁, h₂, h₃⟩
    obtain ⟨i, hi, rfl⟩ := List.getElem_of_mem he
    have hi' := hlen ▸ hi
    obtain ⟨new, -, hb, he'⟩ := h.getElem? hi'
    rw [List.getElem?_eq_getElem hi, Option.some.injEq] at he'
    rw [he'] at h₁ h₂ h₃
    exact ⟨i, hi', h₁, h₂, (congrArg p hb).mp h₃⟩

theorem Arrays.current (h : s.Arrays l) (b : BlockId) :
    s.Current b ↔ ∃ new ∈ l, new.block = .partialBlock b := by
  constructor
  · rintro ⟨i, hi, hb⟩
    obtain ⟨new, hnew, hb', -⟩ := h.getElem? hi
    exact ⟨new, List.mem_of_getElem? hnew, hb'.trans hb⟩
  · rintro ⟨new, hnew, hb⟩
    obtain ⟨i, hi, rfl⟩ := List.getElem_of_mem hnew
    exact ⟨i, by rw [h.blocks, List.length_map]; exact hi, by simp [blockAt, h.blocks, hi, hb]⟩

theorem Arrays.kept (h : s.Arrays l) (r : RangeId) : s.Kept r ↔ s.KeptIn l r := by
  rw [Kept, KeptIn, h.current]

theorem Arrays.whole (h : s.Arrays l) :
    (∀ b, ¬ s.Current b) ↔ ∀ new ∈ l, IsWhole new.block := by
  simp only [h.current, IsWhole]
  constructor
  · exact fun hn new hnew b hb => hn b ⟨new, hnew, hb⟩
  · exact fun hw b ⟨new, hnew, hb⟩ => hw new hnew b hb

theorem Books.divided {c d : Prop} (h : Books c d s) (ha : s.Arrays l) : s.Divided l := by
  refine ⟨fun e he b hb => ?_, ?_, h.owned, h.owner_lt⟩
  · have hlen : (extents s.size l).length = s.blocks.length := by
      rw [ha.blocks, List.length_map, length_extents]
    obtain ⟨i, hi, rfl⟩ := List.getElem_of_mem he
    have hi' := hlen ▸ hi
    obtain ⟨new, -, hb', he'⟩ := ha.getElem? hi'
    rw [List.getElem?_eq_getElem hi, Option.some.injEq] at he'
    rw [he'] at hb ⊢
    exact (h.tidy i hi' b (hb' ▸ hb)).toSound
  · refine List.pairwise_iff_getElem.mpr fun i j hi hj hij b hbi hbj => ?_
    have hlen : s.blocks.length = l.length := by rw [ha.blocks, List.length_map]
    have hat : ∀ i (hi : i < l.length), s.blockAt i = l[i].block := fun i hi => by
      simp [blockAt, ha.blocks, hi]
    have := h.current_unique (hlen ▸ hi) (hlen ▸ hj) ((hat i hi).trans hbi) ((hat j hj).trans hbj)
    omega

-- Numbers and sums of the records have no part in the order of the ranges.
structure Renumbered (s s' : Store) : Prop where
  size : s'.size = s.size
  nextBlock : s'.nextBlock = s.nextBlock
  nextRange : s'.nextRange = s.nextRange
  range : s'.range = s.range
  record : ∀ b, (s'.block b).blockBegin = (s.block b).blockBegin ∧
    (s'.block b).blockEnd = (s.block b).blockEnd ∧ s'.ranges b = s.ranges b

theorem Renumbered.spans (h : Renumbered s s') (b : BlockId) :
    s'.spans (s'.ranges b) = s.spans (s.ranges b) := by
  rw [(h.record b).2.2]
  exact spans_congr fun r _ => by rw [h.range]

theorem Renumbered.divided (h : Renumbered s s') (hd : s.Divided l) : s'.Divided l where
  sound e he b hb := by
    rw [h.size] at he
    have hs := hd.sound e he b hb
    obtain ⟨h₁, h₂, h₃⟩ := h.record b
    refine ⟨h.nextBlock ▸ hs.lt, h₁.trans hs.blockBegin, h₂.trans hs.blockEnd, h₃ ▸ hs.ranges_ne,
      fun r hr => ?_, h.spans b ▸ hs.chain⟩
    rw [h.range, h.nextRange]
    exact hs.owned r (h₃ ▸ hr)
  apart := hd.apart
  owned b r hr := by
    rw [h.range, h.nextRange]
    exact hd.owned b r ((h.record b).2.2 ▸ hr)
  owner_lt r hr := by
    rw [h.range, h.nextBlock]
    exact hd.owner_lt r (h.nextRange ▸ hr)

theorem Renumbered.redivides (h : Renumbered s s') : Redivides s l s' l where
  size := h.size
  nextBlock := h.nextBlock.ge
  nextRange := h.nextRange.ge
  missing x := by
    have hin : ∀ v : BlockV, s'.MissingIn v x ↔ s.MissingIn v x := fun v => by
      cases v with
      | partialBlock b => exact (congrArg (Covers · x) (h.spans b)).to_iff
      | _ => exact Iff.rfl
    simp only [hin]
  verified _ := Iff.rfl
  states h := h
  whole h := h
  nuploading r _ := by rw [h.range]
  kept r _ hk := by
    unfold KeptIn Void at hk ⊢
    rwa [h.range, (h.record _).2.2]

end Store

namespace State

variable {s : State} {chunkSize : Int} {c d : Prop}

theorem arrays_listing (h : s.blockPos.length = s.blocks.length) :
    s.toStore.Arrays (s.listing 0 []) := by
  rw [listing, List.reverse_nil, List.nil_append]
  refine ⟨List.ext_getElem (by simp [pending]) fun j hj _ => ?_, (map_pos_pending h).symm⟩
  simp [pending, Store.blockAt, hj]

-- The blocks that split_blocks ends with.
structure Resplit (s s' : State) (l : List NewBlock) : Prop where
  beside : s' = { s with
    toStore := s'.toStore
    verifiedBitmap := s'.verifiedBitmap
    prioritiesBitmap := s'.prioritiesBitmap
    availability := s'.availability
    nuploading := List.replicate l.length 0 }
  arrays : s'.toStore.Arrays l
  bitmap : s'.verifiedBitmap = l.map NewBlock.state
  divided : s'.Divided l
  redivides : Store.Redivides s.toStore (s.listing 0 []) s'.toStore l
  num : ∀ i new, l[i]? = some new → ∀ b : BlockId, new.block = .partialBlock b →
    (s'.block b).num = i

theorem splitBlocks_resplit (hl : s.Laid) (hs : 0 < s.size) (hc : 0 < chunkSize)
    (hb : Store.Books c d s.toStore) (hbits : s.verifiedBitmap.length = s.blocks.length) :
    ∃ l, Resplit s (s.splitBlocks chunkSize) l := by
  have hplaced := hl.placed hs
  obtain ⟨hturn, hfuel⟩ := turn_start hplaced hs hc
  have hstart : Contents s s 0 [] :=
    ⟨hbits, rfl, hb.divided (arrays_listing hplaced.positions), .refl _ _⟩
  obtain ⟨s₁, newBlocks, heq, h⟩ := (walks_contents s chunkSize).splitIter hc hturn hfuel hstart
  have hlist : s₁.listing s₁.blocks.length newBlocks = newBlocks.reverse := by
    rw [listing, pending_end, List.append_nil]
  have hdivided := h.divided
  have hredivides := h.redivides
  rw [hlist] at hdivided hredivides
  unfold State.splitBlocks
  rw [heq]
  dsimp only
  generalize newBlocks.reverse = l at *
  generalize hs₂ : ({ s₁ with
    blocks := List.replicate l.length .emptyBlock
    verifiedBitmap := VB.create l.length .stateMissing
    prioritiesBitmap := List.replicate l.length PRIORITY_ZERO
    blockPos := List.replicate l.length 0
    availability := List.replicate l.length 0
    nuploading := List.replicate l.length 0 } : State) = s₂
  have hre : Rebuilt l 0 s₂ (rebuildFrom s₂ 0 l) := by
    refine rebuildFrom_rebuilt l s₂ 0 ?_ ?_ hdivided.apart
    · rw [← hs₂]
      simp
    · rw [← hs₂]
      simp [VB.create]
  have hpos : (rebuildFrom s₂ 0 l).blockPos = l.map NewBlock.pos := by
    refine (rebuildFrom_blockPos l s₂ 0 ?_).trans (by simp)
    rw [← hs₂]
    simp
  have hnum : Store.Renumbered s₁.toStore (rebuildFrom s₂ 0 l).toStore := by
    refine ⟨hre.size.trans ?_, hre.nextBlock.trans ?_, hre.nextRange.trans ?_, hre.range.trans ?_,
      fun b => ?_⟩
    · rw [← hs₂]
    · rw [← hs₂]
    · rw [← hs₂]
    · rw [← hs₂]
    · obtain ⟨h₁, h₂, h₃⟩ := hre.record b
      rw [h₁, h₂, h₃, ← hs₂]
      exact ⟨rfl, rfl, rfl⟩
  refine ⟨l, ?_, ⟨?_, hpos⟩, ?_, hnum.divided hdivided, hredivides.trans hnum.redivides,
    fun i new hi b hb => ?_⟩
  · let X := (rebuildFrom s₂ 0 l).swarmerRecomputePrioritiesBitmap
    have h₁ := congrArg (fun y : State =>
      { y with
        toStore := X.toStore
        verifiedBitmap := X.verifiedBitmap
        prioritiesBitmap := X.prioritiesBitmap
        availability := X.availability }) hre.beside
    have h₂ := congrArg (fun y : State =>
      { y with
        toStore := X.toStore
        verifiedBitmap := X.verifiedBitmap
        prioritiesBitmap := X.prioritiesBitmap
        availability := X.availability
        nuploading := List.replicate l.length 0 }) h.beside
    refine Eq.trans (b := _) h₁ (Eq.trans ?_ h₂)
    rw [← hs₂]
  · exact hre.blocks.trans (by simp)
  · exact hre.bitmap.trans (by simp)
  · exact (hre.num i new hi b hb).trans (Nat.zero_add i)

-- What a swarmer keeps when its blocks are split: all that is known of its bytes, and what its
-- uploaders hold.
structure Recut (s s' : State) : Prop where
  size : s'.size = s.size
  missing : ∀ x, s'.Missing x ↔ s.Missing x
  verified : ∀ x, s'.Verified x ↔ s.Verified x
  bitmap_length : s'.verifiedBitmap.length = s'.blocks.length
  agree : (∀ i, s.bit i = (s.blockAt i).state) → ∀ i, s'.bit i = (s'.blockAt i).state
  current : (∀ b, ¬ s.Current b) → ∀ b, ¬ s'.Current b
  books : ∀ {c d : Prop}, (c ∨ d → ∀ b, ¬ s.Current b) → Store.Books c d s'.toStore
  nextBlock : s.nextBlock ≤ s'.nextBlock
  nextRange : s.nextRange ≤ s'.nextRange
  rangeUploading : ∀ r < s.nextRange, (s'.range r).nuploading = (s.range r).nuploading
  kept : ∀ r < s.nextRange, s.Kept r → s'.Kept r
  uploaders : s'.uploaders = s.uploaders
  written : s'.written = s.written
  nuploading : s'.nuploading = List.replicate s'.blocks.length 0

theorem splitBlocks_recut (hl : s.Laid) (hs : 0 < s.size) (hc : 0 < chunkSize)
    (hb : Store.Books c d s.toStore) (hbits : s.verifiedBitmap.length = s.blocks.length) :
    Recut s (s.splitBlocks chunkSize) := by
  have hplaced := hl.placed hs
  have hl' := hl.splitBlocks hplaced.nonempty hc
  have hsize : (s.splitBlocks chunkSize).size = s.size :=
    (splitBlocks_spec hplaced.nonempty chunkSize).1.size
  have hplaced' := hl'.placed (hsize ▸ hs)
  obtain ⟨l, h⟩ := splitBlocks_resplit hl hs hc hb hbits
  generalize s.splitBlocks chunkSize = s' at h hplaced' hsize
  have hold := arrays_listing (s := s) hplaced.positions
  have hlen : s'.blocks.length = l.length := by rw [h.arrays.blocks, List.length_map]
  have hcurrent : (∀ b, ¬ s.Current b) → ∀ b, ¬ s'.Current b := fun hn =>
    h.arrays.whole.mpr (h.redivides.whole (hold.whole.mp hn))
  have huploaders : s'.uploaders = s.uploaders := (congrArg State.uploaders h.beside).trans rfl
  have hwritten : s'.written = s.written := (congrArg State.written h.beside).trans rfl
  have hnuploading : s'.nuploading = List.replicate l.length 0 :=
    (congrArg State.nuploading h.beside).trans rfl
  refine
  { size := h.redivides.size
    missing := fun x => ?_
    verified := fun x => ?_
    bitmap_length := ?_
    agree := fun hagree i => ?_
    current := hcurrent
    books := fun hno => ?_
    nextBlock := h.redivides.nextBlock
    nextRange := h.redivides.nextRange
    rangeUploading := h.redivides.nuploading
    kept := fun r hr hk => (h.arrays.kept r).mpr (h.redivides.kept r hr ((hold.kept r).mp hk))
    uploaders := huploaders
    written := hwritten
    nuploading := hlen ▸ hnuploading }
  · have h₁ := h.arrays.byteIn (fun v => s'.MissingIn v x) x
    have h₂ := hold.byteIn (fun v => s.MissingIn v x) x
    rw [h.redivides.size] at h₁
    exact h₁.trans ((h.redivides.missing x).trans h₂.symm)
  · have h₁ := h.arrays.byteIn (fun v => v = .verifiedBlock) x
    have h₂ := hold.byteIn (fun v => v = .verifiedBlock) x
    rw [h.redivides.size] at h₁
    exact h₁.trans ((h.redivides.verified x).trans h₂.symm)
  · rw [h.bitmap, List.length_map, hlen]
  · have hstates := h.redivides.states fun new hnew => by
      rw [listing, List.reverse_nil, List.nil_append, pending, List.mem_map] at hnew
      obtain ⟨j, -, rfl⟩ := hnew
      exact hagree j
    simp only [bit, VB.get, Store.blockAt, h.bitmap, h.arrays.blocks, List.getD_eq_getElem?_getD,
      List.getElem?_map]
    cases hi : l[i]? with
    | none => rfl
    | some new => exact hstates new (List.mem_of_getElem? hi)
  · refine ⟨hplaced', h.divided.owned, h.divided.owner_lt, fun i hi b hb => ?_⟩
    obtain ⟨new, hnew, hblock, he⟩ := h.arrays.getElem? hi
    have hnone := fun hcd => hcurrent (hno hcd) b ⟨i, hi, hb⟩
    exact ⟨h.divided.sound _ (List.mem_of_getElem? he) b (hblock.trans hb),
      h.num i new hnew b (hblock.trans hb), fun hc => (hnone (.inl hc)).elim,
      fun hd => (hnone (.inr hd)).elim⟩

-- What a swarmer keeps when a frontend is associated with it
structure Attached (file : File) (s s' : State) : Prop extends Recut s s' where
  files : s'.files =
    s.files ++ [if s.networks = [] then file else { file with downloaded := 0 }]

theorem associate_attached (hl : s.Laid) (hs : 0 < s.size) {t : Frontend} (ht : 0 < t.chunkSize)
    (hb : Store.Books c d s.toStore) (hbits : s.verifiedBitmap.length = s.blocks.length)
    (file : File) : Attached file s (s.associate t file) := by
  unfold State.associate
  extract_lets file' t' s₁ s₂
  have hl₁ : s₁.Laid := ⟨hl.placed, hl.single, hl.priorities⟩
  have h : Recut s₁ s₂ := splitBlocks_recut (s := s₁) hl₁ hs ht hb hbits
  obtain ⟨l, hresplit⟩ : ∃ l, Resplit s₁ s₂ l := splitBlocks_resplit (s := s₁) hl₁ hs ht hb hbits
  exact
  { size := h.size
    missing := h.missing
    verified := h.verified
    bitmap_length := h.bitmap_length
    agree := h.agree
    current := h.current
    books := h.books
    nextBlock := h.nextBlock
    nextRange := h.nextRange
    rangeUploading := h.rangeUploading
    kept := h.kept
    uploaders := h.uploaders
    written := h.written
    nuploading := h.nuploading
    files := (congrArg State.files hresplit.beside).trans rfl }

end State

end Mldonkey.Swarming
