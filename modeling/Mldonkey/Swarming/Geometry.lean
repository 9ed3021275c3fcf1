import Mldonkey.Swarming.Counters
import Mldonkey.Swarming.Walk

-- Where the blocks of a swarmer begin: at the multiples of its frontends' chunk sizes.
namespace Mldonkey.Swarming

open Effects

namespace State

variable {s s' : State} {chunkSize : Int} {i : Nat}

theorem map_pos_pending (h : s.blockPos.length = s.blocks.length) :
    (s.pending 0).map NewBlock.pos = s.blockPos := by
  refine List.ext_getElem (by simp [pending, h]) fun j hj _ => ?_
  simp only [pending, List.length_map, List.length_range', Nat.sub_zero] at hj
  simp [pending, Store.computeBlockBegin, show j < s.blockPos.length by omega]

-- The only multiple among the bytes of a chunk is the first one.
theorem eq_of_dvd {x y : Int} (hx : chunkSize ∣ x) (hy : chunkSize ∣ y) (hle : y ≤ x)
    (hlt : x < y + chunkSize) : x = y := by
  have := Int.eq_zero_of_dvd_of_nonneg_of_lt (by omega) (show x - y < chunkSize by omega)
    (dvd_sub hx hy)
  omega

-- What the walk has put, and what is left, begin where the old blocks do or at a multiple of the
-- chunk size; no multiple is passed over.
structure Positions (old : List Int) (chunkSize : Int) (s : State) (i : Nat)
    (newBlocks : List NewBlock) : Prop where
  kept : ∀ x ∈ old, x ∈ (s.listing i newBlocks).map NewBlock.pos
  only : ∀ x ∈ (s.listing i newBlocks).map NewBlock.pos, x ∈ old ∨ chunkSize ∣ x
  multiples : ∀ x, 0 ≤ x → chunkSize ∣ x → x < listBegin s.size (s.pending i) →
    x ∈ newBlocks.map NewBlock.pos

section Positions

variable {old : List Int} {chunkBegin : Int} {newBlocks : List NewBlock}

-- The multiples up to a point in the chunk of block `i`
theorem Positions.multiples_cons (h : Positions old chunkSize s i newBlocks)
    (hturn : Turn chunkSize s i chunkBegin newBlocks) (hi : i < s.blocks.length) {x : Int}
    (hx : 0 ≤ x) (hdvd : chunkSize ∣ x) (hlt : x < chunkBegin + chunkSize) {new : NewBlock}
    (hnew : new.pos = s.computeBlockBegin i) : x ∈ (new :: newBlocks).map NewBlock.pos := by
  have hbegin : listBegin s.size (s.pending i) = s.computeBlockBegin i := by
    rw [pending_cons hi]
    rfl
  rw [List.map_cons, List.mem_cons, hnew]
  by_cases hle : x < s.computeBlockBegin i
  · exact .inr (h.multiples x hx hdvd (hbegin ▸ hle))
  · have hin := hturn.inChunk hi
    have := eq_of_dvd hdvd (hturn.multiple hi) (by omega) hlt
    exact .inl (by omega)

theorem Positions.cut (h : Positions old chunkSize s i newBlocks)
    (hturn : Turn chunkSize s i chunkBegin newBlocks) (hi : i < s.blocks.length)
    (hs : s'.layout = (s.size, s.blockPos.set i (chunkBegin + chunkSize), s.blocks.length))
    (hother : ∀ j, j ≠ i → s'.blockAt j = s.blockAt j ∧ s'.bit j = s.bit j) {new : NewBlock}
    (hnew : new.pos = s.computeBlockBegin i) :
    Positions old chunkSize s' i (new :: newBlocks) := by
  have hsize : s'.size = s.size := congrArg (·.1) hs
  have hblocks : s'.blocks.length = s.blocks.length := congrArg (·.2.2) hs
  have hlist : (s'.listing i (new :: newBlocks)).map NewBlock.pos =
      newBlocks.reverse.map NewBlock.pos ++ s.computeBlockBegin i :: (chunkBegin + chunkSize) ::
        (s.pending (i + 1)).map NewBlock.pos := by
    rw [listing_cut hi hturn.positions hs hother, List.map_append, List.map_cons, List.map_cons,
      hnew]
  have hold : (s.listing i newBlocks).map NewBlock.pos = newBlocks.reverse.map NewBlock.pos ++
      s.computeBlockBegin i :: (s.pending (i + 1)).map NewBlock.pos := by
    rw [listing_split hi, List.map_append, List.map_cons]
  refine ⟨fun x hx => ?_, fun x hx => ?_, fun x hx hdvd hlt => ?_⟩
  · have := h.kept x hx
    rw [hold] at this
    rw [hlist]
    simp only [List.mem_append, List.mem_cons] at this ⊢
    tauto
  · rw [hlist] at hx
    simp only [List.mem_append, List.mem_cons] at hx
    by_cases hcut : x = chunkBegin + chunkSize
    · exact .inr (hcut ▸ (hturn.multiple hi).add (dvd_refl chunkSize))
    · refine h.only x ?_
      rw [hold]
      simp only [List.mem_append, List.mem_cons]
      tauto
  · refine h.multiples_cons hturn hi hx hdvd ?_ hnew
    have hpos : s'.blockPos = s.blockPos.set i (chunkBegin + chunkSize) := congrArg (·.2.1) hs
    have hhere : s'.computeBlockBegin i = chunkBegin + chunkSize := by
      rw [Store.computeBlockBegin, hpos,
        List.getD_eq_getElem _ _ (by rw [List.length_set, hturn.positions]; exact hi),
        List.getElem_set_self]
    rw [pending_cons (hblocks ▸ hi)] at hlt
    exact hhere ▸ hlt

theorem walks_positions (old : List Int) (chunkSize : Int) :
    Walks chunkSize (Positions old chunkSize) where
  pass {s i chunkBegin newBlocks} hturn hi hend h := by
    refine ⟨?_, ?_, fun x hx hdvd hlt => ?_⟩
    · rw [listing_pass hi]
      exact h.kept
    · rw [listing_pass hi]
      exact h.only
    · rw [listBegin_pending hturn.positions hi] at hlt
      exact h.multiples_cons hturn hi hx hdvd (by omega) rfl
  whole hturn hi _ _ h :=
    h.cut hturn hi (layout_cutAt _ _ _) (fun _ _ => ⟨rfl, rfl⟩) rfl
  part {s i chunkBegin newBlocks b1} hturn hi _ _ h := by
    have hmap := (s.cutAt i (chunkBegin + chunkSize)).toStore.cutPartial_map b1
      (chunkBegin + chunkSize)
    refine h.cut hturn hi (layout_cutPart _ _ _ _ _) (fun j hj => ⟨?_, ?_⟩) (pos_leftBlock _ _ _ _)
    · rw [setRightBlock_at _ (by exact hmap.blocks ▸ hi), if_neg hj]
      exact congrArg (·.getD j .emptyBlock) hmap.blocks
    · rw [setRightBlock_bit, if_neg fun h => hj h.1]
      rfl

end Positions

theorem blockPos_splitBlocks (s : State) (chunkSize : Int) :
    (s.splitBlocks chunkSize).blockPos = (splitIter chunkSize
      (s.blocks.length + (s.size.tdiv chunkSize).toNat + 1) s 0 0 []).2.map NewBlock.pos := by
  unfold State.splitBlocks
  generalize State.splitIter chunkSize _ s 0 0 [] = split
  refine (rebuildFrom_blockPos _ _ 0 ?_).trans ?_
  · simp
  · simp

-- The walk begins at the first block, with fuel for every block and every chunk.
theorem turn_start (h : s.Placed) (hs : 0 < s.size) (hc : 0 < chunkSize) :
    Turn chunkSize s 0 0 [] ∧ (s.blocks.length - 0) + ((s.size - 1 - 0) / chunkSize).toNat + 1 ≤
      s.blocks.length + (s.size.tdiv chunkSize).toNat + 1 := by
  have hcuts : Cuts chunkSize s 0 0 [] :=
    { le := Nat.zero_le _
      positions := h.positions
      lt := fun j _ hj => ⟨h.lt hs j hj, h.end_le_size hj⟩
      here := fun _ => by rw [h.first]; omega
      sorted := .nil
      below := fun _ hnew => by cases hnew
      first := by rw [h.first]; rfl }
  refine ⟨⟨hcuts, fun _ => h.first.ge, fun _ => dvd_zero _⟩, ?_⟩
  · rw [Int.tdiv_eq_ediv_of_nonneg hs.le]
    have := Int.ediv_le_ediv hc (show s.size - 1 - 0 ≤ s.size by omega)
    omega

-- Splitting the blocks adds the multiples of the chunk size.
theorem mem_splitBlocks (h : s.Laid) (hne : 0 < s.blocks.length) (hs : 0 < s.size)
    (hc : 0 < chunkSize) (x : Int) : x ∈ (s.splitBlocks chunkSize).blockPos ↔
      x ∈ s.blockPos ∨ 0 ≤ x ∧ x < s.size ∧ chunkSize ∣ x := by
  have hplaced := h.placed hs
  obtain ⟨hturn, hfuel⟩ := turn_start hplaced hs hc
  have hstart : Positions s.blockPos chunkSize s 0 [] := by
    have hmap : (s.listing 0 []).map NewBlock.pos = s.blockPos := by
      rw [listing, List.reverse_nil, List.nil_append, map_pos_pending hplaced.positions]
    refine ⟨fun x hx => hmap ▸ hx, fun x hx => .inl (hmap ▸ hx), fun x hx _ hlt => ?_⟩
    rw [pending_cons hplaced.nonempty] at hlt
    have hbegin := hplaced.first
    exact absurd (show x < s.computeBlockBegin 0 from hlt) (by omega)
  obtain ⟨s', newBlocks, heq, hQ⟩ := (walks_positions s.blockPos chunkSize).splitIter hc hturn hfuel
    hstart
  have hlist : s'.listing s'.blocks.length newBlocks = newBlocks.reverse := by
    rw [listing, pending_end, List.append_nil]
  have hsize : s'.size = s.size := by
    have := (splitIter_spec chunkSize (s.blocks.length + (s.size.tdiv chunkSize).toNat + 1) s 0 0
      []).1.size
    rwa [heq] at this
  have hpos : (s.splitBlocks chunkSize).blockPos = newBlocks.reverse.map NewBlock.pos := by
    rw [blockPos_splitBlocks, heq]
  have hlaid := (h.splitBlocks hne hc).placed ((splitBlocks_spec hne chunkSize).1.size ▸ hs)
  have hbounds : ∀ x ∈ (s.splitBlocks chunkSize).blockPos, 0 ≤ x ∧ x < s.size := by
    intro x hx
    obtain ⟨j, hj, rfl⟩ := List.getElem_of_mem hx
    have hj' := hlaid.positions ▸ hj
    have h₁ := hlaid.begin_nonneg hj'
    have h₂ := hlaid.lt ((splitBlocks_spec hne chunkSize).1.size ▸ hs) j hj'
    have h₃ := hlaid.end_le_size hj'
    rw [(splitBlocks_spec hne chunkSize).1.size] at h₃
    rw [Store.computeBlockBegin, List.getD_eq_getElem _ _ hj] at h₁ h₂
    omega
  have hpositions := hQ.kept
  have honly := hQ.only
  have hmultiples := hQ.multiples
  rw [hlist, ← hpos] at hpositions honly
  rw [pending_end, hsize] at hmultiples
  refine ⟨fun hx => ?_, fun hx => ?_⟩
  · have := hbounds x hx
    exact (honly x hx).imp_right fun hdvd => ⟨this.1, this.2, hdvd⟩
  · rcases hx with hx | ⟨h₀, hlt, hdvd⟩
    · exact hpositions x hx
    · rw [hpos, List.map_reverse, List.mem_reverse]
      exact hmultiples x h₀ hdvd hlt

-- The blocks begin at the first byte and at the multiples of the frontends' chunk sizes.
def Regular (s : State) : Prop :=
  0 < s.size → ∀ x, x ∈ s.blockPos ↔ 0 ≤ x ∧ x < s.size ∧
    (x = 0 ∨ ∃ c ∈ s.networks.map Frontend.chunkSize, c ∣ x)

theorem Regular.congr (h : s.Regular) (ht : s'.tables = s.tables) : s'.Regular := by
  have hsize : s'.size = s.size := congrArg (·.1.1) ht
  have hpos : s'.blockPos = s.blockPos := congrArg (·.1.2.1) ht
  have hnet : s'.networks.map Frontend.tables = s.networks.map Frontend.tables :=
    congrArg (·.2.2) ht
  have hchunks : s'.networks.map Frontend.chunkSize = s.networks.map Frontend.chunkSize := by
    simpa [Frontend.tables, Function.comp_def] using congrArg (List.map (·.1)) hnet
  unfold Regular
  rw [hsize, hpos, hchunks]
  exact h

theorem Regular.associate (h : s.Regular) (hl : s.Laid) (hne : 0 < s.blocks.length) {t : Frontend}
    (ht : 0 < t.chunkSize) (file : File) : (s.associate t file).Regular := by
  obtain ⟨hsize, hchunks⟩ := associate_spec hne t file
  intro hs x
  rw [hsize] at hs ⊢
  rw [hchunks]
  unfold State.associate
  extract_lets file t' s₁ s₂
  have hl₁ : s₁.Laid := ⟨hl.placed, hl.single, hl.priorities⟩
  have hmem : x ∈ s₂.blockPos ↔ x ∈ s.blockPos ∨ 0 ≤ x ∧ x < s.size ∧ t.chunkSize ∣ x :=
    mem_splitBlocks hl₁ hne hs ht x
  show x ∈ s₂.blockPos ↔ _
  rw [hmem, h hs x]
  simp only [List.mem_append, List.mem_singleton, or_and_right, exists_or, exists_eq_left]
  rw [← and_or_left, ← and_or_left, or_assoc]

theorem Regular.reachable {verifiers : Verifier → Prop} {ok : State → Op → Prop}
    (h : Reachable verifiers ok s) : s.Regular := by
  refine Runs.Reach.inv_of (J := fun s => Mapped s ∧ s.Laid)
    (fun s hs => ⟨Mapped.reachable hs, Laid.reachable hs⟩) (fun s hs => ?_)
    (fun s op hj hs hop => ?_) h
  · obtain ⟨size, t, file, ht, -, rfl⟩ := hs.associated
    have hstart : (createSwarmer size).Regular := by
      intro hs x
      simp only [createSwarmer, swarmerRecomputePrioritiesBitmap, List.mem_singleton,
        List.map_nil, List.not_mem_nil, false_and, exists_false, or_false]
      have hs' : (0 : Int) < size := hs
      omega
    exact hstart.associate (laid_createSwarmer size) Nat.one_pos ht.chunkSize file
  · rcases hj.1.tabled hop.1 with heq | ⟨t, file, ht, heq⟩
    · exact hs.congr heq
    · rw [heq]
      exact hs.associate hj.2 hj.1.nonempty ht.chunkSize file

-- No chunk of a frontend begins inside of a block.
def Cut (s : State) : Prop :=
  0 < s.size → ∀ x, 0 ≤ x → x < s.size → (∃ t ∈ s.networks, t.chunkSize ∣ x) → x ∈ s.blockPos

theorem Regular.cut (h : s.Regular) : s.Cut := by
  rintro hs x h₀ hx ⟨t, ht, hdvd⟩
  exact (h hs x).mpr ⟨h₀, hx, .inr ⟨_, List.mem_map_of_mem ht, hdvd⟩⟩

-- A swarmer has a frontend, so its blocks begin at multiples of chunk sizes alone.
theorem Regular.mem_blockPos (h : s.Regular) (hs : 0 < s.size) (hn : 0 < s.networks.length)
    (x : Int) : x ∈ s.blockPos ↔ 0 ≤ x ∧ x < s.size ∧ ∃ t ∈ s.networks, t.chunkSize ∣ x := by
  rw [h hs]
  have hex : (∃ c ∈ s.networks.map Frontend.chunkSize, c ∣ x) ↔
      ∃ t ∈ s.networks, t.chunkSize ∣ x := by simp
  rw [hex]
  refine and_congr_right fun _ => and_congr_right fun _ => ⟨fun hx => ?_, .inr⟩
  rcases hx with rfl | hx
  · exact ⟨_, List.getElem_mem hn, dvd_zero _⟩
  · exact hx

end State

-- The blocks of a swarmer lie in its frontends' chunks.
structure Shaped (s : State) : Prop where
  mapped : Mapped s
  laid : s.Laid
  chunked : s.Chunked
  cut : s.Cut

theorem Shaped.reachable {verifiers : Verifier → Prop} {ok : State → Op → Prop} {s : State}
    (h : Reachable verifiers ok s) : Shaped s :=
  ⟨.reachable h, .reachable h, .reachable h, (State.Regular.reachable h).cut⟩

namespace Shaped

variable {s : State} {t : Frontend} {i j : Nat}

theorem chunkOfBlock_eq (h : Shaped s) (ht : t ∈ s.networks) :
    t.chunkOfBlock = (List.range s.blocks.length).map fun i =>
      ((s.computeBlockBegin i).tdiv t.chunkSize).toNat :=
  (congrArg (·.2.2.2.1) (h.mapped.maps t ht)).symm

theorem blocksOfChunk_eq (h : Shaped s) (ht : t ∈ s.networks) :
    t.blocksOfChunk = (List.range t.convertedVerifiedBitmap.length).map fun j =>
      ((List.range s.blocks.length).filter fun i =>
        ((s.computeBlockBegin i).tdiv t.chunkSize).toNat = j).reverse :=
  (congrArg (·.2.2.1) (h.mapped.maps t ht)).symm

theorem chunkNum_eq (h : Shaped s) (ht : t ∈ s.networks) (hi : i < s.blocks.length) :
    0 ≤ s.computeBlockBegin i ∧ (t.chunkNum i : Int) = s.computeBlockBegin i / t.chunkSize := by
  have hb : 0 ≤ s.computeBlockBegin i := by
    rcases lt_or_ge 0 s.size with hs | hs
    · exact (h.laid.placed hs).begin_nonneg hi
    · rw [Store.computeBlockBegin, (h.laid.single hs).1]
      cases i <;> exact le_rfl
  refine ⟨hb, ?_⟩
  rw [Frontend.chunkNum, h.chunkOfBlock_eq ht, List.getD_eq_getElem?_getD, List.getElem?_map,
    List.getElem?_range hi, Option.map_some, Option.getD_some,
    Int.toNat_of_nonneg (Int.tdiv_nonneg hb (h.chunked t ht).1.le),
    Int.tdiv_eq_ediv_of_nonneg hb]

theorem mem_blockNums (h : Shaped s) (ht : t ∈ s.networks) :
    i ∈ t.blockNums j ↔ i < s.blocks.length ∧ t.chunkNum i = j := by
  have hlt := State.ranges_of_mapped h.mapped h.laid h.chunked t ht
  have hnum : ∀ i < s.blocks.length,
      t.chunkNum i = ((s.computeBlockBegin i).tdiv t.chunkSize).toNat := fun i hi => by
    rw [Frontend.chunkNum, h.chunkOfBlock_eq ht, List.getD_eq_getElem?_getD, List.getElem?_map,
      List.getElem?_range hi]
    rfl
  rw [Frontend.blockNums, h.blocksOfChunk_eq ht, List.getD_eq_getElem?_getD,
    List.getElem?_map]
  by_cases hj : j < t.convertedVerifiedBitmap.length
  · rw [List.getElem?_range hj, Option.map_some, Option.getD_some, List.mem_reverse,
      List.mem_filter, List.mem_range, decide_eq_true_eq]
    exact and_congr_right fun hi => by rw [hnum i hi]
  · rw [List.getElem?_eq_none (by simpa using hj)]
    exact iff_of_false (by simp) fun hi => hj (hi.2 ▸ hlt i)

-- A block lies in one chunk of each frontend.
theorem within (h : Shaped s) (ht : t ∈ s.networks) (hi : i < s.blocks.length) :
    t.chunkSize * t.chunkNum i ≤ s.computeBlockBegin i ∧
      s.computeBlockEnd i ≤ t.chunkSize * (t.chunkNum i + 1) := by
  obtain ⟨hb, hnum⟩ := h.chunkNum_eq ht hi
  have hc := (h.chunked t ht).1
  have hlow := Int.mul_ediv_self_le (x := s.computeBlockBegin i) hc.ne'
  have hhigh := Int.lt_mul_ediv_self_add (x := s.computeBlockBegin i) hc
  rw [hnum]
  refine ⟨hlow, ?_⟩
  rcases lt_or_ge 0 s.size with hs | hs
  · have hplaced := h.laid.placed hs
    by_contra hlt
    -- the next multiple would be inside of the block
    have hend := hplaced.end_le_size hi
    have hmul : t.chunkSize * (s.computeBlockBegin i / t.chunkSize + 1) ∈ s.blockPos := by
      exact h.cut hs _ (by rw [mul_add]; omega) (by omega) ⟨t, ht, Int.dvd_mul_right _ _⟩
    obtain ⟨k, hk, heq⟩ := List.getElem_of_mem hmul
    have hk' := hplaced.positions ▸ hk
    have hbegin : s.computeBlockBegin k =
        t.chunkSize * (s.computeBlockBegin i / t.chunkSize + 1) := by
      rw [Store.computeBlockBegin, List.getD_eq_getElem _ _ hk, heq]
    have := hplaced.lt hs k hk'
    rw [mul_add] at hlt hbegin
    have := hplaced.unique hi hk' (x := s.computeBlockBegin k) (by omega) (by omega)
    subst this
    omega
  · have hzero : s.computeBlockBegin i = 0 ∧ s.computeBlockEnd i ≤ 0 := by
      obtain ⟨hpos, hone⟩ := h.laid.single hs
      obtain rfl : i = 0 := by omega
      exact ⟨by rw [Store.computeBlockBegin, hpos]; rfl,
        by rw [Store.computeBlockEnd, hpos]; exact hs⟩
    rw [hzero.1, Int.zero_ediv]
    omega

-- The two tables of a frontend are inverse to each other, and no chunk is without a block.
theorem tabled (h : Shaped s) (ht : t ∈ s.networks) : t.Tabled s.blocks.length where
  chunkNum_lt i _ := State.ranges_of_mapped h.mapped h.laid h.chunked t ht i
  mem_blockNums i j := h.mem_blockNums ht
  exists_block j hj := by
    have hc := (h.chunked t ht).1
    rcases lt_or_ge 0 s.size with hs | hs
    · have hplaced := h.laid.placed hs
      rw [h.mapped.chunks t ht, Int.tdiv_eq_ediv_of_nonneg (by omega)] at hj
      have hle : t.chunkSize * j ≤ s.size - 1 :=
        (mul_comm _ _).trans_le ((Int.le_ediv_iff_mul_le hc).mp (by omega))
      have hmul : t.chunkSize * j ∈ s.blockPos := by
        exact h.cut hs _ (by positivity) (by omega) ⟨t, ht, Int.dvd_mul_right _ _⟩
      obtain ⟨i, hi, heq⟩ := List.getElem_of_mem hmul
      have hi' := hplaced.positions ▸ hi
      have hbegin : s.computeBlockBegin i = t.chunkSize * j := by
        rw [Store.computeBlockBegin, List.getD_eq_getElem _ _ hi, heq]
      refine ⟨i, hi', ?_⟩
      have hnum := (h.chunkNum_eq ht hi').2
      rw [hbegin, Int.mul_ediv_cancel_left _ hc.ne'] at hnum
      exact_mod_cast hnum
    · rw [h.mapped.chunks t ht] at hj
      have hq : (s.size - 1).tdiv t.chunkSize ≤ 0 := by
        rw [show s.size - 1 = -(1 - s.size) by ring, Int.neg_tdiv]
        have := Int.tdiv_nonneg (a := 1 - s.size) (by omega) hc.le
        omega
      obtain rfl : j = 0 := by omega
      refine ⟨0, h.mapped.nonempty, ?_⟩
      have hbegin : s.computeBlockBegin 0 = 0 := by
        rw [Store.computeBlockBegin, (h.laid.single hs).1]
        rfl
      have hnum := (h.chunkNum_eq ht h.mapped.nonempty).2
      rw [hbegin, Int.zero_ediv] at hnum
      exact_mod_cast hnum
  nodup j := by
    rw [Frontend.blockNums, h.blocksOfChunk_eq ht, List.getD_eq_getElem?_getD,
      List.getElem?_map]
    by_cases hj : j < t.convertedVerifiedBitmap.length
    · rw [List.getElem?_range hj, Option.map_some, Option.getD_some, List.nodup_reverse]
      exact List.nodup_range.filter _
    · rw [List.getElem?_eq_none (by simpa using hj)]
      exact List.nodup_nil

theorem pairwise_blockPos (h : Shaped s) : s.blockPos.Pairwise (· < ·) := by
  rcases lt_or_ge 0 s.size with hsize | hsize
  · have hplaced := h.laid.placed hsize
    refine List.pairwise_iff_getElem.mpr fun i j hi hj hij => ?_
    have hlen := h.mapped.positions
    have hlt := hplaced.lt hsize i (hlen ▸ hi)
    have hle := hplaced.end_le_begin hij (hlen ▸ hj)
    rw [Store.computeBlockBegin, List.getD_eq_getElem _ _ hi] at hlt
    rw [Store.computeBlockBegin, List.getD_eq_getElem _ _ hj] at hle
    omega
  · rw [(h.laid.single hsize).1]
    exact List.pairwise_singleton _ _

end Shaped

theorem networks_pos {verifiers : Verifier → Prop} {ok : State → Op → Prop} {s : State}
    (h : Reachable verifiers ok s) : 0 < s.networks.length := by
  have hassociate : ∀ {s : State} (t : Frontend) (file : File), 0 < s.blocks.length →
      0 < (s.associate t file).networks.length := fun t file hpos => by
    rw [State.networks_associate hpos]
    simp
  refine Runs.Reach.inv_of (I := fun s => 0 < s.networks.length) (fun s hs => Mapped.reachable hs)
    (fun s hs => ?_) (fun s op hm hs hop => ?_) h
  · obtain ⟨size, t, file, -, -, rfl⟩ := hs.associated
    exact hassociate (s := createSwarmer size) t file Nat.one_pos
  · rcases hm.tabled hop.1 with heq | ⟨t, file, -, heq⟩
    · have hnet := congrArg List.length (congrArg (·.2.2) heq)
      simp only [State.tables, List.length_map] at hnet
      exact hnet ▸ hs
    · rw [heq]
      exact hassociate t file hm.nonempty

-- However frontends are attached and whatever is done to the swarmer in between, its blocks begin
-- one after another exactly at the multiples of the chunk sizes; each lies in one chunk of each
-- frontend, which knows the blocks of its chunks.
theorem blocks_at_multiples {verifiers : Verifier → Prop} {ok : State → Op → Prop} {s : State}
    (hs : Reachable verifiers ok s) :
    s.blockPos.Pairwise (· < ·) ∧ s.blockPos.length = s.blocks.length ∧
    (0 < s.size → ∀ x, x ∈ s.blockPos ↔
      0 ≤ x ∧ x < s.size ∧ ∃ t ∈ s.networks, t.chunkSize ∣ x) ∧
    ∀ t ∈ s.networks, t.Tabled s.blocks.length ∧ ∀ i < s.blocks.length,
      t.chunkSize * t.chunkNum i ≤ s.computeBlockBegin i ∧
        s.computeBlockEnd i ≤ t.chunkSize * (t.chunkNum i + 1) := by
  have h := Shaped.reachable hs
  exact ⟨h.pairwise_blockPos, h.mapped.positions, fun hsize x =>
    (State.Regular.reachable hs).mem_blockPos hsize (networks_pos hs) x,
    fun t ht => ⟨h.tabled ht, fun i hi => h.within ht hi⟩⟩

-- A file of ten bytes with chunks of four bytes gets a frontend with chunks of three.
theorem blocks_at_multiples_ten : ∃ s : State, s.blockPos = [0, 3, 4, 6, 8, 9] ∧
    ∀ x, x ∈ s.blockPos ↔ 0 ≤ x ∧ x < s.size ∧ ∃ t ∈ s.networks, t.chunkSize ∣ x := by
  obtain ⟨s, hs⟩ : ∃ s, create (createSwarmer 10) 10 4 .forceVerification .fileDownloading = .ok s :=
    ⟨_, rfl⟩
  have hreach : Reachable (fun _ => True) (fun _ _ => True)
      (Op.next (.merge ⟨10, 3, .noVerification, 0, 0, 0, .fileDownloading, 1⟩) s) :=
    .step (.start ⟨_, _, _, _, trivial, hs⟩) ⟨trivial, trivial⟩
  have hpos : 0 < (Op.next (.merge ⟨10, 3, .noVerification, 0, 0, 0, .fileDownloading, 1⟩) s).size := by
    cases hs
    decide
  refine ⟨_, ?_, (blocks_at_multiples hreach).2.2.1 hpos⟩
  cases hs
  decide

end Mldonkey.Swarming
