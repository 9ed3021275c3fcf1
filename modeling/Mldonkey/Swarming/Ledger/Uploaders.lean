import Mldonkey.Lib.Counting
import Mldonkey.Swarming.Ledger.Verify

namespace Mldonkey.Swarming

open Effects HalfOpen Counting

namespace Store

variable {c d : Prop} {s s' s'' : Store} {b : BlockId} {r : RangeId} {i : Nat}

-- Only how many uploaders selected the ranges differs, and the sums over that.
structure Recounts (s s' : Store) : Prop where
  layout : s'.layout = s.layout
  blocks : s'.blocks = s.blocks
  nextBlock : s'.nextBlock = s.nextBlock
  nextRange : s'.nextRange = s.nextRange
  num : ∀ b, (s'.block b).num = (s.block b).num
  ranges : ∀ b, s'.ranges b = s.ranges b
  owner : ∀ r, (s'.range r).block = (s.range r).block
  span : ∀ r, (s'.range r).span = (s.range r).span

theorem Recounts.refl (s : Store) : Recounts s s :=
  ⟨rfl, rfl, rfl, rfl, fun _ => rfl, fun _ => rfl, fun _ => rfl, fun _ => rfl⟩

theorem Recounts.trans (h : Recounts s s') (h' : Recounts s' s'') : Recounts s s'' :=
  ⟨h'.layout.trans h.layout, h'.blocks.trans h.blocks, h'.nextBlock.trans h.nextBlock,
    h'.nextRange.trans h.nextRange, fun b => (h'.num b).trans (h.num b),
    fun b => (h'.ranges b).trans (h.ranges b), fun r => (h'.owner r).trans (h.owner r),
    fun r => (h'.span r).trans (h.span r)⟩

namespace Recounts

variable (h : Recounts s s')

include h

theorem blockAt (i : Nat) : s'.blockAt i = s.blockAt i := by simp only [Store.blockAt, h.blocks]

theorem rangeBegin (r : RangeId) : (s'.range r).rangeBegin = (s.range r).rangeBegin :=
  congrArg Prod.fst (h.span r)

theorem rangeEnd (r : RangeId) : (s'.range r).rangeEnd = (s.range r).rangeEnd :=
  congrArg Prod.snd (h.span r)

theorem current (b : BlockId) : s'.Current b ↔ s.Current b := by
  simp only [Current, h.blockAt, h.blocks]

theorem void (r : RangeId) : s'.Void r ↔ s.Void r := by
  unfold Store.Void
  rw [h.rangeBegin, h.rangeEnd]

theorem kept (r : RangeId) : s'.Kept r ↔ s.Kept r := by
  unfold Store.Kept
  rw [h.void, h.owner, h.current, h.ranges]

theorem held (r : RangeId) : s'.Held r ↔ s.Held r := by
  unfold Store.Held
  rw [h.void, h.owner, h.current]

theorem chosen (b : BlockId) : s'.Chosen b ↔ s.Chosen b := by
  unfold Store.Chosen
  simp only [h.current, h.ranges, h.void]

theorem spans (l : List RangeId) : s'.spans l = s.spans l :=
  List.map_congr_left fun r _ => h.span r

theorem missing (y : Int) : s'.Missing y ↔ s.Missing y := by
  simp only [Missing, h.blockAt, h.blocks, computeBlockBegin_congr h.layout,
    computeBlockEnd_congr h.layout]
  refine exists_congr fun j => and_congr_right fun _ => and_congr_right fun _ =>
    and_congr_right fun _ => ?_
  unfold MissingIn
  split
  · rfl
  · rw [h.ranges, h.spans]
  · rfl
  · rfl

end Recounts

theorem modifyBlock_recounts (s : Store) (b : BlockId) {f : Block → Block}
    (hf : ∀ x, (f x).num = x.num ∧ (f x).ranges = x.ranges) : Recounts s (s.modifyBlock b f) := by
  refine ⟨rfl, rfl, rfl, rfl, fun b' => ?_, fun b' => ?_, fun _ => rfl, fun _ => rfl⟩
  · rw [block_modifyBlock]
    split
    · next e => rw [(hf _).1, e]
    · rfl
  · rw [Store.ranges, block_modifyBlock]
    split
    · next e => rw [(hf _).2, e]; rfl
    · rfl

theorem modifyRange_recounts {g : Range → Range} (hg : (g (s.range r)).block = (s.range r).block ∧
    (g (s.range r)).span = (s.range r).span) : Recounts s (s.modifyRange r g) := by
  refine ⟨rfl, rfl, rfl, rfl, fun _ => rfl, fun _ => rfl, fun r' => ?_, fun r' => ?_⟩
  · rw [range_modifyRange]
    split
    · next e => rw [e]; exact hg.1
    · rfl
  · rw [range_modifyRange]
    split
    · next e => rw [e]; exact hg.2
    · rfl

theorem addUploader_recounts (s : Store) (r : RangeId) : Recounts s (s.addUploader r) := by
  simp only [addUploader]
  split
  · have h : Recounts s (s.modifyBlock (s.range r).block fun x =>
        { x with unselectedRemaining := x.unselectedRemaining - s.computeRangeSize r }) :=
      s.modifyBlock_recounts _ fun _ => ⟨rfl, rfl⟩
    exact h.trans (modifyRange_recounts ⟨rfl, rfl⟩)
  · exact modifyRange_recounts ⟨rfl, rfl⟩

theorem releaseRange_recounts (s : Store) (r : RangeId) : Recounts s (s.releaseRange r) := by
  have h : Recounts s (s.modifyRange r fun x => { x with nuploading := x.nuploading - 1 }) :=
    modifyRange_recounts ⟨rfl, rfl⟩
  simp only [releaseRange]
  split
  · exact h.trans (modifyBlock_recounts _ _ fun _ => ⟨rfl, rfl⟩)
  · exact h

theorem nuploading_releaseRange (s : Store) (r r' : RangeId) :
    ((s.releaseRange r).range r').nuploading =
      if r' = r then (s.range r).nuploading - 1 else (s.range r').nuploading := by
  simp only [releaseRange]
  split <;> simp only [range_modifyRange, range_modifyBlock] <;> split <;> rfl

theorem nuploading_addUploader (s : Store) (r r' : RangeId) :
    ((s.addUploader r).range r').nuploading =
      if r' = r then (s.range r).nuploading + 1 else (s.range r').nuploading := by
  simp only [addUploader]
  split <;> simp only [range_modifyRange, range_modifyBlock] <;> split <;> rfl

-- A void range that is not linked counts for nothing in its block.
theorem Tidy.recount (h : s.Tidy c d i b) (hre : Recounts s s')
    (hblock : s'.block b = s.block b) (hframe : ∀ r ∈ s.ranges b, s'.range r = s.range r) :
    s'.Tidy c d i b := by
  refine ⟨⟨?_, ?_, ?_, ?_, ?_, ?_⟩, ?_, fun hc => ?_, fun hd => ?_⟩
  · rw [hre.nextBlock]; exact h.lt
  · rw [hblock, computeBlockBegin_congr hre.layout]; exact h.blockBegin
  · rw [hblock, computeBlockEnd_congr hre.layout]; exact h.blockEnd
  · rw [hre.ranges]; exact h.ranges_ne
  · rw [hre.ranges, hre.nextRange]
    intro r hr
    rw [hre.owner]
    exact h.owned r hr
  · rw [hre.ranges, hre.spans, computeBlockBegin_congr hre.layout,
      computeBlockEnd_congr hre.layout]
    exact h.chain
  · rw [hre.num]; exact h.num
  · rw [hblock, hre.ranges, hre.spans]; exact h.remaining hc
  · rw [hblock, hre.ranges, records_congr hframe]; exact h.unselected hd

theorem Books.recount_only (h : Books c d s) (ho : Only b s s') (hre : Recounts s s')
    (ht : ∀ i < s.blocks.length, s.blockAt i = .partialBlock b → s'.Tidy c d i b) :
    Books c d s' := by
  refine h.only ho (fun hlt => absurd (hre.nextRange ▸ hlt) (Nat.lt_irrefl _)) (fun r hr => ?_) ht
  rw [hre.ranges] at hr
  rw [hre.owner, hre.nextRange]
  exact h.owned b r hr

theorem computeRangeSize_void (hv : s.Void r) : s.computeRangeSize r = 0 := by
  unfold Store.Void at hv
  unfold computeRangeSize
  omega

-- Releasing and selecting a range that is linked, or void.
theorem Books.releaseRange (h : Books c d s) (hk : s.Kept r)
    (hd : d → 0 < (s.range r).nuploading) : Books c d (s.releaseRange r) := by
  have hre := s.releaseRange_recounts r
  refine h.recount_only (s.releaseRange_only r) hre fun i hi hbi => ?_
  have ht := h.tidy i hi _ hbi
  by_cases hl : r ∈ s.ranges (s.range r).block
  · exact ht.releaseRange hl hd
  · have hsize : (s.modifyRange r fun x => { x with nuploading := x.nuploading - 1 }
        ).computeRangeSize r = 0 := by
      rw [← computeRangeSize_void (hk.resolve_right fun hk => hl (hk ⟨i, hi, hbi⟩))]
      simp only [computeRangeSize, range_modifyRange, if_true]
    refine ht.recount hre ?_ fun r' hr' => ?_
    · simp only [Store.releaseRange, hsize, add_zero]
      split
      · rw [modifyBlock_self rfl]; rfl
      · rfl
    · have hne : r' ≠ r := fun e => hl (e ▸ hr')
      simp only [Store.releaseRange]
      split <;> simp only [range_modifyRange, range_modifyBlock, if_neg hne]

theorem Books.addUploader (h : Books c d s) (hk : s.Kept r) : Books c d (s.addUploader r) := by
  have hre := s.addUploader_recounts r
  refine h.recount_only (s.addUploader_only r) hre fun i hi hbi => ?_
  have ht := h.tidy i hi _ hbi
  by_cases hl : r ∈ s.ranges (s.range r).block
  · exact ht.addUploader hl
  · have hsize := computeRangeSize_void (hk.resolve_right fun hk => hl (hk ⟨i, hi, hbi⟩))
    refine ht.recount hre ?_ fun r' hr' => ?_
    · simp only [Store.addUploader, hsize, sub_zero]
      split
      · rw [modifyBlock_self rfl]; rfl
      · rfl
    · have hne : r' ≠ r := fun e => hl (e ▸ hr')
      simp only [Store.addUploader]
      split <;> simp only [range_modifyRange, range_modifyBlock, if_neg hne]

-- Giving back several ranges.
theorem foldl_releaseRange : ∀ (l : List RangeId) {s : Store}, Books c d s → l.Nodup →
    (∀ r ∈ l, s.Kept r) → (d → ∀ r ∈ l, 0 < (s.range r).nuploading) →
    Books c d (l.foldl releaseRange s) ∧ Recounts s (l.foldl releaseRange s) ∧
      ∀ r, ((l.foldl releaseRange s).range r).nuploading =
        (s.range r).nuploading - if r ∈ l then 1 else 0
  | [], s, h, _, _, _ => ⟨h, .refl s, by simp⟩
  | r :: l, s, h, hnd, hk, hd => by
      obtain ⟨hr, hnd⟩ := List.nodup_cons.mp hnd
      have hre := s.releaseRange_recounts r
      have hn := s.nuploading_releaseRange r
      obtain ⟨h₁, h₂, h₃⟩ := foldl_releaseRange l
        (h.releaseRange (hk r (by simp)) fun hd' => hd hd' r (by simp)) hnd
        (fun r' hr' => (hre.kept r').mpr (hk r' (by simp [hr']))) fun hd' r' hr' => by
          have hne : r' ≠ r := fun e => hr (e ▸ hr')
          rw [hn, if_neg hne]
          exact hd hd' r' (by simp [hr'])
      refine ⟨h₁, hre.trans h₂, fun r' => ?_⟩
      rw [List.foldl_cons, h₃, hn]
      by_cases e : r' = r
      · subst e
        simp [hr]
      · simp [e]

end Store

open State Store

theorem State.foldl_releaseRange (l : List (Int × Int × RangeId)) (s : State) :
    l.foldl (fun s key => s.releaseRange key.2.2) s =
      s.withStore fun st => (l.map fun key => key.2.2).foldl Store.releaseRange st := by
  induction l generalizing s with
  | nil => rfl
  | cons key l ih => exact ih (s.releaseRange key.2.2)

namespace Ledger

variable {a : Facts} {P : Int → Prop} {s s' : State} {i : Nat} {b : BlockId} {r : RangeId}

-- What one uploader has of ranges and blocks.
structure Fits (a : Facts) (s : State) (ranges : List (Int × Int × RangeId))
    (blocks : List UploaderBlock) : Prop where
  keys_lt : ∀ key ∈ ranges, key.2.2 < s.nextRange
  keys_nodup : (ranges.map fun key => key.2.2).Nodup
  kept : ∀ key ∈ ranges, s.Kept key.2.2
  held : a.held → ∀ key ∈ ranges, s.Held key.2.2
  blocks_lt : ∀ b ∈ blocks, b.block < s.nextBlock
  chosen : a.held → ∀ b ∈ blocks, s.Chosen b.block

theorem fits (h : Ledger a P s) {u : Uploader} (hu : u ∈ s.uploaders) :
    Fits a s u.ranges u.blocks :=
  ⟨h.keys_lt u hu, h.keys_nodup u hu, h.kept u hu, fun ha => h.held ha u hu, h.blocks_lt u hu,
    fun ha => h.chosen ha u hu⟩

-- Uploaders take or give back ranges and blocks.
theorem recount (h : Ledger a P s) (hre : Recounts s.toStore s'.toStore)
    (hbooks : Books a.remaining a.selected s'.toStore)
    (hnetworks : s'.networks.length = s.networks.length)
    (hfiles : s'.files.length = s.files.length)
    (hdown : (s'.file 0).downloaded = (s.file 0).downloaded)
    (hprio : ∀ i, s'.prioritiesBitmap.getD i 0 ≠ 0 → 0 < s.size)
    (hlen : s'.nuploading.length = s.nuploading.length)
    (hfits : ∀ u ∈ s'.uploaders, Fits a s u.ranges u.blocks)
    (hle : ∀ r < s.nextRange, s'.holders r ≤ (s'.range r).nuploading)
    (hsel : ∀ i, s'.selectors i ≤ s'.nuploading.getD i 0)
    (hshared : a.selected → ∀ b, s.Current b → ∀ r ∈ s.ranges b,
      (s'.range r).nuploading = s'.holders r)
    (hsafe : a.selected → ∀ x, P x → ∀ b, s.Current b → ∀ r ∈ s.ranges b,
      (s.range r).rangeBegin < x → x < (s.range r).rangeEnd → (s'.range r).nuploading = 0) :
    Ledger a P s' where
  books := hbooks
  networks_pos := hnetworks ▸ h.networks_pos
  files_pos := hfiles ▸ h.files_pos
  nuploading_length := by rw [hlen, hre.blocks]; exact h.nuploading_length
  priorities i hi := by
    rw [show s'.size = s.size from congrArg (fun g => g.1) hre.layout]
    exact hprio i hi
  keys_lt u hu key hkey := by rw [hre.nextRange]; exact (hfits u hu).keys_lt key hkey
  keys_nodup u hu := (hfits u hu).keys_nodup
  holders_le r hr := hle r (hre.nextRange ▸ hr)
  kept u hu key hkey := (hre.kept _).mpr ((hfits u hu).kept key hkey)
  held ha u hu key hkey := (hre.held _).mpr ((hfits u hu).held ha key hkey)
  blocks_lt u hu b hb := by rw [hre.nextBlock]; exact (hfits u hu).blocks_lt b hb
  selectors_le := hsel
  chosen ha u hu b hb := (hre.chosen _).mpr ((hfits u hu).chosen ha b hb)
  counted hc := by
    have := h.counted hc
    have hpresent : s'.present = s.present := by
      ext x
      rw [mem_present, mem_present, hre.missing,
        show s'.size = s.size from congrArg (fun g => g.1) hre.layout]
    simpa only [Counted, hdown, hpresent] using this
  shared ha b hcur r hr := by
    rw [hre.current] at hcur
    rw [hre.ranges] at hr
    exact hshared ha b hcur r hr
  safe ha x hx b hcur r hr h₁ h₂ := by
    rw [hre.current] at hcur
    rw [hre.ranges] at hr
    rw [hre.rangeBegin] at h₁
    rw [hre.rangeEnd] at h₂
    exact hsafe ha x hx b hcur r hr h₁ h₂

-- Neither the blocks nor what the uploaders have of them is touched.
theorem aside (h : Ledger a P s) (hst : s'.toStore = s.toStore)
    (hup : s'.uploaders.map (fun u => (u.ranges, u.blocks)) =
      s.uploaders.map fun u => (u.ranges, u.blocks))
    (hnetworks : s'.networks.length = s.networks.length)
    (hfiles : s'.files.length = s.files.length)
    (hdown : (s'.file 0).downloaded = (s.file 0).downloaded)
    (hprio : ∀ i, s'.prioritiesBitmap.getD i 0 ≠ 0 → 0 < s.size)
    (hnup : s'.nuploading = s.nuploading) : Ledger a P s' := by
  have hholders : ∀ r, s'.holders r = s.holders r := fun r => by
    have := congrArg (List.countP fun x => inUploaderRanges r x.1) hup
    simp only [List.countP_map] at this
    exact this
  have hsel : ∀ i, s'.selectors i = s.selectors i := fun i => by
    have := congrArg (fun l => (l.map fun x => (nums s.toStore x.2).count i).sum) hup
    simp only [List.map_map] at this
    simp only [selectors, hst]
    exact this
  refine h.recount (hst ▸ .refl _) (hst ▸ h.books) hnetworks hfiles hdown hprio (by rw [hnup])
    (fun u hu => ?_) (fun r hr => ?_) (fun i => ?_) (fun ha b hcur r hr => ?_)
    fun ha x hx b hcur r hr h₁ h₂ => ?_
  · have hmem : (u.ranges, u.blocks) ∈ s.uploaders.map fun u => (u.ranges, u.blocks) :=
      hup ▸ List.mem_map_of_mem hu
    obtain ⟨u', hu', he⟩ := List.mem_map.mp hmem
    obtain ⟨hr, hb⟩ := Prod.mk.inj he
    exact hr ▸ hb ▸ h.fits hu'
  · rw [hholders, hst]; exact h.holders_le r hr
  · rw [hsel, hnup]; exact h.selectors_le i
  · rw [hholders, hst]; exact h.shared ha b hcur r hr
  · rw [hst]; exact h.safe ha x hx b hcur r hr h₁ h₂

theorem uploader_mem {up : Nat} (hup : up < s.uploaders.length) : s.uploader up ∈ s.uploaders := by
  simp [State.uploader, hup]

theorem uploader_of_length_le {up : Nat} (hup : s.uploaders.length ≤ up) :
    s.uploader up = default := getD_of_length_le hup _

theorem mem_modifyUploader {up : Nat} {f : Uploader → Uploader} {u : Uploader}
    (hu : u ∈ (s.modifyUploader up f).uploaders) :
    u ∈ s.uploaders ∨ up < s.uploaders.length ∧ u = f (s.uploader up) := mem_modify hu

-- The uploader that holds one of its ranges is counted.
theorem holders_pos {u : Uploader} {key : Int × Int × RangeId} (hu : u ∈ s.uploaders)
    (hkey : key ∈ u.ranges) : 0 < s.holders key.2.2 :=
  List.countP_pos_iff.mpr ⟨u, hu, mem_keys.mpr ⟨key, hkey, rfl⟩⟩

theorem mem_keys_iff {l : List (Int × Int × RangeId)} :
    inUploaderRanges r l = true ↔ r ∈ l.map fun key => key.2.2 := by
  rw [mem_keys, List.mem_map]

theorem mem_filter_keys {l : List (Int × Int × RangeId)} (hnd : (l.map fun key => key.2.2).Nodup)
    (p : Int × Int × RangeId → Bool) (r : RangeId) :
    (if inUploaderRanges r l then 1 else 0) =
      (if inUploaderRanges r (l.filter p) then 1 else 0) +
        if r ∈ (l.filter fun key => !p key).map fun key => key.2.2 then 1 else 0 := by
  induction l with
  | nil => simp [inUploaderRanges]
  | cons key l ih =>
      rw [List.map_cons, List.nodup_cons] at hnd
      have := ih hnd.2
      have hnot : ∀ q : Int × Int × RangeId → Bool, key.2.2 ∉ (l.filter q).map fun key => key.2.2 :=
        fun q hm => hnd.1 (((List.filter_sublist).map _).subset hm)
      simp only [mem_keys_iff] at this ⊢
      by_cases e : r = key.2.2
      · subst e
        rw [if_pos (by simp)]
        by_cases hp : p key
        · rw [List.filter_cons_of_pos hp, List.filter_cons_of_neg (by simp [hp]),
            if_pos (by simp), if_neg (hnot _)]
        · rw [List.filter_cons_of_neg hp, List.filter_cons_of_pos (by simp [hp]),
            if_neg (hnot _), if_pos (by simp)]
      · by_cases hp : p key
        · rw [List.filter_cons_of_pos hp, List.filter_cons_of_neg (by simp [hp])]
          simpa only [List.map_cons, List.mem_cons, e, false_or] using this
        · rw [List.filter_cons_of_neg hp, List.filter_cons_of_pos (by simp [hp])]
          simpa only [List.map_cons, List.mem_cons, e, false_or] using this

-- How the list of one uploader counts.
theorem holders_modifyUploader {up : Nat} (hup : up < s.uploaders.length)
    (f : Uploader → Uploader) (r : RangeId) :
    (s.modifyUploader up f).holders r + (if inUploaderRanges r (s.uploader up).ranges then 1 else 0)
      = s.holders r + if inUploaderRanges r (f (s.uploader up)).ranges then 1 else 0 :=
  countP_modify (fun u : Uploader => inUploaderRanges r u.ranges) f default hup

theorem selectors_modifyUploader {up : Nat} {f : Uploader → Uploader} {g : Store → Store}
    (hnum : ∀ b, ((g s.toStore).block b).num = (s.block b).num)
    (hf : ∀ u, (f u).blocks = u.blocks) (i : Nat) :
    ((s.modifyUploader up f).withStore g).selectors i = s.selectors i := by
  simp only [selectors, nums, State.withStore, modifyUploader, hnum]
  exact congrArg List.sum (map_modify_same (fun u => by rw [hf]) _ _)

-- Uploader `up` keeps the ranges that satisfy `p` and gives back the others.
theorem release (h : Ledger a P s) (up : Nat) (p : Int × Int × RangeId → Bool) :
    Ledger a P ((s.modifyUploader up fun u => { u with ranges := u.ranges.filter p }).withStore
      fun st => (((s.uploader up).ranges.filter fun key => !p key).map fun key => key.2.2).foldl
        Store.releaseRange st) := by
  by_cases hup : up < s.uploaders.length
  · have hu := uploader_mem hup
    have hnd := h.keys_nodup _ hu
    have hsub := (List.filter_sublist (p := fun key => !p key) (l := (s.uploader up).ranges)).map
      fun key => key.2.2
    have hheld : ∀ r ∈ ((s.uploader up).ranges.filter fun key => !p key).map (fun key => key.2.2),
        ∃ key ∈ (s.uploader up).ranges, key.2.2 = r :=
      fun r hr => List.mem_map.mp (hsub.subset hr)
    obtain ⟨hb, hre, hn⟩ := foldl_releaseRange _ h.books (hnd.sublist hsub)
      (fun r hr => by
        obtain ⟨key, hkey, rfl⟩ := hheld r hr
        exact h.kept _ hu key hkey)
      fun _ r hr => by
        obtain ⟨key, hkey, rfl⟩ := hheld r hr
        exact (holders_pos hu hkey).trans_le (h.holders_le _ (h.keys_lt _ hu key hkey))
    generalize hdrop : ((s.uploader up).ranges.filter fun key => !p key).map
      (fun key => key.2.2) = dropped at hb hre hn
    have hholders : ∀ r, s.holders r = (s.modifyUploader up fun u =>
        { u with ranges := u.ranges.filter p }).holders r + if r ∈ dropped then 1 else 0 := by
      intro r
      have h₁ := holders_modifyUploader hup (fun u => { u with ranges := u.ranges.filter p }) r
      have h₂ := mem_filter_keys hnd p r
      rw [hdrop] at h₂
      dsimp only at h₁
      omega
    refine h.recount hre hb rfl rfl rfl h.priorities rfl (fun u hu' => ?_) (fun r hr => ?_)
      (fun i => ?_) (fun ha b hcur r hr => ?_) fun ha x hx b hcur r hr h₁ h₂ => ?_
    · rcases mem_modifyUploader hu' with hu' | ⟨-, rfl⟩
      · exact h.fits hu'
      · have hf := h.fits hu
        have hsub := List.filter_sublist (p := p) (l := (s.uploader up).ranges)
        exact ⟨fun key hkey => hf.keys_lt key (hsub.subset hkey), hnd.sublist (hsub.map _),
          fun key hkey => hf.kept key (hsub.subset hkey),
          fun ha key hkey => hf.held ha key (hsub.subset hkey), hf.blocks_lt, hf.chosen⟩
    · have h₁ := h.holders_le r hr
      rw [hholders r] at h₁
      rw [toStore_withStore]
      exact (Nat.le_sub_of_add_le h₁).trans (hn r).ge
    · have hsel := h.selectors_le i
      rw [selectors_modifyUploader hre.num (by simp)]
      exact hsel
    · have h₁ := h.shared ha b hcur r hr
      rw [hholders r] at h₁
      rw [toStore_withStore]
      refine (hn r).trans ?_
      rw [h₁]
      exact Nat.add_sub_cancel _ _
    · rw [toStore_withStore]
      refine (hn r).trans ?_
      rw [h.safe ha x hx b hcur r hr h₁ h₂]
      exact Nat.zero_sub _
  · rw [uploader_of_length_le (Nat.not_lt.mp hup)]
    simp only [modifyUploader, modify_of_length_le (Nat.not_lt.mp hup)]
    exact h

end Ledger

end Mldonkey.Swarming
