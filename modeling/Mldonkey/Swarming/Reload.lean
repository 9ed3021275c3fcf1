import Mldonkey.Swarming.Marking
import Mldonkey.Swarming.Check

-- A download that is saved and restored: what the restored swarmer says of the bytes is what the
-- saved one said.
namespace Mldonkey.Swarming

open Effects HalfOpen State Store

-- The record of a swarmer in the ini file. What value_to_swarmer can do without is an option.
structure SwarmerValue where
  fileSize : Nat
  fileDiskAllocationBitmap : Option (List Bool)
  fileChunkSizes : List Int
  filePrioritiesIntervals : Option (List (Int × Int))
  fileDownloadRandom : Option Bool

def swarmerToValue (s : State) : SwarmerValue where
  fileSize := s.size.toNat
  fileDiskAllocationBitmap := some s.diskAllocated
  fileChunkSizes := s.networks.map Frontend.chunkSize
  filePrioritiesIntervals := some s.prioritiesIntervals
  fileDownloadRandom := some (s.strategy = .advancedStrategy)

-- The swarmer of a record, for a file that has none yet
def valueToSwarmer (v : SwarmerValue) : State :=
  let s := createSwarmer v.fileSize
  let s := { s with
    strategy := if v.fileDownloadRandom.getD true then .advancedStrategy else .linearStrategy }
  let s := match v.fileDiskAllocationBitmap with
    | some bitmap =>
        if bitmap.length = s.diskAllocated.length then { s with diskAllocated := bitmap } else s
    | none => s
  let s := v.fileChunkSizes.foldl State.splitBlocks s
  let intervals := v.filePrioritiesIntervals.getD [(0, 1)]
  let s :=
    if validateIntervals s.size intervals then { s with prioritiesIntervals := intervals } else s
  s.swarmerRecomputePrioritiesBitmap

-- The fields of a file that belong to its frontend
structure FrontendValue where
  filePrimary : Option Bool
  fileChunks : Option VerificationBitmap
  fileAllChunks : Option VerificationBitmap
  filePresentChunks : Option (List (Int × Int))

def frontendToValue (s : State) (k : Nat) : FrontendValue where
  filePrimary := some (k = 0)
  fileChunks := some (s.frontend k).convertedVerifiedBitmap
  fileAllChunks := none
  filePresentChunks := if k = 0 then some s.presentIntervals else none

def getValue {α : Type} (field : Option α) : Act α :=
  match field with
  | some x => pure x
  | none => throw .notFound

-- A bitmap that cannot be read makes all chunks complete, so that they are all verified; intervals
-- that cannot be set make verify_all_chunks do the same.
def valueToFrontend (k : Nat) (v : FrontendValue) : Act Unit := do
  tryCatch
    (tryCatch
      (do
        let bitmap ← getValue v.fileChunks
        setChunksVerifiedBitmap k bitmap)
      fun e => do
        check (e = .notFound) e
        let bitmap ← getValue v.fileAllChunks
        setChunksVerifiedBitmap k bitmap)
    fun _ => do
      let s ← get
      setChunksVerifiedBitmap k
        (VB.create (s.frontend k).convertedVerifiedBitmap.length .stateComplete)
  if v.filePrimary.getD true then
    tryCatch
      (do
        let present ← getValue v.filePresentChunks
        setPresent present)
      fun _ => modify State.verifyAllChunks

section Restore

variable {s s' : State} {t : Frontend} {file : File} {l : List Int} {x : Int}

-- What a blank swarmer has does not depend on its settings.
theorem Blank.aside (h : Blank s) (hstore : s'.toStore = s.toStore)
    (hbits : s'.verifiedBitmap = s.verifiedBitmap)
    (hprio : s'.prioritiesBitmap.length = s.prioritiesBitmap.length)
    (havail : s'.availability = s.availability) (hnet : s'.networks = s.networks)
    (hfiles : s'.files = s.files) (hup : s'.uploaders = s.uploaders) : Blank s' := by
  have hnone : ∀ {p : Frontend → Prop}, ∀ t ∈ s'.networks, p t := by
    rw [hnet, h.networks]
    exact fun _ ht => nomatch ht
  exact
  { laid := ⟨by rw [hstore]; exact h.laid.placed, by rw [hstore]; exact h.laid.single,
      by rw [hprio, hstore]; exact h.laid.priorities⟩
    mapped := ⟨by rw [hstore]; exact h.mapped.positions, by rw [hstore]; exact h.mapped.nonempty,
      by rw [havail, hstore]; exact h.mapped.counters, hnone, hnone⟩
    positive := by rw [hstore]; exact h.positive
    books := by rw [hstore]; exact h.books
    current := by rw [hstore]; exact h.current
    bits := by rw [hbits, hstore]; exact h.bits
    agree := fun i => by rw [bit, hbits, hstore]; exact h.agree i
    missing := by rw [hstore]; exact h.missing
    networks := hnet.trans h.networks
    files := hfiles.trans h.files
    uploaders := hup.trans h.uploaders }

-- A blank swarmer whose blocks were split at the multiples of some numbers
structure Ruled (s₀ : State) (l : List Int) (s : State) : Prop where
  blank : Blank s
  size : s.size = s₀.size
  settings : s.settings = s₀.settings
  mem_blockPos : ∀ x, x ∈ s.blockPos ↔ 0 ≤ x ∧ x < s.size ∧ (x = 0 ∨ ∃ c ∈ l, c ∣ x)

theorem Ruled.splitBlocks {s₀ : State} {c : Int} (h : Ruled s₀ l s) (hc : 0 < c) :
    Ruled s₀ (l ++ [c]) (s.splitBlocks c) := by
  have hb := h.blank
  obtain ⟨l', hl⟩ := splitBlocks_resplit hb.laid hb.positive hc hb.books hb.bits
  have hsize := hl.redivides.size
  refine ⟨hb.splitBlocks hc, hsize.trans h.size, ?_, fun x => ?_⟩
  · rw [← h.settings, hl.beside]
    rfl
  · rw [mem_splitBlocks hb.laid hb.mapped.nonempty hb.positive hc, h.mem_blockPos, hsize]
    simp only [List.mem_append, List.mem_singleton, or_and_right, exists_or, exists_eq_left]
    rw [← and_or_left, ← and_or_left, or_assoc]

theorem Ruled.foldl {s₀ : State} : ∀ (cs : List Int) {l : List Int} {s : State}, Ruled s₀ l s →
    (∀ c ∈ cs, 0 < c) → Ruled s₀ (l ++ cs) (cs.foldl State.splitBlocks s)
  | [], l, s, h, _ => by
    rw [List.append_nil]
    exact h
  | c :: cs, l, s, h, hc => by
    rw [List.foldl_cons, ← List.singleton_append, ← List.append_assoc]
    exact Ruled.foldl cs (h.splitBlocks (hc c List.mem_cons_self))
      fun c' hc' => hc c' (List.mem_cons_of_mem c hc')

theorem diskFits_createSwarmer {size : Nat} (hs : 0 < size) : (createSwarmer size).DiskFits := by
  have hpos : 0 < (createSwarmer size).diskAllocationBlockSize := by
    show (0 : Int) <
      min _ ((max 1 ((size : Int).tdiv 200) + 1024 * 1024 - 1).tdiv (1024 * 1024) * _)
    have hup : 0 < (max 1 ((size : Int).tdiv 200) + 1024 * 1024 - 1).tdiv (1024 * 1024) := by
      rw [Int.tdiv_eq_ediv_of_nonneg (by omega)]
      exact (Int.le_ediv_iff_mul_le (by norm_num)).mpr (by omega)
    exact lt_min (by norm_num) (mul_pos hup (by norm_num))
  refine ⟨hpos, ?_⟩
  show ((size : Int) - 1).tdiv (createSwarmer size).diskAllocationBlockSize <
    ((List.replicate (1 + ((size : Int) - 1).tdiv
      (createSwarmer size).diskAllocationBlockSize).toNat false).length : Int)
  have := Int.tdiv_nonneg (a := (size : Int) - 1) (by omega) hpos.le
  rw [List.length_replicate]
  omega

def SwarmerValue.strategy (v : SwarmerValue) : Strategy :=
  if v.fileDownloadRandom.getD true then .advancedStrategy else .linearStrategy

def SwarmerValue.intervals (v : SwarmerValue) : List (Int × Int) :=
  if validateIntervals v.fileSize (v.filePrioritiesIntervals.getD [(0, 1)]) then
    v.filePrioritiesIntervals.getD [(0, 1)]
  else [(0, 1)]

-- What value_to_swarmer makes of a record
structure SwarmerValue.Made (v : SwarmerValue) (s : State) : Prop where
  blank : Blank s
  size : s.size = v.fileSize
  fits : s.DiskFits
  strategy : s.strategy = v.strategy
  intervals : s.prioritiesIntervals = v.intervals
  mem_blockPos : ∀ x, x ∈ s.blockPos ↔ 0 ≤ x ∧ x < s.size ∧ (x = 0 ∨ ∃ c ∈ v.fileChunkSizes, c ∣ x)

theorem made_valueToSwarmer {v : SwarmerValue} (hs : 0 < v.fileSize)
    (hc : ∀ c ∈ v.fileChunkSizes, 0 < c) : v.Made (valueToSwarmer v) := by
  unfold valueToSwarmer
  extract_lets s₀ s₁ s₂ s₃ intervals s₄
  have hblank : Blank s₀ := blank_createSwarmer hs
  have hdisk : ∃ a, a.length = s₀.diskAllocated.length ∧ s₂ = { s₁ with diskAllocated := a } := by
    show ∃ a, a.length = s₀.diskAllocated.length ∧ (match v.fileDiskAllocationBitmap with
      | some bitmap =>
          if bitmap.length = s₁.diskAllocated.length then { s₁ with diskAllocated := bitmap }
          else s₁
      | none => s₁) = { s₁ with diskAllocated := a }
    split
    · split
      · next h => exact ⟨_, h, rfl⟩
      · exact ⟨_, rfl, rfl⟩
    · exact ⟨_, rfl, rfl⟩
  obtain ⟨a, ha, hs₂⟩ := hdisk
  have hstart : Ruled s₂ [] s₂ := by
    refine ⟨?_, rfl, rfl, fun x => ?_⟩
    · rw [hs₂]
      exact hblank.aside rfl rfl rfl rfl rfl rfl rfl
    · rw [hs₂]
      show x ∈ [(0 : Int)] ↔ 0 ≤ x ∧ x < (v.fileSize : Int) ∧ _
      simp only [List.mem_singleton, List.not_mem_nil, false_and, exists_false, or_false]
      omega
  have hruled : Ruled s₂ v.fileChunkSizes s₃ := hstart.foldl v.fileChunkSizes hc
  have hsize₂ : s₂.size = v.fileSize := by
    rw [hs₂]
    rfl
  have hfits := diskFits_createSwarmer hs
  have hblock : s₃.diskAllocationBlockSize = s₀.diskAllocationBlockSize := by
    rw [show s₃.diskAllocationBlockSize = s₂.diskAllocationBlockSize from
      congrArg (·.2.1) hruled.settings, hs₂]
  have hbits : s₃.diskAllocated = a := by
    rw [show s₃.diskAllocated = s₂.diskAllocated from congrArg (·.2.2) hruled.settings, hs₂]
  have hstrategy : s₃.strategy = v.strategy := by
    rw [show s₃.strategy = s₂.strategy from congrArg (·.1.1) hruled.settings, hs₂]
    rfl
  have hprio : s₃.prioritiesIntervals = [(0, 1)] := by
    rw [show s₃.prioritiesIntervals = s₂.prioritiesIntervals from congrArg (·.1.2) hruled.settings,
      hs₂]
    rfl
  have hsize : s₃.size = v.fileSize := hruled.size.trans hsize₂
  have hs₄ : s₄ = { s₃ with prioritiesIntervals := v.intervals } := by
    show (if validateIntervals s₃.size intervals then { s₃ with prioritiesIntervals := intervals }
      else s₃) = _
    rw [SwarmerValue.intervals, hsize]
    split
    · rfl
    · rw [← hprio]
  rw [hs₄]
  refine ⟨hruled.blank.aside rfl rfl ?_ rfl rfl rfl rfl, hsize, ⟨?_, ?_⟩, hstrategy, rfl,
    hruled.mem_blockPos⟩
  · exact (Store.length_markPriorities _ _ _).trans List.length_replicate
  · show 0 < s₃.diskAllocationBlockSize
    rw [hblock]
    exact hfits.1
  · show (s₃.size - 1).tdiv s₃.diskAllocationBlockSize < s₃.diskAllocated.length
    rw [hblock, hbits, hsize, ha]
    exact hfits.2

theorem Blank.settings_associate (h : Blank s) (ht : 0 < t.chunkSize) (file : File) :
    (s.associate t file).settings = s.settings := by
  unfold State.associate
  extract_lets file' t' s₁ s₂
  have hl : s₁.Laid := ⟨h.laid.placed, h.laid.single, h.laid.priorities⟩
  obtain ⟨l, hresplit⟩ : ∃ l, Resplit s₁ s₂ l :=
    splitBlocks_resplit (s := s₁) hl h.positive ht h.books h.bits
  show s₂.settings = s.settings
  rw [hresplit.beside]
  rfl

theorem Blank.mem_associate (h : Blank s) (ht : 0 < t.chunkSize) (file : File) (x : Int) :
    x ∈ (s.associate t file).blockPos ↔ x ∈ s.blockPos ∨ 0 ≤ x ∧ x < s.size ∧ t.chunkSize ∣ x := by
  unfold State.associate
  extract_lets file' t' s₁ s₂
  have hl : s₁.Laid := ⟨h.laid.placed, h.laid.single, h.laid.priorities⟩
  exact mem_splitBlocks (s := s₁) hl h.mapped.nonempty h.positive ht x

-- A restored swarmer with its primary frontend, before anything is known of its chunks
structure SwarmerValue.Started (v : SwarmerValue) (t : Frontend) (s : State) : Prop where
  shaped : Shaped s
  size : s.size = v.fileSize
  good : Good s
  tags : Tags True True s.networks.length s.layout s
  shared : s.Shared
  verifier : (s.frontend 0).verifier = t.verifier
  chunkSize : (s.frontend 0).chunkSize = t.chunkSize
  nchunks : (s.frontend 0).convertedVerifiedBitmap.length = t.nchunks
  missing : ∀ x, 0 ≤ x → x < s.size → s.Missing x
  downloaded : (s.file 0).downloaded = 0
  fits : s.DiskFits
  strategy : s.strategy = v.strategy
  intervals : s.prioritiesIntervals = v.intervals
  mem_blockPos : ∀ x, x ∈ s.blockPos ↔ 0 ≤ x ∧ x < s.size ∧
    (x = 0 ∨ ∃ c ∈ v.fileChunkSizes ++ [t.chunkSize], c ∣ x)

theorem SwarmerValue.Made.started {v : SwarmerValue} (h : v.Made s) (ht : NewFrontend s.size t)
    (hv : t.verifier ≠ .noVerification) (hfile : file.downloaded = 0) :
    v.Started t (s.associate t file) := by
  have hb := h.blank
  have ha := hb.attached ht.chunkSize file
  have hmem := hb.mem_associate ht.chunkSize file
  have hsettings := hb.settings_associate ht.chunkSize file
  have hnone : ∀ {p : Frontend → Prop}, ∀ t ∈ s.networks, p t := by
    rw [hb.networks]
    exact fun _ ht => nomatch ht
  have hfront : (s.associate t file).frontend 0 =
      ({ t with convertedVerifiedBitmap := VB.create t.nchunks .stateMissing } :
        Frontend).mapBlocks (s.associate t file).toStore := by
    rw [State.frontend, networks_associate hb.mapped.nonempty, hb.networks]
    rfl
  have hnet : ∀ t' ∈ (s.associate t file).networks, t'.chunkSize = t.chunkSize := by
    rw [networks_associate hb.mapped.nonempty, hb.networks]
    intro t' ht'
    obtain rfl := List.mem_singleton.mp ht'
    rfl
  have hshaped : Shaped (s.associate t file) := by
    refine ⟨.associate hb.mapped.nonempty hnone ht.nchunks file,
      hb.laid.associate hb.mapped.nonempty ht.chunkSize file,
      chunked_associate hnone hb.mapped.nonempty ht.chunkSize ht.nchunks_pos file,
      fun _ x h₀ hx hdvd => ?_⟩
    obtain ⟨t', ht', hdvd⟩ := hdvd
    rw [hnet t' ht'] at hdvd
    exact (hmem x).mpr (.inr ⟨h₀, ha.size ▸ hx, hdvd⟩)
  have hledger : Ledger noFacts (fun _ => True) (s.associate t file) :=
    hb.ledger ht.chunkSize hfile
  have htrusted : Trusted True (s.associate t file) := by
    refine ⟨hb.marked ht.chunkSize file hshaped, ?_⟩
    rw [hfront]
    exact hv
  refine
  { shaped := hshaped
    size := ha.size.trans h.size
    good := ⟨hledger.books, hledger.networks_pos, hledger.files_pos⟩
    tags := htrusted.tags
    shared := State.Shared.associate (fun t ht => hnone (p := fun _ => t.fd = _) t ht)
      hb.mapped.nonempty t file
    verifier := by rw [hfront]; rfl
    chunkSize := by rw [hfront]; rfl
    nchunks := by rw [hfront]; exact List.length_replicate
    missing := fun x h₀ hx => (ha.missing x).mpr (hb.missing x h₀ (ha.size ▸ hx))
    downloaded := ?_
    fits := h.fits.congr ha.size hsettings
    strategy := (congrArg (·.1.1) hsettings).trans h.strategy
    intervals := (congrArg (·.1.2) hsettings).trans h.intervals
    mem_blockPos := fun x => ?_ }
  · rw [State.file, ha.files, hb.files, if_pos hb.networks]
    exact hfile
  · rw [hmem, h.mem_blockPos, ha.size]
    simp only [List.mem_append, List.mem_singleton, or_and_right, exists_or, exists_eq_left]
    rw [← and_or_left, ← and_or_left, or_assoc]

-- What the characters and the intervals of a saved download make of its swarmer
structure Restored (bitmap : VerificationBitmap) (present : List (Int × Int)) (s s' : State) :
    Prop where
  tags : Tags True True s.networks.length s.layout s'
  tables : s'.tables = s.tables
  strategy : s'.strategy = s.strategy
  prioritiesIntervals : s'.prioritiesIntervals = s.prioritiesIntervals
  makes : Makes (fun y => (∃ j < bitmap.length, (VB.get bitmap j).Done ∧ s.InChunk j y) ∨
    Covers present y) s s'
  verified : ∀ i, s'.blockAt i = .verifiedBlock ↔ s.blockAt i = .verifiedBlock ∨
    (∃ j < bitmap.length, VB.get bitmap j = .stateVerified ∧ i ∈ (s.frontend 0).blockNums j) ∧
      i < s.blocks.length

theorem SwarmerValue.Started.loads {v : SwarmerValue} (h : v.Started t s) (hs : 0 < s.size)
    (hv : t.verifier ≠ .noVerification) {w : FrontendValue} {bitmap : VerificationBitmap}
    {present : List (Int × Int)} (hprimary : w.filePrimary.getD true = true)
    (hchunks : w.fileChunks = some bitmap) (hlen : bitmap.length ≤ t.nchunks)
    (hpresent : w.filePresentChunks = some present) (hin : InFile s.size present) :
    Outcome (valueToFrontend 0 w) (fun _ => Restored bitmap present s) (fun _ _ => False) s := by
  have hload : Outcome (setChunksVerifiedBitmap 0 bitmap) (fun _ => Loaded True bitmap
      bitmap.length s) (fun _ _ => False) s :=
    setChunksVerifiedBitmap_loads h.shaped hs h.good h.tags (h.nchunks.symm ▸ hlen)
  unfold valueToFrontend
  rw [hchunks, hpresent, hprimary]
  refine Outcome.bind (P := fun _ => Loaded True bitmap bitmap.length s) ?_ fun _ s₁ h₁ => ?_
  · refine Outcome.tryCatch (P := fun _ _ => False) ?_ fun _ _ hno => hno.elim
    exact Outcome.tryCatch (P := fun _ _ => False) hload fun _ _ hno => hno.elim
  · rw [if_pos rfl]
    refine Outcome.tryCatch (P := fun _ _ => False) ?_ fun _ _ hno => hno.elim
    have hsize : s₁.size = s.size := congrArg (·.1.1) h₁.tables
    have hver : (s₁.frontend 0).verifier ≠ .noVerification := by
      obtain ⟨l, hl, -⟩ := h₁.verifies
      rw [hl.verifier, h.verifier]
      exact hv
    have hfits := h.fits.congr hsize h₁.settings
    have hplaced := h₁.makes.good.books.placed
    have hstable := Tags.stable (p := True) (q := True) (n := s.networks.length) (g := s.layout)
      (G := fun _ => True) ⟨fun _ _ => trivial, fun _ _ _ => trivial⟩
      (h₁.makes.layout ▸ hplaced.positions) (h₁.makes.layout ▸ hplaced.nonempty)
    have htags : Outcome (setPresent present) _ _ s₁ :=
      hstable.run h₁.tags (show Op.Valid s₁ (.setPresent present) from trivial) fun _ _ => trivial
    refine ((setPresent_presents hfits h₁.makes.good (hsize.symm ▸ hin) hver).and htags).mono
      (fun _ s₂ h₂ => ?_) fun _ _ hno => hno.1
    obtain ⟨hp, ht⟩ := h₂
    obtain ⟨l, hl, hmem⟩ := h₁.verifies
    refine ⟨ht, hp.tables.trans h₁.tables, hp.strategy.trans (congrArg (·.1.1) h₁.settings),
      hp.prioritiesIntervals.trans (congrArg (·.1.2) h₁.settings), h₁.makes.trans hp.makes,
      fun i => ?_⟩
    rw [hp.verifies.verified, hl.verified, hmem]
    simp

section Restored

variable {v : SwarmerValue} {bitmap : VerificationBitmap} {present : List (Int × Int)}

theorem VB.lt_length_of_done {i : Nat} (hd : (VB.get bitmap i).Done) : i < bitmap.length := by
  by_contra hge
  rw [VB.get, List.getD_eq_default _ _ (Nat.not_lt.mp hge)] at hd
  exact absurd hd (by decide)

theorem SwarmerValue.Started.missing_iff (h : v.Started t s)
    (h' : Restored bitmap present s s') (x : Int) :
    s'.Missing x ↔ (0 ≤ x ∧ x < s.size) ∧ ¬ Covers present x ∧
      ¬ (VB.get bitmap (x / t.chunkSize).toNat).Done := by
  obtain ⟨w, hw, hmem⟩ := h'.makes.fills
  have hchunk : (∃ j < bitmap.length, (VB.get bitmap j).Done ∧ s.InChunk j x) ↔
      (VB.get bitmap (x / t.chunkSize).toNat).Done := by
    simp only [InChunk, h.chunkSize]
    constructor
    · rintro ⟨j, -, hd, rfl⟩
      exact hd
    · exact fun hd => ⟨_, VB.lt_length_of_done hd, hd, rfl⟩
  rw [hw.missing, hmem, hchunk]
  have hbounds : s.Missing x → 0 ≤ x ∧ x < s.size := h.good.books.placed.missing_bounds
  have hmiss := h.missing x
  tauto

theorem SwarmerValue.Started.verified_iff (h : v.Started t s) (h' : Restored bitmap present s s')
    (hx : 0 ≤ x ∧ x < s.size) :
    s'.Verified x ↔ VB.get bitmap (x / t.chunkSize).toNat = .stateVerified := by
  have hplaced := h.good.books.placed
  have hplaced' := h'.makes.good.books.placed
  obtain ⟨i, hi, hxi⟩ := hplaced.exists_block hx
  have hlen : s'.blocks.length = s.blocks.length := congrArg (fun g => g.2.2) h'.makes.layout
  have hxi' : s'.computeBlockBegin i ≤ x ∧ x < s'.computeBlockEnd i := by
    rw [computeBlockBegin_congr h'.makes.layout, computeBlockEnd_congr h'.makes.layout]
    exact hxi
  have hnone : s.blockAt i ≠ .verifiedBlock := fun hv =>
    not_missing_of_done hplaced hi hxi (by simp [hv, BlockV.state]) (h.missing x hx.1 hx.2)
  have hnum := h.shaped.chunkAt h.tags.tagged.networks_pos hi hxi
  rw [h.chunkSize] at hnum
  rw [Swarming.verified_iff hplaced' (hlen.symm ▸ hi) hxi', h'.verified, or_iff_right hnone,
    and_iff_left hi, hnum]
  constructor
  · rintro ⟨j, -, hv, hij⟩
    obtain ⟨-, rfl⟩ := h.tags.tagged.mem_blockNums.mp hij
    exact hv
  · intro hv
    have hd : (VB.get bitmap ((s.frontend 0).chunkNum i)).Done := by
      rw [hv]
      decide
    exact ⟨_, VB.lt_length_of_done hd, hv, h.tags.tagged.mem_blockNums.mpr ⟨hi, rfl⟩⟩

theorem SwarmerValue.Started.downloaded_eq (h : v.Started t s)
    (h' : Restored bitmap present s s') :
    (s'.file 0).downloaded = total s'.presentIntervals := by
  obtain ⟨w, hw, hmem⟩ := h'.makes.fills
  have hsize : s'.size = s.size := congrArg (fun g => g.1) h'.makes.layout
  have hpresent : s'.present = w := by
    ext x
    have hin : 0 ≤ x ∧ x < s.size ↔ s.Missing x :=
      ⟨fun hx => h.missing x hx.1 hx.2, h.good.books.placed.missing_bounds⟩
    rw [mem_present, hw.missing, hsize, hin]
    exact ⟨fun hx => by_contra fun hnot => hx.2 ⟨hx.1, hnot⟩,
      fun hx => ⟨((hmem x).mp hx).1, fun hno => hno.2 hx⟩⟩
  rw [hw.downloaded, h.downloaded, total_presentIntervals h'.makes.good.books, hpresent, zero_add]

end Restored

theorem createFrontend_ok {size chunkSize : Nat} (hs : 0 < size) (hc : 0 < chunkSize) :
    ∃ t, createFrontend size chunkSize = .ok t ∧ t.chunkSize = chunkSize := by
  have := Int.tdiv_nonneg (a := (size : Int) - 1) (b := chunkSize) (by omega) (by omega)
  unfold createFrontend
  rw [if_neg hc.ne']
  dsimp only
  rw [if_neg (by omega)]
  exact ⟨_, rfl, rfl⟩

theorem inFile_presentIntervals (h : Store.Books False False s.toStore) :
    InFile s.size s.presentIntervals := by
  have hmax := maximal_presentIntervals h
  intro p hp
  have hlt := hmax.nonempty p hp
  have hfirst := ((hmax.covers p.1).mp ⟨p, hp, le_rfl, hlt⟩).1
  have hlast := ((hmax.covers (p.2 - 1)).mp ⟨p, hp, by omega, by omega⟩).1
  omega

-- The characters of the primary's chunks are known from the bytes.
theorem chunk_congr {q q' : Prop} (h : TaggedBytes True q s) (h' : TaggedBytes True q' s')
    (hshaped : Shaped s) (hs : 0 < s.size) (hsize : s'.size = s.size)
    (hchunk : (s'.frontend 0).chunkSize = (s.frontend 0).chunkSize)
    (hlen : (s'.frontend 0).convertedVerifiedBitmap.length =
      (s.frontend 0).convertedVerifiedBitmap.length)
    (hmissing : ∀ x, s'.Missing x ↔ s.Missing x) (hverified : ∀ x, s'.Verified x ↔ s.Verified x)
    (j : Nat) : (((s'.frontend 0).chunk j).Done ↔ ((s.frontend 0).chunk j).Done) ∧
      ((s'.frontend 0).chunk j = .stateVerified ↔ (s.frontend 0).chunk j = .stateVerified) := by
  by_cases hj : j < (s.frontend 0).convertedVerifiedBitmap.length
  · refine ⟨?_, ?_⟩
    · rw [h.done j hj, h'.done j (hlen ▸ hj), hsize, hchunk]
      simp only [hmissing]
    · -- the first byte of a block of the chunk stands for all of it
      obtain ⟨i, hi, rfl⟩ := (hshaped.tabled (frontend_mem h.networks_pos)).exists_block j hj
      have hx := hshaped.begin_mem hs hi
      have hnum := hshaped.chunkAt h.networks_pos hi hx
      have hplaced := hshaped.laid.placed hs
      have hbegin := hplaced.begin_nonneg hi
      have hend := hplaced.end_le_size hi
      have hat : (s.frontend 0).chunkAt (s.computeBlockBegin i) =
          (s.frontend 0).chunk ((s.frontend 0).chunkNum i) := by rw [Frontend.chunkAt, hnum]
      have hat' : (s'.frontend 0).chunkAt (s.computeBlockBegin i) =
          (s'.frontend 0).chunk ((s.frontend 0).chunkNum i) := by
        rw [Frontend.chunkAt, hchunk, hnum]
      rw [← hat, ← hat']
      have hiff : s.Verified (s.computeBlockBegin i) ↔
          (s.frontend 0).chunkAt (s.computeBlockBegin i) = .stateVerified :=
        ⟨h.fromPrimary trivial _, h.verified_bytes _ hbegin (by omega)⟩
      have hiff' : s'.Verified (s.computeBlockBegin i) ↔
          (s'.frontend 0).chunkAt (s.computeBlockBegin i) = .stateVerified :=
        ⟨h'.fromPrimary trivial _, h'.verified_bytes _ hbegin (by omega)⟩
      rw [← hiff, ← hiff', hverified]
  · rw [Frontend.chunk_of_length_le (Nat.not_lt.mp hj),
      Frontend.chunk_of_length_le (Nat.not_lt.mp (hlen ▸ hj))]
    exact ⟨Iff.rfl, Iff.rfl⟩

-- A strictly increasing list is known from its elements.
theorem pairwise_lt_ext {l l' : List Int} (hl : l.Pairwise (· < ·)) (hl' : l'.Pairwise (· < ·))
    (h : ∀ x, x ∈ l ↔ x ∈ l') : l = l' := by
  have hperm : l.Perm l' := (List.perm_ext_iff_of_nodup (hl.imp fun hlt => hlt.ne)
    (hl'.imp fun hlt => hlt.ne)).mpr h
  exact hperm.eq_of_pairwise (fun _ _ _ _ h₁ h₂ => absurd h₁ h₂.asymm) hl hl'

section Saved

-- `s` is saved, `s₀` is the swarmer of its record, and `s'` has the saved characters too.
variable {s₀ : State} {q : Prop} (h : (swarmerToValue s).Started t s₀)
  (h' : Restored (s.frontend 0).convertedVerifiedBitmap s.presentIntervals s₀ s')
  (hsize : s₀.size = s.size) (hchunk : t.chunkSize = (s.frontend 0).chunkSize)
  (hbooks : Store.Books False False s.toStore) (hbytes : TaggedBytes True q s)

include h hsize hchunk

theorem SwarmerValue.Started.mem_blockPos_saved (hregular : s.Regular) (hs : 0 < s.size)
    (hn : 0 < s.networks.length) (x : Int) : x ∈ s₀.blockPos ↔ x ∈ s.blockPos := by
  have hmem := frontend_mem hn
  rw [h.mem_blockPos, hsize, hregular.mem_blockPos hs hn]
  refine and_congr_right fun _ => and_congr_right fun _ => ⟨fun hx => ?_, fun hx => .inr ?_⟩
  · rcases hx with rfl | ⟨c, hc, hdvd⟩
    · exact ⟨_, hmem, dvd_zero _⟩
    · rcases List.mem_append.mp hc with hc | hc
      · obtain ⟨t', ht', rfl⟩ := List.mem_map.mp hc
        exact ⟨t', ht', hdvd⟩
      · rw [List.mem_singleton.mp hc, hchunk] at hdvd
        exact ⟨_, hmem, hdvd⟩
  · obtain ⟨t', ht', hdvd⟩ := hx
    exact ⟨_, List.mem_append_left _ (List.mem_map_of_mem ht'), hdvd⟩

include h' hbooks hbytes

theorem SwarmerValue.Started.missing_saved (x : Int) : s'.Missing x ↔ s.Missing x := by
  rw [h.missing_iff h', hsize, hchunk]
  have hpresent := (maximal_presentIntervals hbooks).covers x
  constructor
  · exact fun hx => by_contra fun hno => hx.2.1 (hpresent.mpr ⟨hx.1, hno⟩)
  · intro hmiss
    have hx := hbooks.placed.missing_bounds hmiss
    refine ⟨hx, fun hin => (hpresent.mp hin).2 hmiss, fun hd => ?_⟩
    exact (hbytes.done _ (VB.lt_length_of_done hd)).mp hd x hx.1 hx.2 rfl hmiss

theorem SwarmerValue.Started.verified_saved (x : Int) : s'.Verified x ↔ s.Verified x := by
  have hsize' : s'.size = s.size := (congrArg (·.1.1) h'.tables).trans hsize
  by_cases hx : 0 ≤ x ∧ x < s.size
  · rw [h.verified_iff h' (hsize.symm ▸ hx), hchunk]
    exact ⟨hbytes.verified_bytes x hx.1 hx.2, hbytes.fromPrimary trivial x⟩
  · have hplaced' := h'.makes.good.books.placed
    exact iff_of_false (fun hv => hx (hsize' ▸ verified_bounds hplaced' hv))
      fun hv => hx (verified_bounds hbooks.placed hv)

end Saved

end Restore

-- A swarmer whose primary verifies its chunks is saved and restored without an exception. The
-- restored one has the blocks, the strategy and the priorities of the saved one, it says the same
-- of each byte and of each chunk of the primary, counts the bytes that are there and passes
-- check_swarmer.
theorem saved_restored {s : State} (h : Reachable (· ≠ .noVerification) (fun _ op => op.Trusting) s)
    (hs : 0 < s.size) (fileState : FileState) :
    ∃ s₀ s', create (valueToSwarmer (swarmerToValue s)) s.size.toNat
        (s.frontend 0).chunkSize.toNat (s.frontend 0).verifier fileState = .ok s₀ ∧
      valueToFrontend 0 (frontendToValue s 0) s₀ = .ok () s' ∧
      (s'.size = s.size ∧ s'.blockPos = s.blockPos) ∧
      s'.strategy = s.strategy ∧
      (validateIntervals s.size s.prioritiesIntervals = true →
        s'.prioritiesIntervals = s.prioritiesIntervals) ∧
      (∀ x, (s'.Missing x ↔ s.Missing x) ∧ (s'.Verified x ↔ s.Verified x)) ∧
      (∀ j, ((s'.frontend 0).chunk j).Done ↔ ((s.frontend 0).chunk j).Done) ∧
      (∀ j, (s'.frontend 0).chunk j = .stateVerified ↔ (s.frontend 0).chunk j = .stateVerified) ∧
      s'.presentIntervals = s.presentIntervals ∧
      (s'.file 0).downloaded = total s.presentIntervals ∧
      checkSwarmer s' = .ok () := by
  have hshaped : Shaped s := .reachable h
  have hbooks := (accounted_of_reachable h hs).ledger.books
  have hmarked := (Trusted.reachable (q := False) (fun hok => ⟨hok, fun hq => hq.elim⟩) h hs).marked
  have hver := (Trusted.reachable (q := False) (fun hok => ⟨hok, fun hq => hq.elim⟩) h hs).verifier
  have hbytes := hmarked.taggedBytes hshaped hbooks hs
  have hmem := frontend_mem hbytes.networks_pos
  have hc := (hshaped.chunked _ hmem).1
  have hc' : 0 < (s.frontend 0).chunkSize.toNat := by omega
  obtain ⟨t, hcreate, htc⟩ := createFrontend_ok (show 0 < s.size.toNat by omega) hc'
  have hnew := (createFrontend_spec hcreate).1
  rw [Int.toNat_of_nonneg hc.le] at htc
  rw [Int.toNat_of_nonneg hs.le] at hnew
  have hchunks : ∀ c ∈ (swarmerToValue s).fileChunkSizes, 0 < c := by
    intro c hmem
    obtain ⟨t, ht, rfl⟩ := List.mem_map.mp hmem
    exact (hshaped.chunked t ht).1
  have hmade := made_valueToSwarmer (v := swarmerToValue s) (show 0 < s.size.toNat by omega) hchunks
  have hfile : ((swarmerToValue s).fileSize : Int) = s.size := Int.toNat_of_nonneg hs.le
  have hstart : (swarmerToValue s).Started { t with verifier := (s.frontend 0).verifier }
      ((valueToSwarmer (swarmerToValue s)).associate
        { t with verifier := (s.frontend 0).verifier } ⟨s.size.toNat, 0, fileState⟩) :=
    hmade.started ⟨hnew.chunkSize, hnew.nchunks_pos,
      hnew.nchunks.trans (by rw [hmade.size, hfile])⟩ hver rfl
  generalize hs₀ : (valueToSwarmer (swarmerToValue s)).associate
    { t with verifier := (s.frontend 0).verifier } ⟨s.size.toNat, 0, fileState⟩ = s₀ at hstart
  have hsize : s₀.size = s.size := hstart.size.trans hfile
  have hlen : (s.frontend 0).convertedVerifiedBitmap.length = t.nchunks := by
    rw [hshaped.mapped.chunks _ hmem, hnew.nchunks, htc]
  have hrun := hstart.loads (hsize.symm ▸ hs) hver (w := frontendToValue s 0) rfl rfl hlen.le rfl
    (hsize.symm ▸ inFile_presentIntervals hbooks)
  obtain ⟨s', heq, h'⟩ : ∃ s', valueToFrontend 0 (frontendToValue s 0) s₀ = .ok () s' ∧
      Restored (s.frontend 0).convertedVerifiedBitmap s.presentIntervals s₀ s' := by
    unfold Outcome at hrun
    split at hrun
    · next s' heq => exact ⟨s', heq, hrun⟩
    · exact hrun.elim
  refine ⟨s₀, s', ?_, heq, ?_⟩
  · rw [← hs₀]
    unfold create
    rw [hcreate]
    rfl
  have hsize' : s'.size = s.size := (congrArg (·.1.1) h'.tables).trans hsize
  have hbooks' := h'.makes.good.books
  have hmissing := hstart.missing_saved h' hsize htc hbooks hbytes
  have hverified := hstart.verified_saved h' hsize htc hbooks hbytes
  have hshaped' : Shaped s' := hstart.shaped.congr h'.tables
  have hbytes' := h'.tags.toMarked.taggedBytes hshaped' hbooks' (hsize'.symm ▸ hs)
  have hchunk : (s'.frontend 0).chunkSize = (s.frontend 0).chunkSize :=
    (congrArg (·.1) (frontend_tables h'.tables 0)).trans (hstart.chunkSize.trans htc)
  have hlen' : (s'.frontend 0).convertedVerifiedBitmap.length =
      (s.frontend 0).convertedVerifiedBitmap.length :=
    (congrArg (·.2.1) (frontend_tables h'.tables 0)).trans (hstart.nchunks.trans hlen.symm)
  have hchars := chunk_congr hbytes hbytes' hshaped hs hsize' hchunk hlen' hmissing hverified
  have hintervals := presentIntervals_congr hbooks hbooks' hsize' hmissing
  refine ⟨⟨hsize', ?_⟩, ?_, fun hvalid => ?_, fun x => ⟨hmissing x, hverified x⟩,
    fun j => (hchars j).1, fun j => (hchars j).2, hintervals, ?_,
    checkSwarmer_ok h'.tags.toMarked (hstart.shared.congr h'.tables)⟩
  · refine pairwise_lt_ext hshaped'.pairwise_blockPos hshaped.pairwise_blockPos fun x => ?_
    rw [show s'.blockPos = s₀.blockPos from congrArg (·.1.2.1) h'.tables]
    exact hstart.mem_blockPos_saved hsize htc (Regular.reachable h) hs hbytes.networks_pos x
  · rw [h'.strategy, hstart.strategy]
    cases hs : s.strategy <;> simp [SwarmerValue.strategy, swarmerToValue, hs]
  · rw [h'.prioritiesIntervals, hstart.intervals]
    exact if_pos (hfile.symm ▸ hvalid)
  · rw [hstart.downloaded_eq h', hintervals]

-- The first chunk of a file is verified, of the second one some bytes are there.
def savedTen : State :=
  Op.next (.verifyChunk (fun _ _ _ => .ok true) 0 0)
    (Op.next (.setPresent [(0, 4), (5, 7)]) startTen)

theorem saved_restored_ten : ∃ s₀ s',
    create (valueToSwarmer (swarmerToValue savedTen)) 10 4 .forceVerification .fileDownloading =
      .ok s₀ ∧
    valueToFrontend 0 (frontendToValue savedTen 0) s₀ = .ok () s' ∧
    s'.presentIntervals = [(0, 4), (5, 7)] ∧ (s'.frontend 0).chunk 0 = .stateVerified := by
  have h : Reachable (· ≠ .noVerification) (fun _ op => op.Trusting) savedTen :=
    .step (.step (.start (fresh_startTen (by decide))) ⟨trivial, trivial⟩)
      ⟨⟨by decide, by decide⟩, trivial⟩
  obtain ⟨s₀, s', hcreate, hload, -, -, -, -, -, hverified, hpresent, -, -⟩ :=
    saved_restored h (by decide) .fileDownloading
  exact ⟨s₀, s', hcreate, hload, hpresent.trans (by decide), (hverified 0).mpr (by decide)⟩

end Mldonkey.Swarming
