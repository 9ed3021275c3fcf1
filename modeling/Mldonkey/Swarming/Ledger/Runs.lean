import Mldonkey.Swarming.Attach
import Mldonkey.Swarming.Ledger.Picking

-- The ledger over whole runs, with the frontends that are merged into the swarmer on the way.
namespace Mldonkey.Swarming

open Effects State Store Runs

theorem frame_bits (τ : TableValues) (n : Nat) :
    Frame τ fun s => s.tables = τ ∧ s.verifiedBitmap.length = n :=
  frame_value τ n (fun _ _ => rfl) (fun _ _ => rfl) (fun _ _ => rfl)
    fun _ _ _ => VB.length_set _ _ _

theorem bits_next {s : State} {op : Op} (hm : Mapped s)
    (hb : s.verifiedBitmap.length = s.blocks.length) (hop : op.Valid s)
    (hmerge : ∀ f2, op ≠ .merge f2) :
    (op.next s).verifiedBitmap.length = (op.next s).blocks.length := by
  obtain ⟨htables, hlen⟩ := (frame_bits s.tables s.verifiedBitmap.length).next_of
    (fun hs ht _ hv => ⟨ht.trans hs.1, by rw [hv]; exact hs.2⟩) hm.positions hm.nonempty ⟨rfl, rfl⟩
    hop hmerge
  have hlayout : (op.next s).layout = s.layout := congrArg (·.1) htables
  exact hlen.trans (hb.trans (congrArg (·.2.2) hlayout).symm)

-- What each operation has to find for a ledger with the facts `a` to stay true. A check of all
-- chunks counts bytes that are not there, a merge renumbers the blocks under the uploaders, and
-- a range that is cut while uploaders hold it leaves them its first part alone.
def Op.Accounts (a : Facts) (s : State) : Op → Prop
  | .setPresent _ | .setAbsent _ => ¬ a.selected
  | .findRange _ up rangeSize => a.selected → s.PicksFree up rangeSize
  | .verifyAllChunks | .verifyAllChunksImmediately .. => ¬ a.counted
  | .merge _ => (a.held → ∀ u ∈ s.uploaders, u.ranges = []) ∧
      (a.remaining ∨ a.selected → ∀ b, ¬ s.Current b)
  | _ => True

theorem Op.accounts_of_unselected {a : Facts} {s : State} {op : Op} (hselected : ¬ a.selected)
    (hcounted : ¬ a.counted) (hmerge : ∀ f2, op = .merge f2 →
      (a.held → ∀ u ∈ s.uploaders, u.ranges = []) ∧ (a.remaining → ∀ b, ¬ s.Current b)) :
    op.Accounts a s := by
  cases op with
  | setPresent intervals => exact hselected
  | setAbsent listAbsent => exact hselected
  | findRange fileVerify up rangeSize => exact fun h => absurd h hselected
  | verifyAllChunks => exact hcounted
  | verifyAllChunksImmediately fileVerify k => exact hcounted
  | merge f2 =>
    have h := hmerge f2 rfl
    exact ⟨h.1, fun hn => hn.elim h.2 fun hn => absurd hn hselected⟩
  | _ => trivial

namespace Ledger

variable {a : Facts} {P : Int → Prop} {s s' : State}

theorem verifyAllChunks (h : Ledger a P s) (ha : ¬ a.counted) :
    Ledger a P s.verifyAllChunks := by
  have hcomplete : ∀ {s : State} (i : Nat), Ledger a P s → Ledger a P (s.mustVerifyBlock i) :=
    fun i h => h.sameBooks (setSwarmerStateComplete_books _ i)
  unfold State.verifyAllChunks
  generalize List.range s.verifiedBitmap.length = l
  induction l generalizing s with
  | nil => exact h
  | cons i l ih =>
    refine ih ?_
    dsimp only
    split
    · exact hcomplete i h
    · refine hcomplete i (h.moves ⟨rest_addFileDownloaded s none _, ?_⟩ ?_ fun hc => absurd hc ha)
      · rw [toStore_addFileDownloaded]
        exact .refl _
      · rw [toStore_addFileDownloaded]
        exact h.books
    · exact h
    · exact h

theorem setFrontendStateVerified (h : Ledger a P s) (k j : Nat) :
    Outcome (setFrontendStateVerified k j) (fun _ s' => Ledger a P s' ∧ s'.layout = s.layout)
      (fun _ s' => Ledger a P s' ∧ s'.layout = s.layout) s := by
  have hsince : Since a P s s := ⟨h, .refl s⟩
  exact (hsince.setFrontendStateVerified k j).mono (fun _ _ hs => ⟨hs.1, hs.2.evolves.layout⟩)
    fun _ _ hs => ⟨hs.1, hs.2.evolves.layout⟩

theorem verifyChunk (h : Ledger a P s) (fileVerify : FileVerify) (k j : Nat) :
    Outcome (verifyChunk fileVerify k j) (fun _ => Ledger a P) (fun _ => Ledger a P) s := by
  have hsince : Since a P s s := ⟨h, .refl s⟩
  exact (hsince.verifyChunk fileVerify k j).mono (fun _ _ hs => hs.1) fun _ _ hs => hs.1

theorem setChunksVerifiedBitmap (h : Ledger a P s) (k : Nat) (bitmap : VerificationBitmap) :
    Outcome (setChunksVerifiedBitmap k bitmap) (fun _ => Ledger a P) (fun _ => Ledger a P) s := by
  have hplaced := h.books.placed
  refine ((stable (P := P) (a := a) (g := s.layout) hplaced.positions
    hplaced.nonempty).setChunksVerifiedBitmap (fun s₁ j hs₁ => ?_) ⟨h, rfl⟩ bitmap).mono
      (fun _ _ hs => hs.1) fun _ _ hs => hs.1.1
  exact (hs₁.1.setFrontendStateVerified k j).mono (fun _ _ hs => ⟨hs.1, hs.2.trans hs₁.2⟩)
    fun _ _ hs => ⟨⟨hs.1, hs.2.trans hs₁.2⟩, trivial⟩

theorem setVerifier (h : Ledger a P s) (k : Nat) (f : Verifier) :
    Outcome (setVerifier k f) (fun _ => Ledger a P) (fun _ => Ledger a P) s := by
  unfold Swarming.setVerifier
  rw [outcome_modify_bind, outcome_get_bind]
  have hset : Ledger a P (s.modifyFrontend k fun t => { t with verifier := f }) :=
    h.aside rfl rfl (by simp [State.modifyFrontend]) rfl rfl h.priorities rfl
  exact hset.setChunksVerifiedBitmap k _

-- A frontend is attached while no block is given to an uploader. The uploaders that hold ranges
-- of blocks that are renumbered keep them.
theorem attach (h : Ledger a P s) {file : File} (ha : Attached file s s')
    (hidle : ∀ n ∈ s.nuploading, n = 0) (hheld : a.held → ∀ u ∈ s.uploaders, u.ranges = [])
    (hsums : a.remaining ∨ a.selected → ∀ b, ¬ s.Current b) (hn : 0 < s'.networks.length)
    (hprio : ∀ i, s'.prioritiesBitmap.getD i 0 ≠ 0 → 0 < s'.size) : Ledger a P s' := by
  have hfile : s'.file 0 = s.file 0 := by
    have := h.files_pos
    rw [State.file, State.file, ha.files, List.getD_append _ _ _ _ this]
  have hzero : ∀ i, s.nuploading.getD i 0 = 0 := fun i => by
    by_cases hi : i < s.nuploading.length
    · rw [List.getD_eq_getElem _ _ hi]
      exact hidle _ (List.getElem_mem hi)
    · exact List.getD_eq_default _ _ (Nat.not_lt.mp hi)
  have hblocks : ∀ u ∈ s.uploaders, u.blocks = [] := fun u hu => by
    by_contra hne
    obtain ⟨b, hb⟩ := List.exists_mem_of_ne_nil _ hne
    have hle := (h.selectors_le (s.block b.block).num).trans_eq (hzero _)
    have hmem : (nums s.toStore u.blocks).count (s.block b.block).num ∈
        s.uploaders.map fun u => (nums s.toStore u.blocks).count (s.block b.block).num :=
      List.mem_map_of_mem hu
    have hcount := (List.single_le_sum (fun _ _ => Nat.zero_le _) _ hmem).trans hle
    have hpos : 0 < (nums s.toStore u.blocks).count (s.block b.block).num :=
      List.count_pos_iff.mpr (List.mem_map_of_mem hb)
    omega
  refine
  { books := ha.books hsums
    networks_pos := hn
    files_pos := by rw [ha.files, List.length_append]; have := h.files_pos; omega
    nuploading_length := by rw [ha.nuploading, List.length_replicate]
    priorities := hprio
    keys_lt := fun u hu key hkey =>
      (h.keys_lt u (ha.uploaders ▸ hu) key hkey).trans_le ha.nextRange
    keys_nodup := fun u hu => h.keys_nodup u (ha.uploaders ▸ hu)
    holders_le := fun r _ => ?_
    kept := fun u hu key hkey =>
      ha.kept _ (h.keys_lt u (ha.uploaders ▸ hu) key hkey) (h.kept u (ha.uploaders ▸ hu) key hkey)
    held := fun hh u hu key hkey => ?_
    blocks_lt := fun u hu b hb =>
      (h.blocks_lt u (ha.uploaders ▸ hu) b hb).trans_le ha.nextBlock
    selectors_le := fun i => ?_
    chosen := fun _ u hu b hb => ?_
    counted := fun hc => ?_
    shared := fun hs b hb => absurd hb (ha.current (hsums (.inr hs)) b)
    safe := fun hs x _ b hb => absurd hb (ha.current (hsums (.inr hs)) b) }
  · rw [holders_congr ha.uploaders]
    by_cases hr : r < s.nextRange
    · rw [ha.rangeUploading r hr]
      exact h.holders_le r hr
    · rw [h.holders_fresh (Nat.not_lt.mp hr)]
      exact Nat.zero_le _
  · rw [ha.uploaders] at hu
    rw [hheld hh u hu] at hkey
    cases hkey
  · have hnone : s'.selectors i = 0 := by
      refine List.sum_eq_zero fun n hn => ?_
      obtain ⟨u, hu, rfl⟩ := List.mem_map.mp hn
      rw [hblocks u (ha.uploaders ▸ hu)]
      rfl
    exact hnone.trans_le (Nat.zero_le _)
  · rw [hblocks u (ha.uploaders ▸ hu)] at hb
    cases hb
  · have hpresent : s'.present = s.present := by
      ext x
      rw [mem_present, mem_present, ha.missing, ha.size]
    have := h.counted hc
    rwa [Counted, ← hfile, ← hpresent] at this

end Ledger

-- A merge that attaches a frontend found that no block was given to an uploader.
theorem merge_idle (s : State) (f2 : MergedFile) :
    Op.next (.merge f2) s = s ∨ ∀ n ∈ s.nuploading, n = 0 := by
  let Q : State → Prop := fun s' => s' = s ∨ ∀ n ∈ s.nuploading, n = 0
  have hout : Outcome (merge f2) (fun _ => Q) (fun _ => Q) s := by
    unfold Swarming.merge
    rw [outcome_get_bind, outcome_bind, outcome_check]
    refine ⟨fun _ => ?_, fun _ => .inl rfl⟩
    rw [outcome_bind]
    cases createFrontend f2.size f2.chunkSize with
    | error e => exact .inl rfl
    | ok t =>
      refine (outcome_pure t _ _ s).mpr ?_
      split
      · exact .inl rfl
      · rw [outcome_bind, outcome_check]
        refine ⟨fun _ => ?_, fun _ => .inl rfl⟩
        rw [outcome_bind, outcome_check]
        exact ⟨fun hidle => .inr hidle, fun _ => .inl rfl⟩
  exact outcome_after hout

-- A swarmer without frontends and uploaders that has no byte of its file
structure Blank (s : State) : Prop where
  laid : s.Laid
  mapped : Mapped s
  positive : 0 < s.size
  books : Books False False s.toStore
  current : ∀ b, ¬ s.Current b
  bits : s.verifiedBitmap.length = s.blocks.length
  agree : ∀ i, s.bit i = (s.blockAt i).state
  missing : ∀ x, 0 ≤ x → x < s.size → s.Missing x
  networks : s.networks = []
  files : s.files = []
  uploaders : s.uploaders = []

section Start

variable {s : State} {size : Nat}

theorem blank_createSwarmer (hs : 0 < size) : Blank (createSwarmer size) := by
  have hsize : 0 < (createSwarmer size).size := Int.natCast_pos.mpr hs
  have hlaid := laid_createSwarmer size
  have hplaced := hlaid.placed hsize
  have hempty : ∀ i, (createSwarmer size).blockAt i = .emptyBlock := fun i => by cases i <;> rfl
  refine
  { laid := hlaid
    mapped := ⟨rfl, Nat.one_pos, rfl, fun _ ht => (nomatch ht), fun _ ht => (nomatch ht)⟩
    positive := hsize
    books := ⟨hplaced, fun _ _ hr => (nomatch hr), fun r hr => absurd hr (Nat.not_lt_zero r),
      fun i _ b hb => by
        rw [hempty] at hb
        cases hb⟩
    current := ?_
    bits := rfl
    agree := fun i => ?_
    missing := fun x h₀ hx => ?_
    networks := rfl
    files := rfl
    uploaders := rfl }
  · rintro b ⟨i, -, hb⟩
    rw [hempty] at hb
    cases hb
  · rw [hempty]
    cases i <;> rfl
  · obtain ⟨i, hi, hxi⟩ := hplaced.exists_block ⟨h₀, hx⟩
    refine (hplaced.missing_iff hi hxi).mpr ?_
    rw [hempty]
    trivial

namespace Blank

theorem splitBlocks (h : Blank s) {chunkSize : Int} (hc : 0 < chunkSize) :
    Blank (s.splitBlocks chunkSize) := by
  have hr := splitBlocks_recut h.laid h.positive hc h.books h.bits
  obtain ⟨l, hl⟩ := splitBlocks_resplit h.laid h.positive hc h.books h.bits
  obtain ⟨hk, hne, hlen, hcount, -⟩ := State.splitBlocks_spec h.mapped.nonempty chunkSize
  have hnone : ∀ {p : Frontend → Prop}, ∀ t ∈ (s.splitBlocks chunkSize).networks, p t := by
    rw [hk.networks, h.networks]
    exact fun _ ht => nomatch ht
  exact
  { laid := h.laid.splitBlocks h.mapped.nonempty hc
    mapped := ⟨hlen, hne, hcount, hnone, hnone⟩
    positive := hr.size ▸ h.positive
    books := hr.books fun _ => h.current
    current := hr.current h.current
    bits := hr.bitmap_length
    agree := hr.agree h.agree
    missing := fun x h₀ hx => (hr.missing x).mpr (h.missing x h₀ (hr.size ▸ hx))
    networks := hk.networks.trans h.networks
    files := ((congrArg State.files hl.beside).trans rfl).trans h.files
    uploaders := hr.uploaders.trans h.uploaders }

theorem attached (h : Blank s) {t : Frontend} (ht : 0 < t.chunkSize) (file : File) :
    Attached file s (s.associate t file) :=
  associate_attached h.laid h.positive ht h.books h.bits file

-- Nothing of the swarmer is there yet, and no uploader is.
theorem ledger {a : Facts} {P : Int → Prop} (h : Blank s) {t : Frontend} (ht : 0 < t.chunkSize)
    {file : File} (hfile : file.downloaded = 0) : Ledger a P (s.associate t file) := by
  have ha := h.attached ht file
  have hnet := networks_associate h.mapped.nonempty t file
  set s' := s.associate t file
  have hcurrent := ha.current h.current
  have huploaders : s'.uploaders = [] := ha.uploaders.trans h.uploaders
  have hfiles : s'.files = [file] := by
    rw [ha.files, h.files, if_pos h.networks]
    rfl
  have hnone : ∀ u ∈ s'.uploaders, False := fun u hu => by
    rw [huploaders] at hu
    cases hu
  refine
  { books := ha.books fun _ => h.current
    networks_pos := by rw [hnet]; simp
    files_pos := by rw [hfiles]; exact Nat.one_pos
    nuploading_length := by rw [ha.nuploading, List.length_replicate]
    priorities := fun _ _ => ha.size.symm ▸ h.positive
    keys_lt := fun u hu => (hnone u hu).elim
    keys_nodup := fun u hu => (hnone u hu).elim
    holders_le := fun r _ => ?_
    kept := fun u hu => (hnone u hu).elim
    held := fun _ u hu => (hnone u hu).elim
    blocks_lt := fun u hu => (hnone u hu).elim
    selectors_le := fun i => ?_
    chosen := fun _ u hu => (hnone u hu).elim
    counted := fun _ => ?_
    shared := fun _ b hb => absurd hb (hcurrent b)
    safe := fun _ x _ b hb => absurd hb (hcurrent b) }
  · rw [holders, huploaders]
    exact Nat.zero_le _
  · rw [selectors, huploaders]
    exact Nat.zero_le _
  · have hpresent : s'.present = ∅ := by
      refine Finset.eq_empty_of_forall_notMem fun x hx => ?_
      obtain ⟨⟨h₀, hlt⟩, hmiss⟩ := mem_present.mp hx
      exact hmiss ((ha.missing x).mpr (h.missing x h₀ (ha.size ▸ hlt)))
    rw [Counted, hpresent, State.file, hfiles]
    exact hfile

end Blank

end Start

theorem size_next {s : State} {op : Op} (hm : Mapped s) (hop : op.Valid s) :
    (op.next s).size = s.size := by
  rcases hm.tabled hop with heq | ⟨t, file, -, heq⟩
  · exact congrArg (·.1.1) heq
  · rw [heq]
    exact (associate_spec hm.nonempty t file).1

-- The ledger of a swarmer whose blocks have as many characters as there are blocks
structure Accounted (a : Facts) (s : State) : Prop where
  ledger : Ledger a (fun _ => ¬ a.selected) s
  bits : s.verifiedBitmap.length = s.blocks.length

section Accounted

variable {a : Facts} {s : State} {op : Op}

theorem Accounted.attach (h : Accounted a s) (hshaped : Shaped s) (hs : 0 < s.size)
    (hidle : ∀ n ∈ s.nuploading, n = 0) (hheld : a.held → ∀ u ∈ s.uploaders, u.ranges = [])
    (hsums : a.remaining ∨ a.selected → ∀ b, ¬ s.Current b) {t : Frontend}
    (ht : 0 < t.chunkSize) (file : File) : Accounted a (s.associate t file) := by
  have ha : Attached file s (s.associate t file) :=
    associate_attached hshaped.laid hs ht h.ledger.books h.bits file
  refine ⟨h.ledger.attach ha hidle hheld hsums ?_ fun _ _ => ha.size.symm ▸ hs,
    ha.bitmap_length⟩
  rw [networks_associate hshaped.mapped.nonempty]
  simp

theorem Accounted.next (h : Accounted a s) (hshaped : Shaped s) (hs : 0 < s.size)
    (hop : op.Valid s) (hok : op.Accounts a s) : Accounted a (op.next s) := by
  by_cases hmerge : ∃ f2, op = .merge f2
  · obtain ⟨f2, rfl⟩ := hmerge
    rcases merge_idle s f2 with heq | hidle
    · exact heq.symm ▸ h
    · rcases merge_associates s f2 with heq | ⟨t, file, ht, -, heq⟩
      · exact heq.symm ▸ h
      · rw [heq]
        exact h.attach hshaped hs hidle hok.1 hok.2 ht.chunkSize file
  · refine ⟨?_, bits_next hshaped.mapped h.bits hop fun f2 heq => hmerge ⟨f2, heq⟩⟩
    have hplaced := h.ledger.books.placed
    have hstable := Ledger.stable (a := a) (P := fun _ => ¬ a.selected) (g := s.layout)
      hplaced.positions hplaced.nonempty
    have hrun : op.Fits (fun _ => ¬ a.selected) (Ledger.Pickable a fun _ => ¬ a.selected) s →
        Ledger a (fun _ => ¬ a.selected) (op.next s) := fun hfits =>
      outcome_after ((hstable.run ⟨h.ledger, rfl⟩ hop hfits).mono (fun _ _ h => h.1)
        fun _ _ h => h.1.1)
    cases op with
    | merge f2 => exact absurd ⟨f2, rfl⟩ hmerge
    | verifyAllChunks => exact h.ledger.verifyAllChunks hok
    | verifyAllChunksImmediately fileVerify k =>
      exact outcome_after (Outcome.forM (I := Ledger a fun _ => ¬ a.selected)
        (h.ledger.verifyAllChunks hok) fun j _ s' hs' => hs'.verifyChunk fileVerify k j)
    | setChunksVerifiedBitmap k bitmap =>
      exact outcome_after (h.ledger.setChunksVerifiedBitmap k bitmap)
    | setVerifier k f => exact outcome_after (h.ledger.setVerifier k f)
    | findRange fileVerify up rangeSize =>
      exact hrun fun b moreBlocks r q hb hr =>
        h.ledger.findRange_picks hop hok (fun hs _ hx => hx hs) hb hr
    | setPresent intervals => exact hrun fun _ _ => hok
    | setAbsent listAbsent => exact hrun fun _ _ => hok
    | _ => exact hrun trivial

theorem Accounted.reachable {verifiers : Verifier → Prop} {ok : State → Op → Prop}
    (hok : ∀ s op, ok s op → op.Accounts a s) (h : Reachable verifiers ok s) (hs : 0 < s.size) : Accounted a s := by
  refine Reach.inv_of (J := Shaped) (I := fun s => 0 < s.size → Accounted a s)
    (fun s hs => .reachable hs) (fun s hstart hs => ?_) (fun s op hshaped hs hop hsize => ?_) h hs
  · obtain ⟨size, t, file, ht, ⟨-, -, hfile, -⟩, rfl⟩ := hstart.associated
    have hsize : 0 < size := by
      rw [(associate_spec (s := createSwarmer size) Nat.one_pos t file).1] at hs
      exact Int.natCast_pos.mp hs
    have hblank := blank_createSwarmer hsize
    exact ⟨hblank.ledger ht.chunkSize hfile, (hblank.attached ht.chunkSize file).bitmap_length⟩
  · rw [size_next hshaped.mapped hop.1] at hsize
    exact (hs hsize).next hshaped hsize hop.1 (hok s op hop.2)

end Accounted

end Mldonkey.Swarming
