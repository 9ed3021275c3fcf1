import Mldonkey.Swarming.Bytes
import Mldonkey.Swarming.Ledger.Runs

-- The characters of blocks and chunks over whole runs, with the frontends that are merged into
-- the swarmer on the way.
namespace Mldonkey.Swarming

open Effects State Store Runs

theorem Marked.verifiers {x : Option Nat} {p q : Prop} {s s' : State} (h : Marked x p q s)
    (hstore : s'.toStore = s.toStore) (hbits : s'.verifiedBitmap = s.verifiedBitmap)
    (hlen : s'.networks.length = s.networks.length)
    (hfront : ∀ k, ∃ v, s'.frontend k = { s.frontend k with verifier := v }) :
    Marked x p q s' := by
  have hbit : ∀ i, s'.bit i = s.bit i := fun i => by simp only [State.bit, hbits]
  have hchunk : ∀ k j, (s'.frontend k).chunk j = (s.frontend k).chunk j := fun k j => by
    obtain ⟨v, hv⟩ := hfront k
    rw [hv]
    rfl
  have hnum : ∀ k i, (s'.frontend k).chunkNum i = (s.frontend k).chunkNum i := fun k i => by
    obtain ⟨v, hv⟩ := hfront k
    rw [hv]
    rfl
  have hnums : ∀ k j, (s'.frontend k).blockNums j = (s.frontend k).blockNums j := fun k j => by
    obtain ⟨v, hv⟩ := hfront k
    rw [hv]
    rfl
  have ht := h.tagged
  refine ⟨⟨?_, hlen ▸ ht.networks_pos, fun k hk => ?_, fun i => ?_, fun j hj hx => ?_,
    fun i hi hv => ?_, fun j hx hc i hi => ?_, fun k hk i hi hc => ?_⟩,
    fun hp i hi hv => ?_, fun hq k hk i hi hc => ?_⟩
  · rw [hbits, hstore]
    exact ht.bitmap_length
  · obtain ⟨v, hv⟩ := hfront k
    rw [hv, hstore]
    have := ht.tabled k (hlen ▸ hk)
    exact ⟨this.chunkNum_lt, this.mem_blockNums, this.exists_block, this.nodup⟩
  · rw [hbit, hstore]
    exact ht.agree i
  · obtain ⟨v, hv⟩ := hfront 0
    rw [hv] at hj
    rw [hchunk, hnums, ht.done j hj hx]
    simp only [hbit]
  · rw [hbit] at hv
    rw [hchunk, hnum]
    exact ht.verified_done i (hstore ▸ hi) hv
  · rw [hchunk] at hc
    rw [hnums] at hi
    rw [hbit]
    exact ht.verified_blocks j hx hc i hi
  · rw [hchunk, hnum] at hc
    rw [hbit]
    exact ht.secondary k hk i (hstore ▸ hi) hc
  · rw [hbit] at hv
    rw [hchunk, hnum]
    exact h.fromPrimary hp i (hstore ▸ hi) hv
  · rw [hchunk, hnum] at hc
    rw [hbit]
    exact h.secondary hq k hk i (hstore ▸ hi) hc

-- What keeps the characters true: no check of all chunks, which takes back the characters of
-- verified blocks alone, and a primary that goes on verifying its chunks.
def Op.Trusting : Op → Prop
  | .verifyAllChunks | .verifyAllChunksImmediately .. => False
  | .setVerifier k f => k = 0 → f ≠ .noVerification
  | _ => True

-- No bitmap makes chunks of a secondary verified that are not complete.
def Op.Consistent (s : State) : Op → Prop
  | .setChunksVerifiedBitmap k bitmap =>
      0 < k → ∀ j, VB.get bitmap j = .stateVerified → ((s.frontend k).chunk j).Done
  | _ => True

theorem State.KeepsDone.trans {k : Nat} {s s' s'' : State} (h : KeepsDone k s s')
    (h' : KeepsDone k s' s'') : KeepsDone k s s'' :=
  ⟨h.toSameShape.trans h'.toSameShape, fun hk j hd => h'.done hk j (h.done hk j hd)⟩

namespace Tags

variable {q : Prop} {n : Nat} {g : Int × List Int × Nat} {s : State} {op : Op} {G : Exn → Prop}

theorem setFrontendStateComplete {p : Prop} (h : Tags p q n g s) (k j : Nat) :
    Tags p q n g (s.setFrontendStateComplete k j) ∧
      KeepsDone k s (s.setFrontendStateComplete k j) := by
  have hone : ∀ {s : State}, Tags p q n g s → ∀ i, KeepsDone k s (s.setCompletedBlock none i) := by
    intro s h i
    by_cases hd : (s.blockAt i).state.Done
    · rw [setCompletedBlock_of_done none hd]
      exact ⟨.refl s, fun _ _ hd => hd⟩
    · have hc := setCompletedBlock_completes none (h.toMarked.not_done hd) hd
      exact ⟨hc.toSameShape, fun hk j hd => (hc.secondary k hk).symm ▸ hd⟩
  have hfold : ∀ (l : List Nat) {s' : State}, Tags p q n g s' → KeepsDone k s s' →
      Tags p q n g (l.foldl (fun s i => s.setCompletedBlock none i) s') ∧
        KeepsDone k s (l.foldl (fun s i => s.setCompletedBlock none i) s') := by
    intro l
    induction l with
    | nil => exact fun h hk => ⟨h, hk⟩
    | cons i l ih => exact fun h hk => ih (h.setCompletedBlock none i) (hk.trans (hone h i))
  unfold State.setFrontendStateComplete
  split
  · exact hfold _ h ⟨.refl s, fun _ _ hd => hd⟩
  · exact hfold _ h ⟨.refl s, fun _ _ hd => hd⟩
  · exact ⟨h, .refl s, fun _ _ hd => hd⟩
  · exact ⟨h, .refl s, fun _ _ hd => hd⟩

-- The chunks that the bitmap makes verified were complete when it was read, and still are.
theorem setChunksVerifiedBitmap {p : Prop} (hG : Allows p n G) (h : Tags p q n g s) {k : Nat}
    (hk : k < n) (bitmap : VerificationBitmap)
    (hq : q → 0 < k → ∀ j, VB.get bitmap j = .stateVerified → ((s.frontend k).chunk j).Done) :
    Outcome (setChunksVerifiedBitmap k bitmap)
      (fun _ => Tags p q n g) (Ends (Tags p q n g) G) s := by
  unfold Swarming.setChunksVerifiedBitmap
  refine (Outcome.forM (I := fun s' => Tags p q n g s' ∧ KeepsDone k s s')
    ⟨h, .refl s, fun _ _ hd => hd⟩ fun j _ s' hs' => ?_).mono (fun _ _ h => h.1) fun _ _ h => h
  obtain ⟨h', hkeep⟩ := hs'
  split
  · exact ⟨h', hkeep⟩
  · exact ⟨h', hkeep⟩
  · rw [outcome_get_bind]
    refine (Reads.check _ (by simp [Exn.Calm])).outcome_bind (fun _ he => h'.ends hG he)
      fun _ => ?_
    have hc := h'.setFrontendStateComplete k j
    exact ⟨hc.1, hkeep.trans hc.2⟩
  · next hv =>
    rw [outcome_get_bind]
    refine (Reads.check _ (by simp [Exn.Calm])).outcome_bind (fun _ he => h'.ends hG he)
      fun _ => ?_
    exact (h'.setFrontendStateVerified hk fun hq' hpos =>
      hkeep.done hpos j (hq hq' hpos j hv)).mono (fun _ _ hn => ⟨hn.1, hkeep.trans hn.2⟩)
      fun _ _ h => h.elim

theorem withVerifier (h : Tags True q n g s) {k : Nat} {f : Verifier}
    (hf : k = 0 → f ≠ .noVerification) :
    Tags True q n g (s.modifyFrontend k fun t => { t with verifier := f }) := by
  have hfront : ∀ k', (s.modifyFrontend k fun t => { t with verifier := f }).frontend k' =
      if k' = k ∧ k < s.networks.length then { s.frontend k with verifier := f }
      else s.frontend k' := fun k' => frontend_modifyFrontend s k k' _
  have hlen : (s.modifyFrontend k fun t => { t with verifier := f }).networks.length =
      s.networks.length := List.length_modify _ _ _
  refine ⟨h.toMarked.verifiers rfl rfl hlen fun k' => ?_, h.layout,
    hlen.trans h.networks_length, fun hv => ?_⟩
  · rw [hfront]
    split
    · next hk => exact ⟨f, by rw [hk.1]⟩
    · exact ⟨_, rfl⟩
  · rw [hfront] at hv
    split at hv
    · next hk => exact absurd hv (hf hk.1.symm)
    · exact absurd trivial (h.trusted hv).1

-- Every operation but merge that trusts the primary keeps the characters.
theorem run (hG : Allows True n G) (h : Tags True q n g s) (hpos : g.2.1.length = g.2.2)
    (hne : 0 < g.2.2) (hop : op.Valid s) (hok : op.Trusting) (hq : q → op.Consistent s)
    (hmerge : ∀ f2, op ≠ .merge f2) :
    Outcome op.run (fun _ => Tags True q n g) (Ends (Tags True q n g) G) s := by
  have hstable := Tags.stable (p := True) (q := q) hG hpos hne
  cases op with
  | merge f2 => exact absurd rfl (hmerge f2)
  | verifyAllChunks => exact hok.elim
  | verifyAllChunksImmediately fileVerify k => exact hok.elim
  | setChunksVerifiedBitmap k bitmap =>
    exact h.setChunksVerifiedBitmap hG (h.networks_length ▸ hop) bitmap hq
  | setVerifier k f =>
    show Outcome (setVerifier k f) _ _ s
    unfold Swarming.setVerifier
    rw [outcome_modify_bind, outcome_get_bind]
    refine (h.withVerifier hok).setChunksVerifiedBitmap hG (h.networks_length ▸ hop) _
      fun _ _ j hv => ?_
    rw [Frontend.chunk, hv]
    decide
  | findRange fileVerify up rangeSize => exact hstable.run h hop fun _ _ _ _ _ _ => trivial
  | setPresent intervals => exact hstable.run h hop fun _ _ => trivial
  | setAbsent listAbsent => exact hstable.run h hop fun _ _ => trivial
  | _ => exact hstable.run h hop trivial

end Tags

theorem VB.get_create (n i : Nat) : VB.get (VB.create n .stateMissing) i = .stateMissing := by
  rw [VB.get, VB.create, List.getD_eq_getElem?_getD, List.getElem?_replicate]
  split <;> rfl

section Attach

variable {s s' : State} {p q : Prop} {t : Frontend} {file : File}

-- The frontends that were there keep their chunks, and the new one has nothing yet.
theorem frontend_associate (hne : 0 < s.blocks.length) (t : Frontend) (file : File) {k : Nat}
    (hk : k < s.networks.length) : (s.associate t file).frontend k =
      (s.frontend k).mapBlocks (s.associate t file).toStore := by
  rw [State.frontend, networks_associate hne, List.getD_eq_getElem?_getD, List.getElem?_map,
    List.getElem?_append_left hk, List.getElem?_eq_getElem hk]
  simp [State.frontend, hk]

theorem chunkAt_associate (hne : 0 < s.blocks.length) (t : Frontend) (file : File) {k : Nat}
    (hk : s.networks.length ≤ k) (x : Int) :
    ((s.associate t file).frontend k).chunkAt x = .stateMissing := by
  rcases hk.lt_or_eq with hlt | rfl
  · refine chunkAt_of_length_le ?_ x
    rw [networks_associate hne, List.length_map, List.length_append, List.length_singleton]
    exact hlt
  · have hnew : ((s.associate t file).frontend s.networks.length).convertedVerifiedBitmap =
        VB.create t.nchunks .stateMissing := by
      rw [State.frontend, networks_associate hne]
      simp [Frontend.mapBlocks]
    rw [Frontend.chunkAt, Frontend.chunk, hnew]
    exact VB.get_create _ _

theorem TaggedBytes.associate (h : TaggedBytes p q s) (hne : 0 < s.blocks.length)
    (ha : Attached file s (s.associate t file)) : TaggedBytes p q (s.associate t file) := by
  have hold : ∀ {k}, k < s.networks.length → ∀ x,
      ((s.associate t file).frontend k).chunkAt x = (s.frontend k).chunkAt x := fun hk x => by
    rw [frontend_associate hne t file hk]
    rfl
  have hsecondary : ∀ {c : PartState} {k x}, c ≠ .stateMissing →
      ((s.associate t file).frontend k).chunkAt x = c → (s.frontend k).chunkAt x = c := by
    intro c k x hc hx
    by_cases hk : k < s.networks.length
    · rwa [hold hk] at hx
    · rw [chunkAt_associate hne t file (Nat.not_lt.mp hk)] at hx
      exact absurd hx.symm hc
  have h0 := h.networks_pos
  refine ⟨ha.bitmap_length, ?_, ha.agree h.agree, fun j hj => ?_, fun x hv => ?_,
    fun x h₁ h₂ hc => ?_, fun k hk x h₁ h₂ hc => ?_, fun hp x hv => ?_,
    fun hq k hk x h₁ h₂ hc => ?_⟩
  · rw [networks_associate hne]
    simp
  · rw [frontend_associate hne t file h0] at hj ⊢
    simp only [ha.missing, ha.size]
    exact h.done j hj
  · rw [hold h0]
    exact h.verified_done x ((ha.verified x).mp hv)
  · rw [hold h0] at hc
    exact (ha.verified x).mpr (h.verified_bytes x h₁ (ha.size ▸ h₂) hc)
  · exact (ha.verified x).mpr
      (h.secondary k hk x h₁ (ha.size ▸ h₂) (hsecondary (by simp) hc))
  · rw [hold h0]
    exact h.fromPrimary hp x ((ha.verified x).mp hv)
  · exact (ha.verified x).mpr
      (h.secondaryVerified hq k hk x h₁ (ha.size ▸ h₂) (hsecondary (by simp) hc))

end Attach

-- The facts that any run keeps
def noFacts : Facts := ⟨False, False, False, False, id⟩

theorem accounted_of_reachable {verifiers : Verifier → Prop} {ok : State → Op → Prop} {s : State}
    (h : Reachable verifiers ok s) (hs : 0 < s.size) : Accounted noFacts s := by
  refine Accounted.reachable (fun s op _ => ?_) h hs
  exact Op.accounts_of_unselected id id fun _ _ => ⟨False.elim, False.elim⟩

section Runs

variable {s : State} {op : Op}

-- No character of the first frontend of a blank swarmer is that of a complete chunk.
theorem Blank.marked {s₀ : State} (h : Blank s₀) {t : Frontend} (ht : 0 < t.chunkSize)
    (file : File) (hshaped : Shaped (s₀.associate t file)) :
    Marked none True q (s₀.associate t file) := by
  have ha := h.attached ht file
  have hnew := fun k => chunkAt_associate h.mapped.nonempty t file
    (show s₀.networks.length ≤ k by rw [h.networks]; exact Nat.zero_le k)
  have hnet := networks_associate h.mapped.nonempty t file
  set s := s₀.associate t file
  have hsize : 0 < s.size := ha.size ▸ h.positive
  have hagree : ∀ i, s.bit i = (s.blockAt i).state := ha.agree h.agree
  have h0 : 0 < s.networks.length := by rw [hnet]; simp
  -- each block misses its first byte, so that no character is that of a complete one
  have hbit : ∀ i < s.blocks.length, ¬ (s.bit i).Done := fun i hi hd => by
    rw [hagree] at hd
    have hplaced := hshaped.laid.placed hsize
    have hx := hshaped.begin_mem hsize hi
    refine not_missing_of_done hplaced hi hx hd
      ((ha.missing _).mpr (h.missing _ (hplaced.begin_nonneg hi) ?_))
    have := hplaced.end_le_size hi
    rw [ha.size] at this
    omega
  have hchunk : ∀ k i, i < s.blocks.length → (s.frontend k).chunk ((s.frontend k).chunkNum i) =
      .stateMissing := fun k i hi => by
    by_cases hk : k < s.networks.length
    · rw [← hshaped.chunkAt hk hi (hshaped.begin_mem hsize hi)]
      exact hnew k _
    · rw [frontend_of_length_le (Nat.not_lt.mp hk)]
      exact Frontend.chunk_of_length_le (Nat.zero_le _)
  have htabled : ∀ k < s.networks.length, (s.frontend k).Tabled s.blocks.length :=
    fun k hk => hshaped.tabled (frontend_mem hk)
  have hnums : ∀ {i j}, i ∈ (s.frontend 0).blockNums j → i < s.blocks.length ∧
      (s.frontend 0).chunkNum i = j := fun hi => ((htabled 0 h0).mem_blockNums _ _).mp hi
  refine ⟨⟨ha.bitmap_length, h0, htabled, hagree, fun j hj _ => ?_, fun i hi hv => ?_,
    fun j _ hc i hi => ?_, fun k hk i hi hc => ?_⟩, fun _ i hi hv => ?_, fun _ k hk i hi hc => ?_⟩
  · obtain ⟨i, hi, rfl⟩ := (htabled 0 h0).exists_block j hj
    rw [hchunk 0 i hi]
    refine iff_of_false (by decide) fun hall => hbit i hi (hall i ?_)
    exact ((htabled 0 h0).mem_blockNums _ _).mpr ⟨hi, rfl⟩
  · exact absurd (.inr hv) (hbit i hi)
  · obtain ⟨hi', rfl⟩ := hnums hi
    rw [hchunk 0 i hi'] at hc
    cases hc
  · rw [hchunk k i hi] at hc
    cases hc
  · exact absurd (.inr hv) (hbit i hi)
  · rw [hchunk k i hi] at hc
    cases hc

-- The characters of blocks and chunks, with a primary that verifies its chunks
structure Trusted (q : Prop) (s : State) : Prop where
  marked : Marked none True q s
  verifier : (s.frontend 0).verifier ≠ .noVerification

theorem Trusted.tags (h : Trusted q s) : Tags True q s.networks.length s.layout s :=
  ⟨h.marked, rfl, rfl, fun hv => absurd hv h.verifier⟩

theorem Trusted.reachable {ok : State → Op → Prop}
    (htrusting : ∀ {s op}, ok s op → op.Trusting ∧ (q → op.Consistent s))
    (h : Reachable (· ≠ .noVerification) ok s) (hs : 0 < s.size) : Trusted q s := by
  induction h with
  | @start s hstart =>
    have hreach : Reachable (· ≠ .noVerification) ok s := .start hstart
    have hshaped := Shaped.reachable hreach
    obtain ⟨size, t, file, ht, ⟨-, -, -, hv⟩, rfl⟩ := hstart.associated
    rw [(associate_spec (s := createSwarmer size) Nat.one_pos t file).1] at hs
    refine ⟨(blank_createSwarmer (Int.natCast_pos.mp hs)).marked ht.chunkSize file hshaped, ?_⟩
    rw [State.frontend, networks_associate (s := createSwarmer size) Nat.one_pos]
    exact hv
  | @step s op hreach hop ih =>
    have hshaped : Shaped s := .reachable hreach
    have hshaped' : Shaped (op.next s) := .reachable (.step hreach hop)
    have hs' := hs
    rw [size_next hshaped.mapped hop.1] at hs
    have htrusted := ih hs
    have haccounted := accounted_of_reachable hreach hs
    by_cases hmerge : ∃ f2, op = .merge f2
    · obtain ⟨f2, rfl⟩ := hmerge
      rcases merge_associates s f2 with heq | ⟨t, file, ht, -, heq⟩
      · exact heq.symm ▸ htrusted
      · have ha : Attached file s (s.associate t file) := associate_attached hshaped.laid hs
          ht.chunkSize haccounted.ledger.books haccounted.bits file
        have hbytes := htrusted.marked.taggedBytes hshaped haccounted.ledger.books hs
        rw [heq] at hshaped' hs' ⊢
        refine ⟨(hbytes.associate hshaped.mapped.nonempty ha).marked hshaped'
          (ha.books (c := False) (d := False) fun hn => (hn.elim id id).elim) hs', ?_⟩
        rw [frontend_associate hshaped.mapped.nonempty t file htrusted.marked.tagged.networks_pos]
        exact htrusted.verifier
    · have hplaced := haccounted.ledger.books.placed
      have hallows : Allows True s.networks.length fun _ => True :=
        ⟨fun _ _ => trivial, fun _ _ _ => trivial⟩
      have hok := htrusting hop.2
      have htags : Tags True q s.networks.length s.layout (op.next s) := outcome_after
        ((htrusted.tags.run hallows hplaced.positions hplaced.nonempty hop.1 hok.1 hok.2
          fun f2 heq => hmerge ⟨f2, heq⟩).mono (fun _ _ h => h) fun _ _ h => h.1)
      exact ⟨htags.toMarked, fun hv => (htags.trusted hv).1 trivial⟩

end Runs

end Mldonkey.Swarming
