import Mldonkey.Swarming.Attach
import Mldonkey.Swarming.Tags.Trace

-- The invariant of the tags said of bytes, which does not depend on where the blocks lie.
namespace Mldonkey.Swarming

open Effects State HalfOpen

-- The character of the chunk with the byte at `x`
def Frontend.chunkAt (t : Frontend) (x : Int) : PartState := t.chunk (x / t.chunkSize).toNat

-- What the characters of the chunks say of the bytes that are missing or verified.
structure TaggedBytes (p q : Prop) (s : State) : Prop where
  bitmap_length : s.verifiedBitmap.length = s.blocks.length
  networks_pos : 0 < s.networks.length
  agree : ∀ i, s.bit i = (s.blockAt i).state
  done : ∀ j < (s.frontend 0).convertedVerifiedBitmap.length, ((s.frontend 0).chunk j).Done ↔
    ∀ x, 0 ≤ x → x < s.size → (x / (s.frontend 0).chunkSize).toNat = j → ¬ s.Missing x
  verified_done : ∀ x, s.Verified x → ((s.frontend 0).chunkAt x).Done
  verified_bytes : ∀ x, 0 ≤ x → x < s.size → (s.frontend 0).chunkAt x = .stateVerified →
    s.Verified x
  secondary : ∀ k, 0 < k → ∀ x, 0 ≤ x → x < s.size → (s.frontend k).chunkAt x = .stateComplete →
    s.Verified x
  fromPrimary : p → ∀ x, s.Verified x → (s.frontend 0).chunkAt x = .stateVerified
  secondaryVerified : q → ∀ k, 0 < k → ∀ x, 0 ≤ x → x < s.size →
    (s.frontend k).chunkAt x = .stateVerified → s.Verified x

section Shaped

variable {s : State} {c d p q : Prop} {i j k : Nat} {x : Int}

theorem frontend_mem (hk : k < s.networks.length) : s.frontend k ∈ s.networks := by
  simp [State.frontend, hk]

theorem chunkAt_of_length_le (hk : s.networks.length ≤ k) (x : Int) :
    (s.frontend k).chunkAt x = .stateMissing := by
  rw [frontend_of_length_le hk]
  exact Frontend.chunk_of_length_le (Nat.zero_le _)

-- The chunk of a block is that of each of its bytes.
theorem Shaped.chunkAt (h : Shaped s) (hk : k < s.networks.length) (hi : i < s.blocks.length)
    (hx : s.computeBlockBegin i ≤ x ∧ x < s.computeBlockEnd i) :
    (x / (s.frontend k).chunkSize).toNat = (s.frontend k).chunkNum i := by
  have ht := frontend_mem hk
  obtain ⟨hlow, hhigh⟩ := h.within ht hi
  have hc := (h.chunked _ ht).1
  have : x / (s.frontend k).chunkSize = (s.frontend k).chunkNum i := by
    rw [Int.ediv_eq_iff_of_pos hc, mul_comm]
    rw [mul_add] at hhigh
    omega
  rw [this, Int.toNat_natCast]

theorem Shaped.begin_mem (h : Shaped s) (hs : 0 < s.size) (hi : i < s.blocks.length) :
    s.computeBlockBegin i ≤ s.computeBlockBegin i ∧
      s.computeBlockBegin i < s.computeBlockEnd i :=
  ⟨le_rfl, (h.laid.placed hs).lt hs i hi⟩

theorem verified_iff (h : s.Placed) (hi : i < s.blocks.length)
    (hx : s.computeBlockBegin i ≤ x ∧ x < s.computeBlockEnd i) :
    s.Verified x ↔ s.blockAt i = .verifiedBlock := by
  refine ⟨fun ⟨j, hj, h₁, h₂, hv⟩ => ?_, fun hv => ⟨i, hi, hx.1, hx.2, hv⟩⟩
  rwa [h.unique hi hj hx ⟨h₁, h₂⟩]

theorem verified_bounds (h : s.Placed) (hv : s.Verified x) : 0 ≤ x ∧ x < s.size := by
  obtain ⟨i, hi, h₁, h₂, -⟩ := hv
  have := h.begin_nonneg hi
  have := h.end_le_size hi
  omega

theorem state_verified_iff (b : BlockV) : b.state = .stateVerified ↔ b = .verifiedBlock := by
  cases b <;> simp [BlockV.state]

theorem not_missing_of_done (h : s.Placed) (hi : i < s.blocks.length)
    (hx : s.computeBlockBegin i ≤ x ∧ x < s.computeBlockEnd i) (hd : (s.blockAt i).state.Done) :
    ¬ s.Missing x := by
  rw [h.missing_iff hi hx]
  cases hb : s.blockAt i with
  | emptyBlock => simp [hb, BlockV.state] at hd
  | partialBlock b => simp [hb, BlockV.state] at hd
  | _ => exact fun h => h

-- A block that is not complete misses a byte.
theorem exists_missing (hb : Store.Books c d s.toStore) (hs : 0 < s.size)
    (hi : i < s.blocks.length) (hd : ¬ (s.blockAt i).state.Done) :
    ∃ x, (s.computeBlockBegin i ≤ x ∧ x < s.computeBlockEnd i) ∧ s.Missing x := by
  cases hv : s.blockAt i with
  | emptyBlock =>
    have hlt := hb.placed.lt hs i hi
    exact ⟨_, ⟨le_rfl, hlt⟩, i, hi, le_rfl, hlt, by rw [hv]; trivial⟩
  | partialBlock b =>
    have hsound := (hb.tidy i hi b hv).toSound
    obtain ⟨r, hr⟩ := List.exists_mem_of_ne_nil _ hsound.ranges_ne
    obtain ⟨h₁, h₂, h₃⟩ := hsound.of_mem hr
    have hx : s.computeBlockBegin i ≤ (s.range r).rangeBegin ∧
        (s.range r).rangeBegin < s.computeBlockEnd i := by omega
    refine ⟨_, hx, i, hi, hx.1, hx.2, ?_⟩
    rw [hv]
    exact ⟨_, List.mem_map_of_mem hr, le_rfl, h₂⟩
  | completeBlock => simp [hv, BlockV.state] at hd
  | verifiedBlock => simp [hv, BlockV.state] at hd

theorem Marked.taggedBytes (hm : Marked none p q s) (h : Shaped s)
    (hb : Store.Books c d s.toStore) (hs : 0 < s.size) : TaggedBytes p q s := by
  have hplaced := hb.placed
  have hagree := hm.tagged.agree
  have h0 := hm.tagged.networks_pos
  have hcases : ∀ {x : Int}, 0 ≤ x → x < s.size → ∃ i < s.blocks.length,
      (s.computeBlockBegin i ≤ x ∧ x < s.computeBlockEnd i) ∧
      ∀ k < s.networks.length, (s.frontend k).chunkAt x = (s.frontend k).chunk
        ((s.frontend k).chunkNum i) := by
    intro x h₁ h₂
    obtain ⟨i, hi, hx⟩ := hplaced.exists_block ⟨h₁, h₂⟩
    exact ⟨i, hi, hx, fun k hk => by rw [Frontend.chunkAt, h.chunkAt hk hi hx]⟩
  have hbit : ∀ {i : Nat}, i < s.blocks.length → ∀ {x : Int}, s.computeBlockBegin i ≤ x ∧
      x < s.computeBlockEnd i → (s.bit i = .stateVerified ↔ s.Verified x) := fun hi x hx => by
    rw [hagree, state_verified_iff, verified_iff hplaced hi hx]
  have hbounds : ∀ {x : Int}, s.Verified x → 0 ≤ x ∧ x < s.size := verified_bounds hplaced
  refine ⟨hm.tagged.bitmap_length, h0, hagree, fun j hj => ?_, fun x hv => ?_,
    fun x h₁ h₂ hc => ?_, fun k hk x h₁ h₂ hc => ?_, fun hp x hv => ?_, fun hq k hk x h₁ h₂ hc => ?_⟩
  · rw [hm.tagged.done j hj (by simp)]
    constructor
    · intro hall x h₁ h₂ hxj
      obtain ⟨i, hi, hx⟩ := hplaced.exists_block ⟨h₁, h₂⟩
      have hij := (h.chunkAt h0 hi hx).symm.trans hxj
      have hd := hall i (hm.tagged.mem_blockNums.mpr ⟨hi, hij⟩)
      rw [hagree] at hd
      exact not_missing_of_done hplaced hi hx hd
    · intro hall i hi
      obtain ⟨hi, hij⟩ := hm.tagged.mem_blockNums.mp hi
      by_contra hd
      rw [hagree] at hd
      obtain ⟨x, hx, hmiss⟩ := exists_missing hb hs hi hd
      obtain ⟨h₁, h₂⟩ := hplaced.missing_bounds hmiss
      exact hall x h₁ h₂ ((h.chunkAt h0 hi hx).trans hij) hmiss
  · obtain ⟨h₁, h₂⟩ := hbounds hv
    obtain ⟨i, hi, hx, hchunk⟩ := hcases h₁ h₂
    rw [hchunk 0 h0]
    exact hm.tagged.verified_done i hi ((hbit hi hx).mpr hv)
  · obtain ⟨i, hi, hx, hchunk⟩ := hcases h₁ h₂
    rw [hchunk 0 h0] at hc
    exact (hbit hi hx).mp (hm.tagged.verified_blocks _ (by simp) hc i
      (hm.tagged.mem_blockNums.mpr ⟨hi, rfl⟩))
  · obtain ⟨i, hi, hx, hchunk⟩ := hcases h₁ h₂
    by_cases hlt : k < s.networks.length
    · rw [hchunk k hlt] at hc
      exact (hbit hi hx).mp (hm.tagged.secondary k hk i hi hc)
    · rw [chunkAt_of_length_le (by omega)] at hc
      cases hc
  · obtain ⟨h₁, h₂⟩ := hbounds hv
    obtain ⟨i, hi, hx, hchunk⟩ := hcases h₁ h₂
    rw [hchunk 0 h0]
    exact hm.fromPrimary hp i hi ((hbit hi hx).mpr hv)
  · obtain ⟨i, hi, hx, hchunk⟩ := hcases h₁ h₂
    by_cases hlt : k < s.networks.length
    · rw [hchunk k hlt] at hc
      exact (hbit hi hx).mp (hm.secondary hq k hk i hi hc)
    · rw [chunkAt_of_length_le (by omega)] at hc
      cases hc

theorem TaggedBytes.marked (ht : TaggedBytes p q s) (h : Shaped s)
    (hb : Store.Books c d s.toStore) (hs : 0 < s.size) : Marked none p q s := by
  have hplaced := hb.placed
  have h0 := ht.networks_pos
  have hbegin : ∀ {i : Nat}, i < s.blocks.length → 0 ≤ s.computeBlockBegin i ∧
      s.computeBlockBegin i < s.size ∧
      (s.bit i = .stateVerified ↔ s.Verified (s.computeBlockBegin i)) := by
    intro i hi
    have hx := h.begin_mem hs hi
    have hend := hplaced.end_le_size hi
    refine ⟨hplaced.begin_nonneg hi, by omega, ?_⟩
    rw [ht.agree, state_verified_iff, verified_iff hplaced hi hx]
  have hchunk : ∀ {i : Nat}, i < s.blocks.length → ∀ {k : Nat}, k < s.networks.length →
      (s.frontend k).chunkAt (s.computeBlockBegin i) =
        (s.frontend k).chunk ((s.frontend k).chunkNum i) := fun hi k hk => by
    rw [Frontend.chunkAt, h.chunkAt hk hi (h.begin_mem hs hi)]
  have hnums : ∀ {i j : Nat}, i ∈ (s.frontend 0).blockNums j ↔
      i < s.blocks.length ∧ (s.frontend 0).chunkNum i = j := h.mem_blockNums (frontend_mem h0)
  have hbeyond : ∀ {k j : Nat} {c : PartState}, 0 < k → (s.frontend k).chunk j = c →
      c ≠ .stateMissing → k < s.networks.length := by
    intro k j c _ hc hne
    by_contra hlt
    rw [frontend_of_length_le (by omega), Frontend.chunk_of_length_le (Nat.zero_le _)] at hc
    exact hne hc.symm
  refine ⟨⟨ht.bitmap_length, h0, fun k hk => h.tabled (frontend_mem hk), ht.agree,
    fun j hj _ => ?_, fun i hi hv => ?_, fun j _ hc i hi => ?_, fun k hk i hi hc => ?_⟩,
    fun hp i hi hv => ?_, fun hq k hk i hi hc => ?_⟩
  · rw [ht.done j hj]
    constructor
    · intro hall i hi
      obtain ⟨hi, hij⟩ := hnums.mp hi
      by_contra hd
      rw [ht.agree] at hd
      obtain ⟨x, hx, hmiss⟩ := exists_missing hb hs hi hd
      obtain ⟨h₁, h₂⟩ := hplaced.missing_bounds hmiss
      exact hall x h₁ h₂ ((h.chunkAt h0 hi hx).trans hij) hmiss
    · intro hall x h₁ h₂ hxj
      obtain ⟨i, hi, hx⟩ := hplaced.exists_block ⟨h₁, h₂⟩
      have hd := hall i (hnums.mpr ⟨hi, (h.chunkAt h0 hi hx).symm.trans hxj⟩)
      rw [ht.agree] at hd
      exact not_missing_of_done hplaced hi hx hd
  · rw [← hchunk hi h0]
    exact ht.verified_done _ ((hbegin hi).2.2.mp hv)
  · obtain ⟨hi', rfl⟩ := hnums.mp hi
    rw [← hchunk hi' h0] at hc
    exact (hbegin hi').2.2.mpr (ht.verified_bytes _ (hbegin hi').1 (hbegin hi').2.1 hc)
  · rw [← hchunk hi (hbeyond hk hc (by simp))] at hc
    exact (hbegin hi).2.2.mpr (ht.secondary k hk _ (hbegin hi).1 (hbegin hi).2.1 hc)
  · rw [← hchunk hi h0]
    exact ht.fromPrimary hp _ ((hbegin hi).2.2.mp hv)
  · rw [← hchunk hi (hbeyond hk hc (by simp))] at hc
    exact (hbegin hi).2.2.mpr (ht.secondaryVerified hq k hk _ (hbegin hi).1 (hbegin hi).2.1 hc)

end Shaped

end Mldonkey.Swarming
