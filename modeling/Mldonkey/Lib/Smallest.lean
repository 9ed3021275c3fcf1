import Mathlib

-- The smallest elements of a finite set, up to a bound on their number.
namespace Mldonkey.Smallest

variable {κ : Type} [LinearOrder κ] {n : Nat} {S : Finset κ} {l l' : List κ} {k m : κ}

-- l lists, from the smallest on, n elements of S, or all of them.
structure Keeps (n : Nat) (S : Finset κ) (l : List κ) : Prop where
  pairwise : l.Pairwise (· < ·)
  mem : ∀ x ∈ l, x ∈ S
  length : l.length = min n S.card
  lt : ∀ x ∈ S, x ∉ l → ∀ y ∈ l, y < x

theorem Keeps.nil (n : Nat) : Keeps n (∅ : Finset κ) [] :=
  ⟨.nil, fun _ hx => absurd hx List.not_mem_nil, by simp, fun x hx =>
    absurd hx (Finset.notMem_empty x)⟩

theorem Keeps.nodup (h : Keeps n S l) : l.Nodup := h.pairwise.imp ne_of_lt

theorem Keeps.card_toFinset (h : Keeps n S l) : l.toFinset.card = l.length :=
  List.toFinset_card_of_nodup h.nodup

theorem Keeps.subset (h : Keeps n S l) : l.toFinset ⊆ S :=
  fun x hx => h.mem x (List.mem_toFinset.mp hx)

theorem Keeps.mem_of_lt (h : Keeps n S l) (hlt : l.length < n) (hk : k ∈ S) : k ∈ l := by
  have hcard : S.card ≤ l.toFinset.card := by
    rw [h.card_toFinset]
    have := h.length
    omega
  exact List.mem_toFinset.mp (Finset.eq_of_subset_of_card_le h.subset hcard ▸ hk)

theorem Keeps.eq_take_sort (h : Keeps n S l) : l = (S.sort (· ≤ ·)).take n := by
  have hrest : ∀ y ∈ (S \ l.toFinset).sort (· ≤ ·), y ∈ S ∧ y ∉ l := fun y hy => by
    rw [Finset.mem_sort, Finset.mem_sdiff, List.mem_toFinset] at hy
    exact hy
  have hsort : l ++ (S \ l.toFinset).sort (· ≤ ·) = S.sort (· ≤ ·) := by
    apply List.Perm.eq_of_pairwise' (r := (· ≤ ·))
    · rw [List.pairwise_append]
      exact ⟨h.pairwise.imp le_of_lt, Finset.pairwise_sort _ _, fun x hx y hy =>
        (h.lt y (hrest y hy).1 (hrest y hy).2 x hx).le⟩
    · exact Finset.pairwise_sort _ _
    · rw [List.perm_ext_iff_of_nodup _ (Finset.sort_nodup _ _)]
      · intro x
        rw [List.mem_append, Finset.mem_sort, Finset.mem_sort, Finset.mem_sdiff,
          List.mem_toFinset]
        constructor
        · rintro (hx | hx)
          · exact h.mem x hx
          · exact hx.1
        · intro hx
          by_cases hl : x ∈ l
          · exact .inl hl
          · exact .inr ⟨hx, hl⟩
      · exact h.nodup.append (Finset.sort_nodup _ _) fun x hx hy => (hrest x hy).2 hx
  rw [← hsort]
  by_cases hlt : l.length < n
  · have hempty : S \ l.toFinset = ∅ :=
      Finset.sdiff_eq_empty_iff_subset.mpr fun x hx =>
        List.mem_toFinset.mpr (h.mem_of_lt hlt hx)
    rw [hempty, Finset.sort_empty, List.append_nil, List.take_of_length_le hlt.le]
  · have hlength : l.length = n := by
      have := h.length
      omega
    rw [← hlength, List.take_left]

-- An element that is kept, or is not smaller than those of a full list, changes
-- nothing.
theorem Keeps.insert_mem (h : Keeps n S l) (hk : k ∈ l) : Keeps n (insert k S) l := by
  rwa [Finset.insert_eq_self.mpr (h.mem k hk)]

theorem Keeps.insert_large (h : Keeps n S l) (hfull : l.length = n) (hk : ∀ y ∈ l, y < k) :
    Keeps n (insert k S) l := by
  refine ⟨h.pairwise, fun x hx => Finset.mem_insert_of_mem (h.mem x hx), ?_, ?_⟩
  · have hle := Finset.card_le_card (Finset.subset_insert k S)
    have := h.length
    omega
  · intro x hx hl y hy
    rcases Finset.mem_insert.mp hx with rfl | hx
    · exact hk y hy
    · exact h.lt x hx hl y hy

theorem Keeps.insert_left (h : Keeps n S l) (hlt : l.length < n) (hk : k ∉ l)
    (hl' : l'.Pairwise (· < ·)) (hmem : ∀ x, x ∈ l' ↔ x = k ∨ x ∈ l)
    (hlength : l'.length = l.length + 1) : Keeps n (insert k S) l' := by
  have hS : k ∉ S := fun hS => hk (h.mem_of_lt hlt hS)
  refine ⟨hl', fun x hx => ?_, ?_, fun x hx hl y hy => ?_⟩
  · rcases (hmem x).mp hx with rfl | hx
    · exact Finset.mem_insert_self x S
    · exact Finset.mem_insert_of_mem (h.mem x hx)
  · rw [Finset.card_insert_of_notMem hS, hlength]
    have := h.length
    omega
  · rcases Finset.mem_insert.mp hx with rfl | hx
    · exact absurd ((hmem x).mpr (.inl rfl)) hl
    · exact absurd ((hmem x).mpr (.inr (h.mem_of_lt hlt hx))) hl

theorem Keeps.insert_small (h : Keeps n S l) (hfull : l.length = n) (hk : k ∉ l) (hm : m ∈ l)
    (hmax : ∀ y ∈ l, y ≤ m) (hlt : k < m) (hl' : l'.Pairwise (· < ·))
    (hmem : ∀ x, x ∈ l' ↔ x = k ∨ x ∈ l ∧ x ≠ m) (hlength : l'.length = l.length) :
    Keeps n (insert k S) l' := by
  refine ⟨hl', fun x hx => ?_, ?_, fun x hx hl y hy => ?_⟩
  · rcases (hmem x).mp hx with rfl | ⟨hx, -⟩
    · exact Finset.mem_insert_self x S
    · exact Finset.mem_insert_of_mem (h.mem x hx)
  · have hle := Finset.card_le_card (Finset.subset_insert k S)
    have := h.length
    omega
  · -- What is left out is the old maximum, or was left out before.
    have hx' : m ≤ x := by
      rcases Finset.mem_insert.mp hx with rfl | hx
      · exact absurd ((hmem x).mpr (.inl rfl)) hl
      · by_cases hxl : x ∈ l
        · by_contra hne
          exact hl ((hmem x).mpr (.inr ⟨hxl, fun heq => hne heq.ge⟩))
        · exact (h.lt x hx hxl m hm).le
    rcases (hmem y).mp hy with rfl | ⟨hy, hne⟩
    · exact hlt.trans_le hx'
    · exact ((hmax y hy).lt_of_ne hne).trans_le hx'

end Mldonkey.Smallest
