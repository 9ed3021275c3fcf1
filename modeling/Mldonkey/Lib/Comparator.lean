import Mathlib

-- Functions that compare two values by the sign of their result, and the groups of candidates
-- whose best one no other candidate beats.
namespace Mldonkey.Comparing

variable {α ι κ : Type*}

-- Positive when the first value is better, negative when the second one is. The values are
-- totally preordered.
structure Comparator (cmp : α → α → Int) : Prop where
  swap : ∀ a b, cmp b a = -cmp a b
  trans : ∀ {a b c}, 0 ≤ cmp a b → 0 ≤ cmp b c → 0 ≤ cmp a c

namespace Comparator

variable {cmp cmp' : α → α → Int} {a b c : α}

theorem self (h : Comparator cmp) (a : α) : cmp a a = 0 := by
  have := h.swap a a
  omega

theorem total (h : Comparator cmp) (a b : α) : 0 ≤ cmp a b ∨ 0 ≤ cmp b a := by
  have := h.swap a b
  omega

theorem lt_of_lt_of_le (h : Comparator cmp) (hab : 0 < cmp a b) (hbc : 0 ≤ cmp b c) :
    0 < cmp a c := by
  by_contra hle
  have hca : 0 ≤ cmp c a := by
    have := h.swap a c
    omega
  have := h.trans hbc hca
  have := h.swap a b
  omega

theorem zero : Comparator fun _ _ : α => 0 := ⟨fun _ _ => rfl, fun _ _ => le_rfl⟩

theorem flip (h : Comparator cmp) : Comparator fun a b => cmp b a :=
  ⟨fun a b => h.swap b a, fun hab hbc => h.trans hbc hab⟩

theorem of_key [LinearOrder κ] (key : α → κ) :
    Comparator fun a b => if key a < key b then -1 else if key b < key a then 1 else 0 := by
  refine ⟨fun a b => ?_, fun {a b c} hab hbc => ?_⟩
  · rcases lt_trichotomy (key a) (key b) with h | h | h
    · simp [h, h.not_gt]
    · simp [h]
    · simp [h, h.not_gt]
  · have hle : ∀ a b : α,
        0 ≤ (if key a < key b then (-1 : Int) else if key b < key a then 1 else 0) →
        key b ≤ key a := by
      intro a b h
      by_contra hlt
      rw [if_pos (not_le.mp hlt)] at h
      omega
    rw [if_neg ((hle b c hbc).trans (hle a b hab)).not_gt]
    split <;> omega

-- The second comparison decides where the first one does not.
theorem lex (h : Comparator cmp) (h' : Comparator cmp') :
    Comparator fun a b => if cmp a b ≠ 0 then cmp a b else cmp' a b := by
  refine ⟨fun a b => ?_, fun {a b c} hab hbc => ?_⟩
  · have := h.swap a b
    have := h'.swap a b
    split <;> split <;> omega
  · have hab₀ : 0 ≤ cmp a b := by split at hab <;> omega
    have hbc₀ : 0 ≤ cmp b c := by split at hbc <;> omega
    have hac₀ := h.trans hab₀ hbc₀
    split
    · exact hac₀
    · next hac =>
      -- the first comparison ties all three values
      have hca : 0 ≤ cmp c a := by
        have := h.swap a c
        omega
      have hcb := h.trans hca hab₀
      have hba := h.trans hbc₀ hca
      have := h.swap b c
      have := h.swap a b
      rw [if_neg (by omega)] at hab hbc
      exact h'.trans hab hbc

end Comparator

-- `best` is at least as good as each candidate, and the groups are those of the candidates that
-- are as good as it. A candidate belongs to the groups that its name is in.
structure Champion (cmp : α → α → Int) (name : α → ι) (groups : List (List ι)) (best : α)
    (candidates : List α) : Prop where
  unbeaten : ∀ d ∈ candidates, 0 ≤ cmp best d
  sound : ∀ l ∈ groups, ∃ c ∈ candidates, name c ∈ l ∧ cmp c best = 0
  complete : ∀ c ∈ candidates, cmp c best = 0 → ∃ l ∈ groups, name c ∈ l

namespace Champion

variable {cmp : α → α → Int} {name : α → ι} {groups : List (List ι)} {best top : α}
  {candidates new : List α} {l : List ι}

theorem nil (best : α) : Champion cmp name [] best [] :=
  ⟨fun _ h => (nomatch h), fun _ h => (nomatch h), fun _ h => (nomatch h)⟩

-- The new group's best one is worse.
theorem keep (hc : Comparator cmp) (h : Champion cmp name groups best candidates)
    (htop : ∀ d ∈ new, 0 ≤ cmp top d) (hlt : cmp top best < 0) :
    Champion cmp name groups best (new ++ candidates) := by
  have hbeats : ∀ d ∈ new, 0 < cmp best d := fun d hd =>
    hc.lt_of_lt_of_le (by have := hc.swap top best; omega) (htop d hd)
  refine ⟨fun d hd => ?_, fun l hl => ?_, fun c hcm heq => ?_⟩
  · rcases List.mem_append.mp hd with hd | hd
    · exact (hbeats d hd).le
    · exact h.unbeaten d hd
  · obtain ⟨c, hcm, hname, heq⟩ := h.sound l hl
    exact ⟨c, List.mem_append_right _ hcm, hname, heq⟩
  · rcases List.mem_append.mp hcm with hcm | hcm
    · have := hbeats c hcm
      have := hc.swap c best
      omega
    · exact h.complete c hcm heq

-- The new group's best one is better.
theorem replace (hc : Comparator cmp) (h : Champion cmp name groups best candidates)
    (hmem : top ∈ new) (htop : ∀ d ∈ new, 0 ≤ cmp top d) (hname : ∀ d ∈ new, name d ∈ l)
    (hlt : 0 < cmp top best) : Champion cmp name [l] top (new ++ candidates) := by
  have hbeats : ∀ d ∈ candidates, 0 < cmp top d := fun d hd =>
    hc.lt_of_lt_of_le hlt (h.unbeaten d hd)
  refine ⟨fun d hd => ?_, fun l' hl => ?_, fun c hcm heq => ?_⟩
  · rcases List.mem_append.mp hd with hd | hd
    · exact htop d hd
    · exact (hbeats d hd).le
  · obtain rfl := List.mem_singleton.mp hl
    exact ⟨top, List.mem_append_left _ hmem, hname top hmem, hc.self top⟩
  · rcases List.mem_append.mp hcm with hcm | hcm
    · exact ⟨l, List.mem_singleton_self l, hname c hcm⟩
    · have := hbeats c hcm
      have := hc.swap c top
      omega

-- The new group's best one is as good.
theorem add (hc : Comparator cmp) (h : Champion cmp name groups best candidates)
    (hmem : top ∈ new) (htop : ∀ d ∈ new, 0 ≤ cmp top d) (hname : ∀ d ∈ new, name d ∈ l)
    (heq : cmp top best = 0) : Champion cmp name (l :: groups) best (new ++ candidates) := by
  refine ⟨fun d hd => ?_, fun l' hl => ?_, fun c hcm hties => ?_⟩
  · rcases List.mem_append.mp hd with hd | hd
    · exact hc.trans (by have := hc.swap top best; omega) (htop d hd)
    · exact h.unbeaten d hd
  · rcases List.mem_cons.mp hl with rfl | hl
    · exact ⟨top, List.mem_append_left _ hmem, hname top hmem, heq⟩
    · obtain ⟨c, hcm, hn, hties⟩ := h.sound l' hl
      exact ⟨c, List.mem_append_right _ hcm, hn, hties⟩
  · rcases List.mem_append.mp hcm with hcm | hcm
    · exact ⟨l, List.mem_cons_self, hname c hcm⟩
    · obtain ⟨l', hl, hn⟩ := h.complete c hcm hties
      exact ⟨l', List.mem_cons_of_mem _ hl, hn⟩

theorem unbeaten_of_tie (hc : Comparator cmp) (h : Champion cmp name groups best candidates)
    {c d : α} (heq : cmp c best = 0) (hd : d ∈ candidates) : 0 ≤ cmp c d :=
  hc.trans heq.ge (h.unbeaten d hd)

end Champion

end Mldonkey.Comparing
