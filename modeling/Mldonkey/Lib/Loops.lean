import Mathlib.Tactic

-- Loops over the places of a list that may stop.
namespace Mldonkey.Lib

theorem mapM_range_of_forall {α : Type} {f : ℕ → Option α} {l : List α}
    (h : ∀ i a, l[i]? = some a → f i = some a) : (List.range l.length).mapM f = some l := by
  induction l using List.reverseRecOn with
  | nil => rfl
  | append_singleton l a ih =>
    have hlast := h l.length a (by simp)
    have hfront := ih fun i b hb => h i b (by
      rw [List.getElem?_append_left (List.getElem?_eq_some_iff.mp hb).1, hb])
    rw [List.length_append, List.length_singleton, List.range_succ, List.mapM_append, hfront]
    simp [hlast]

theorem mapM_range_eq {α : Type} {f : ℕ → Option α} {g : ℕ → α} {n : ℕ}
    (h : ∀ i < n, f i = some (g i)) : (List.range n).mapM f = some ((List.range n).map g) := by
  have hmap : (List.range ((List.range n).map g).length).mapM f = some ((List.range n).map g) := by
    refine mapM_range_of_forall fun i a ha => ?_
    obtain ⟨j, hj, rfl⟩ := List.mem_map.mp (List.mem_of_getElem? ha)
    obtain ⟨hi, hget⟩ := List.getElem?_eq_some_iff.mp ha
    rw [List.getElem_map, List.getElem_range] at hget
    rw [h i (by simpa using hi), hget]
  rwa [List.length_map, List.length_range] at hmap

lemma length_mapM {α β : Type} {f : α → Option β} {l : List α} {r : List β}
    (h : l.mapM f = some r) : r.length = l.length := by
  induction l generalizing r with
  | nil =>
    obtain rfl : [] = r := by simpa using h
    rfl
  | cons i l ih =>
    rw [List.mapM_cons] at h
    obtain ⟨a, -, h⟩ := Option.bind_eq_some_iff.mp h
    obtain ⟨r', hr', h⟩ := Option.bind_eq_some_iff.mp h
    obtain rfl : a :: r' = r := by simpa using h
    rw [List.length_cons, List.length_cons, ih hr']

end Mldonkey.Lib
