import Mathlib

-- Counting in a list of which one element is modified.
namespace Mldonkey.Counting

variable {α : Type}

theorem mem_modify {l : List α} {i : Nat} {f : α → α} {x d : α} (h : x ∈ l.modify i f) :
    x ∈ l ∨ i < l.length ∧ x = f (l.getD i d) := by
  obtain ⟨j, hj, rfl⟩ := List.mem_iff_getElem.mp h
  rw [List.length_modify] at hj
  rw [List.getElem_modify]
  split
  · next e =>
      subst e
      exact .inr ⟨hj, by simp [hj]⟩
  · exact .inl (List.getElem_mem hj)

theorem sum_map_modify (g : α → Nat) (f : α → α) (d : α) {l : List α} {i : Nat}
    (hi : i < l.length) :
    ((l.modify i f).map g).sum + g (l.getD i d) = (l.map g).sum + g (f (l.getD i d)) := by
  induction l generalizing i with
  | nil => simp at hi
  | cons x l ih =>
      cases i with
      | zero => simp; omega
      | succ i =>
          have := ih (i := i) (by simpa using hi)
          simp only [List.modify_succ_cons, List.map_cons, List.sum_cons, List.getD_cons_succ]
          omega

theorem countP_modify (p : α → Bool) (f : α → α) (d : α) {l : List α} {i : Nat}
    (hi : i < l.length) :
    (l.modify i f).countP p + (if p (l.getD i d) then 1 else 0) =
      l.countP p + if p (f (l.getD i d)) then 1 else 0 := by
  induction l generalizing i with
  | nil => simp at hi
  | cons x l ih =>
      cases i with
      | zero =>
          simp only [List.modify_zero_cons, List.countP_cons, List.getD_cons_zero]
          omega
      | succ i =>
          have := ih (i := i) (by simpa using hi)
          simp only [List.modify_succ_cons, List.countP_cons, List.getD_cons_succ]
          omega

theorem map_modify_same {β : Type} {g : α → β} {f : α → α} (h : ∀ x, g (f x) = g x) (l : List α)
    (i : Nat) : (l.modify i f).map g = l.map g := by
  induction l generalizing i with
  | nil => cases i <;> rfl
  | cons x l ih =>
      cases i with
      | zero => simp [h]
      | succ i => simp [ih]

theorem getD_of_length_le {l : List α} {i : Nat} (h : l.length ≤ i) (d : α) : l.getD i d = d := by
  simp [h]

theorem modify_of_length_le {l : List α} {i : Nat} (h : l.length ≤ i) (f : α → α) :
    l.modify i f = l := by
  apply List.ext_getElem?
  intro j
  rw [List.getElem?_modify]
  split
  · next e => subst e; simp [List.getElem?_eq_none h]
  · simp

end Mldonkey.Counting
