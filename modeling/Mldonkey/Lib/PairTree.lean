import Mathlib

-- Binary trees over a list of leaves, as the list of their levels: a level joins
-- the nodes of the next one by pairs, and an odd last node goes up as it is.
namespace Mldonkey.PairTree

variable {D : Type} (node : D → D → D)

def pairUp : List D → List D
  | a :: b :: l => node a b :: pairUp l
  | l => l

variable {node} {l : List D}

theorem length_pairUp (l : List D) : (pairUp node l).length = (l.length + 1) / 2 := by
  fun_induction pairUp node l with
  | case1 a b l ih =>
      simp only [List.length_cons, ih]
      omega
  | case2 l h =>
      cases l with
      | nil => simp
      | cons a l =>
          cases l with
          | nil => simp
          | cons b l => exact absurd rfl (h a b l)

-- The nodes of a pair, and the odd last one.
theorem getElem?_pairUp (l : List D) (i : Nat) :
    (pairUp node l)[i]? =
      match l[2 * i]?, l[2 * i + 1]? with
      | some a, some b => some (node a b)
      | a, _ => a := by
  fun_induction pairUp node l generalizing i with
  | case1 a b l ih =>
      cases i with
      | zero => rfl
      | succ i =>
          rw [List.getElem?_cons_succ, ih i]
          rfl
  | case2 l h =>
      cases l with
      | nil => rfl
      | cons a l =>
          cases l with
          | nil => cases i <;> rfl
          | cons b l => exact absurd rfl (h a b l)

theorem getElem?_pairUp_pair {i : Nat} (hi : 2 * i + 1 < l.length) :
    (pairUp node l)[i]? = some (node l[2 * i] l[2 * i + 1]) := by
  rw [getElem?_pairUp, List.getElem?_eq_getElem (by omega), List.getElem?_eq_getElem hi]

theorem getElem?_pairUp_last {i : Nat} (hi : l.length ≤ 2 * i + 1) :
    (pairUp node l)[i]? = l[2 * i]? := by
  rw [getElem?_pairUp, List.getElem?_eq_none hi]
  cases l[2 * i]? <;> rfl

variable (node)

-- The levels above a list of leaves, from the root on.
def levels (l : List D) : List (List D) :=
  if l.length < 2 then [l] else levels (pairUp node l) ++ [l]
termination_by l.length
decreasing_by
  rw [length_pairUp]
  omega

variable {node}

theorem levels_small (h : l.length < 2) : levels node l = [l] := by rw [levels, if_pos h]

theorem levels_pairUp (h : 2 ≤ l.length) :
    levels node l = levels node (pairUp node l) ++ [l] := by
  rw [levels, if_neg (by omega)]

-- An induction over the levels, from the root on.
theorem level_induction {p : List D → Prop} (hsmall : ∀ a, p [a])
    (hpair : ∀ l, 2 ≤ l.length → p (pairUp node l) → p l) (hl : l ≠ []) : p l := by
  induction hn : l.length using Nat.strong_induction_on generalizing l with
  | _ n ih =>
      by_cases h : l.length < 2
      · have hone : l.length = 1 := by
          have := List.length_pos_of_ne_nil hl
          omega
        obtain ⟨a, rfl⟩ := List.length_eq_one_iff.mp hone
        exact hsmall a
      · have hlength := @length_pairUp D node l
        refine hpair l (by omega) (ih _ (by omega) ?_ rfl)
        exact List.ne_nil_of_length_pos (by omega)

-- What makes a list of levels the tree of a list of leaves.
structure IsTree (node : D → D → D) (root : D) (leaves : List D) (levels : List (List D)) :
    Prop where
  root : levels.head? = some [root]
  leaves : levels.getLast? = some leaves
  chain : levels.IsChain fun upper lower => upper = pairUp node lower

theorem isTree_levels (hl : l ≠ []) : ∃ root, IsTree node root l (levels node l) := by
  refine @level_induction D node l (fun l => ∃ root, IsTree node root l (levels node l)) ?_ ?_ hl
  · intro a
    rw [levels_small (show [a].length < 2 from Nat.lt_succ_self 1)]
    exact ⟨a, rfl, rfl, List.isChain_singleton _⟩
  · intro l h ih
    obtain ⟨root, hroot, hleaves, hchain⟩ := ih
    rw [levels_pairUp h]
    refine ⟨root, ?_, List.getLast?_concat, ?_⟩
    · rw [List.head?_append, hroot]
      rfl
    · rw [List.isChain_append]
      refine ⟨hchain, List.isChain_singleton _, fun x hx y hy => ?_⟩
      obtain rfl : pairUp node l = x := Option.some.inj (hleaves.symm.trans hx)
      obtain rfl : l = y := Option.some.inj hy
      rfl

end Mldonkey.PairTree
