import Mathlib.Data.List.Basic
import Mathlib.Tactic

-- Sets as balanced trees, with their cardinal kept beside the tree.
namespace Mldonkey.Set2

inductive Exn
  | invalidArg (message : String)
  | notFound
  deriving DecidableEq, Repr

inductive Btree (α : Type)
  | empty
  | node (l : Btree α) (v : α) (r : Btree α) (h : Nat)
  deriving DecidableEq, Repr

namespace Btree

variable {α : Type}

def height : Btree α → Nat
  | empty => 0
  | node _ _ _ h => h

def cardinalTree : Btree α → Nat
  | empty => 0
  | node l _ r _ => cardinalTree l + 1 + cardinalTree r

def create (l : Btree α) (v : α) (r : Btree α) : Btree α :=
  node l v r (if l.height ≥ r.height then l.height + 1 else r.height + 1)

-- One step of rebalancing, where the heights differ by more than 2.
def bal (l : Btree α) (v : α) (r : Btree α) : Except Exn (Btree α) :=
  if l.height > r.height + 2 then
    match l with
    | empty => .error (.invalidArg "Set2.bal")
    | node ll lv lr _ =>
        if ll.height ≥ lr.height then .ok (create ll lv (create lr v r))
        else
          match lr with
          | empty => .error (.invalidArg "Set2.bal")
          | node lrl lrv lrr _ => .ok (create (create ll lv lrl) lrv (create lrr v r))
  else if r.height > l.height + 2 then
    match r with
    | empty => .error (.invalidArg "Set2.bal")
    | node rl rv rr _ =>
        if rr.height ≥ rl.height then .ok (create (create l v rl) rv rr)
        else
          match rl with
          | empty => .error (.invalidArg "Set2.bal")
          | node rll rlv rlr _ => .ok (create (create l v rll) rlv (create rlr rv rr))
  else .ok (node l v r (if l.height ≥ r.height then l.height + 1 else r.height + 1))

def minEltTree : Btree α → Except Exn α
  | empty => .error .notFound
  | node empty v _ _ => .ok v
  | node l _ _ _ => minEltTree l

def maxEltTree : Btree α → Except Exn α
  | empty => .error .notFound
  | node _ v empty _ => .ok v
  | node _ _ r _ => maxEltTree r

def removeMinElt : Btree α → Except Exn (Btree α)
  | empty => .error (.invalidArg "Set2.remove_min_elt")
  | node empty _ r _ => .ok r
  | node l v r _ => do bal (← removeMinElt l) v r

def merge (t1 t2 : Btree α) : Except Exn (Btree α) :=
  match t1, t2 with
  | empty, t => .ok t
  | t, empty => .ok t
  | _, _ => do bal t1 (← minEltTree t2) (← removeMinElt t2)

-- The elements in the order in which iter visits them.
def elements : Btree α → List α
  | empty => []
  | node l v r _ => elements l ++ v :: elements r

section Search

variable (compare : α → α → Ordering)

def addTree (x : α) : Btree α → Except Exn (Btree α)
  | empty => .ok (node empty x empty 1)
  | t@(node l v r _) =>
      match compare x v with
      | .eq => .ok t
      | .lt => do bal (← addTree x l) v r
      | .gt => do bal l v (← addTree x r)

def memTree (x : α) : Btree α → Bool
  | empty => false
  | node l v r _ =>
      match compare x v with
      | .eq => true
      | .lt => memTree x l
      | .gt => memTree x r

def removeTree (x : α) : Btree α → Except Exn (Btree α × Bool)
  | empty => .ok (empty, false)
  | node l v r _ =>
      match compare x v with
      | .eq => do return (← merge l r, true)
      | .lt => do
          let (tree, found) ← removeTree x l
          return (← bal tree v r, found)
      | .gt => do
          let (tree, found) ← removeTree x r
          return (← bal l v tree, found)

end Search

end Btree

-- card is a lazy value: either it was computed, or it is the cardinal of the tree.
inductive Card
  | value (n : Int)
  | delayed
  deriving DecidableEq, Repr

end Set2

open Set2

structure Set2 (α : Type) where
  tree : Btree α
  card : Card
  deriving DecidableEq, Repr

namespace Set2

variable {α : Type}

def empty : Set2 α := ⟨.empty, .value 0⟩

def cardinal (t : Set2 α) : Int :=
  match t.card with
  | .value n => n
  | .delayed => t.tree.cardinalTree

section Search

variable (compare : α → α → Ordering)

def mem (x : α) (t : Set2 α) : Bool := t.tree.memTree compare x

def add (x : α) (t : Set2 α) : Except Exn (Set2 α) := do
  let tree ← t.tree.addTree compare x
  return ⟨tree, match t.card with
    | .value n => .value (n + 1)
    | .delayed => .delayed⟩

def remove (x : α) (t : Set2 α) : Except Exn (Set2 α) := do
  let (tree, found) ← t.tree.removeTree compare x
  if found then
    return ⟨tree, match t.card with
      | .value n => .value (n - 1)
      | .delayed => .delayed⟩
  else return t

end Search

namespace Btree

@[simp] theorem elements_create (l : Btree α) (v : α) (r : Btree α) :
    (create l v r).elements = l.elements ++ v :: r.elements := rfl

-- The heights rule out the failures of bal: only a node has a height above 0.
theorem bal_spec (l : Btree α) (v : α) (r : Btree α) :
    ∃ t, bal l v r = .ok t ∧ t.elements = l.elements ++ v :: r.elements := by
  unfold bal
  split
  case isTrue hl =>
      cases l with
      | empty => exact absurd hl (by simp [height])
      | node ll lv lr h =>
          dsimp only
          split
          case isTrue => exact ⟨_, rfl, by simp [elements]⟩
          case isFalse hlr =>
              cases lr with
              | empty => exact absurd (Nat.zero_le _) hlr
              | node lrl lrv lrr h => exact ⟨_, rfl, by simp [elements]⟩
  case isFalse hl =>
      split
      case isTrue hr =>
          cases r with
          | empty => exact absurd hr (by simp [height])
          | node rl rv rr h =>
              dsimp only
              split
              case isTrue => exact ⟨_, rfl, by simp [elements]⟩
              case isFalse hrl =>
                  cases rl with
                  | empty => exact absurd (Nat.zero_le _) hrl
                  | node rll rlv rlr h => exact ⟨_, rfl, by simp [elements]⟩
      case isFalse => exact ⟨_, rfl, rfl⟩

theorem minEltTree_spec {t : Btree α} (ht : t ≠ .empty) :
    ∃ x L, minEltTree t = .ok x ∧ t.elements = x :: L := by
  induction t with
  | empty => exact absurd rfl ht
  | node l v r h ihl ihr =>
      cases l with
      | empty => exact ⟨v, r.elements, rfl, rfl⟩
      | node ll lv lr lh =>
          obtain ⟨x, L, hmin, hL⟩ := ihl (by simp)
          exact ⟨x, L ++ v :: r.elements, hmin, by rw [elements, hL, List.cons_append]⟩

theorem maxEltTree_spec {t : Btree α} (ht : t ≠ .empty) :
    ∃ x L, maxEltTree t = .ok x ∧ t.elements = L ++ [x] := by
  induction t with
  | empty => exact absurd rfl ht
  | node l v r h ihl ihr =>
      cases r with
      | empty => exact ⟨v, l.elements, by cases l <;> rfl, rfl⟩
      | node rl rv rr rh =>
          obtain ⟨x, L, hmax, hL⟩ := ihr (by simp)
          refine ⟨x, l.elements ++ v :: L, by cases l <;> exact hmax, ?_⟩
          rw [elements, hL, List.append_assoc, List.cons_append]

theorem removeMinElt_spec {t : Btree α} {x : α} {L : List α} (ht : t.elements = x :: L) :
    ∃ t', removeMinElt t = .ok t' ∧ t'.elements = L := by
  induction t generalizing L with
  | empty => exact nomatch ht
  | node l v r h ihl ihr =>
      cases l with
      | empty => exact ⟨r, rfl, (List.cons.inj ht).2⟩
      | node ll lv lr lh =>
          obtain ⟨y, L', -, hL'⟩ := minEltTree_spec (t := node ll lv lr lh) (by simp)
          rw [elements, hL', List.cons_append] at ht
          obtain ⟨rfl, rfl⟩ := List.cons.inj ht
          obtain ⟨l', hl', hel⟩ := ihl hL'
          obtain ⟨t', ht', het⟩ := bal_spec l' v r
          refine ⟨t', ?_, by rw [het, hel]⟩
          rw [removeMinElt, hl']
          · exact ht'
          · simp

theorem merge_spec (t1 t2 : Btree α) :
    ∃ t, merge t1 t2 = .ok t ∧ t.elements = t1.elements ++ t2.elements := by
  cases t1 with
  | empty => exact ⟨t2, rfl, rfl⟩
  | node l v r h =>
      cases t2 with
      | empty => exact ⟨node l v r h, rfl, (List.append_nil _).symm⟩
      | node l2 v2 r2 h2 =>
          obtain ⟨x, L, hmin, hL⟩ := minEltTree_spec (t := node l2 v2 r2 h2) (by simp)
          obtain ⟨t2', hrem, hel⟩ := removeMinElt_spec hL
          obtain ⟨t, ht, het⟩ := bal_spec (node l v r h) x t2'
          refine ⟨t, ?_, by rw [het, hel, hL]⟩
          rw [merge, hmin, hrem]
          · exact ht
          · simp
          · simp

variable {compare : α → α → Ordering} {x : α}

-- An element that the search does not find is inserted at one place, and one
-- that it finds changes nothing.
theorem addTree_spec (t : Btree α) : ∃ t', addTree compare x t = .ok t' ∧
    (memTree compare x t = true → t'.elements = t.elements) ∧
    (memTree compare x t = false →
      ∃ A B, t.elements = A ++ B ∧ t'.elements = A ++ x :: B) := by
  induction t with
  | empty => exact ⟨_, rfl, by simp [memTree], fun _ => ⟨[], [], rfl, rfl⟩⟩
  | node l v r h ihl ihr =>
      rw [addTree, memTree]
      cases hc : compare x v with
      | eq => exact ⟨_, rfl, fun _ => rfl, by simp⟩
      | lt =>
          obtain ⟨l', hl', hin, hout⟩ := ihl
          obtain ⟨t', ht', het⟩ := bal_spec l' v r
          refine ⟨t', by simp only [hl']; exact ht', fun hm => ?_, fun hm => ?_⟩
          · rw [het, hin hm, elements]
          · obtain ⟨A, B, hA, hB⟩ := hout hm
            exact ⟨A, B ++ v :: r.elements, by simp [elements, hA], by simp [het, hB]⟩
      | gt =>
          obtain ⟨r', hr', hin, hout⟩ := ihr
          obtain ⟨t', ht', het⟩ := bal_spec l v r'
          refine ⟨t', by simp only [hr']; exact ht', fun hm => ?_, fun hm => ?_⟩
          · rw [het, hin hm, elements]
          · obtain ⟨A, B, hA, hB⟩ := hout hm
            exact ⟨l.elements ++ v :: A, B, by simp [elements, hA], by simp [het, hB]⟩

-- One element that compares equal leaves the tree, if the search finds one.
theorem removeTree_spec (t : Btree α) : ∃ t', removeTree compare x t = .ok (t', memTree compare x t) ∧
    (memTree compare x t = true →
      ∃ A y B, compare x y = .eq ∧ t.elements = A ++ y :: B ∧ t'.elements = A ++ B) := by
  induction t with
  | empty => exact ⟨_, rfl, by simp [memTree]⟩
  | node l v r h ihl ihr =>
      rw [removeTree, memTree]
      cases hc : compare x v with
      | eq =>
          obtain ⟨t', ht', het⟩ := merge_spec l r
          exact ⟨t', by simp only [ht']; rfl, fun _ => ⟨l.elements, v, r.elements, hc, rfl, het⟩⟩
      | lt =>
          obtain ⟨l', hl', hin⟩ := ihl
          obtain ⟨t', ht', het⟩ := bal_spec l' v r
          refine ⟨t', ?_, fun hm => ?_⟩
          · simp only [hl']
            show (do return (← bal l' v r, _)) = _
            rw [ht']
            rfl
          · obtain ⟨A, y, B, hy, hA, hB⟩ := hin hm
            exact ⟨A, y, B ++ v :: r.elements, hy, by simp [elements, hA], by simp [het, hB]⟩
      | gt =>
          obtain ⟨r', hr', hin⟩ := ihr
          obtain ⟨t', ht', het⟩ := bal_spec l v r'
          refine ⟨t', ?_, fun hm => ?_⟩
          · simp only [hr']
            show (do return (← bal l v r', _)) = _
            rw [ht']
            rfl
          · obtain ⟨A, y, B, hy, hA, hB⟩ := hin hm
            exact ⟨l.elements ++ v :: A, y, B, hy, by simp [elements, hA], by simp [het, hB]⟩

-- In a tree whose elements ascend the search finds each of them.
theorem memTree_of_mem (horient : ∀ y z, compare y z = .lt → compare z y = .gt)
    (hrefl : compare x x = .eq) {t : Btree α}
    (hsorted : t.elements.Pairwise fun y z => compare y z = .lt) (hx : x ∈ t.elements) :
    memTree compare x t = true := by
  induction t with
  | empty => exact nomatch hx
  | node l v r h ihl ihr =>
      rw [elements] at hx hsorted
      rw [List.pairwise_append, List.pairwise_cons] at hsorted
      obtain ⟨hl, ⟨hvr, hr⟩, hlv⟩ := hsorted
      rw [memTree]
      rcases List.mem_append.mp hx with hx | hx
      · rw [hlv x hx v (by simp)]
        exact ihl hl hx
      · rcases List.mem_cons.mp hx with rfl | hx
        · rw [hrefl]
        · rw [horient _ _ (hvr x hx)]
          exact ihr hr hx

-- A new element goes where the order of the others puts it.
theorem addTree_sorted {t t' : Btree α} (horient : ∀ y z, compare y z = .gt → compare z y = .lt)
    (htrans : ∀ y ∈ t.elements, ∀ z ∈ t.elements, compare y z = .lt →
      (compare x y = .lt → compare x z = .lt) ∧ (compare z x = .lt → compare y x = .lt))
    (hnew : ∀ y ∈ t.elements, compare x y ≠ .eq)
    (hsorted : t.elements.Pairwise fun y z => compare y z = .lt)
    (hadd : addTree compare x t = .ok t') :
    (t'.elements.Pairwise fun y z => compare y z = .lt) ∧ t'.elements.Perm (x :: t.elements) := by
  induction t generalizing t' with
  | empty =>
      obtain rfl := Except.ok.inj hadd
      exact ⟨by simp [elements], .refl _⟩
  | node l v r h ihl ihr =>
      have hparts := hsorted
      rw [elements, List.pairwise_append, List.pairwise_cons] at hparts
      obtain ⟨hl, ⟨hvr, hr⟩, hlv⟩ := hparts
      rw [addTree] at hadd
      cases hc : compare x v with
      | eq => exact absurd hc (hnew v (by simp [elements]))
      | lt =>
          obtain ⟨l', hl', -, -⟩ := @addTree_spec α compare x l
          obtain ⟨hs, hperm⟩ := ihl
            (fun y hy z hz => htrans y (by simp [elements, hy]) z (by simp [elements, hz]))
            (fun y hy => hnew y (by simp [elements, hy])) hl hl'
          obtain ⟨b, hb, heb⟩ := bal_spec l' v r
          simp only [hc, hl'] at hadd
          obtain rfl := Except.ok.inj (hb.symm.trans hadd)
          rw [heb]
          refine ⟨List.pairwise_append.mpr ⟨hs, List.pairwise_cons.mpr ⟨hvr, hr⟩, ?_⟩,
            hperm.append_right _⟩
          intro y hy z hz
          rcases List.mem_cons.mp (hperm.mem_iff.mp hy) with rfl | hy
          · rcases List.mem_cons.mp hz with rfl | hz
            · exact hc
            · exact (htrans v (by simp [elements]) z (by simp [elements, hz]) (hvr z hz)).1 hc
          · exact hlv y hy z hz
      | gt =>
          obtain ⟨r', hr', -, -⟩ := @addTree_spec α compare x r
          obtain ⟨hs, hperm⟩ := ihr
            (fun y hy z hz => htrans y (by simp [elements, hy]) z (by simp [elements, hz]))
            (fun y hy => hnew y (by simp [elements, hy])) hr hr'
          obtain ⟨b, hb, heb⟩ := bal_spec l v r'
          simp only [hc, hr'] at hadd
          obtain rfl := Except.ok.inj (hb.symm.trans hadd)
          rw [heb]
          have hvx := horient x v hc
          refine ⟨List.pairwise_append.mpr ⟨hl, List.pairwise_cons.mpr ⟨fun z hz => ?_, hs⟩, ?_⟩, ?_⟩
          · rcases List.mem_cons.mp (hperm.mem_iff.mp hz) with rfl | hz
            · exact hvx
            · exact hvr z hz
          · intro y hy z hz
            rcases List.mem_cons.mp hz with rfl | hz
            · exact hlv y hy z (by simp)
            · rcases List.mem_cons.mp (hperm.mem_iff.mp hz) with rfl | hz
              · exact (htrans y (by simp [elements, hy]) v (by simp [elements])
                  (hlv y hy v (by simp))).2 hvx
              · exact hlv y hy z (by simp [hz])
          · calc l.elements ++ v :: r'.elements
                |>.Perm (l.elements ++ v :: x :: r.elements) := (hperm.cons v).append_left _
              _ |>.Perm (l.elements ++ x :: v :: r.elements) :=
                (List.Perm.swap x v _).append_left _
              _ |>.Perm (x :: (l.elements ++ v :: r.elements)) := List.perm_middle

end Btree

end Set2

end Mldonkey
