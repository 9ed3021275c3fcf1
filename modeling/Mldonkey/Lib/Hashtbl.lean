import Mathlib.Data.List.Nodup
import Mathlib.Logic.Function.Basic

-- Hash tables that hold one binding for each key.
namespace Mldonkey

variable {κ κ' ν : Type} [DecidableEq κ] [DecidableEq κ'] {k k' : κ} {v : ν} {p : κ × ν}

structure Hashtbl (κ ν : Type) where
  bindings : List (κ × ν)
  nodup : (bindings.map Prod.fst).Nodup

namespace Hashtbl

def empty : Hashtbl κ ν := ⟨[], .nil⟩

def find (h : Hashtbl κ ν) (k : κ) : Option ν := h.bindings.lookup k

def mem (h : Hashtbl κ ν) (k : κ) : Bool := (h.find k).isSome

def remove (h : Hashtbl κ ν) (k : κ) : Hashtbl κ ν :=
  ⟨h.bindings.filter fun p => p.1 ≠ k, h.nodup.sublist (List.filter_sublist.map _)⟩

def replace (h : Hashtbl κ ν) (k : κ) (v : ν) : Hashtbl κ ν :=
  ⟨(k, v) :: (h.remove k).bindings, by
    rw [List.map_cons, List.nodup_cons]
    refine ⟨fun hk => ?_, (h.remove k).nodup⟩
    obtain ⟨p, hp, rfl⟩ := List.mem_map.mp hk
    simpa using (List.mem_filter.mp hp).2⟩

variable {h : Hashtbl κ ν}

theorem lookup_eq_some {l : List (κ × ν)} (hl : (l.map Prod.fst).Nodup) :
    l.lookup k = some v ↔ (k, v) ∈ l := by
  induction l with
  | nil => simp
  | cons p l ih =>
      obtain ⟨k', v'⟩ := p
      rw [List.map_cons, List.nodup_cons] at hl
      rw [List.lookup_cons, List.mem_cons, Prod.mk.injEq]
      by_cases hk : k = k'
      · have hnot : (k, v) ∉ l := fun hv => hl.1 (hk ▸ List.mem_map.mpr ⟨_, hv, rfl⟩)
        simp [hk ▸ hnot, hk, eq_comm]
      · rw [beq_false_of_ne hk]
        simp [hk, ih hl.2]

theorem perm_eraseP {l : List (κ × ν)} (hkeys : (l.map Prod.fst).Nodup) (h : (k, v) ∈ l) :
    l.Perm ((k, v) :: l.eraseP fun p => p.1 = k) ∧
      ∀ p ∈ l.eraseP fun p => p.1 = k, p.1 ≠ k := by
  induction l with
  | nil => cases h
  | cons p l ih =>
      rw [List.map_cons, List.nodup_cons] at hkeys
      by_cases hp : p.1 = k
      · have hne : ∀ q ∈ l, q.1 ≠ k := by
          rintro q hq rfl
          exact hkeys.1 (hp ▸ List.mem_map_of_mem hq)
        have heq : p = (k, v) := by
          rcases List.mem_cons.mp h with h | h
          · exact h.symm
          · exact absurd rfl (hne _ h)
        rw [List.eraseP_cons_of_pos (by simpa using hp), heq]
        exact ⟨.refl _, hne⟩
      · have hmem : (k, v) ∈ l := (List.mem_cons.mp h).resolve_left (by rintro rfl; exact hp rfl)
        obtain ⟨hperm, hne⟩ := ih hkeys.2 hmem
        rw [List.eraseP_cons_of_neg (by simpa using hp)]
        refine ⟨(hperm.cons p).trans (.swap _ _ _), fun q hq => ?_⟩
        rcases List.mem_cons.mp hq with rfl | hq
        · exact hp
        · exact hne q hq

theorem find_eq_some : h.find k = some v ↔ (k, v) ∈ h.bindings := lookup_eq_some h.nodup

@[simp] theorem find_empty : (empty : Hashtbl κ ν).find k = none := rfl

theorem find_remove : (h.remove k).find k' = if k' = k then none else h.find k' := by
  refine Option.ext fun v => ?_
  rw [find_eq_some]
  split
  case isTrue heq => simp [remove, heq]
  case isFalse hne => simp [remove, hne, find_eq_some]

theorem find_replace : (h.replace k v).find k' = if k' = k then some v else h.find k' := by
  refine Option.ext fun w => ?_
  rw [find_eq_some]
  have hrest : (k', w) ∈ (h.remove k).bindings ↔ k' ≠ k ∧ h.find k' = some w := by
    simp [remove, find_eq_some, and_comm]
  show (k', w) ∈ (k, v) :: (h.remove k).bindings ↔ _
  rw [List.mem_cons, hrest, Prod.mk.injEq]
  split
  case isTrue heq => simp [heq, eq_comm]
  case isFalse hne => simp [hne]

end Hashtbl

-- 2-level association
abbrev Assoc2 (κ κ' ν : Type) := Hashtbl κ (Hashtbl κ' ν)

namespace Assoc2

def create : Assoc2 κ κ' ν := Hashtbl.empty

def findAll (h : Assoc2 κ κ' ν) (a : κ) : Hashtbl κ' ν := (Hashtbl.find h a).getD .empty

def add (h : Assoc2 κ κ' ν) (a : κ) (b : κ') (c : ν) : Assoc2 κ κ' ν :=
  h.replace a ((findAll h a).replace b c)

def find (h : Assoc2 κ κ' ν) (a : κ) (b : κ') : Option ν := (Hashtbl.find h a).bind (·.find b)

def remove (h : Assoc2 κ κ' ν) (a : κ) (b : κ') : Assoc2 κ κ' ν :=
  match Hashtbl.find h a with
  | none => h
  | some ha =>
      if (ha.remove b).bindings.length = 0 then Hashtbl.remove h a else h.replace a (ha.remove b)

-- What iter visits, in some order.
def toList (h : Assoc2 κ κ' ν) : List (κ × κ' × ν) :=
  h.bindings.flatMap fun p => p.2.bindings.map fun q => (p.1, q.1, q.2)

variable {h : Assoc2 κ κ' ν} {a a' : κ} {b b' : κ'} {c c' : ν}

@[simp] theorem find_create : find (create : Assoc2 κ κ' ν) a b = none := rfl

theorem find_findAll : (findAll h a).find b = find h a b := by
  rw [findAll, find]
  cases Hashtbl.find h a <;> simp

theorem find_add : find (add h a b c) a' b' = if a' = a ∧ b' = b then some c else find h a' b' := by
  rw [find, add, Hashtbl.find_replace]
  by_cases ha : a' = a
  · subst ha
    rw [if_pos rfl, Option.bind_some, Hashtbl.find_replace, find_findAll]
    simp
  · simp [ha, find]

theorem find_remove : find (remove h a b) a' b' = if a' = a ∧ b' = b then none else find h a' b' := by
  rw [remove]
  split
  case h_1 hnone =>
      split
      case isTrue heq => simp [find, heq.1, hnone]
      case isFalse => rfl
  case h_2 ha hsome =>
      -- The inner table without the key, as the outer one gives it.
      have hinner : find h a b' = ha.find b' := by simp [find, hsome]
      have hfound : ∀ h' : Assoc2 κ κ' ν, Hashtbl.find h' a' =
          (if a' = a then Hashtbl.find h' a else Hashtbl.find h a') →
          (Hashtbl.find h' a).bind (·.find b') = (ha.remove b).find b' →
          find h' a' b' = if a' = a ∧ b' = b then none else find h a' b' := by
        intro h' h₁ h₂
        by_cases heq : a' = a
        · subst heq
          rw [find, h₂, Hashtbl.find_remove, ← hinner]
          simp
        · rw [if_neg heq] at h₁
          simp [find, h₁, heq]
      split
      case isTrue hempty =>
          refine hfound _ ?_ ?_
          · by_cases heq : a' = a <;> simp [Hashtbl.find_remove, heq]
          · have hnil : (ha.remove b).bindings = [] := List.length_eq_zero_iff.mp hempty
            rw [Hashtbl.find_remove, if_pos rfl, Hashtbl.find, hnil]
            rfl
      case isFalse =>
          refine hfound _ ?_ ?_
          · by_cases heq : a' = a <;> simp [Hashtbl.find_replace, heq]
          · simp [Hashtbl.find_replace]

theorem mem_toList : (a, b, c) ∈ toList h ↔ find h a b = some c := by
  rw [toList, find, Option.bind_eq_some_iff]
  simp only [List.mem_flatMap, List.mem_map, Prod.mk.injEq, Prod.exists, Hashtbl.find_eq_some]
  constructor
  · rintro ⟨a', ha, hmem, b', c', hbc, rfl, rfl, rfl⟩
    exact ⟨ha, hmem, hbc⟩
  · rintro ⟨ha, hmem, hbc⟩
    exact ⟨a, ha, hmem, b, c, hbc, rfl, rfl, rfl⟩

theorem nodup_toList (h : Assoc2 κ κ' ν) : ((toList h).map fun p => (p.1, p.2.1)).Nodup := by
  obtain ⟨l, hl⟩ := h
  simp only [toList]
  induction l with
  | nil => simp
  | cons p l ih =>
      rw [List.map_cons, List.nodup_cons] at hl
      rw [List.flatMap_cons, List.map_append, List.nodup_append]
      refine ⟨?_, ih hl.2, ?_⟩
      · have hinj : (fun b : κ' => (p.1, b)).Injective := fun b b' hb => (Prod.mk.inj hb).2
        have := p.2.nodup.map hinj
        simpa [List.map_map, Function.comp_def] using this
      · intro x hx y hy hxy
        subst hxy
        obtain ⟨q, hq, rfl⟩ := List.mem_map.mp hx
        obtain ⟨r, hr, he⟩ := List.mem_map.mp hy
        obtain ⟨s, -, rfl⟩ := List.mem_map.mp hq
        obtain ⟨p', hp', hr'⟩ := List.mem_flatMap.mp hr
        obtain ⟨s', -, rfl⟩ := List.mem_map.mp hr'
        exact hl.1 ((Prod.mk.inj he).1 ▸ List.mem_map_of_mem hp')

end Assoc2

end Mldonkey
