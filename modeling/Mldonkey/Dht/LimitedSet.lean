import Mldonkey.Dht.Lookup
import Mldonkey.Lib.Smallest

-- What a bounded set holds after any insertions.
namespace Mldonkey.Dht.LimitedSet

open Smallest

variable {α κ : Type} [LinearOrder κ] {key : α → κ} {l : List α} {s : LimitedSet α} {x y : α}
  {n : Nat} {S : Finset κ}

theorem mem_add : y ∈ add key l x ↔ y = x ∨ y ∈ l := by
  rw [add, List.mem_append, List.mem_cons]
  conv_rhs => rw [← @List.takeWhile_append_dropWhile α (fun y => key y < key x) l]
  rw [List.mem_append]
  tauto

theorem length_add : (add key l x).length = l.length + 1 := by
  have h := congrArg List.length
    (@List.takeWhile_append_dropWhile α (fun y => key y < key x) l)
  rw [List.length_append] at h
  rw [add, List.length_append, List.length_cons]
  omega

theorem add_cons (hy : key y < key x) : add key (y :: l) x = y :: add key l x := by
  simp only [add, List.takeWhile_cons, List.dropWhile_cons, hy, decide_true, if_true,
    List.cons_append]

theorem add_head (hy : ¬ key y < key x) : add key (y :: l) x = x :: y :: l := by
  simp only [add, List.takeWhile_cons, List.dropWhile_cons, hy, decide_false,
    Bool.false_eq_true, if_false, List.nil_append]

theorem pairwise_add (hl : (l.map key).Pairwise (· < ·)) (hx : key x ∉ l.map key) :
    ((add key l x).map key).Pairwise (· < ·) := by
  induction l with
  | nil => exact List.pairwise_singleton _ _
  | cons y l ih =>
      rw [List.map_cons, List.mem_cons, not_or] at hx
      rw [List.map_cons, List.pairwise_cons] at hl
      by_cases hy : key y < key x
      · rw [add_cons hy, List.map_cons, List.pairwise_cons]
        refine ⟨fun k hk => ?_, ih hl.2 hx.2⟩
        obtain ⟨z, hz, rfl⟩ := List.mem_map.mp hk
        rcases mem_add.mp hz with rfl | hz
        · exact hy
        · exact hl.1 _ (List.mem_map_of_mem hz)
      · have hlt : key x < key y := lt_of_le_of_ne (not_lt.mp hy) hx.1
        rw [add_head hy, List.map_cons, List.map_cons, List.pairwise_cons, List.pairwise_cons]
        refine ⟨fun k hk => ?_, hl⟩
        rcases List.mem_cons.mp hk with rfl | hk
        · exact hlt
        · exact hlt.trans (hl.1 k hk)

theorem mem_map_add {k : κ} : k ∈ (add key l x).map key ↔ k = key x ∨ k ∈ l.map key := by
  constructor
  · intro hk
    obtain ⟨z, hz, rfl⟩ := List.mem_map.mp hk
    rcases mem_add.mp hz with rfl | hz
    · exact .inl rfl
    · exact .inr (List.mem_map_of_mem hz)
  · rintro (rfl | hk)
    · exact List.mem_map_of_mem (mem_add.mpr (.inl rfl))
    · obtain ⟨z, hz, rfl⟩ := List.mem_map.mp hk
      exact List.mem_map_of_mem (mem_add.mpr (.inr hz))

variable (key)

-- The membership of the functor's set, which sees the keys alone.
def mem (s : LimitedSet α) (x : α) : Bool := s.set.any fun y => key y = key x

-- The set after the insertions of a list, from the first on.
def run (n : Nat) (xs : List α) : LimitedSet α :=
  xs.foldl (fun s x => (s.insert key x).1) (create n)

variable {key}

theorem mem_iff : s.mem key x ↔ key x ∈ s.set.map key := by
  rw [mem, List.any_eq_true, List.mem_map]
  simp only [decide_eq_true_eq]

-- The last element has the largest key, and is the only one that is taken out
-- with its key.
theorem lt_last {init : List α} {max : α}
    (hpair : ((init ++ [max]).map key).Pairwise (· < ·)) : ∀ k ∈ init.map key, k < key max := by
  rw [List.map_append, List.pairwise_append] at hpair
  exact fun k hk => hpair.2.2 k hk _ (List.mem_singleton.mpr rfl)

theorem le_last {init : List α} {max : α}
    (hpair : ((init ++ [max]).map key).Pairwise (· < ·)) :
    ∀ k ∈ (init ++ [max]).map key, k ≤ key max := by
  intro k hk
  rw [List.map_append, List.mem_append, List.map_singleton, List.mem_singleton] at hk
  rcases hk with hk | rfl
  · exact (lt_last hpair k hk).le
  · exact le_rfl

theorem filter_last {init : List α} {max : α}
    (hpair : ((init ++ [max]).map key).Pairwise (· < ·)) :
    (init ++ [max]).filter (fun y => key y ≠ key max) = init := by
  have hinit : init.filter (fun y => key y ≠ key max) = init := by
    rw [List.filter_eq_self]
    intro y hy
    exact decide_eq_true (lt_last hpair _ (List.mem_map_of_mem hy)).ne
  rw [List.filter_append, hinit]
  simp

theorem mem_init {init : List α} {max : α}
    (hpair : ((init ++ [max]).map key).Pairwise (· < ·)) {k : κ} :
    k ∈ init.map key ↔ k ∈ (init ++ [max]).map key ∧ k ≠ key max := by
  rw [List.map_append, List.mem_append, List.map_singleton, List.mem_singleton]
  constructor
  · exact fun hk => ⟨.inl hk, (lt_last hpair k hk).ne⟩
  · rintro ⟨hk | hk, hne⟩
    · exact hk
    · exact absurd hk hne

-- The set between two insertions. The keys of all that was inserted are S, and
-- `left` counts the places that are free.
structure Bounded (key : α → κ) (n : Nat) (S : Finset κ) (s : LimitedSet α) : Prop where
  keeps : Keeps n S (s.set.map key)
  left : s.left + s.set.length = n

theorem Bounded.create (n : Nat) : Bounded key n ∅ (create n) :=
  ⟨Keeps.nil n, Nat.add_zero n⟩

-- What an insertion does, and what it returns.
theorem Bounded.insert (h : Bounded key n S s) (hn : 1 ≤ n) (x : α) :
    Bounded key n (Insert.insert (key x) S) (s.insert key x).1 ∧
      (∀ y ∈ (s.insert key x).1.set, y = x ∨ y ∈ s.set) ∧
      ((s.insert key x).2 = true ↔
        key x ∈ (s.insert key x).1.set.map key ∧ key x ∉ s.set.map key) := by
  have hlength := h.keeps.length
  rw [List.length_map] at hlength
  have hleft := h.left
  by_cases hx : s.mem key x
  · have hmem := mem_iff.mp hx
    have heq : s.insert key x = (s, false) := by
      rw [LimitedSet.insert]
      exact if_pos hx
    rw [heq]
    exact ⟨⟨h.keeps.insert_mem hmem, h.left⟩, fun y hy => .inr hy,
      fun hf => absurd hf Bool.false_ne_true, fun hk => absurd hmem hk.2⟩
  · have hmem : key x ∉ s.set.map key := fun hk => hx (mem_iff.mpr hk)
    have hany : ¬ (s.set.any fun y => key y = key x) = true := hx
    rw [LimitedSet.insert, if_neg hany]
    cases hs : s.left with
    | succ left =>
        -- A place is free.
        have hlt : (s.set.map key).length < n := by
          rw [List.length_map]
          omega
        refine ⟨⟨h.keeps.insert_left hlt hmem (pairwise_add h.keeps.pairwise hmem)
          (fun k => mem_map_add) ?_, ?_⟩, fun y hy => mem_add.mp hy, fun _ => ⟨?_, hmem⟩,
          fun _ => rfl⟩
        · rw [List.length_map, List.length_map, length_add]
        · show left + (add key s.set x).length = n
          rw [length_add]
          omega
        · exact mem_map_add.mpr (.inl rfl)
    | zero =>
        have hfull : (s.set.map key).length = n := by
          rw [List.length_map]
          omega
        cases hlast : s.set.getLast? with
        | none =>
            rw [List.getLast?_eq_none_iff.mp hlast, List.length_nil] at hleft
            omega
        | some max =>
            obtain ⟨init, hinit⟩ := List.getLast?_eq_some_iff.mp hlast
            rw [hinit] at hmem hfull hleft ⊢
            have hkeeps : Keeps n S ((init ++ [max]).map key) := hinit ▸ h.keeps
            have hpair := hkeeps.pairwise
            have hmax := le_last hpair
            dsimp only
            by_cases hlt : key x < key max
            · -- The largest element makes room.
              rw [if_pos hlt, filter_last hpair]
              have hinitpair : (init.map key).Pairwise (· < ·) := by
                rw [List.map_append, List.pairwise_append] at hpair
                exact hpair.1
              have hnew : key x ∉ init.map key := fun hk => hmem ((mem_init hpair).mp hk).1
              have hlen : (add key init x).length = (init ++ [max]).length := by
                rw [length_add, List.length_append, List.length_singleton]
              refine ⟨⟨hkeeps.insert_small hfull hmem (m := key max) ?_ hmax hlt
                (pairwise_add hinitpair hnew) ?_ ?_, ?_⟩, ?_,
                fun _ => ⟨mem_map_add.mpr (.inl rfl), hmem⟩, fun _ => rfl⟩
              · exact List.mem_map_of_mem (List.mem_append_right _ (List.mem_singleton.mpr rfl))
              · intro k
                rw [mem_map_add, mem_init hpair]
              · rw [List.length_map, List.length_map, hlen]
              · show 0 + (add key init x).length = n
                rw [hlen]
                omega
              · intro y hy
                exact (mem_add.mp hy).imp_right (List.mem_append_left _)
            · rw [if_neg hlt]
              have hlarge : ∀ k ∈ (init ++ [max]).map key, k < key x := fun k hk =>
                lt_of_le_of_ne ((hmax k hk).trans (not_lt.mp hlt)) fun heq => hmem (heq ▸ hk)
              refine ⟨⟨?_, h.left⟩, fun y hy => .inr (hinit ▸ hy),
                fun hf => absurd hf Bool.false_ne_true, fun hk => absurd (hinit ▸ hk.1) hmem⟩
              rw [hinit]
              exact hkeeps.insert_large hfull hlarge

theorem bounded_run (hn : 1 ≤ n) (xs : List α) :
    Bounded key n (xs.map key).toFinset (run key n xs) ∧ ∀ y ∈ (run key n xs).set, y ∈ xs := by
  induction xs using List.reverseRecOn with
  | nil => exact ⟨Bounded.create n, fun y hy => hy⟩
  | append_singleton xs x ih =>
      obtain ⟨hbounded, hmem⟩ := ih
      obtain ⟨hinsert, hfrom, -⟩ := hbounded.insert hn x
      have hrun : run key n (xs ++ [x]) = ((run key n xs).insert key x).1 := by
        rw [run, List.foldl_append]
        rfl
      have hset : ((xs ++ [x]).map key).toFinset = Insert.insert (key x) (xs.map key).toFinset := by
        rw [List.map_append, List.toFinset_append, Finset.union_comm]
        rfl
      rw [hrun, hset]
      refine ⟨hinsert, fun y hy => ?_⟩
      rw [List.mem_append]
      rcases hfrom y hy with rfl | hy
      · exact .inr (List.mem_singleton.mpr rfl)
      · exact .inl (hmem y hy)

-- The set holds the smallest of what was inserted, and insert tells whether its
-- element is new to the set and stays in it.
theorem limitedSet_smallest (key : α → κ) (n : Nat) (hn : 1 ≤ n) (xs : List α) :
    (run key n xs).elements.map key = ((xs.map key).toFinset.sort (· ≤ ·)).take n ∧
      (∀ x ∈ (run key n xs).elements, x ∈ xs) ∧
      ∀ x, ((run key n xs).insert key x).2 = true ↔
        ((run key n xs).insert key x).1.mem key x = true ∧ (run key n xs).mem key x = false := by
  obtain ⟨hbounded, hmem⟩ := @bounded_run α κ _ key n hn xs
  refine ⟨hbounded.keeps.eq_take_sort, hmem, fun x => ?_⟩
  obtain ⟨-, -, hreturn⟩ := hbounded.insert hn x
  rw [hreturn, mem_iff, ← Bool.not_eq_true, mem_iff]

-- Of five numbers, with one of them twice, two are kept.
theorem limitedSet_smallest_two :
    (run (fun k : Nat => k) 2 [7, 3, 9, 3, 5]).elements.map (fun k => k) =
        (([7, 3, 9, 3, 5].map fun k : Nat => k).toFinset.sort (· ≤ ·)).take 2 ∧
      (run (fun k : Nat => k) 2 [7, 3, 9, 3, 5]).elements = [3, 5] :=
  ⟨(limitedSet_smallest (fun k => k) 2 (by decide) [7, 3, 9, 3, 5]).1, by decide⟩

end Mldonkey.Dht.LimitedSet
