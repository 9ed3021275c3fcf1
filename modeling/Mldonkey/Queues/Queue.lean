import Mldonkey.Lib.Runs
import Mldonkey.Queues.Set2

-- The queues of pairs of a time and an element, oldest first or oldest last.
namespace Mldonkey.Queues

open Set2 Runs

variable {σ : Type} [DecidableEq σ] (compare : σ → σ → Ordering)

-- The comparison of InsidesSet. The elements stand for references, and equality
-- is physical.
def insides (p q : Int × σ) : Ordering :=
  if p.2 = q.2 then .eq
  else
    match Ord.compare p.1 q.1 with
    | .eq => compare p.2 q.2
    | x => x

inductive Kind
  | oldestFirst
  | oldestLast
  deriving DecidableEq, Repr

structure Queue (σ : Type) where
  kind : Kind
  t : Set2 (Int × σ)

namespace Queue

def create (kind : Kind) : Queue σ := ⟨kind, Set2.empty⟩

-- None stands for Fifo.Empty, to which every exception is turned.
def head (q : Queue σ) : Option (Int × σ) :=
  match q.kind with
  | .oldestFirst => q.t.tree.minEltTree.toOption
  | .oldestLast => q.t.tree.maxEltTree.toOption

-- put_back is the same.
def put (q : Queue σ) (x : Int × σ) : Except Exn (Queue σ) := do
  return { q with t := ← q.t.add (insides compare) x }

def length (q : Queue σ) : Int := q.t.cardinal

def remove (q : Queue σ) (x : Int × σ) : Except Exn (Queue σ) := do
  return { q with t := ← q.t.remove (insides compare) x }

def take (q : Queue σ) : Option ((Int × σ) × Queue σ) := do
  let x ← q.head
  let q ← (q.remove compare x).toOption
  return (x, q)

-- The elements that iter visits.
def toList (q : Queue σ) : List (Int × σ) := q.t.tree.elements

-- The search of the set for an element.
def mem (q : Queue σ) (x : Int × σ) : Bool := q.t.mem (insides compare) x

end Queue

inductive Op (σ : Type)
  | put (x : Int × σ)
  | remove (x : Int × σ)
  | take

-- An operation that raises leaves the queue as it is.
def Op.next (op : Op σ) (q : Queue σ) : Queue σ :=
  match op with
  | put x => (q.put compare x).toOption.getD q
  | remove x => (q.remove compare x).toOption.getD q
  | take => ((q.take compare).map Prod.snd).getD q

def Reachable (ok : Queue σ → Op σ → Prop) : Queue σ → Prop :=
  Reach (Op.next compare) (fun q => ∃ kind, q = Queue.create kind) ok

-- Only elements are put that no queued one compares equal to.
def Fresh (q : Queue σ) : Op σ → Prop
  | .put x => ∀ y ∈ q.toList, insides compare x y ≠ .eq
  | _ => True

instance (q : Queue σ) (op : Op σ) : Decidable (Fresh compare q op) := by
  cases op with
  | put x => exact inferInstanceAs (Decidable (∀ y ∈ q.toList, insides compare x y ≠ .eq))
  | remove x => exact inferInstanceAs (Decidable True)
  | take => exact inferInstanceAs (Decidable True)

variable {compare} {q q' : Queue σ} {x y : Int × σ}

theorem insides_self (x : Int × σ) : insides compare x x = .eq := if_pos rfl

theorem insides_lt_iff : insides compare x y = .lt ↔
    x.2 ≠ y.2 ∧ (x.1 < y.1 ∨ x.1 = y.1 ∧ compare x.2 y.2 = .lt) := by
  unfold insides
  by_cases h : x.2 = y.2
  · simp [h]
  · rw [if_neg h]
    cases hc : Ord.compare x.1 y.1 with
    | lt => simp [h, compare_lt_iff_lt.mp hc]
    | eq => simp [h, compare_eq_iff_eq.mp hc]
    | gt =>
        have hgt := compare_gt_iff_gt.mp hc
        simp only [reduceCtorEq, false_iff, not_and, not_or]
        exact fun _ => ⟨by omega, fun he => by omega⟩

theorem insides_gt_iff [Std.OrientedCmp compare] :
    insides compare x y = .gt ↔ insides compare y x = .lt := by
  rw [insides_lt_iff]
  unfold insides
  by_cases h : x.2 = y.2
  · simp [h]
  · rw [if_neg h]
    cases hc : Ord.compare x.1 y.1 with
    | lt =>
        have hlt := compare_lt_iff_lt.mp hc
        simp only [reduceCtorEq, false_iff, not_and, not_or]
        exact fun _ => ⟨by omega, fun he => by omega⟩
    | eq =>
        have he := compare_eq_iff_eq.mp hc
        simp [Ne.symm h, he, @Std.OrientedCmp.gt_iff_lt _ compare _ x.2 y.2]
    | gt => simp [Ne.symm h, compare_gt_iff_gt.mp hc]

-- Only for equal sources is the comparison no order.
theorem insides_trans [Std.TransCmp compare] {z : Int × σ} (hxy : insides compare x y = .lt)
    (hyz : insides compare y z = .lt) (hne : x.2 ≠ z.2) : insides compare x z = .lt := by
  obtain ⟨-, hxy⟩ := insides_lt_iff.mp hxy
  obtain ⟨-, hyz⟩ := insides_lt_iff.mp hyz
  refine insides_lt_iff.mpr ⟨hne, ?_⟩
  rcases hxy with hxy | ⟨h₁, hxy⟩
  · rcases hyz with hyz | ⟨h₂, -⟩
    · exact .inl (by omega)
    · exact .inl (by omega)
  · rcases hyz with hyz | ⟨h₂, hyz⟩
    · exact .inl (by omega)
    · exact .inr ⟨by omega, Std.TransCmp.lt_trans hxy hyz⟩

namespace Queue

-- The cardinal is a value, and the elements ascend.
structure Inv (compare : σ → σ → Ordering) (q : Queue σ) : Prop where
  card : q.t.card = .value q.toList.length
  sorted : q.toList.Pairwise fun x y => insides compare x y = .lt

omit [DecidableEq σ] in
theorem length_eq (h : q.t.card = .value q.toList.length) : q.length = q.toList.length := by
  rw [length, cardinal, h]

-- The length counts every put, and the content only grows by new elements.
theorem put_spec (h : q.t.card = .value q.toList.length) (x : Int × σ) :
    ∃ q', q.put compare x = .ok q' ∧ q'.kind = q.kind ∧ q'.length = q.toList.length + 1 ∧
      (q'.toList.length : Int) = q.toList.length + if q.mem compare x then 0 else 1 := by
  obtain ⟨t', ht', hin, hout⟩ :=
    @Btree.addTree_spec _ (insides compare) x q.t.tree
  refine ⟨⟨q.kind, t', .value (q.toList.length + 1)⟩, ?_, rfl, rfl, ?_⟩
  · rw [put, Set2.add, ht', h]
    rfl
  · rw [mem, Set2.mem]
    cases hm : q.t.tree.memTree (insides compare) x with
    | true => simp [toList, hin hm]
    | false =>
        obtain ⟨A, B, hA, hB⟩ := hout hm
        simp only [toList, hA, hB, List.length_append, List.length_cons, Bool.false_eq_true, if_false]
        omega

theorem put_inv [Std.TransCmp compare] (h : q.Inv compare)
    (hx : ∀ y ∈ q.toList, insides compare x y ≠ .eq) :
    ∃ q', q.put compare x = .ok q' ∧ q'.Inv compare ∧ q'.kind = q.kind ∧
      q'.toList.Perm (x :: q.toList) := by
  obtain ⟨t', ht', -, -⟩ := @Btree.addTree_spec _ (insides compare) x q.t.tree
  have hne : ∀ y ∈ q.toList, x.2 ≠ y.2 := fun y hy heq => hx y hy (if_pos heq)
  obtain ⟨hsorted, hperm⟩ := @Btree.addTree_sorted _ (insides compare) x q.t.tree t'
    (fun y z => insides_gt_iff.mp)
    (fun y hy z hz hyz => ⟨fun hxy => insides_trans hxy hyz (hne z hz),
      fun hzx => insides_trans hyz hzx (Ne.symm (hne y hy))⟩) hx h.sorted ht'
  refine ⟨⟨q.kind, t', .value (q.toList.length + 1)⟩, ?_, ⟨?_, hsorted⟩, rfl, hperm⟩
  · rw [put, Set2.add, ht', h.card]
    rfl
  · show Card.value _ = Card.value (t'.elements.length : Int)
    rw [hperm.length_eq]
    rfl

-- At most one element leaves, and the length follows.
theorem remove_spec (h : q.t.card = .value q.toList.length) (x : Int × σ) :
    ∃ q', q.remove compare x = .ok q' ∧ q'.kind = q.kind ∧
      q'.t.card = .value q'.toList.length ∧
      (q.mem compare x = false → q' = q) ∧
      (q.mem compare x = true → ∃ A y B, insides compare x y = .eq ∧
        q.toList = A ++ y :: B ∧ q'.toList = A ++ B) := by
  obtain ⟨t', ht', hin⟩ := @Btree.removeTree_spec _ (insides compare) x q.t.tree
  cases hm : q.t.tree.memTree (insides compare) x with
  | false =>
      refine ⟨q, ?_, rfl, h, fun _ => rfl, fun hm' => absurd (hm.symm.trans hm') (by decide)⟩
      rw [remove, Set2.remove, ht', hm]
      rfl
  | true =>
      obtain ⟨A, y, B, hy, hA, hB⟩ := hin hm
      refine ⟨⟨q.kind, t', .value (q.toList.length - 1)⟩, ?_, rfl, ?_,
        fun hm' => absurd (hm.symm.trans hm') (by decide), fun _ => ⟨A, y, B, hy, hA, hB⟩⟩
      · rw [remove, Set2.remove, ht', hm, h]
        rfl
      · show Card.value (q.t.tree.elements.length - 1 : Int) = Card.value (t'.elements.length : Int)
        rw [hA, hB, List.length_append, List.length_append, List.length_cons]
        congr 1
        omega

theorem remove_inv (h : q.Inv compare) (x : Int × σ) :
    ∃ q', q.remove compare x = .ok q' ∧ q'.kind = q.kind ∧ q'.Inv compare := by
  obtain ⟨q', hq', hkind, hcard, hout, hin⟩ := @remove_spec σ _ compare q h.card x
  refine ⟨q', hq', hkind, hcard, ?_⟩
  cases hm : q.mem compare x with
  | false => rw [hout hm]; exact h.sorted
  | true =>
      obtain ⟨A, y, B, -, hA, hB⟩ := hin hm
      have hs := h.sorted
      rw [hA] at hs
      rw [hB]
      exact hs.sublist (List.Sublist.append_left (List.sublist_cons_self y B) A)

-- A queued element is found, and it is the one that leaves.
theorem remove_of_mem [Std.TransCmp compare] (h : q.Inv compare) {A B : List (Int × σ)}
    (hx : q.toList = A ++ x :: B) :
    ∃ q', q.remove compare x = .ok q' ∧ q'.kind = q.kind ∧ q'.Inv compare ∧
      q'.toList = A ++ B := by
  obtain ⟨q', hq', hkind, hinv⟩ := remove_inv h x
  obtain ⟨q'', hq'', -, -, -, hin⟩ := @remove_spec σ _ compare q h.card x
  obtain rfl := Except.ok.inj (hq'.symm.trans hq'')
  refine ⟨q', hq', hkind, hinv, ?_⟩
  have hmem : q.mem compare x = true :=
    @Btree.memTree_of_mem _ (insides compare) x (fun y z hyz => insides_gt_iff.mpr hyz)
      (insides_self x) q.t.tree h.sorted (show x ∈ q.toList by simp [hx])
  obtain ⟨A', y, B', hy, hA', hB'⟩ := hin hmem
  -- the element that leaves stands where x does: no other one compares equal
  have hlen : A'.length = A.length := by
    have hs := List.pairwise_iff_getElem.mp h.sorted
    have hgx : q.toList[A.length]? = some x := by simp [hx]
    have hgy : q.toList[A'.length]? = some y := by simp [hA']
    obtain ⟨hix, hgx⟩ := List.getElem?_eq_some_iff.mp hgx
    obtain ⟨hiy, hgy⟩ := List.getElem?_eq_some_iff.mp hgy
    rcases Nat.lt_trichotomy A.length A'.length with hlt | heq | hgt
    · have hxy := hs _ _ hix hiy hlt
      rw [hgx, hgy, hy] at hxy
      exact absurd hxy (by decide)
    · exact heq.symm
    · have hyx := hs _ _ hiy hix hgt
      rw [hgx, hgy] at hyx
      rw [insides_gt_iff.mpr hyx] at hy
      exact absurd hy (by decide)
  obtain ⟨rfl, htail⟩ := List.append_inj (hA'.symm.trans hx) hlen
  obtain ⟨-, rfl⟩ := List.cons.inj htail
  exact hB'

-- What head and take do to a queue: they give the extremal element, which is the
-- first one of the oldest first and the last one of the oldest last.
theorem head_take [Std.TransCmp compare] (h : q.Inv compare) :
    (q.toList = [] → q.head = none ∧ q.take compare = none) ∧
      ∀ x L, (q.kind = .oldestFirst → q.toList = x :: L) →
        (q.kind = .oldestLast → q.toList = L ++ [x]) →
        q.head = some x ∧ ∃ q', q.take compare = some (x, q') ∧ q'.Inv compare ∧ q'.toList = L := by
  have htree : ∀ {t : Btree (Int × σ)}, t.elements = [] → t = .empty := by
    intro t ht
    cases t with
    | empty => rfl
    | node l v r h => simp [Btree.elements] at ht
  refine ⟨fun hnil => ?_, fun x L hfirst hlast => ?_⟩
  · have hhead : q.head = none := by
      rw [head, htree hnil]
      cases q.kind <;> rfl
    exact ⟨hhead, by rw [take, hhead]; rfl⟩
  · have hspec : q.head = some x ∧ ∃ A B, q.toList = A ++ x :: B ∧ A ++ B = L := by
      rw [head]
      cases hk : q.kind with
      | oldestFirst =>
          have hx := hfirst hk
          obtain ⟨y, L', hmin, hL'⟩ := Btree.minEltTree_spec (t := q.t.tree)
            (fun he => by rw [toList, he] at hx; simp [Btree.elements] at hx)
          obtain ⟨rfl, rfl⟩ := List.cons.inj (hL'.symm.trans hx)
          exact ⟨by simp [hmin, Except.toOption], [], L', hx, rfl⟩
      | oldestLast =>
          have hx := hlast hk
          obtain ⟨y, L', hmax, hL'⟩ := Btree.maxEltTree_spec (t := q.t.tree)
            (fun he => by rw [toList, he] at hx; simp [Btree.elements] at hx)
          obtain ⟨rfl, hy⟩ := List.append_inj' (hL'.symm.trans hx) rfl
          obtain ⟨rfl, -⟩ := List.cons.inj hy
          exact ⟨by simp [hmax, Except.toOption], L', [], hx, List.append_nil _⟩
    obtain ⟨hhead, A, B, hx, hAB⟩ := hspec
    obtain ⟨q', hq', -, hinv, hB⟩ := remove_of_mem h hx
    refine ⟨hhead, q', ?_, hinv, hB.trans hAB⟩
    rw [take, hhead]
    show (do let q ← (q.remove compare x).toOption; return (x, q)) = _
    rw [hq']
    rfl

theorem create_inv (kind : Kind) : (create kind : Queue σ).Inv compare :=
  ⟨rfl, List.Pairwise.nil⟩

omit [DecidableEq σ] in
theorem toList_split (q : Queue σ) (hne : q.toList ≠ []) : ∃ x L,
    (q.kind = .oldestFirst → q.toList = x :: L) ∧ (q.kind = .oldestLast → q.toList = L ++ [x]) := by
  cases hk : q.kind with
  | oldestFirst =>
      obtain ⟨x, L, hx⟩ := List.exists_cons_of_ne_nil hne
      exact ⟨x, L, fun _ => hx, nofun⟩
  | oldestLast =>
      exact ⟨q.toList.getLast hne, q.toList.dropLast, nofun,
        fun _ => (List.dropLast_append_getLast hne).symm⟩

-- The extremal element comes before all others in the order of the kind.
def Extremal (compare : σ → σ → Ordering) (q : Queue σ) (x y : Int × σ) : Prop :=
  match q.kind with
  | .oldestFirst => insides compare x y = .lt
  | .oldestLast => insides compare y x = .lt

theorem Inv.take [Std.TransCmp compare] (h : q.Inv compare) (hne : q.toList ≠ []) :
    ∃ x q', q.head = some x ∧ q.take compare = some (x, q') ∧ q'.Inv compare ∧
      q.toList.Perm (x :: q'.toList) ∧ ∀ y ∈ q'.toList, q.Extremal compare x y := by
  obtain ⟨x, L, hfirst, hlast⟩ := toList_split q hne
  obtain ⟨hhead, q', htake, hinv, rfl⟩ := (head_take h).2 x L hfirst hlast
  refine ⟨x, q', hhead, htake, hinv, ?_, fun y hy => ?_⟩
  · cases hk : q.kind with
    | oldestFirst => rw [hfirst hk]
    | oldestLast => rw [hlast hk]; exact List.perm_append_singleton x q'.toList
  · have hs := h.sorted
    rw [Extremal]
    cases hk : q.kind with
    | oldestFirst =>
        rw [hfirst hk] at hs
        exact (List.pairwise_cons.mp hs).1 y hy
    | oldestLast =>
        rw [hlast hk] at hs
        exact (List.pairwise_append.mp hs).2.2 y hy x (by simp)

-- What one operation keeps.
theorem Inv.next [Std.TransCmp compare] (h : q.Inv compare) {op : Op σ}
    (hop : Fresh compare q op) : (op.next compare q).Inv compare := by
  cases op with
  | put x =>
      obtain ⟨q', hq', hinv, -, -⟩ := put_inv h hop
      simpa [Op.next, hq', Except.toOption] using hinv
  | remove x =>
      obtain ⟨q', hq', -, hinv⟩ := remove_inv h x
      simpa [Op.next, hq', Except.toOption] using hinv
  | take =>
      by_cases hnil : q.toList = []
      · simpa [Op.next, ((head_take h).1 hnil).2] using h
      · obtain ⟨x, q', -, htake, hinv, -⟩ := h.take hnil
        simpa [Op.next, htake] using hinv

end Queue

theorem Reachable.inv [Std.TransCmp compare] (h : Reachable compare (Fresh compare) q) :
    q.Inv compare :=
  Reach.inv (by rintro q ⟨kind, rfl⟩; exact Queue.create_inv kind)
    (fun _ _ hinv hop => hinv.next hop) h

-- As long as only new elements are put, the length is that of the content, and
-- head and take give its extremal element. The next put counts right exactly when
-- the search does not find its element.
theorem length_of_puts [Std.TransCmp compare] (h : Reachable compare (Fresh compare) q) :
    q.length = q.toList.length ∧
      (q.toList = [] → q.head = none ∧ q.take compare = none) ∧
      (q.toList ≠ [] → ∃ x q', q.head = some x ∧ q.take compare = some (x, q') ∧
        q.toList.Perm (x :: q'.toList) ∧ ∀ y ∈ q'.toList, q.Extremal compare x y) ∧
      ∀ x, ∃ q', q.put compare x = .ok q' ∧ q'.length = q.length + 1 ∧
        (q'.length = q'.toList.length ↔ q.mem compare x = false) := by
  have hinv := h.inv
  have hlength := Queue.length_eq hinv.card
  refine ⟨hlength, (Queue.head_take hinv).1, fun hne => ?_, fun x => ?_⟩
  · obtain ⟨x, q', hhead, htake, -, hperm, hext⟩ := hinv.take hne
    exact ⟨x, q', hhead, htake, hperm, hext⟩
  · obtain ⟨q', hq', -, hlen, hcount⟩ := Queue.put_spec hinv.card x
    refine ⟨q', hq', by rw [hlen, hlength], ?_⟩
    rw [hlen, hcount]
    cases q.mem compare x <;> simp

theorem length_of_puts_two : ∃ q' : Queue Nat,
    (Op.next Ord.compare (.put (5, 0)) (Op.next Ord.compare (.put (3, 1))
      (Queue.create .oldestFirst))).put Ord.compare (5, 0) = .ok q' ∧ q'.length = 3 := by
  have h₀ : Reachable Ord.compare (Fresh Ord.compare) (Queue.create .oldestFirst : Queue Nat) :=
    .start ⟨_, rfl⟩
  have h₁ := Reach.step h₀ (show Fresh Ord.compare _ (.put (3, 1)) by decide)
  have h₂ := Reach.step h₁ (show Fresh Ord.compare _ (.put (5, 0)) by decide)
  obtain ⟨-, -, -, hput⟩ := length_of_puts h₂
  obtain ⟨q', hq', hlen, -⟩ := hput (5, 0)
  exact ⟨q', hq', hlen⟩

-- The same element is put twice.
theorem length_of_puts_false : ¬ ∀ q : Queue Nat,
    Reachable Ord.compare (fun _ _ => True) q → q.length = q.toList.length := by
  intro h
  have h₀ : Reachable Ord.compare (fun _ _ => True) (Queue.create .oldestFirst : Queue Nat) :=
    .start ⟨_, rfl⟩
  have h₁ := @Reach.step _ _ (Op.next Ord.compare) _ _ _ (.put (3, 1)) h₀ trivial
  have h₂ := @Reach.step _ _ (Op.next Ord.compare) _ _ _ (.put (3, 1)) h₁ trivial
  exact absurd (h _ h₂) (by decide)

end Mldonkey.Queues
