import Mldonkey.Lib.RunLength
import Mldonkey.Swarming.Ledger.Picking
import Mldonkey.Swarming.Mapped
import Mldonkey.Swarming.SetPresent

namespace Mldonkey.Swarming

open RunLength

-- The priority that a list of intervals gives to the byte at `x`.
def priorityAt (intervals : List (Int × Int)) (x : Int) : Option Int := valueAt none intervals x

theorem validateIntervals_iff {limit p v : Int} {l : List (Int × Int)} :
    validateIntervals limit ((p, v) :: l) = true ↔ Proper limit p v l := by
  induction l generalizing p v with
  | nil => simp [validateIntervals, Proper]
  | cons run l ih =>
    obtain ⟨q, w⟩ := run
    simp only [validateIntervals, Bool.and_eq_true, decide_eq_true_eq, Proper, ih]
    tauto

-- A list that is validated and begins at the first byte.
theorem exists_of_validate {limit : Int} {l : List (Int × Int)}
    (hl : validateIntervals limit l = true) (hfirst : l.head?.map Prod.fst = some 0) :
    ∃ v tail, l = (0, v) :: tail ∧ Proper limit 0 v tail := by
  cases l with
  | nil => cases hfirst
  | cons run tail =>
    obtain ⟨p, v⟩ := run
    obtain rfl : p = 0 := Option.some.inj hfirst
    exact ⟨v, tail, rfl, validateIntervals_iff.mp hl⟩

section Insert

variable {limit newStart newEnd newPrio : Int}

-- Behind the new run, the list goes on as the old one does.
theorem insertPrioEnd_spec (hend : newEnd ≤ limit) {l : List (Int × Int)} {pos prev : Int}
    (hl : Proper limit pos prev l) (hpos : pos < newEnd) :
    ∃ r, insertPrioEnd limit newEnd newPrio prev l = .ok r ∧
      (∀ start < newEnd, Proper limit start newPrio r) ∧
      ∀ x < limit, valueAt (some newPrio) r x =
        if x < newEnd then some newPrio else valueAt (some prev) l x := by
  induction l generalizing pos prev with
  | nil =>
    simp only [insertPrioEnd]
    by_cases hlast : newEnd = limit
    · refine ⟨[], by rw [if_pos hlast], fun start hs => hlast ▸ hs, fun x hx => ?_⟩
      rw [if_pos (hlast ▸ hx)]
      rfl
    · by_cases hne : newPrio = prev
      · subst hne
        refine ⟨[], by rw [if_neg hlast, if_neg (by simp)], fun start hs => ?_, fun x _ => ?_⟩
        · exact lt_of_lt_of_le hs hend
        · rw [valueAt, ite_self]
      · refine ⟨[(newEnd, prev)], by rw [if_neg hlast, if_pos hne], fun start hs => ?_,
          fun x _ => ?_⟩
        · exact ⟨hs, hne, lt_of_le_of_ne hend hlast⟩
        · simp only [valueAt]
  | cons run tail ih =>
    obtain ⟨q, prio⟩ := run
    obtain ⟨hq, hprio, htail⟩ := hl
    simp only [insertPrioEnd]
    rcases lt_trichotomy q newEnd with hlt | rfl | hgt
    · -- the run is eaten
      obtain ⟨r, hr, hproper, hvalue⟩ := ih htail hlt
      refine ⟨r, by rw [if_pos hlt, hr], hproper, fun x hx => ?_⟩
      rw [hvalue x hx]
      split
      · rfl
      · exact (valueAt_of_le (by omega)).symm
    · rw [if_neg (lt_irrefl q), if_neg (lt_irrefl q), if_neg (Ne.symm hprio)]
      by_cases hne : newPrio = prio
      · subst hne
        refine ⟨tail, by rw [if_neg (by simp)], fun start hs => htail.mono hs.le, fun x _ => ?_⟩
        split
        · -- the next run begins behind the end of the new one
          next hx =>
            cases tail with
            | nil => rfl
            | cons run tail => exact valueAt_of_lt (hx.trans htail.1)
        · next hx => exact (valueAt_of_le (not_lt.mp hx)).symm
      · refine ⟨(q, prio) :: tail, by rw [if_pos hne], fun start hs => ⟨hs, hne, htail⟩,
          fun x _ => ?_⟩
        simp only [valueAt]
        split <;> rfl
    · rw [if_neg (by omega), if_pos hgt]
      by_cases hne : newPrio = prev
      · subst hne
        refine ⟨(q, prio) :: tail, by rw [if_neg (by simp)],
          fun start hs => ⟨hs.trans hgt, hprio, htail⟩, fun x _ => ?_⟩
        split
        · exact valueAt_of_lt (by omega)
        · rfl
      · refine ⟨(newEnd, prev) :: (q, prio) :: tail, by rw [if_pos hne],
          fun start hs => ⟨hs, hne, hgt, hprio, htail⟩, fun x _ => ?_⟩
        rw [valueAt]

-- What is done when it is found where the new run begins.
theorem insertPrio_join (hlt : newStart < newEnd) {rest tail l : List (Int × Int)}
    {pos prev prio : Int} (hpos : pos < newStart)
    (hproper : ∀ start < newEnd, Proper limit start newPrio rest)
    (hvalue : ∀ x < limit, valueAt (some newPrio) rest x =
      if x < newEnd then some newPrio else valueAt (some prio) tail x)
    (hbefore : ∀ x < newStart, valueAt (some prev) l x = some prev)
    (hafter : ∀ x, newStart ≤ x → valueAt (some prev) l x = valueAt (some prio) tail x) :
    Proper limit pos prev (if newPrio ≠ prev then (newStart, newPrio) :: rest else rest) ∧
      ∀ x < limit, valueAt (some prev)
          (if newPrio ≠ prev then (newStart, newPrio) :: rest else rest) x =
        if newStart ≤ x ∧ x < newEnd then some newPrio else valueAt (some prev) l x := by
  have hright : ∀ x < limit, newStart ≤ x → valueAt (some newPrio) rest x =
      if newStart ≤ x ∧ x < newEnd then some newPrio else valueAt (some prev) l x := by
    intro x hx hs
    rw [hvalue x hx, hafter x hs]
    exact if_congr (by simp [hs]) rfl rfl
  by_cases hne : newPrio = prev
  · subst hne
    rw [if_neg (by simp)]
    refine ⟨hproper pos (hpos.trans hlt), fun x hx => ?_⟩
    rcases lt_or_ge x newStart with hs | hs
    · rw [hvalue x hx, if_pos (hs.trans hlt), if_neg (by omega), hbefore x hs]
    · exact hright x hx hs
  · rw [if_pos hne]
    refine ⟨⟨hpos, Ne.symm hne, hproper newStart hlt⟩, fun x hx => ?_⟩
    rcases lt_or_ge x newStart with hs | hs
    · rw [valueAt_of_lt hs, if_neg (by omega), hbefore x hs]
    · rw [valueAt_of_le hs]
      exact hright x hx hs

-- The new interval takes the place of what the list said there.
theorem insertPrio_spec (hlt : newStart < newEnd) (hend : newEnd ≤ limit)
    {l : List (Int × Int)} {pos prev : Int} (hl : Proper limit pos prev l)
    (hpos : pos < newStart) :
    ∃ r, insertPrio limit newStart newEnd newPrio prev l = .ok r ∧ Proper limit pos prev r ∧
      ∀ x < limit, valueAt (some prev) r x =
        if newStart ≤ x ∧ x < newEnd then some newPrio else valueAt (some prev) l x := by
  induction l generalizing pos prev with
  | nil =>
    obtain ⟨rest, hrest, hproper, hvalue⟩ :=
      @insertPrioEnd_spec limit newEnd newPrio hend _ _ _ hl (hpos.trans hlt)
    obtain ⟨hn, hv⟩ := insertPrio_join hlt hpos hproper hvalue (fun _ _ => rfl) fun _ _ => rfl
    exact ⟨_, by rw [insertPrio, hrest]; rfl, hn, hv⟩
  | cons run tail ih =>
    obtain ⟨q, prio⟩ := run
    obtain ⟨hq, hprio, htail⟩ := id hl
    rcases lt_trichotomy q newStart with hs | rfl | hs
    · obtain ⟨r, hr, hn, hv⟩ := ih htail hs
      refine ⟨(q, prio) :: r, by rw [insertPrio, if_pos hs, hr]; rfl, ⟨hq, hprio, hn⟩,
        fun x hx => ?_⟩
      rcases lt_or_ge x q with hx' | hx'
      · rw [valueAt_of_lt hx', valueAt_of_lt hx', if_neg (by omega)]
      · rw [valueAt_of_le hx', valueAt_of_le hx', hv x hx]
    · obtain ⟨rest, hrest, hproper, hvalue⟩ :=
        @insertPrioEnd_spec limit newEnd newPrio hend _ _ _ htail hlt
      obtain ⟨hn, hv⟩ := insertPrio_join hlt hpos hproper hvalue
        (fun x hx => valueAt_of_lt hx) fun x hx => valueAt_of_le hx
      refine ⟨_, ?_, hn, hv⟩
      rw [insertPrio, if_neg (lt_irrefl q), if_neg (lt_irrefl q), if_neg (Ne.symm hprio), hrest]
      rfl
    · obtain ⟨rest, hrest, hproper, hvalue⟩ :=
        @insertPrioEnd_spec limit newEnd newPrio hend _ _ _ hl (hpos.trans hlt)
      obtain ⟨hn, hv⟩ := insertPrio_join hlt hpos hproper hvalue
        (fun x hx => valueAt_of_lt (hx.trans hs)) fun _ _ => rfl
      refine ⟨_, ?_, hn, hv⟩
      rw [insertPrio, if_neg (by omega), if_pos hs, hrest]
      rfl

-- The list that an insertion returns is validated and says the new priority on the interval
-- and the old ones elsewhere.
def Overrides (limit newStart newEnd newPrio : Int) (l : List (Int × Int)) : Prop :=
  ∃ r, insertPrioInterval l limit newStart newEnd newPrio = .ok r ∧
    validateIntervals limit r = true ∧ ∀ x, 0 ≤ x → x < limit →
      priorityAt r x =
        if newStart ≤ x ∧ x < newEnd then some newPrio else priorityAt l x

-- An insertion at the first byte takes -1 for the priority in front of it.
theorem overrides_iff {l : List (Int × Int)} (hl : validateIntervals limit l = true)
    (hfirst : l.head?.map Prod.fst = some 0) (hstart : 0 ≤ newStart)
    (hlt : newStart < newEnd) (hend : newEnd ≤ limit) :
    Overrides limit newStart newEnd newPrio l ↔
      ¬ (newStart = 0 ∧ (newPrio = -1 ∨ priorityAt l 0 = some (-1))) := by
  obtain ⟨v, tail, rfl, hproper⟩ := exists_of_validate hl hfirst
  have hzero : priorityAt ((0, v) :: tail) 0 = some v :=
    (valueAt_of_le le_rfl).trans hproper.valueAt_eq
  have hinsert : insertPrioInterval ((0, v) :: tail) limit newStart newEnd newPrio =
      insertPrio limit newStart newEnd newPrio (-1) ((0, v) :: tail) := if_pos ⟨hlt, hend⟩
  rw [hzero, Option.some.injEq, Overrides, hinsert]
  rcases hstart.lt_or_eq with hs | rfl
  · obtain ⟨r, hr, hn, hv⟩ :=
      @insertPrio_spec limit newStart newEnd newPrio hlt hend _ _ _ hproper hs
    refine iff_of_true ⟨(0, v) :: r, ?_, validateIntervals_iff.mpr hn, fun x hx hxl => ?_⟩
      (by omega)
    · rw [insertPrio, if_pos hs, hr]
      rfl
    · rw [priorityAt, priorityAt, valueAt_of_le hx, valueAt_of_le hx, hv x hxl]
  · obtain ⟨rest, hrest, hn, hv⟩ :=
      @insertPrioEnd_spec limit newEnd newPrio hend _ _ _ hproper hlt
    by_cases hv' : v = -1
    · -- the first run is taken for one that should have been joined to its predecessor
      refine iff_of_false ?_ (by simp [hv'])
      rintro ⟨r, hr, -⟩
      rw [insertPrio, if_neg (lt_irrefl 0), if_neg (lt_irrefl 0), if_pos hv'] at hr
      cases hr
    · have hcases : insertPrio limit 0 newEnd newPrio (-1) ((0, v) :: tail) =
          .ok (if newPrio ≠ -1 then (0, newPrio) :: rest else rest) := by
        rw [insertPrio, if_neg (lt_irrefl 0), if_neg (lt_irrefl 0), if_neg hv', hrest]
        rfl
      rw [hcases]
      by_cases hp : newPrio = -1
      · -- no run is made for the new priority
        refine iff_of_false ?_ (by simp [hp])
        rintro ⟨r, hr, -, hvalue⟩
        rw [if_neg (by simpa using hp)] at hr
        obtain rfl := Except.ok.inj hr
        have hnone : priorityAt rest 0 = none := by
          cases rest with
          | nil => rfl
          | cons run rest => exact valueAt_of_lt (hn 0 hlt).1
        have hsome := hvalue 0 le_rfl (hlt.trans_le hend)
        rw [if_pos ⟨le_rfl, hlt⟩, hnone] at hsome
        cases hsome
      · rw [if_pos hp]
        refine iff_of_true ⟨_, rfl, validateIntervals_iff.mpr (hn 0 hlt), fun x hx hxl => ?_⟩
          (by simp [hp, hv'])
        rw [priorityAt, priorityAt, valueAt_of_le hx, valueAt_of_le hx, hv x hxl]
        exact if_congr (by simp [hx]) rfl rfl

end Insert

namespace Store

variable {s : Store} {i : Nat} {x : Int}

theorem Placed.blockNum_le_iff (h : s.Placed) (hi : i < s.blocks.length) (hx : 0 ≤ x)
    (hlt : x < s.size) : s.blockNum x ≤ i ↔ x < s.computeBlockEnd i := by
  obtain ⟨hn, hb, he⟩ := blockNum_spec h hx hlt
  constructor
  · intro hle
    rcases hle.lt_or_eq with hlt' | rfl
    · exact he.trans_le ((h.end_le_begin hlt' hi).trans (h.le hi))
    · exact he
  · intro hxe
    by_contra hgt
    have := h.end_le_begin (not_le.mp hgt) hn
    omega

theorem Placed.le_blockNum_iff (h : s.Placed) (hi : i < s.blocks.length) (hx : 0 ≤ x)
    (hlt : x < s.size) : i ≤ s.blockNum x ↔ s.computeBlockBegin i ≤ x := by
  obtain ⟨hn, hb, he⟩ := blockNum_spec h hx hlt
  constructor
  · intro hle
    rcases hle.lt_or_eq with hlt' | rfl
    · exact ((h.le hi).trans (h.end_le_begin hlt' hn)).trans hb
    · exact hb
  · intro hbx
    by_contra hgt
    have := h.end_le_begin (not_le.mp hgt) hi
    omega

-- A run marks the blocks in which it has a byte.
theorem Placed.getD_markPriority (h : s.Placed) {bitmap : List Nat} {a e v : Int}
    (ha : 0 ≤ a) (hae : a < e) (he : e ≤ s.size) (hi : i < s.blocks.length)
    (hlen : bitmap.length = s.blocks.length) :
    (s.markPriority bitmap a e v).getD i 0 =
      if v ≠ 0 ∧ s.computeBlockBegin i < e ∧ a < s.computeBlockEnd i
        then (max 0 (min v 255)).toNat else bitmap.getD i 0 := by
  have hbegin := h.blockNum_le_iff hi ha (hae.trans_le he)
  have hend := @Placed.le_blockNum_iff s i (e - 1) h hi (by omega) (by omega)
  rw [markPriority, if_pos ⟨hae, he, ha⟩]
  by_cases hv : v = 0
  · rw [if_pos hv, if_neg (by simp [hv])]
  · have hget : bitmap[i]? = some (bitmap.getD i 0) := by
      rw [List.getD_eq_getElem _ _ (by omega), List.getElem?_eq_getElem]
    rw [if_neg hv, List.getD_eq_getElem?_getD, List.getElem?_mapIdx, hget]
    refine if_congr ?_ rfl rfl
    constructor
    · rintro ⟨h1, h2⟩
      exact ⟨hv, by have := hend.mp h2; omega, hbegin.mp h1⟩
    · rintro ⟨-, h1, h2⟩
      exact ⟨hbegin.mpr h2, hend.mpr (by omega)⟩

-- A block keeps its mark where no byte of it has a priority; otherwise the last one of them
-- tells the new mark.
theorem Placed.getD_markPriorities (h : s.Placed) (hi : i < s.blocks.length)
    {tail : List (Int × Int)} {p v : Int} {bitmap : List Nat} (hp : 0 ≤ p)
    (hl : Proper s.size p v tail) (hlen : bitmap.length = s.blocks.length) :
    ((∀ x, s.computeBlockBegin i ≤ x → x < s.computeBlockEnd i → p ≤ x →
      valueAt (some v) tail x = some 0) →
        (s.markPriorities bitmap ((p, v) :: tail)).getD i 0 = bitmap.getD i 0) ∧
    ∀ x w, s.computeBlockBegin i ≤ x → x < s.computeBlockEnd i → p ≤ x →
      valueAt (some v) tail x = some w → w ≠ 0 →
      (∀ y, x < y → y < s.computeBlockEnd i → valueAt (some v) tail y = some 0) →
        (s.markPriorities bitmap ((p, v) :: tail)).getD i 0 = (max 0 (min w 255)).toNat := by
  have hblock := h.lt (hp.trans_lt hl.lt_limit) i hi
  have hsize := h.end_le_size hi
  induction tail generalizing p v bitmap with
  | nil =>
    have hmark := @h.getD_markPriority s i bitmap p s.size v hp hl le_rfl hi hlen
    rw [markPriorities, hmark]
    constructor
    · intro hzero
      refine if_neg ?_
      rintro ⟨hv, -, hpe⟩
      have := hzero (max p (s.computeBlockBegin i)) (le_max_right _ _)
        (max_lt hpe hblock) (le_max_left _ _)
      exact hv (Option.some.inj this)
    · intro x w hb he hpx hx hw _
      obtain rfl : v = w := Option.some.inj hx
      exact if_pos ⟨hw, by omega, by omega⟩
  | cons run tail ih =>
    obtain ⟨q, u⟩ := run
    obtain ⟨hpq, hne, htail⟩ := hl
    have hmark := @h.getD_markPriority s i bitmap p q v hp hpq htail.lt_limit.le hi hlen
    obtain ⟨hkeep, hlast⟩ := @ih q u (s.markPriority bitmap p q v) (hp.trans hpq.le) htail
      (by rw [length_markPriority, hlen])
    rw [markPriorities]
    constructor
    · intro hzero
      rw [hkeep fun x hb he hqx => ?_, hmark]
      · refine if_neg ?_
        rintro ⟨hv, hbq, hpe⟩
        have := hzero (max p (s.computeBlockBegin i)) (le_max_right _ _)
          (max_lt hpe hblock) (le_max_left _ _)
        rw [valueAt_of_lt (max_lt hpq hbq)] at this
        exact hv (Option.some.inj this)
      · have := hzero x hb he (hpq.le.trans hqx)
        rwa [valueAt_of_le hqx] at this
    · intro x w hb he hpx hx hw hafter
      rcases lt_or_ge x q with hxq | hxq
      · -- no later byte of the block has a priority
        rw [valueAt_of_lt hxq] at hx
        obtain rfl : v = w := Option.some.inj hx
        rw [hkeep fun y _ hye hqy => ?_, hmark, if_pos ⟨hw, by omega, by omega⟩]
        have := hafter y (hxq.trans_le hqy) hye
        rwa [valueAt_of_le hqy] at this
      · rw [valueAt_of_le hxq] at hx
        refine hlast x w hb he hxq hx hw fun y hxy hye => ?_
        have := hafter y hxy hye
        rwa [valueAt_of_le (hxq.trans hxy.le)] at this

end Store

namespace State

variable {s : State}

-- The stored priority of each block tells if some byte of it has a priority.
def Marked (s : State) : Prop :=
  ∀ i < s.blocks.length, (s.prioritiesBitmap.getD i 0 ≠ PRIORITY_ZERO ↔
    ∃ x, s.computeBlockBegin i ≤ x ∧ x < s.computeBlockEnd i ∧
      priorityAt s.prioritiesIntervals x ≠ some 0)

-- In each block, the last byte whose priority is not zero has a positive one.
def LastPositive (s : State) : Prop :=
  ∀ i < s.blocks.length, ∀ x v, s.computeBlockBegin i ≤ x → x < s.computeBlockEnd i →
    priorityAt s.prioritiesIntervals x = some v → v ≠ 0 →
    (∀ y, x < y → y < s.computeBlockEnd i → priorityAt s.prioritiesIntervals y = some 0) → 0 < v

theorem exists_last {p : Int → Prop} {b e : Int} (h : ∃ x, b ≤ x ∧ x < e ∧ p x) :
    ∃ x, b ≤ x ∧ x < e ∧ p x ∧ ∀ y, x < y → y < e → ¬ p y := by
  obtain ⟨x, hx, hlast⟩ := Int.exists_greatest_of_bdd
    (P := fun x => b ≤ x ∧ x < e ∧ p x) ⟨e, fun z hz => hz.2.1.le⟩ h
  refine ⟨x, hx.1, hx.2.1, hx.2.2, fun y hxy hye hy => ?_⟩
  have := hlast y ⟨hx.1.trans hxy.le, hye, hy⟩
  omega

-- The blocks follow each other, and each has a priority.
structure Laid (s : State) : Prop where
  placed : 0 < s.size → s.Placed
  single : s.size ≤ 0 → s.blockPos = [0] ∧ s.blocks.length = 1
  priorities : s.prioritiesBitmap.length = s.blocks.length

theorem Laid.marked_iff (h : s.Laid)
    (hl : validateIntervals s.size s.prioritiesIntervals = true)
    (hfirst : s.prioritiesIntervals.head?.map Prod.fst = some 0) :
    s.swarmerRecomputePrioritiesBitmap.Marked ↔ s.LastPositive := by
  obtain ⟨v, tail, heq, hproper⟩ := exists_of_validate hl hfirst
  have hplaced := h.placed hproper.lt_limit
  have hvalue : ∀ x, 0 ≤ x → priorityAt s.prioritiesIntervals x = valueAt (some v) tail x := by
    intro x hx
    rw [heq]
    exact valueAt_of_le hx
  have hstored : ∀ i < s.blocks.length,
      ((∀ x, s.computeBlockBegin i ≤ x → x < s.computeBlockEnd i →
        priorityAt s.prioritiesIntervals x = some 0) →
          s.swarmerRecomputePrioritiesBitmap.prioritiesBitmap.getD i 0 = 0) ∧
      ∀ x w, s.computeBlockBegin i ≤ x → x < s.computeBlockEnd i →
        priorityAt s.prioritiesIntervals x = some w → w ≠ 0 →
        (∀ y, x < y → y < s.computeBlockEnd i →
          priorityAt s.prioritiesIntervals y = some 0) →
        s.swarmerRecomputePrioritiesBitmap.prioritiesBitmap.getD i 0 =
          (max 0 (min w 255)).toNat := by
    intro i hi
    have hb := hplaced.begin_nonneg hi
    obtain ⟨hkeep, hlast⟩ := @Store.Placed.getD_markPriorities s.toStore i hplaced hi tail 0 v
      (List.replicate s.prioritiesBitmap.length PRIORITY_ZERO) le_rfl hproper
      (by rw [List.length_replicate, h.priorities])
    have hrun : s.swarmerRecomputePrioritiesBitmap.prioritiesBitmap = s.markPriorities
        (List.replicate s.prioritiesBitmap.length PRIORITY_ZERO) ((0, v) :: tail) := by
      rw [← heq]
      rfl
    rw [hrun]
    constructor
    · intro hzero
      rw [hkeep fun x hbx hxe hx => (hvalue x hx).symm.trans (hzero x hbx hxe)]
      exact getD_replicate_zero _ i
    · intro x w hbx hxe hx hw hafter
      have hx0 : 0 ≤ x := hb.trans hbx
      exact hlast x w hbx hxe hx0 ((hvalue x hx0).symm.trans hx) hw fun y hxy hye =>
        (hvalue y (hx0.trans hxy.le)).symm.trans (hafter y hxy hye)
  constructor
  · intro hm i hi x w hbx hxe hx hw hafter
    have hne := (hm i hi).mpr ⟨x, hbx, hxe, fun h0 => hw (Option.some.inj (hx.symm.trans h0))⟩
    have heq' := (hstored i hi).2 x w hbx hxe hx hw hafter
    have hpos : (max 0 (min w 255)).toNat ≠ 0 := heq' ▸ hne
    omega
  · intro hm i hi
    constructor
    · intro hne
      by_contra hno
      push Not at hno
      exact hne ((hstored i hi).1 hno)
    · intro hex
      obtain ⟨x, hbx, hxe, hx, hafter⟩ := exists_last hex
      obtain ⟨w, hw⟩ := valueAt_some v tail x
      rw [← hvalue x ((hplaced.begin_nonneg hi).trans hbx)] at hw
      have hw0 : w ≠ 0 := fun h0 => hx (h0 ▸ hw)
      have hafter' : ∀ y, x < y → y < s.computeBlockEnd i →
          priorityAt s.prioritiesIntervals y = some 0 :=
        fun y hxy hye => not_not.mp (hafter y hxy hye)
      have hpos := hm i hi x w hbx hxe hw hw0 hafter'
      have heq' := (hstored i hi).2 x w hbx hxe hw hw0 hafter'
      show s.swarmerRecomputePrioritiesBitmap.prioritiesBitmap.getD i 0 ≠ 0
      rw [heq']
      omega

-- The positions of the blocks that splitIter has put in its result and of those to come.
structure Cuts (chunkSize : Int) (s : State) (i : Nat) (chunkBegin : Int)
    (newBlocks : List NewBlock) : Prop where
  le : i ≤ s.blocks.length
  positions : s.blockPos.length = s.blocks.length
  lt : ∀ j, i ≤ j → j < s.blocks.length →
    s.computeBlockBegin j < s.computeBlockEnd j ∧ s.computeBlockEnd j ≤ s.size
  here : i < s.blocks.length → s.computeBlockBegin i < chunkBegin + chunkSize
  sorted : (newBlocks.map NewBlock.pos).Pairwise (· > ·)
  below : ∀ new ∈ newBlocks,
    new.pos < s.size ∧ (i < s.blocks.length → new.pos < s.computeBlockBegin i)
  first : (s.computeBlockBegin i :: newBlocks.map NewBlock.pos).getLast? = some 0

section Cuts

variable {chunkSize chunkBegin chunkEnd : Int} {s' : State} {i : Nat} {new : NewBlock}
  {newBlocks : List NewBlock}

theorem Cuts.sorted_cons (h : Cuts chunkSize s i chunkBegin newBlocks) (hi : i < s.blocks.length)
    (hnew : new.pos = s.computeBlockBegin i) :
    ((new :: newBlocks).map NewBlock.pos).Pairwise (· > ·) := by
  rw [List.map_cons, List.pairwise_cons]
  refine ⟨fun x hx => ?_, h.sorted⟩
  obtain ⟨old, hold, rfl⟩ := List.mem_map.mp hx
  rw [hnew]
  exact (h.below old hold).2 hi

theorem Cuts.first_cons (h : Cuts chunkSize s i chunkBegin newBlocks)
    (hnew : new.pos = s.computeBlockBegin i) (x : Int) :
    (x :: (new :: newBlocks).map NewBlock.pos).getLast? = some 0 := by
  rw [List.map_cons, hnew, List.getLast?_cons_cons]
  exact h.first

-- The whole block is put.
theorem Cuts.pass (h : Cuts chunkSize s i chunkBegin newBlocks) (hi : i < s.blocks.length)
    (hnew : new.pos = s.computeBlockBegin i)
    (hnext : s.computeBlockEnd i < chunkEnd + chunkSize) :
    Cuts chunkSize s (i + 1) chunkEnd (new :: newBlocks) := by
  have hlt := h.lt i le_rfl hi
  have hsucc : i + 1 < s.blocks.length → s.computeBlockEnd i = s.computeBlockBegin (i + 1) :=
    s.computeBlockEnd_succ h.positions
  refine ⟨hi, h.positions, fun j hj => h.lt j (by omega), fun hi' => hsucc hi' ▸ hnext,
    h.sorted_cons hi hnew, fun old hold => ?_, h.first_cons hnew _⟩
  rcases List.mem_cons.mp hold with rfl | hold
  · refine ⟨by omega, fun hi' => ?_⟩
    rw [hnew, ← hsucc hi']
    exact hlt.1
  · obtain ⟨hsize, hbelow⟩ := h.below old hold
    refine ⟨hsize, fun hi' => ?_⟩
    have := hbelow hi
    have := hsucc hi'
    omega

-- The part of a block before `chunkEnd` is put.
theorem Cuts.cut (h : Cuts chunkSize s i chunkBegin newBlocks) (hi : i < s.blocks.length)
    (hnew : new.pos = s.computeBlockBegin i) (hc : 0 < chunkSize)
    (hlow : s.computeBlockBegin i < chunkEnd) (hhigh : chunkEnd < s.computeBlockEnd i)
    (hs : s'.layout = (s.size, s.blockPos.set i chunkEnd, s.blocks.length)) :
    Cuts chunkSize s' i chunkEnd (new :: newBlocks) := by
  simp only [Store.layout, Prod.mk.injEq] at hs
  obtain ⟨hsize, hpos, hblocks⟩ := hs
  have hlen := h.positions
  have hhere : s'.computeBlockBegin i = chunkEnd := by
    rw [Store.computeBlockBegin, hpos, List.getD_eq_getElem _ _ (by rw [List.length_set]; omega),
      List.getElem_set_self]
  have hbegin : ∀ j, i < j → s'.computeBlockBegin j = s.computeBlockBegin j := by
    intro j hj
    rw [Store.computeBlockBegin, Store.computeBlockBegin, hpos, List.getD_eq_getElem?_getD,
      List.getD_eq_getElem?_getD, List.getElem?_set_ne (by omega)]
  have hend : ∀ j, i ≤ j → s'.computeBlockEnd j = s.computeBlockEnd j := by
    intro j hj
    rw [Store.computeBlockEnd, Store.computeBlockEnd, hpos, hsize, List.length_set,
      List.getD_eq_getElem?_getD, List.getD_eq_getElem?_getD, List.getElem?_set_ne (by omega)]
  have hlt := h.lt i le_rfl hi
  refine ⟨by omega, by rw [hpos, hblocks, List.length_set, hlen], fun j hj hjn => ?_,
    fun _ => by rw [hhere]; omega, h.sorted_cons hi hnew, fun old hold => ?_,
    h.first_cons hnew _⟩
  · rw [hblocks] at hjn
    rw [hend j hj, hsize]
    rcases hj.lt_or_eq with hj' | rfl
    · rw [hbegin j hj']
      exact h.lt j hj hjn
    · rw [hhere]
      exact ⟨hhigh, hlt.2⟩
  · rw [hhere, hsize]
    rcases List.mem_cons.mp hold with rfl | hold
    · exact ⟨by omega, fun _ => by omega⟩
    · obtain ⟨hsize', hbelow⟩ := h.below old hold
      exact ⟨hsize', fun _ => (hbelow hi).trans hlow⟩

theorem layout_setRightBlock (i : Nat) (b2 : BlockId) :
    (s.setRightBlock i b2).layout = s.layout := by
  have h : ∀ v, (s.withStore (·.setBlockAt i v)).layout = s.layout := fun v => by
    simp [Store.layout, withStore, Store.setBlockAt]
  unfold setRightBlock
  split
  · exact h _
  · split
    · exact h _
    · exact h _

theorem pos_leftBlock (i : Nat) (b1 : BlockId) (blockBegin : Int) (s : State) :
    (s.leftBlock i b1 blockBegin).pos = blockBegin := by
  unfold leftBlock
  split
  · rfl
  · split <;> rfl

-- The blocks in the result of splitIter begin one after another, the first one at 0.
theorem Cuts.splitIter (hc : 0 < chunkSize) (fuel : Nat)
    (h : Cuts chunkSize s i chunkBegin newBlocks) {size : Int} (hsize : s.size = size) :
    let l := (splitIter chunkSize fuel s i chunkBegin newBlocks).2.map NewBlock.pos
    l.Pairwise (· < ·) ∧ (∀ x ∈ l, x < size) ∧ (l ≠ [] → l.head? = some 0) := by
  have hdone : ∀ {s : State} {i : Nat} {chunkBegin : Int} {newBlocks : List NewBlock},
      Cuts chunkSize s i chunkBegin newBlocks → s.size = size →
      let l := newBlocks.reverse.map NewBlock.pos
      l.Pairwise (· < ·) ∧ (∀ x ∈ l, x < size) ∧ (l ≠ [] → l.head? = some 0) := by
    intro s i chunkBegin newBlocks h hsize
    dsimp only
    rw [List.map_reverse, ← hsize]
    refine ⟨List.pairwise_reverse.mpr h.sorted, fun x hx => ?_, fun hne => ?_⟩
    · obtain ⟨new, hnew, rfl⟩ := List.mem_map.mp (List.mem_reverse.mp hx)
      exact (h.below new hnew).1
    · rw [List.head?_reverse]
      have hfirst := h.first
      cases hmap : newBlocks.map NewBlock.pos with
      | nil => simp [hmap] at hne
      | cons x l => rwa [hmap, List.getLast?_cons_cons] at hfirst
  induction fuel generalizing s i chunkBegin newBlocks with
  | zero => exact hdone h hsize
  | succ fuel ih =>
    unfold State.splitIter
    dsimp only
    split
    · exact hdone h hsize
    · next hi =>
      have hi' : i < s.blocks.length := h.le.lt_of_ne hi
      have hlt := h.lt i le_rfl hi'
      have hhere := h.here hi'
      split
      · next hlow =>
        exact ih (h.pass hi' rfl (by omega)) hsize
      · split
        · next heq =>
          exact ih (h.pass hi' rfl (by omega)) hsize
        · next hhigh hne =>
          have hcut : ∀ {s' : State} {new : NewBlock}, new.pos = s.computeBlockBegin i →
              s'.layout = (s.size, s.blockPos.set i (min (chunkBegin + chunkSize) s.size),
                s.blocks.length) →
              Cuts chunkSize s' i (min (chunkBegin + chunkSize) s.size) (new :: newBlocks) :=
            fun hnew hs => h.cut hi' hnew hc (by omega) (by omega) hs
          split
          · next b1 _ =>
            have hlayout : ∀ s₁ : State, ((s₁.withStore
                (·.cutPartial b1 (min (chunkBegin + chunkSize) s.size))).setRightBlock i
                  s₁.nextBlock).layout = s₁.layout := fun s₁ =>
              (layout_setRightBlock i _).trans (Store.layout_cutPartial b1 _ s₁.toStore)
            exact ih (hcut (pos_leftBlock _ _ _ _) ((hlayout _).trans
              (by simp [Store.layout, withStore])))
              ((congrArg Prod.fst (hlayout _)).trans hsize)
          · exact ih (hcut rfl (by simp [Store.layout, withStore])) hsize

end Cuts

theorem rebuildFrom_blockPos (l : List NewBlock) (s : State) (i : Nat)
    (h : s.blockPos.length = i + l.length) :
    (rebuildFrom s i l).blockPos = s.blockPos.take i ++ l.map NewBlock.pos := by
  induction l generalizing s i with
  | nil =>
    rw [List.length_nil, Nat.add_zero] at h
    simp [rebuildFrom, ← h]
  | cons new l ih =>
    rw [List.length_cons] at h
    have hset : (s.blockPos.set i new.pos).take (i + 1) = s.blockPos.take i ++ [new.pos] := by
      rw [List.take_add_one, List.take_set_of_le le_rfl, List.getElem?_set_self (by omega)]
      rfl
    have hlen : (s.blockPos.set i new.pos).length = i + 1 + l.length := by
      rw [List.length_set]
      omega
    unfold rebuildFrom
    dsimp only
    split
    all_goals
      refine (ih _ _ hlen).trans ?_
      show (s.blockPos.set i new.pos).take (i + 1) ++ l.map NewBlock.pos = _
      rw [hset, List.append_assoc]
      rfl

end State

theorem Store.placed_of_sorted {s : Store} (hs : 0 < s.size) (hne : 0 < s.blocks.length)
    (hlen : s.blockPos.length = s.blocks.length) (hsorted : s.blockPos.Pairwise (· < ·))
    (hbelow : ∀ x ∈ s.blockPos, x < s.size) (hfirst : s.blockPos.head? = some 0) : s.Placed := by
  refine ⟨hlen, hne, hs.le, ?_, fun _ i hi => ?_, fun h => by omega⟩
  · rw [Store.computeBlockBegin, List.getD_eq_getElem?_getD, ← List.head?_eq_getElem?, hfirst]
    rfl
  · rw [Store.computeBlockBegin, Store.computeBlockEnd, List.getD_eq_getElem _ _ (by omega)]
    split
    · exact hbelow _ (List.getElem_mem _)
    · rw [List.getD_eq_getElem _ _ (by omega)]
      exact List.pairwise_iff_getElem.mp hsorted _ _ _ _ (by omega)

namespace State

variable {s : State} {chunkSize : Int}

theorem Laid.congr {s' : State} (h : s.Laid) (ht : s'.tables = s.tables) : s'.Laid := by
  have hlayout : s'.layout = s.layout := congrArg (·.1) ht
  have hbitmap : s'.prioritiesBitmap.length = s.prioritiesBitmap.length :=
    congrArg (·.2.1.2) ht
  have hsize : s'.size = s.size := congrArg (·.1) hlayout
  have hblocks : s'.blocks.length = s.blocks.length := congrArg (·.2.2) hlayout
  have hpos : s'.blockPos = s.blockPos := congrArg (·.2.1) hlayout
  refine ⟨fun hs => (h.placed (hsize ▸ hs)).congr hlayout, fun hs => ?_,
    by rw [hbitmap, hblocks, h.priorities]⟩
  rw [hpos, hblocks]
  exact h.single (hsize ▸ hs)

theorem splitIter_single (hc : 0 < chunkSize) (hs : s.size ≤ 0) (hpos : s.blockPos = [0])
    (hone : s.blocks.length = 1) (fuel : Nat) :
    (splitIter chunkSize (fuel + 1) s 0 0 []).2.map NewBlock.pos = [0] := by
  have hbegin : s.computeBlockBegin 0 = 0 := by rw [Store.computeBlockBegin, hpos]; rfl
  have hend : s.computeBlockEnd 0 = s.size := by rw [Store.computeBlockEnd, hpos]; rfl
  have hmin : min (0 + chunkSize) s.size = s.size := by omega
  unfold splitIter
  dsimp only
  rw [hone, if_neg (by decide), hend, hmin, if_neg (lt_irrefl _), if_pos rfl, hbegin]
  cases fuel with
  | zero => rfl
  | succ fuel =>
    unfold splitIter
    rw [if_pos hone.symm]
    rfl

theorem Laid.splitBlocks (h : s.Laid) (hne : 0 < s.blocks.length) (hc : 0 < chunkSize) :
    (s.splitBlocks chunkSize).Laid := by
  obtain ⟨hk, hne', hlen, -, hbitmap⟩ := State.splitBlocks_spec hne chunkSize
  obtain ⟨fuel, hfuel⟩ : ∃ fuel, s.blocks.length + (s.size.tdiv chunkSize).toNat + 1 = fuel + 1 :=
    ⟨_, rfl⟩
  have hblockPos : (s.splitBlocks chunkSize).blockPos =
      (splitIter chunkSize (fuel + 1) s 0 0 []).2.map NewBlock.pos := by
    unfold State.splitBlocks
    rw [hfuel]
    generalize State.splitIter chunkSize (fuel + 1) s 0 0 [] = split
    refine (rebuildFrom_blockPos _ _ 0 ?_).trans ?_
    · simp
    · simp
  refine ⟨fun hs => ?_, fun hs => ?_, hbitmap⟩
  swap
  · -- the only block of an empty file is put as it is
    obtain ⟨hpos, hone⟩ := h.single (hk.size ▸ hs)
    have hsingle := splitIter_single hc (hk.size ▸ hs) hpos hone fuel
    rw [hsingle] at hblockPos
    exact ⟨hblockPos, by rw [← hlen, hblockPos]; rfl⟩
  have hsize : 0 < s.size := hk.size ▸ hs
  have hplaced := h.placed hsize
  have hcuts : Cuts chunkSize s 0 0 [] :=
    { le := Nat.zero_le _
      positions := hplaced.positions
      lt := fun j _ hj => ⟨hplaced.lt hsize j hj, hplaced.end_le_size hj⟩
      here := fun _ => by rw [hplaced.first]; omega
      sorted := .nil
      below := fun _ hnew => by cases hnew
      first := by rw [hplaced.first]; rfl }
  obtain ⟨hsorted, hbelow, hfirst⟩ := hcuts.splitIter hc (fuel + 1) rfl
  rw [← hblockPos] at hsorted hbelow hfirst
  refine Store.placed_of_sorted hs hne' hlen hsorted (hk.size ▸ hbelow) (hfirst fun hnil => ?_)
  rw [hnil] at hlen
  exact hne'.ne hlen

-- A frontend is associated with the swarmer without a gap between the blocks.
theorem Laid.associate (h : s.Laid) (hne : 0 < s.blocks.length) {t : Frontend}
    (ht : 0 < t.chunkSize) (file : File) : (s.associate t file).Laid := by
  unfold State.associate
  extract_lets file t' s₁ s₂
  have hs₁ : s₁.Laid := ⟨h.placed, h.single, h.priorities⟩
  have hs₂ : s₂.Laid := hs₁.splitBlocks hne ht
  exact ⟨hs₂.placed, hs₂.single, hs₂.priorities⟩

theorem Laid.step {op : Op} (h : s.Laid) (hm : Mapped s) (hop : op.Valid s) :
    (op.next s).Laid := by
  rcases hm.tabled hop with heq | ⟨t, file, ht, heq⟩
  · exact h.congr heq
  · rw [heq]
    exact h.associate hm.nonempty ht.chunkSize file

theorem laid_createSwarmer (size : Nat) : (createSwarmer size).Laid := by
  refine ⟨fun hs => ⟨rfl, Nat.one_pos, Int.natCast_nonneg size, rfl, fun _ i hi => ?_,
    fun _ => rfl⟩, fun _ => ⟨rfl, rfl⟩, Store.length_markPriorities _ _ _⟩
  obtain rfl : i = 0 := Nat.lt_one_iff.mp hi
  exact hs

theorem Laid.reachable {verifiers : Verifier → Prop} {ok : State → Op → Prop}
    (h : Reachable verifiers ok s) : s.Laid := by
  refine Runs.Reach.inv_of (fun s hs => Mapped.reachable hs) (fun s hs => ?_)
    (fun s op hm hs hop => hs.step hm hop.1) h
  obtain ⟨size, t, file, ht, -, rfl⟩ := hs.associated
  exact (laid_createSwarmer size).associate Nat.one_pos ht.chunkSize file

end State

theorem State.recompute_splitBlocks (s : State) (chunkSize : Int) :
    (s.splitBlocks chunkSize).swarmerRecomputePrioritiesBitmap = s.splitBlocks chunkSize := by
  have h : ∀ s : State, s.swarmerRecomputePrioritiesBitmap.swarmerRecomputePrioritiesBitmap =
      s.swarmerRecomputePrioritiesBitmap := by
    intro s
    have hlen : s.swarmerRecomputePrioritiesBitmap.prioritiesBitmap.length =
        s.prioritiesBitmap.length :=
      (Store.length_markPriorities _ _ _).trans List.length_replicate
    conv_lhs => rw [swarmerRecomputePrioritiesBitmap, hlen]
    rfl
  exact h _

-- An insertion fails only at the first byte and next to the priority -1. The bitmap of the
-- blocks fails exactly where a negative priority comes last in a block.
theorem priorities_iff {verifiers : Verifier → Prop} {ok : State → Op → Prop} {s : State}
    (hs : Reachable verifiers ok s) {l : List (Int × Int)}
    (hl : validateIntervals s.size l = true) (hfirst : l.head?.map Prod.fst = some 0) :
    (∀ newStart newEnd newPrio, 0 ≤ newStart → newStart < newEnd → newEnd ≤ s.size →
      (Overrides s.size newStart newEnd newPrio l ↔
        ¬ (newStart = 0 ∧ (newPrio = -1 ∨ priorityAt l 0 = some (-1))))) ∧
    (State.Marked (State.swarmerRecomputePrioritiesBitmap { s with prioritiesIntervals := l }) ↔
      State.LastPositive { s with prioritiesIntervals := l }) ∧
    ∀ chunkSize, 0 < chunkSize →
      (State.Marked (State.splitBlocks { s with prioritiesIntervals := l } chunkSize) ↔
        State.LastPositive (State.splitBlocks { s with prioritiesIntervals := l } chunkSize)) := by
  have hlaid : State.Laid { s with prioritiesIntervals := l } := by
    have h := State.Laid.reachable hs
    exact ⟨h.placed, h.single, h.priorities⟩
  refine ⟨fun newStart newEnd newPrio hstart hlt hend => overrides_iff hl hfirst hstart hlt hend,
    hlaid.marked_iff hl hfirst, fun chunkSize hc => ?_⟩
  have hne := (Mapped.reachable hs).nonempty
  have hsplit := hlaid.splitBlocks hne hc
  obtain ⟨hk, -⟩ := State.splitBlocks_spec
    (s := { s with prioritiesIntervals := l }) hne chunkSize
  rw [← hsplit.marked_iff (by rw [hk.intervals, hk.size]; exact hl)
    (by rw [hk.intervals]; exact hfirst), State.recompute_splitBlocks]

-- The middle of a file of ten bytes gets a higher priority, and its blocks are split.
theorem priorities_iff_ten : ∃ s : State, s.size = 10 ∧ Overrides s.size 2 5 3 [(0, 1)] ∧
    State.Marked
      (State.swarmerRecomputePrioritiesBitmap { s with prioritiesIntervals := [(0, 1)] }) := by
  obtain ⟨s, hs, -, -, hsize⟩ := exists_created (show 0 < 10 by decide) (show 0 < 4 by decide)
  have hsize' : s.size = 10 := hsize
  obtain ⟨hinsert, hmarked, -⟩ :=
    priorities_iff (l := [(0, 1)]) hs (by rw [hsize']; decide) rfl
  refine ⟨s, hsize', (hinsert 2 5 3 (by decide) (by decide) (by omega)).mpr (by decide),
    hmarked.mpr ?_⟩
  intro i _ x v _ _ hv hne _
  have hor : v = 1 := by
    simp only [priorityAt, valueAt] at hv
    split at hv
    · cases hv
    · exact (Option.some.inj hv).symm
  omega

-- The second half of a file of ten bytes, which is one block, has the priority -1.
def lastNegative : State := { createSwarmer 10 with prioritiesIntervals := [(0, 1), (5, -1)] }

theorem priorities_false : validateIntervals 10 [(0, 1)] = true ∧
    ¬ Overrides 10 0 5 (-1) [(0, 1)] ∧ insertPrioInterval [(0, 1)] 10 5 10 (-1) =
      .ok lastNegative.prioritiesIntervals ∧
    ¬ lastNegative.swarmerRecomputePrioritiesBitmap.Marked := by
  refine ⟨by decide, fun h => ?_, rfl, fun h => ?_⟩
  · exact (overrides_iff (by decide) rfl le_rfl (by decide) (by decide)).mp h ⟨rfl, .inl rfl⟩
  · exact (h 0 Nat.one_pos).mpr ⟨0, le_rfl, by decide, by decide⟩ rfl

end Mldonkey.Swarming
