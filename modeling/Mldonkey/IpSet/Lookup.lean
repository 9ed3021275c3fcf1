import Mldonkey.IpSet.Optimize

-- match_ip on the optimised list.
namespace Mldonkey.IpSet

open Donkey (Ip)
open Lib.Intervals

-- The ranges that the arrays hold.
def Compact.ranges (c : Compact) : List (Nat × Nat) :=
  (c.beginHigh.zip (c.endHigh.zip c.lowHits)).map fun t =>
    (t.1 * 4 + beginLowBits t.2.2, t.2.1 * 4 + endLowBits t.2.2)

theorem compactOf_ranges (store : Bool) (es : List ShortEntry) :
    (compactOf store es).ranges = es.map ShortEntry.range := by
  rw [Compact.ranges, compactOf, List.zip_map', List.zip_map', List.map_map]
  rfl

section Search

variable {store : Bool} {es : List ShortEntry} {ipHi ipLo x n : Nat}

theorem compareBegin_eq (hlo : ipLo < 4) (hx : ipHi * 4 + ipLo = x) :
    compareBegin (compactOf store es) ipHi ipLo n =
      es[n]?.map fun e => compare x e.range.1 := by
  rw [compareBegin, compactOf, List.getElem?_map, List.getElem?_map]
  cases es[n]? with
  | none => rfl
  | some e =>
      have h := @compareSplit_eq ipHi ipLo e.beginHigh _ hlo (beginLowBits_lt e.lowHits)
      rw [hx, ← range_fst] at h
      simp only [Option.map_some, Option.bind_eq_bind, Option.bind_some, ← h, compareSplit]
      split <;> rfl

theorem compareEnd_eq (hlo : ipLo < 4) (hx : ipHi * 4 + ipLo = x) :
    compareEnd (compactOf store es) ipHi ipLo n = es[n]?.map fun e => compare x e.range.2 := by
  rw [compareEnd, compactOf, List.getElem?_map, List.getElem?_map]
  cases es[n]? with
  | none => rfl
  | some e =>
      have h := @compareSplit_eq ipHi ipLo e.endHigh _ hlo (endLowBits_lt e.lowHits)
      rw [hx, ← range_snd] at h
      simp only [Option.map_some, Option.bind_eq_bind, Option.bind_some, ← h, compareSplit]
      split <;> rfl

theorem markEntry_eq {e : ShortEntry} (he : es[n]? = some e) :
    ∃ es', markEntry (compactOf store es) n = some ((n : Int), compactOf store es') ∧
      es'.map ShortEntry.range = es.map ShortEntry.range := by
  obtain ⟨hbegin, hend⟩ := succHits_bits e.lowHits
  obtain ⟨hn, hget⟩ := List.getElem?_eq_some_iff.mp he
  have hsame : ∀ {β : Type} (f : ShortEntry → β) (e' : ShortEntry), f e' = f e →
      (es.set n e').map f = es.map f := by
    intro β f e' hf
    have hlt : n < (es.map f).length := by simpa using hn
    have hmap : (es.map f)[n] = f e := by rw [List.getElem_map, hget]
    rw [List.map_set, hf, ← hmap, List.set_getElem_self]
  refine ⟨es.set n { e with lowHits := succHits e.lowHits }, ?_, ?_⟩
  · rw [markEntry, compactOf, List.getElem?_map, he]
    simp only [compactOf, Option.map_some, Option.bind_eq_bind, Option.bind_some, hsame, List.map_set]
    rfl
  · exact hsame _ _ (by simp only [ShortEntry.range, hbegin, hend])

theorem apart_get (h : Apart (es.map ShortEntry.range)) {m k : Nat} {e q : ShortEntry}
    (he : es[m]? = some e) (hq : es[k]? = some q) (hlt : m < k) : e.range.2 < q.range.1 := by
  obtain ⟨hm, rfl⟩ := List.getElem?_eq_some_iff.mp he
  obtain ⟨hk, rfl⟩ := List.getElem?_eq_some_iff.mp hq
  have h := List.pairwise_iff_getElem.mp h m k (by simpa using hm) (by simpa using hk) hlt
  simpa using h

theorem covers_get : Covers (es.map ShortEntry.range) x ↔
    ∃ (m : Nat) (q : ShortEntry), es[m]? = some q ∧ q.range.1 ≤ x ∧ x ≤ q.range.2 := by
  constructor
  · rintro ⟨r, hr, hx⟩
    obtain ⟨q, hq, rfl⟩ := List.mem_map.mp hr
    obtain ⟨m, hm, rfl⟩ := List.getElem_of_mem hq
    exact ⟨m, _, List.getElem?_eq_getElem hm, hx⟩
  · rintro ⟨m, q, hq, hx⟩
    exact ⟨q.range, List.mem_map_of_mem (List.mem_of_getElem? hq), hx⟩

-- What a search answers.
def Answers (store : Bool) (es : List ShortEntry) (x : Nat) (out : Option (Int × Compact)) : Prop :=
  ∃ i es', out = some (i, compactOf store es') ∧
    es'.map ShortEntry.range = es.map ShortEntry.range ∧
      (0 ≤ i ↔ Covers (es.map ShortEntry.range) x)

theorem answers_mark {e : ShortEntry} (he : es[n]? = some e) (h1 : e.range.1 ≤ x)
    (h2 : x ≤ e.range.2) : Answers store es x (markEntry (compactOf store es) n) := by
  obtain ⟨es', hmark, hranges⟩ := @markEntry_eq store es n e he
  exact ⟨n, es', hmark, hranges, fun _ => covers_get.mpr ⟨n, e, he, h1, h2⟩, fun _ => by omega⟩

theorem answers_none (h : ¬ Covers (es.map ShortEntry.range) x) :
    Answers store es x (some (-1, compactOf store es)) :=
  ⟨-1, es, rfl, rfl, fun hneg => absurd hneg (by decide), fun hcov => absurd hcov h⟩

section Sorted

variable (hapart : Apart (es.map ShortEntry.range)) (hlo : ipLo < 4) (hx : ipHi * 4 + ipLo = x)

include hapart hlo hx

-- The record at hi is the only one that may contain the address.
theorem lookAt_answers {hi : Int} (hhi : hi < es.length)
    (hlow : ∀ (m : Nat) (q : ShortEntry), es[m]? = some q → (m : Int) ≤ hi → q.range.1 < x)
    (hhigh : ∀ (m : Nat) (q : ShortEntry), es[m]? = some q → hi < m → x < q.range.1) :
    Answers store es x (lookAt (compactOf store es) ipHi ipLo hi) := by
  have hlen : (compactOf store es).beginHigh.length = es.length := List.length_map _
  rw [lookAt, hlen]
  by_cases hneg : 0 ≤ hi
  · obtain ⟨n, rfl⟩ := Int.eq_ofNat_of_zero_le hneg
    have hn : n < es.length := by omega
    obtain ⟨e, he⟩ : ∃ e, es[n]? = some e := ⟨_, List.getElem?_eq_getElem hn⟩
    have hbelow := hlow n e he (le_refl _)
    rw [if_pos ⟨hneg, hhi⟩, Int.toNat_natCast, compareBegin_eq hlo hx, compareEnd_eq hlo hx, he]
    simp only [Option.map_some, Option.bind_eq_bind, Option.bind_some]
    rw [if_pos (compare_pos.mpr hbelow)]
    by_cases hend : x ≤ e.range.2
    · rw [if_pos (compare_nonpos.mpr hend)]
      exact answers_mark he hbelow.le hend
    · rw [if_neg (fun h => hend (compare_nonpos.mp h))]
      refine answers_none fun hcov => ?_
      obtain ⟨m, q, hq, h1, h2⟩ := covers_get.mp hcov
      rcases Nat.lt_trichotomy m n with hlt | rfl | hgt
      · have := apart_get hapart hq he hlt
        omega
      · rw [Option.some.inj (hq.symm.trans he)] at h2
        exact hend h2
      · have := hhigh m q hq (by omega)
        omega
  · rw [if_neg (fun h => hneg h.1)]
    refine answers_none fun hcov => ?_
    obtain ⟨m, q, hq, h1, -⟩ := covers_get.mp hcov
    have := hhigh m q hq (by omega)
    omega

-- The records before lo begin before the address, and those behind hi behind it.
theorem binarySearchAux_answers (hproper : Proper (es.map ShortEntry.range)) {fuel : Nat}
    {lo hi : Int} (h0 : 0 ≤ lo) (hle : lo ≤ hi + 1) (hhi : hi < es.length)
    (hlow : ∀ (m : Nat) (q : ShortEntry), es[m]? = some q → (m : Int) < lo → q.range.1 < x)
    (hhigh : ∀ (m : Nat) (q : ShortEntry), es[m]? = some q → hi < m → x < q.range.1) (hfuel : hi + 1 - lo < fuel) :
    Answers store es x (binarySearchAux (compactOf store es) ipHi ipLo fuel lo hi) := by
  induction fuel generalizing lo hi with
  | zero => omega
  | succ fuel ih =>
      rw [binarySearchAux]
      by_cases hgo : lo ≤ hi
      · obtain ⟨n, hn⟩ := Int.eq_ofNat_of_zero_le (show 0 ≤ (lo + hi) / 2 by omega)
        have hlt : n < es.length := by omega
        obtain ⟨e, he⟩ : ∃ e, es[n]? = some e := ⟨_, List.getElem?_eq_getElem hlt⟩
        have hself : e.range.1 ≤ e.range.2 :=
          hproper _ (List.mem_map_of_mem (List.mem_of_getElem? he))
        rw [if_pos hgo, hn]
        simp only [Int.toNat_natCast, compareBegin_eq hlo hx, he, Option.map_some,
          Option.bind_eq_bind, Option.bind_some]
        rcases Nat.lt_trichotomy x e.range.1 with hless | heq | hmore
        · rw [if_pos (compare_neg.mpr hless)]
          refine ih h0 (by omega) (by omega) hlow (fun m q hq hm => ?_) (by omega)
          rcases Nat.lt_trichotomy n m with hnm | rfl | hnm
          · have := apart_get hapart he hq hnm
            omega
          · rw [Option.some.inj (hq.symm.trans he)]
            exact hless
          · omega
        · rw [if_neg (fun h => by have := compare_neg.mp h; omega),
            if_neg (fun h => by have := compare_pos.mp h; omega)]
          exact answers_mark he (by omega) (by omega)
        · rw [if_neg (fun h => by have := compare_neg.mp h; omega), if_pos (compare_pos.mpr hmore)]
          refine ih (by omega) (by omega) hhi (fun m q hq hm => ?_) hhigh (by omega)
          rcases Nat.lt_trichotomy m n with hmn | rfl | hmn
          · have := apart_get hapart hq he hmn
            have := hproper _ (List.mem_map_of_mem (List.mem_of_getElem? hq))
            omega
          · rw [Option.some.inj (hq.symm.trans he)]
            exact hmore
          · omega
      · rw [if_neg hgo]
        exact lookAt_answers hapart hlo hx hhi (fun m q hq hm => hlow m q hq (by omega)) hhigh

end Sorted

end Search

section Decisions

variable {store : Bool} {es : List ShortEntry}

theorem matchIp_eq (hapart : Apart (es.map ShortEntry.range))
    (hproper : Proper (es.map ShortEntry.range)) (ip : Ip) :
    ∃ b es', matchIp (compactOf store es) ip = some (b, compactOf store es') ∧
      es'.map ShortEntry.range = es.map ShortEntry.range ∧
        (b = true ↔ Covers (es.map ShortEntry.range) (addr ip)) := by
  obtain ⟨haddr, hlo⟩ := split_addr ip
  have hlen : (compactOf store es).beginHigh.length = es.length := List.length_map _
  have hsearch : Answers store es (addr ip) (matchIpAux (compactOf store es) ip) := by
    rw [matchIpAux, hlen]
    refine binarySearchAux_answers hapart hlo haddr hproper (le_refl 0) (by omega) (by omega)
      (fun m q _ hm => absurd hm (by omega)) (fun m q hq hm => ?_) (by omega)
    have := (List.getElem?_eq_some_iff.mp hq).1
    omega
  obtain ⟨i, es', hout, hranges, hiff⟩ := hsearch
  exact ⟨_, es', by rw [matchIp, hout]; rfl, hranges, by rw [decide_eq_true_iff, hiff]⟩

theorem matchIps_eq (hapart : Apart (es.map ShortEntry.range))
    (hproper : Proper (es.map ShortEntry.range)) (ips : List Ip) :
    ∃ es', matchIps (compactOf store es) ips = some (compactOf store es') ∧
      es'.map ShortEntry.range = es.map ShortEntry.range := by
  induction ips generalizing es with
  | nil => exact ⟨es, rfl, rfl⟩
  | cons ip ips ih =>
      obtain ⟨b, es₁, hmatch, hranges, -⟩ := @matchIp_eq store es hapart hproper ip
      obtain ⟨es₂, hrest, hranges₂⟩ := @ih es₁ (hranges ▸ hapart) (hranges ▸ hproper)
      exact ⟨es₂, by rw [matchIps, hmatch]; exact hrest, hranges₂.trans hranges⟩

end Decisions

-- A blocked range: its bounds and a description.
structure BlockingRange where
  ipBegin : Ip
  ipEnd : Ip
  desc : Bytes
  deriving DecidableEq, Repr

def BlockingRange.entry (r : BlockingRange) : ShortEntry := makeBr r.ipBegin r.ipEnd r.desc

def BlockingRange.Contains (r : BlockingRange) (ip : Ip) : Prop :=
  addr r.ipBegin ≤ addr ip ∧ addr ip ≤ addr r.ipEnd

-- The range 0.0.0.0 - 0.0.0.0 is taken up only by a longer one that begins there.
def ZeroKept (l : List BlockingRange) : Prop :=
  (∃ r ∈ l, addr r.ipBegin = 0 ∧ addr r.ipEnd = 0) → ∃ r ∈ l, addr r.ipBegin = 0 ∧ 0 < addr r.ipEnd

theorem mem_sorted_ranges {sorter : Sorter} {l : List BlockingRange} {p : Nat × Nat} :
    p ∈ (sorter.sort (l.map BlockingRange.entry)).map ShortEntry.range ↔
      ∃ r ∈ l, p = (addr r.ipBegin, addr r.ipEnd) := by
  have hmem : ∀ e, e ∈ sorter.sort (l.map BlockingRange.entry) ↔ e ∈ l.map BlockingRange.entry :=
    fun e => (sorter.perm _).mem_iff
  simp only [List.mem_map, hmem]
  constructor
  · rintro ⟨_, ⟨r, hr, rfl⟩, rfl⟩
    exact ⟨r, hr, makeBr_range _ _ _⟩
  · rintro ⟨r, hr, rfl⟩
    exact ⟨_, ⟨r, hr, rfl⟩, makeBr_range _ _ _⟩

theorem covers_sorted {sorter : Sorter} {l : List BlockingRange} {ip : Ip} :
    Covers ((sorter.sort (l.map BlockingRange.entry)).map ShortEntry.range) (addr ip) ↔
      ∃ r ∈ l, r.Contains ip := by
  constructor
  · rintro ⟨p, hp, hx⟩
    obtain ⟨r, hr, rfl⟩ := mem_sorted_ranges.mp hp
    exact ⟨r, hr, hx⟩
  · rintro ⟨r, hr, hx⟩
    exact ⟨_, mem_sorted_ranges.mpr ⟨r, hr, rfl⟩, hx⟩

-- The optimised arrays are sorted and disjoint, and every lookup in them, after any
-- others, decides as the list of ranges does, just when the list does not hide its
-- range of the address 0.
theorem bl_optimize_match_ip (sorter : Sorter) (store : Bool) {l : List BlockingRange}
    (hl : ∀ r ∈ l, addr r.ipBegin ≤ addr r.ipEnd) :
    ∃ c, blOptimize sorter store (l.map BlockingRange.entry) = some c ∧
      Apart c.ranges ∧ Proper c.ranges ∧
        ((∀ earlier ip, ∃ c₁ c₂ b, matchIps c earlier = some c₁ ∧ matchIp c₁ ip = some (b, c₂) ∧
          (b = true ↔ ∃ r ∈ l, r.Contains ip)) ↔ ZeroKept l) := by
  obtain ⟨es, hopt, hes⟩ := blOptimize_eq sorter store (l.map BlockingRange.entry)
  have hsorted := sorted_ranges sorter (l.map BlockingRange.entry)
  have hprop : Proper ((sorter.sort (l.map BlockingRange.entry)).map ShortEntry.range) := by
    intro p hp
    obtain ⟨r, hr, rfl⟩ := mem_sorted_ranges.mp hp
    exact hl r hr
  have hapart : Apart (es.map ShortEntry.range) := hes ▸ start_apart hsorted
  have hproper : Proper (es.map ShortEntry.range) := hes ▸ start_proper hprop
  refine ⟨_, hopt, by rwa [compactOf_ranges], by rwa [compactOf_ranges], ?_⟩
  -- what a lookup decides
  have hdecide : ∀ earlier ip, ∃ c₁ c₂ b, matchIps (compactOf store es) earlier = some c₁ ∧
      matchIp c₁ ip = some (b, c₂) ∧ (b = true ↔ (∃ r ∈ l, r.Contains ip) ∧
        (addr ip = 0 → ∃ r ∈ l, addr r.ipBegin = 0 ∧ 0 < addr r.ipEnd)) := by
    intro earlier ip
    obtain ⟨es₁, hrun, hranges⟩ := @matchIps_eq store es hapart hproper earlier
    obtain ⟨b, es₂, hmatch, -, hb⟩ := @matchIp_eq store es₁ (hranges ▸ hapart) (hranges ▸ hproper) ip
    refine ⟨_, _, b, hrun, hmatch, ?_⟩
    rw [hb, hranges, hes, covers_start hsorted hprop, covers_sorted]
    refine and_congr_right fun _ => imp_congr_right fun _ => ?_
    constructor
    · rintro ⟨p, hp, h⟩
      obtain ⟨r, hr, rfl⟩ := mem_sorted_ranges.mp hp
      exact ⟨r, hr, h⟩
    · rintro ⟨r, hr, h⟩
      exact ⟨_, mem_sorted_ranges.mpr ⟨r, hr, rfl⟩, h⟩
  constructor
  · rintro hright ⟨r, hr, hbegin, hend⟩
    have hnull : addr Ip.null = 0 := rfl
    obtain ⟨c₁, c₂, b, hrun, hmatch, hb⟩ := hright [] Ip.null
    obtain ⟨c₁', c₂', b', hrun', hmatch', hb'⟩ := hdecide [] Ip.null
    obtain rfl := Option.some.inj (hrun.symm.trans hrun')
    obtain rfl := (Prod.mk.inj (Option.some.inj (hmatch.symm.trans hmatch'))).1
    have hcontains : ∃ r ∈ l, r.Contains Ip.null := by
      refine ⟨r, hr, ?_⟩
      rw [BlockingRange.Contains, hbegin, hnull]
      exact ⟨le_refl 0, Nat.zero_le _⟩
    exact (hb'.mp (hb.mpr hcontains)).2 hnull
  · intro hzero earlier ip
    obtain ⟨c₁, c₂, b, hrun, hmatch, hb⟩ := hdecide earlier ip
    refine ⟨c₁, c₂, b, hrun, hmatch, hb.trans ⟨And.left, fun hcov => ⟨hcov, fun hnull => ?_⟩⟩⟩
    obtain ⟨r, hr, h1, h2⟩ := hcov
    rw [hnull] at h1
    by_cases hend : addr r.ipEnd = 0
    · exact hzero ⟨r, hr, by omega, hend⟩
    · exact ⟨r, hr, by omega, by omega⟩

-- Two neighbours, in the wrong order.
theorem bl_optimize_match_ip_two :
    ∃ c, blOptimize mergeSorter true
        ([⟨⟨10, 5⟩, ⟨10, 9⟩, []⟩, ⟨⟨10, 0⟩, ⟨10, 4⟩, []⟩].map BlockingRange.entry) = some c ∧
      Apart c.ranges ∧ Proper c.ranges ∧
        ((∀ earlier ip, ∃ c₁ c₂ b, matchIps c earlier = some c₁ ∧ matchIp c₁ ip = some (b, c₂) ∧
          (b = true ↔ ∃ r ∈ [(⟨⟨10, 5⟩, ⟨10, 9⟩, []⟩ : BlockingRange), ⟨⟨10, 0⟩, ⟨10, 4⟩, []⟩],
            r.Contains ip)) ↔ ZeroKept [⟨⟨10, 5⟩, ⟨10, 9⟩, []⟩, ⟨⟨10, 0⟩, ⟨10, 4⟩, []⟩]) :=
  bl_optimize_match_ip mergeSorter true (by decide)

-- The range of the address 0 alone is lost.
theorem bl_optimize_match_ip_false : ¬ ∀ (sorter : Sorter) (store : Bool) (l : List BlockingRange),
    (∀ r ∈ l, addr r.ipBegin ≤ addr r.ipEnd) →
      ∃ c, blOptimize sorter store (l.map BlockingRange.entry) = some c ∧
        ∀ ip, ∃ b c', matchIp c ip = some (b, c') ∧ (b = true ↔ ∃ r ∈ l, r.Contains ip) := by
  intro h
  obtain ⟨c, hopt, hmatch⟩ := h mergeSorter true [⟨Ip.null, Ip.null, []⟩] (by decide)
  have hsort : mergeSorter.sort ([⟨Ip.null, Ip.null, []⟩].map BlockingRange.entry) =
      [BlockingRange.entry ⟨Ip.null, Ip.null, []⟩] := List.mergeSort_singleton _
  rw [blOptimize, hsort] at hopt
  obtain rfl := Option.some.inj hopt
  obtain ⟨b, c', hnull, hb⟩ := hmatch Ip.null
  obtain rfl : false = b := (Prod.mk.inj (Option.some.inj hnull)).1
  exact absurd (hb.mpr ⟨_, List.mem_singleton.mpr rfl, le_refl _, le_refl _⟩) (by decide)

end Mldonkey.IpSet
