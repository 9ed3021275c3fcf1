import Mldonkey.Donkey.LittleEndian
import Mldonkey.Lib.Intervals

-- Ip_set: the ranges of blocked addresses, and the list that bl_optimize makes of them.
namespace Mldonkey.IpSet

open Donkey (Ip)

abbrev Bytes := List UInt8

-- An address as a number.
def addr (ip : Ip) : Nat := ip.hi.toNat * 2 ^ 16 + ip.lo.toNat

structure ShortEntry where
  beginHigh : Nat
  endHigh : Nat
  lowHits : Nat
  description : Bytes
  deriving DecidableEq, Repr

structure Compact where
  beginHigh : List Nat
  endHigh : List Nat
  lowHits : List Nat
  desc : List Bytes
  deriving DecidableEq, Repr

-- The 30 high bits and the 2 low bits of an address.
def ipSplitHi (ip : Ip) : Nat := ip.hi.toNat <<< 14 ||| ip.lo.toNat >>> 2

def ipSplitLo (ip : Ip) : Nat := ip.lo.toNat &&& 0x3

def initLowBits (beginLo endLo hits : Nat) : Nat := beginLo ||| endLo <<< 2 ||| hits <<< 4

def beginLowBits (n : Nat) : Nat := n &&& 0x3

def endLowBits (n : Nat) : Nat := n >>> 2 &&& 0x3

def getHits (n : Nat) : Nat := n >>> 4

def succHits (n : Nat) : Nat := n &&& 0xF ||| (getHits n + 1) <<< 4

def makeBr (ipBegin ipEnd : Ip) (desc : Bytes) : ShortEntry where
  beginHigh := ipSplitHi ipBegin
  endHigh := ipSplitHi ipEnd
  lowHits := initLowBits (ipSplitLo ipBegin) (ipSplitLo ipEnd) 0
  description := desc

-- Pervasives.compare on ints.
def compare (a b : Nat) : Int := if a < b then -1 else if b < a then 1 else 0

def compareSplit (aHi aLow bHi bLow : Nat) : Int :=
  let hicompare := compare aHi bHi
  if hicompare ≠ 0 then hicompare else compare aLow bLow

-- Compares with the address behind the second one.
def compareSplitNext (aHi aLow bHi bLow : Nat) : Int :=
  if bLow < 3 then compareSplit aHi aLow bHi (bLow + 1) else compareSplit aHi aLow (bHi + 1) 0

def brCompare (r1 r2 : ShortEntry) : Int :=
  let cmpBegin := compareSplit r1.beginHigh (beginLowBits r1.lowHits) r2.beginHigh
    (beginLowBits r2.lowHits)
  if cmpBegin ≠ 0 then cmpBegin
  else compareSplit r1.endHigh (endLowBits r1.lowHits) r2.endHigh (endLowBits r2.lowHits)

-- Array.sort br_compare, which says nothing of the order of equal ranges.
structure Sorter where
  sort : List ShortEntry → List ShortEntry
  perm : ∀ l, (sort l).Perm l
  sorted : ∀ l, (sort l).Pairwise fun r q => brCompare r q ≤ 0

-- The loop of bl_optimize over the records from rd on, which are as many as the first
-- argument says at most. None stands for the exception of an index out of bounds.
def optimizeAux : Nat → List ShortEntry → Nat → Int → Nat → Nat → Option (List ShortEntry × Int)
  | 0, a, _, wr, _, _ => some (a, wr + 1)
  | n + 1, a, rd, wr, lastHi, lastLo =>
      match a[rd]? with
      | none => some (a, wr + 1)
      | some br =>
          let brLo := endLowBits br.lowHits
          if 0 < compareSplit br.endHigh brLo lastHi lastLo then
            if 0 ≤ wr ∧ compareSplitNext br.beginHigh (beginLowBits br.lowHits) lastHi lastLo ≤ 0 then
              match a[wr.toNat]? with
              | none => none
              | some prev =>
                  let merged : ShortEntry := { prev with
                    endHigh := br.endHigh
                    lowHits := initLowBits (beginLowBits prev.lowHits) brLo
                      (getHits prev.lowHits + getHits br.lowHits) }
                  optimizeAux n (a.set wr.toNat merged) (rd + 1) wr br.endHigh brLo
            else if (wr + 1).toNat < a.length then
              optimizeAux n (a.set (wr + 1).toNat br) (rd + 1) (wr + 1) br.endHigh brLo
            else none
          else optimizeAux n a (rd + 1) wr lastHi lastLo

def compactOf (storeDescriptions : Bool) (entries : List ShortEntry) : Compact where
  beginHigh := entries.map (·.beginHigh)
  endHigh := entries.map (·.endHigh)
  lowHits := entries.map (·.lowHits)
  desc := if storeDescriptions then entries.map (·.description) else []

def blOptimize (sorter : Sorter) (storeDescriptions : Bool) (a : List ShortEntry) : Option Compact := do
  let a := sorter.sort a
  let out ← optimizeAux a.length a 0 (-1) 0 0
  return compactOf storeDescriptions (out.1.take out.2.toNat)

section Lookup

variable (c : Compact) (ipHi ipLo : Nat)

def compareBegin (n : Nat) : Option Int := do
  let cmpHi := compare ipHi (← c.beginHigh[n]?)
  if cmpHi ≠ 0 then return cmpHi else return compare ipLo (beginLowBits (← c.lowHits[n]?))

def compareEnd (n : Nat) : Option Int := do
  let cmpHi := compare ipHi (← c.endHigh[n]?)
  if cmpHi ≠ 0 then return cmpHi else return compare ipLo (endLowBits (← c.lowHits[n]?))

def markEntry (n : Nat) : Option (Int × Compact) := do
  let hits ← c.lowHits[n]?
  return (n, { c with lowHits := c.lowHits.set n (succHits hits) })

-- The end of the search, where the record before the address is looked at.
def lookAt (hi : Int) : Option (Int × Compact) :=
  if 0 ≤ hi ∧ hi < c.beginHigh.length then do
    let cmp ← compareBegin c ipHi ipLo hi.toNat
    if 0 < cmp then
      if (← compareEnd c ipHi ipLo hi.toNat) ≤ 0 then markEntry c hi.toNat else return (-1, c)
    else if cmp < 0 then return (-1, c)
    else markEntry c hi.toNat
  else some (-1, c)

-- Each round leaves fewer records between lo and hi.
def binarySearchAux : Nat → Int → Int → Option (Int × Compact)
  | 0, _, _ => none
  | fuel + 1, lo, hi =>
      if lo ≤ hi then do
        let n := (lo + hi) / 2
        let cmp ← compareBegin c ipHi ipLo n.toNat
        if cmp < 0 then binarySearchAux fuel lo (n - 1)
        else if 0 < cmp then binarySearchAux fuel (n + 1) hi
        else markEntry c n.toNat
      else lookAt c ipHi ipLo hi

end Lookup

def matchIpAux (c : Compact) (ip : Ip) : Option (Int × Compact) :=
  binarySearchAux c (ipSplitHi ip) (ipSplitLo ip) (c.beginHigh.length + 1) 0
    (c.beginHigh.length - 1)

-- The answer, and the list with its counters after it.
def matchIp (c : Compact) (ip : Ip) : Option (Bool × Compact) := do
  let out ← matchIpAux c ip
  return (0 ≤ out.1, out.2)

-- One lookup after the other.
def matchIps : Compact → List Ip → Option Compact
  | c, [] => some c
  | c, ip :: ips => do
      let out ← matchIp c ip
      matchIps out.2 ips

-- bl_optimize merges the sorted ranges.

open Lib.Intervals

-- The bounds of an entry as numbers.
def ShortEntry.range (r : ShortEntry) : Nat × Nat :=
  (r.beginHigh * 4 + beginLowBits r.lowHits, r.endHigh * 4 + endLowBits r.lowHits)

theorem range_fst (r : ShortEntry) : r.range.1 = r.beginHigh * 4 + beginLowBits r.lowHits := rfl

theorem range_snd (r : ShortEntry) : r.range.2 = r.endHigh * 4 + endLowBits r.lowHits := rfl

section Bits

theorem beginLowBits_eq (n : Nat) : beginLowBits n = n % 4 := Nat.and_two_pow_sub_one_eq_mod n 2

theorem endLowBits_eq (n : Nat) : endLowBits n = n / 4 % 4 := by
  rw [endLowBits, Nat.shiftRight_eq_div_pow]
  exact Nat.and_two_pow_sub_one_eq_mod _ 2

theorem beginLowBits_lt (n : Nat) : beginLowBits n < 4 := by
  rw [beginLowBits_eq]
  omega

theorem endLowBits_lt (n : Nat) : endLowBits n < 4 := by
  rw [endLowBits_eq]
  omega

-- Numbers of few bits side by side.
theorem or_shiftLeft {a k : Nat} (b : Nat) (ha : a < 2 ^ k) : a ||| b <<< k = a + b * 2 ^ k := by
  rw [Nat.or_comm, ← Nat.shiftLeft_add_eq_or_of_lt ha, Nat.shiftLeft_eq, Nat.add_comm]

theorem initLowBits_eq {b e : Nat} (hits : Nat) (hb : b < 4) (he : e < 4) :
    initLowBits b e hits = b + e * 4 + hits * 16 := by
  rw [initLowBits, @or_shiftLeft b 2 e (by omega), or_shiftLeft hits (by omega)]
  rfl

theorem beginLowBits_init {b e hits : Nat} (hb : b < 4) (he : e < 4) :
    beginLowBits (initLowBits b e hits) = b := by
  rw [beginLowBits_eq, initLowBits_eq hits hb he]
  omega

theorem endLowBits_init {b e hits : Nat} (hb : b < 4) (he : e < 4) :
    endLowBits (initLowBits b e hits) = e := by
  rw [endLowBits_eq, initLowBits_eq hits hb he]
  omega

theorem succHits_bits (n : Nat) :
    beginLowBits (succHits n) = beginLowBits n ∧ endLowBits (succHits n) = endLowBits n := by
  have hmod : n &&& 0xF = n % 16 := Nat.and_two_pow_sub_one_eq_mod n 4
  have hsucc : succHits n = n % 16 + (getHits n + 1) * 16 := by
    rw [succHits, hmod, or_shiftLeft _ (by omega)]
    rfl
  rw [beginLowBits_eq, beginLowBits_eq, endLowBits_eq, endLowBits_eq, hsucc]
  omega

theorem split_addr (ip : Ip) : ipSplitHi ip * 4 + ipSplitLo ip = addr ip ∧ ipSplitLo ip < 4 := by
  have hlo := ip.lo.toNat_lt
  have hmod : ip.lo.toNat &&& 0x3 = ip.lo.toNat % 4 := Nat.and_two_pow_sub_one_eq_mod _ 2
  have hhi : ipSplitHi ip = ip.hi.toNat * 2 ^ 14 + ip.lo.toNat / 4 := by
    rw [ipSplitHi, Nat.shiftRight_eq_div_pow, ← Nat.shiftLeft_add_eq_or_of_lt (by omega),
      Nat.shiftLeft_eq]
  rw [hhi, ipSplitLo, hmod, addr]
  omega

theorem makeBr_range (ipBegin ipEnd : Ip) (desc : Bytes) :
    (makeBr ipBegin ipEnd desc).range = (addr ipBegin, addr ipEnd) := by
  obtain ⟨hb, hblt⟩ := split_addr ipBegin
  obtain ⟨he, helt⟩ := split_addr ipEnd
  rw [ShortEntry.range, makeBr]
  simp only [beginLowBits_init hblt helt, endLowBits_init hblt helt, hb, he]

end Bits

section Comparing

variable {a b aHi aLow bHi bLow : Nat}

theorem compare_pos : 0 < compare a b ↔ b < a := by
  rw [compare]
  split
  · omega
  · split <;> omega

theorem compare_neg : compare a b < 0 ↔ a < b := by
  rw [compare]
  split
  · omega
  · split <;> omega

theorem compare_nonpos : compare a b ≤ 0 ↔ a ≤ b := by
  rw [← not_lt, compare_pos, not_lt]

theorem compare_zero : compare a b = 0 ↔ a = b := by
  rw [compare]
  split
  · omega
  · split <;> omega

theorem compareSplit_eq (ha : aLow < 4) (hb : bLow < 4) :
    compareSplit aHi aLow bHi bLow = compare (aHi * 4 + aLow) (bHi * 4 + bLow) := by
  rw [compareSplit]
  by_cases h : compare aHi bHi = 0
  · obtain rfl := compare_zero.mp h
    rw [h]
    simp only [ne_eq, not_true_eq_false, if_false, compare]
    congr 1
    · simp
    · simp
  · simp only [ne_eq, h, not_false_eq_true, if_true]
    rw [compare_zero] at h
    rw [compare, compare]
    by_cases hlt : aHi < bHi
    · rw [if_pos hlt, if_pos (by omega)]
    · rw [if_neg hlt, if_pos (by omega), if_neg (by omega), if_pos (by omega)]

theorem compareSplitNext_eq (ha : aLow < 4) (hb : bLow < 4) :
    compareSplitNext aHi aLow bHi bLow = compare (aHi * 4 + aLow) (bHi * 4 + bLow + 1) := by
  rw [compareSplitNext]
  by_cases h : bLow < 3
  · rw [if_pos h, compareSplit_eq ha (by omega), Nat.add_assoc]
  · rw [if_neg h, compareSplit_eq ha (by omega)]
    congr 1
    omega

theorem brCompare_nonpos {r q : ShortEntry} :
    brCompare r q ≤ 0 ↔
      r.range.1 < q.range.1 ∨ r.range.1 = q.range.1 ∧ r.range.2 ≤ q.range.2 := by
  rw [brCompare, compareSplit_eq (beginLowBits_lt _) (beginLowBits_lt _),
    compareSplit_eq (endLowBits_lt _) (endLowBits_lt _), ← range_fst, ← range_fst, ← range_snd,
    ← range_snd]
  by_cases h : r.range.1 = q.range.1
  · have hcmp : compare r.range.1 q.range.1 = 0 := compare_zero.mpr h
    simp only [hcmp, ne_eq, not_true_eq_false, if_false, compare_nonpos]
    omega
  · have hcmp : compare r.range.1 q.range.1 ≠ 0 := fun hz => h (compare_zero.mp hz)
    simp only [if_pos hcmp, compare_nonpos]
    omega

theorem brCompare_le {r q : ShortEntry} (h : brCompare r q ≤ 0) : r.range.1 ≤ q.range.1 := by
  rcases brCompare_nonpos.mp h with h | h
  · exact h.le
  · exact h.1.le

end Comparing

-- What the loop makes of the ranges: at first it only takes up one whose end is behind
-- the address 0, where the last record is said to end.
def start : List (Nat × Nat) → List (Nat × Nat)
  | [] => []
  | r :: l => if 0 < r.2 then mergeFrom r l else start l

section Loop

variable {n rd : Nat} {a outs junk rest : List ShortEntry} {last : ShortEntry}

-- The records up to wr are the result so far, of which the last one may still grow; from
-- rd on they have not been read.
theorem optimizeAux_merge (ha : a = outs ++ last :: (junk ++ rest))
    (hrd : rd = outs.length + 1 + junk.length) (hn : rest.length ≤ n) :
    ∃ a' len, optimizeAux n a rd outs.length last.endHigh (endLowBits last.lowHits) =
        some (a', len) ∧
      (a'.take len.toNat).map ShortEntry.range =
        outs.map ShortEntry.range ++ mergeFrom last.range (rest.map ShortEntry.range) := by
  induction rest generalizing n rd a outs junk last with
  | nil =>
      have hnone : a[rd]? = none := by
        rw [ha, List.getElem?_eq_none_iff]
        simp
        omega
      have hstop : optimizeAux n a rd outs.length last.endHigh (endLowBits last.lowHits) =
          some (a, (outs.length : Int) + 1) := by
        cases n with
        | zero => rfl
        | succ n => rw [optimizeAux, hnone]
      refine ⟨a, _, hstop, ?_⟩
      have htake : a.take ((outs.length : Int) + 1).toNat = outs ++ [last] := by
        rw [ha, show ((outs.length : Int) + 1).toNat = outs.length + 1 by omega,
          List.take_append, List.take_of_length_le (by omega)]
        simp
      rw [htake, List.map_append]
      rfl
  | cons br rest ih =>
      obtain ⟨n, rfl⟩ := Nat.exists_eq_add_one_of_ne_zero
        (show n ≠ 0 by rw [List.length_cons] at hn; omega)
      rw [List.length_cons, Nat.add_le_add_iff_right] at hn
      have hbr : a[rd]? = some br := by
        rw [ha, hrd, List.getElem?_append_right (by omega)]
        rw [show outs.length + 1 + junk.length - outs.length = junk.length + 1 by omega]
        simp
      have hlast : a[outs.length]? = some last := by
        rw [ha]
        simp
      -- the record taken up moves next to the result
      obtain ⟨x, junk', hjunk⟩ := List.exists_cons_of_ne_nil (show junk ++ [br] ≠ [] by simp)
      have hlen : junk.length = junk'.length := by
        have := congrArg List.length hjunk
        simpa using this
      have hmid : junk ++ br :: rest = x :: (junk' ++ rest) := by
        rw [← List.cons_append, ← hjunk, List.append_assoc]
        rfl
      rw [optimizeAux, hbr]
      simp only [compareSplit_eq (endLowBits_lt br.lowHits) (endLowBits_lt last.lowHits), compare_pos,
        compareSplitNext_eq (beginLowBits_lt br.lowHits) (endLowBits_lt last.lowHits), compare_nonpos,
        Int.toNat_natCast, hlast, ← range_fst, ← range_snd]
      rw [List.map_cons, mergeFrom]
      by_cases hgo : last.range.2 < br.range.2
      · rw [if_pos hgo, if_pos hgo]
        by_cases hjoin : br.range.1 ≤ last.range.2 + 1
        · rw [if_pos ⟨Int.natCast_nonneg _, hjoin⟩, if_pos (show br.range.1 ≤ Order.succ last.range.2 from hjoin)]
          obtain ⟨merged, hmerged⟩ : ∃ e : ShortEntry, e = { last with
              endHigh := br.endHigh
              lowHits := initLowBits (beginLowBits last.lowHits) (endLowBits br.lowHits)
                (getHits last.lowHits + getHits br.lowHits) } := ⟨_, rfl⟩
          have hend : endLowBits merged.lowHits = endLowBits br.lowHits := by
            rw [hmerged]
            exact endLowBits_init (beginLowBits_lt _) (endLowBits_lt _)
          have hrange : merged.range = (last.range.1, br.range.2) := by
            have hbegin : beginLowBits merged.lowHits = beginLowBits last.lowHits := by
              rw [hmerged]
              exact beginLowBits_init (beginLowBits_lt _) (endLowBits_lt _)
            rw [ShortEntry.range, hend, hbegin, hmerged]
            rfl
          have hset : a.set outs.length merged = outs ++ merged :: (junk ++ [br] ++ rest) := by
            rw [ha]
            simp
          have h := @ih n (rd + 1) (a.set outs.length merged) outs (junk ++ [br]) merged hset
            (by simp; omega) hn
          rw [hend, hrange, hmerged] at h
          exact h
        · rw [if_neg (fun h => hjoin h.2), if_pos (by rw [ha]; simp),
            if_neg (show ¬ br.range.1 ≤ Order.succ last.range.2 from hjoin)]
          have hset : a.set ((outs.length : Int) + 1).toNat br =
              (outs ++ [last]) ++ br :: (junk' ++ rest) := by
            rw [ha, hmid, show ((outs.length : Int) + 1).toNat = outs.length + 1 by omega]
            simp
          obtain ⟨a', len, hrun, hout⟩ := @ih n (rd + 1) _ (outs ++ [last]) junk' br hset
            (by simp; omega) hn
          rw [List.length_append, List.length_singleton, Nat.cast_add, Nat.cast_one] at hrun
          refine ⟨a', len, hrun, ?_⟩
          rw [hout, List.map_append, List.append_assoc]
          rfl
      · rw [if_neg hgo, if_neg hgo]
        exact @ih n (rd + 1) a outs (junk ++ [br]) last (by rw [ha]; simp) (by simp; omega) hn

theorem optimizeAux_start (ha : a = junk ++ rest) (hrd : rd = junk.length) (hn : rest.length ≤ n) :
    ∃ a' len, optimizeAux n a rd (-1) 0 0 = some (a', len) ∧
      (a'.take len.toNat).map ShortEntry.range = start (rest.map ShortEntry.range) := by
  induction rest generalizing n rd junk with
  | nil =>
      have hnone : a[rd]? = none := by
        rw [ha, List.getElem?_eq_none_iff]
        simp
        omega
      refine ⟨a, 0, ?_, rfl⟩
      cases n with
      | zero => rfl
      | succ n =>
          rw [optimizeAux, hnone]
          rfl
  | cons br rest ih =>
      obtain ⟨n, rfl⟩ := Nat.exists_eq_add_one_of_ne_zero
        (show n ≠ 0 by rw [List.length_cons] at hn; omega)
      rw [List.length_cons, Nat.add_le_add_iff_right] at hn
      have hbr : a[rd]? = some br := by
        rw [ha, hrd]
        simp
      obtain ⟨x, junk', hjunk⟩ := List.exists_cons_of_ne_nil (show junk ++ [br] ≠ [] by simp)
      have hlen : junk.length = junk'.length := by
        have := congrArg List.length hjunk
        simpa using this
      rw [optimizeAux, hbr]
      simp only [compareSplit_eq (endLowBits_lt br.lowHits) (show 0 < 4 by decide), compare_pos, ← range_snd]
      rw [List.map_cons, start]
      by_cases hgo : 0 < br.range.2
      · rw [if_pos hgo, if_pos hgo, if_neg (fun h => absurd h.1 (by decide)),
          if_pos (by rw [ha]; simp)]
        have hset : a.set (-1 + 1 : Int).toNat br = [] ++ br :: (junk' ++ rest) := by
          rw [ha, show junk ++ br :: rest = x :: (junk' ++ rest) by
            rw [← List.cons_append, ← hjunk, List.append_assoc]
            rfl]
          rfl
        exact @optimizeAux_merge n (rd + 1) _ [] junk' rest br hset (by simp; omega) hn
      · rw [if_neg hgo, if_neg hgo]
        exact @ih n (rd + 1) (junk ++ [br]) (by rw [ha]; simp) (by simp; omega) hn

end Loop

-- The ranges that the loop takes up cover the same addresses, but for the address 0.
theorem covers_start {l : List (Nat × Nat)} (hs : l.Pairwise fun r q => r.1 ≤ q.1) (hp : Proper l)
    (x : Nat) :
    Covers (start l) x ↔ Covers l x ∧ (x = 0 → ∃ r ∈ l, r.1 = 0 ∧ 0 < r.2) := by
  induction l with
  | nil => simp [start, Covers]
  | cons r l ih =>
      obtain ⟨hr, hl⟩ := List.forall_mem_cons.mp hp
      obtain ⟨hfirst, htail⟩ := List.pairwise_cons.mp hs
      rw [start]
      by_cases hgo : 0 < r.2
      · rw [if_pos hgo, covers_mergeFrom hs]
        refine ⟨fun h => ⟨h, ?_⟩, And.left⟩
        rintro rfl
        obtain ⟨q, hq, hle, -⟩ := h
        refine ⟨r, List.mem_cons_self, ?_, hgo⟩
        rcases List.mem_cons.mp hq with rfl | hq
        · omega
        · have := hfirst q hq
          omega
      · rw [if_neg hgo, ih htail hl, covers_cons]
        constructor
        · rintro ⟨hcov, hzero⟩
          refine ⟨.inr hcov, fun hx => ?_⟩
          obtain ⟨q, hq, h⟩ := hzero hx
          exact ⟨q, List.mem_cons_of_mem r hq, h⟩
        · rintro ⟨hcov, hzero⟩
          have htake : x = 0 → ∃ q ∈ l, q.1 = 0 ∧ 0 < q.2 := by
            intro hx
            obtain ⟨q, hq, h⟩ := hzero hx
            rcases List.mem_cons.mp hq with rfl | hq
            · exact absurd h.2 hgo
            · exact ⟨q, hq, h⟩
          refine ⟨?_, htake⟩
          rcases hcov with hcov | hcov
          · obtain ⟨q, hq, h⟩ := htake (by omega)
            exact ⟨q, hq, by omega⟩
          · exact hcov

theorem start_apart {l : List (Nat × Nat)} (hs : l.Pairwise fun r q => r.1 ≤ q.1) :
    Apart (start l) := by
  induction l with
  | nil => exact List.Pairwise.nil
  | cons r l ih =>
      rw [start]
      split
      · exact mergeFrom_apart hs
      · exact ih (List.pairwise_cons.mp hs).2

theorem start_proper {l : List (Nat × Nat)} (hp : Proper l) : Proper (start l) := by
  induction l with
  | nil => exact hp
  | cons r l ih =>
      rw [start]
      split
      · exact mergeFrom_proper hp
      · exact ih (List.forall_mem_cons.mp hp).2

-- The optimised list is made of entries with the merged ranges.
theorem blOptimize_eq (sorter : Sorter) (store : Bool) (a : List ShortEntry) :
    ∃ es, blOptimize sorter store a = some (compactOf store es) ∧
      es.map ShortEntry.range = start ((sorter.sort a).map ShortEntry.range) := by
  obtain ⟨a', len, hrun, hout⟩ := @optimizeAux_start _ 0 (sorter.sort a) [] (sorter.sort a) rfl rfl
    (le_refl _)
  exact ⟨_, by rw [blOptimize, hrun]; rfl, hout⟩

theorem sorted_ranges (sorter : Sorter) (a : List ShortEntry) :
    ((sorter.sort a).map ShortEntry.range).Pairwise fun r q => r.1 ≤ q.1 :=
  List.pairwise_map.mpr ((sorter.sorted a).imp brCompare_le)

-- A sort of the library.
def mergeSorter : Sorter where
  sort l := l.mergeSort fun r q => brCompare r q ≤ 0
  perm l := List.mergeSort_perm l _
  sorted l := by
    have h := @List.pairwise_mergeSort _ (fun r q => decide (brCompare r q ≤ 0))
      (fun a b c hab hbc => by
        simp only [decide_eq_true_eq, brCompare_nonpos] at *
        omega)
      (fun a b => by
        simp only [Bool.or_eq_true, decide_eq_true_eq, brCompare_nonpos]
        omega) l
    simpa using h

end Mldonkey.IpSet
