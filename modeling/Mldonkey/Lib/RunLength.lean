import Mathlib

-- Step functions given by the positions where their runs begin, each with the value there.
namespace Mldonkey.RunLength

variable {α β : Type*} [LinearOrder α]

-- The value of the last run that begins at or before `x`; `d` is the value before all runs.
def valueAt (d : Option β) : List (α × β) → α → Option β
  | [], _ => d
  | (p, v) :: l, x => if x < p then d else valueAt (some v) l x

-- The runs that follow the one at `p` with value `v` begin after it and one after another, all
-- below the limit, and no two neighbours have the same value.
def Proper (limit p : α) (v : β) : List (α × β) → Prop
  | [] => p < limit
  | (q, w) :: l => p < q ∧ v ≠ w ∧ Proper limit q w l

variable {limit p q x : α} {v w : β} {d d' : Option β} {l : List (α × β)}

theorem valueAt_of_lt (h : x < p) : valueAt d ((p, v) :: l) x = d := by
  rw [valueAt, if_pos h]

theorem valueAt_of_le (h : p ≤ x) : valueAt d ((p, v) :: l) x = valueAt (some v) l x := by
  rw [valueAt, if_neg h.not_gt]

theorem Proper.lt_limit (h : Proper limit p v l) : p < limit := by
  induction l generalizing p v with
  | nil => exact h
  | cons run l ih => exact h.1.trans (ih h.2.2)

theorem Proper.mono (h : Proper limit p v l) (hq : q ≤ p) : Proper limit q v l := by
  cases l with
  | nil => exact hq.trans_lt h
  | cons run l => exact ⟨hq.trans_lt h.1, h.2⟩

theorem valueAt_some (v : β) (l : List (α × β)) (x : α) : ∃ w, valueAt (some v) l x = some w := by
  induction l generalizing v with
  | nil => exact ⟨v, rfl⟩
  | cons run l ih =>
    rw [valueAt]
    split
    · exact ⟨v, rfl⟩
    · exact ih _

-- Before the next run begins, the value is the current one.
theorem Proper.valueAt_eq (h : Proper limit p v l) : valueAt (some v) l p = some v := by
  cases l with
  | nil => rfl
  | cons run l => exact valueAt_of_lt h.1

end Mldonkey.RunLength
