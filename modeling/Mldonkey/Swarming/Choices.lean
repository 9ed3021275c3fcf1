import Mldonkey.Lib.Comparator
import Mldonkey.Swarming.System
import Mldonkey.Swarming.Wanted

-- The comparison of the blocks that an uploader may get, and the chunks that win it.
namespace Mldonkey.Swarming

open Effects Comparing

namespace State

variable {s s' : State} {sel : Selection} {r : Nat → Nat} {memo : Memo} {c c1 c2 : Choice}

-- compare_choices with the counts of the remaining siblings that `r` tells.
def compareWith (s : State) (sel : Selection) (r : Nat → Nat) (c1 c2 : Choice) : Int :=
  let cmp := s.compareRules sel c1 c2
  if cmp ≠ 0 then cmp
  else
    let cmp := if sel.verificationAvailable ∧ sel.severalFrontends then
      compareInt (r c2.block) (r c1.block) else 0
    if cmp ≠ 0 then cmp else compareRest c1 c2

theorem comparator_compareBool (key : Choice → Bool) :
    Comparator fun c1 c2 => compareBool (key c1) (key c2) := by
  have heq : (fun c1 c2 => compareBool (key c1) (key c2)) = fun c1 c2 =>
      if key c1 < key c2 then -1 else if key c2 < key c1 then 1 else 0 := by
    funext c1 c2
    cases key c1 <;> cases key c2 <;> rfl
  rw [heq]
  exact .of_key key

theorem comparator_compareInt (key : Choice → Int) :
    Comparator fun c1 c2 => compareInt (key c1) (key c2) := .of_key key

-- Availabilities are told apart up to four.
theorem rarity_eq (x y : Nat) :
    (if x ≤ 3 ∨ y ≤ 3 then compareInt y x else 0) =
      compareInt (min y 4 : Nat) (min x 4 : Nat) := by
  unfold compareInt
  split
  · split
    · rw [if_pos (by omega)]
    · split
      · rw [if_neg (by omega), if_pos (by omega)]
      · rw [if_neg (by omega), if_neg (by omega)]
  · rw [if_neg (by omega), if_neg (by omega)]

theorem comparator_rarity (s : State) (sel : Selection) :
    Comparator fun c1 c2 =>
      if !sel.needToComplete ∧ sel.meanAvailability > 5 ∧
          (s.choiceAvailability c1 ≤ 3 ∨ s.choiceAvailability c2 ≤ 3) then
        compareInt (s.choiceAvailability c2) (s.choiceAvailability c1)
      else 0 := by
  by_cases hon : (!sel.needToComplete) = true ∧ sel.meanAvailability > 5
  · have heq : (fun c1 c2 =>
        if !sel.needToComplete ∧ sel.meanAvailability > 5 ∧
            (s.choiceAvailability c1 ≤ 3 ∨ s.choiceAvailability c2 ≤ 3) then
          compareInt (s.choiceAvailability c2) (s.choiceAvailability c1)
        else 0) = fun c1 c2 => compareInt (min (s.choiceAvailability c2) 4 : Nat)
          (min (s.choiceAvailability c1) 4 : Nat) := by
      funext c1 c2
      rw [← rarity_eq]
      exact if_congr (by tauto) rfl rfl
    rw [heq]
    exact (comparator_compareInt fun c => (min (s.choiceAvailability c) 4 : Nat)).flip
  · have heq : (fun c1 c2 =>
        if !sel.needToComplete ∧ sel.meanAvailability > 5 ∧
            (s.choiceAvailability c1 ≤ 3 ∨ s.choiceAvailability c2 ≤ 3) then
          compareInt (s.choiceAvailability c2) (s.choiceAvailability c1)
        else 0) = fun _ _ => 0 := by
      funext c1 c2
      exact if_neg (by tauto)
    rw [heq]
    exact .zero

theorem comparator_rules (s : State) (sel : Selection) : Comparator (s.compareRules sel) :=
  (comparator_compareBool fun c => decide (c.unselectedRemaining ≠ 0)).lex <|
    (comparator_compareBool fun c => s.choiceSaturated sel c).flip.lex <|
      (comparator_compareInt fun c => c.userPriority).lex <|
        (comparator_rarity s sel).lex .zero

theorem comparator_rest : Comparator compareRest :=
  (comparator_compareInt fun c => c.unselectedRemaining).flip.lex <|
    (comparator_compareBool fun c => c.preallocated).lex .zero

theorem comparator_compareWith (s : State) (sel : Selection) (r : Nat → Nat) :
    Comparator (s.compareWith sel r) := by
  refine (comparator_rules s sel).lex ?_
  by_cases hsib : sel.verificationAvailable ∧ sel.severalFrontends
  · simp only [if_pos hsib]
    exact (comparator_compareInt fun c => r c.block).flip.lex comparator_rest
  · simp only [if_neg hsib]
    exact comparator_rest

-- The counts that are already in the memo table.
def Agrees (r : Nat → Nat) (memo : Memo) : Prop := ∀ i n, memo.lookup i = some n → r i = n

-- The count of each block now, or when it was computed.
def siblings (s : State) (memo : Memo) (i : Nat) : Nat := (s.remainingBlocksInChunks memo i).1

theorem agrees_siblings (s : State) (memo : Memo) : Agrees (s.siblings memo) memo := by
  intro i n h
  simp only [siblings, remainingBlocksInChunks, h]

-- A count that is looked up stays in the table.
theorem remainingBlocksInChunks_agrees {i : Nat}
    (h : Agrees r (s.remainingBlocksInChunks memo i).2) :
    Agrees r memo ∧ (s.remainingBlocksInChunks memo i).1 = r i := by
  unfold remainingBlocksInChunks at *
  cases hmemo : memo.lookup i with
  | some n =>
    rw [hmemo] at h
    exact ⟨h, (h i n hmemo).symm⟩
  | none =>
    rw [hmemo] at h
    refine ⟨fun j m hj => h j m ?_, (h i _ (by simp [List.lookup])).symm⟩
    have hne : j ≠ i := by
      rintro rfl
      rw [hmemo] at hj
      cases hj
    simpa [List.lookup, beq_eq_false_iff_ne.mpr hne] using hj

-- A count that is put in the table is the one that would be computed.
theorem siblings_remainingBlocksInChunks (s : State) (memo : Memo) (i : Nat) :
    s.siblings (s.remainingBlocksInChunks memo i).2 = s.siblings memo := by
  funext j
  unfold siblings remainingBlocksInChunks
  cases hmemo : memo.lookup i with
  | some n => rfl
  | none =>
    by_cases hji : j = i
    · subst hji
      simp [List.lookup, hmemo]
    · simp only [List.lookup, beq_eq_false_iff_ne.mpr hji]
      cases memo.lookup j <;> rfl

-- The comparison is the one with the counts that its memo table holds afterwards.
theorem compareChoices_agrees (h : Agrees r (s.compareChoices sel memo c1 c2).2) :
    Agrees r memo ∧ (s.compareChoices sel memo c1 c2).1 = s.compareWith sel r c1 c2 := by
  unfold compareChoices compareWith at *
  dsimp only at *
  split
  · next hcmp =>
    rw [if_pos hcmp] at h
    exact ⟨h, rfl⟩
  · next hcmp =>
    rw [if_neg hcmp] at h
    split
    · next hsib =>
      rw [if_pos hsib] at h
      have hagrees : Agrees r (s.remainingBlocksInChunks
          (s.remainingBlocksInChunks memo c1.block).2 c2.block).2 := by
        split at h <;> exact h
      obtain ⟨h₁, h2⟩ := remainingBlocksInChunks_agrees hagrees
      obtain ⟨h₀, h1⟩ := remainingBlocksInChunks_agrees h₁
      refine ⟨h₀, ?_⟩
      rw [h1, h2]
      split <;> rfl
    · next hsib =>
      rw [if_neg hsib] at h
      exact ⟨h, by simp⟩

theorem siblings_compareChoices (s : State) (sel : Selection) (memo : Memo) (c1 c2 : Choice) :
    s.siblings (s.compareChoices sel memo c1 c2).2 = s.siblings memo := by
  have h := (s.siblings_remainingBlocksInChunks (s.remainingBlocksInChunks memo c1.block).2
    c2.block).trans (s.siblings_remainingBlocksInChunks memo c1.block)
  unfold compareChoices
  dsimp only
  split
  · rfl
  · split
    · split
      · exact h
      · exact h
    · rfl

theorem compareChoices_eq (s : State) (sel : Selection) (memo : Memo) (c1 c2 : Choice) :
    (s.compareChoices sel memo c1 c2).1 = s.compareWith sel (s.siblings memo) c1 c2 := by
  have h := s.agrees_siblings (s.compareChoices sel memo c1 c2).2
  rw [siblings_compareChoices] at h
  exact (compareChoices_agrees h).2

theorem comparator_compareChoices (s : State) (sel : Selection) (memo : Memo) :
    Comparator fun c1 c2 => (s.compareChoices sel memo c1 c2).1 := by
  simp only [compareChoices_eq]
  exact comparator_compareWith s sel _

theorem compareWith_congr (h : s'.compared = s.compared) (sel : Selection) (r : Nat → Nat) :
    s'.compareWith sel r = s.compareWith sel r := by
  simp only [compared, Prod.mk.injEq] at h
  obtain ⟨hn, ha, -⟩ := h
  have hav : s'.choiceAvailability = s.choiceAvailability := by
    funext c
    rw [choiceAvailability, choiceAvailability, ha]
  have hsat : s'.choiceSaturated sel = s.choiceSaturated sel := by
    funext c
    rw [choiceSaturated, choiceSaturated, choiceNuploaders, choiceNuploaders, hn]
  have hrules : s'.compareRules sel = s.compareRules sel := by
    funext c1 c2
    unfold compareRules
    rw [hav, hsat]
  funext c1 c2
  unfold compareWith
  rw [hrules]

-- The initial specimen loses against each block that is wanted.
theorem compareWith_dummyChoice (hsel : 0 ≤ sel.dataPerSource) (hc : c.userPriority ≠ 0) :
    0 < s.compareWith sel r c dummyChoice := by
  have hsat : ∀ c : Choice, c.unselectedRemaining = 0 → s.choiceSaturated sel c = true := by
    intro c hz
    rw [choiceSaturated, hz, decide_eq_true_eq]
    exact mul_nonneg (Int.natCast_nonneg _) hsel
  have hrules : s.compareRules sel c dummyChoice = 1 := by
    by_cases hz : c.unselectedRemaining = 0
    · have hprio : compareInt c.userPriority dummyChoice.userPriority = 1 := by
        unfold compareInt
        rw [if_neg (by simp [dummyChoice]), if_pos (by simp [dummyChoice]; omega)]
      rw [compareRules, hsat c hz, hsat dummyChoice rfl, hprio, hz]
      rfl
    · have hleft : compareBool (decide (c.unselectedRemaining ≠ 0))
          (decide (dummyChoice.unselectedRemaining ≠ 0)) = 1 := by
        simp [hz, dummyChoice, compareBool]
      rw [compareRules, hleft]
      rfl
  simp [compareWith, hrules]

-- The choice that create_choice makes of the block with index `n` of an uploader.
def made (s : State) (up n : Nat) : Choice :=
  match createChoice n ((s.uploader up).completeBlocks.getD n 0) s with
  | .ok c _ => c
  | .error _ _ => dummyChoice

def choices (s : State) (up : Nat) (l : List Nat) : List Choice := l.map (s.made up)

-- The choice is about the block with the index.
structure Made (s : State) (up n : Nat) : Prop where
  created : createChoice n ((s.uploader up).completeBlocks.getD n 0) s = .ok (s.made up n) s
  num : (s.made up n).num = n
  block : (s.made up n).block = (s.uploader up).completeBlocks.getD n 0
  userPriority : (s.made up n).userPriority =
    s.prioritiesBitmap.getD ((s.uploader up).completeBlocks.getD n 0) 0

-- The place is one of a block that is not to be left out.
def Wants (s : State) (up n : Nat) : Prop :=
  n < (s.uploader up).ncomplete ∧
    s.prioritiesBitmap.getD ((s.uploader up).completeBlocks.getD n 0) 0 ≠ 0

theorem Wants.congr {up n : Nat} (h : s.Wants up n) (hs : s'.kept = s.kept) : s'.Wants up n := by
  have huploaders : s'.uploaders = s.uploaders := congrArg (·.2.2.2.2.1) hs
  have hbitmap : s'.prioritiesBitmap = s.prioritiesBitmap := congrArg (·.2.2.2.2.2) hs
  have hup : s'.uploader up = s.uploader up := by rw [uploader, uploader, huploaders]
  rwa [Wants, hup, hbitmap]

end State

section Selecting

variable {fileVerify : FileVerify} {sel : Selection} {up n b : Nat} {s : State}

theorem createChoice_made (hn : n < (s.uploader up).ncomplete)
    (hb : (s.uploader up).completeBlocks[n]? = some b) :
    Outcome (createChoice n b) (fun c s' => s' = s ∧ c = s.made up n ∧ s.Made up n)
      (fun e _ => Astray s up e) s := by
  have hb' : (s.uploader up).completeBlocks.getD n 0 = b := by simp [hb]
  have hfields := @createChoice_astray up n b s fun h => hb' ▸ lt_of_sized h hn
  unfold Outcome at *
  cases hm : createChoice n b s with
  | error e s' =>
    rw [hm] at hfields
    exact hfields.2
  | ok c s' =>
    rw [hm] at hfields
    obtain ⟨rfl, hnum, hblock, hprio⟩ := hfields
    have hc : s'.made up n = c := by rw [State.made, hb', hm]
    exact ⟨rfl, hc.symm, ⟨by rw [hb', hc, hm], by rw [hc, hnum], by rw [hc, hb', hblock],
      by rw [hc, hb', hprio]⟩⟩

-- The specimen of a chunk is one of its best blocks.
theorem chunkSpecimen_best {q : List Nat} (hq : ∀ n ∈ q, n < (s.uploader up).ncomplete)
    (acc : Choice) (memo : Memo) :
    Outcome (chunkSpecimen sel up q acc memo)
      (fun res s' => s' = s ∧ (∀ n ∈ q, s.Made up n) ∧ ∀ r, State.Agrees r res.2 →
        State.Agrees r memo ∧ (res.1 = acc ∨ res.1 ∈ s.choices up q) ∧
        0 ≤ s.compareWith sel r res.1 acc ∧
        ∀ d ∈ s.choices up q, 0 ≤ s.compareWith sel r res.1 d) (fun e _ => Astray s up e) s := by
  induction q generalizing acc memo with
  | nil =>
    refine ⟨rfl, fun _ h => (nomatch h), fun r hr => ⟨hr, .inl rfl, ?_, fun _ h => (nomatch h)⟩⟩
    exact ((State.comparator_compareWith s sel r).self acc).ge
  | cons n q ih =>
    obtain ⟨hn, hq⟩ := List.forall_mem_cons.mp hq
    unfold chunkSpecimen
    rw [outcome_get_bind]
    refine Outcome.bind ((readAt_astray fun h => hn.trans_le h.ncomplete.2).mono
      (fun _ _ h => h) fun _ _ h => h.2) fun b s' hb => ?_
    obtain ⟨rfl, hb⟩ := hb
    refine (createChoice_made hn hb).bind fun c s hc => ?_
    obtain ⟨rfl, rfl, hmade⟩ := hc
    refine Outcome.bind ((check_astray (outOfBounds_assert (by simp)) fun h => ?_).mono
      (fun _ _ h => h) fun _ _ h => h.2) fun _ s' hs' => ?_
    · rw [hmade.block]
      exact (lt_of_sized h hn).trans_le h.bits
    obtain ⟨rfl, -⟩ := hs'
    cases hcmp : s'.compareChoices sel memo (s'.made up n) acc with
    | mk cmp memo' =>
    refine (ih hq (if cmp ≤ 0 then acc else s'.made up n) memo').mono ?_ fun _ _ h => h
    rintro res s ⟨rfl, hall, h⟩
    refine ⟨rfl, fun m hm => ?_, fun r hr => ?_⟩
    · rcases List.mem_cons.mp hm with rfl | hm
      · exact hmade
      · exact hall m hm
    obtain ⟨hr', hmem, hacc, hbest⟩ := h r hr
    have hcomp := State.comparator_compareWith s sel r
    obtain ⟨hmemo, heq⟩ := @State.compareChoices_agrees s sel r memo (s.made up n) acc
      (by rw [hcmp]; exact hr')
    rw [hcmp] at heq
    have hcmp' : cmp = s.compareWith sel r (s.made up n) acc := heq
    have hswap := hcomp.swap (s.made up n) acc
    by_cases hle : cmp ≤ 0
    · rw [if_pos hle] at hmem hacc
      refine ⟨hmemo, ?_, hacc, fun d hd => ?_⟩
      · rcases hmem with h | h
        · exact .inl h
        · exact .inr (List.mem_cons_of_mem _ h)
      · rcases List.mem_cons.mp hd with rfl | hd
        · exact hcomp.trans hacc (by omega)
        · exact hbest d hd
    · rw [if_neg hle] at hmem hacc
      refine ⟨hmemo, .inr ?_, hcomp.trans hacc (by omega), fun d hd => ?_⟩
      · rcases hmem with h | h
        · exact h ▸ List.mem_cons_self
        · exact List.mem_cons_of_mem _ h
      · rcases List.mem_cons.mp hd with rfl | hd
        · exact hacc
        · exact hbest d hd

-- What the best chunks so far say about the choices that were compared.
structure Best.Holds (best : Best) (s : State) (sel : Selection) (cs : List Choice) : Prop where
  champion : ∀ r, State.Agrees r best.memo →
    Champion (s.compareWith sel r) Choice.num best.choices best.specimen cs
  found : ∀ r, State.Agrees r best.memo → 0 ≤ sel.dataPerSource → cs ≠ [] →
    ∃ c ∈ cs, s.compareWith sel r c best.specimen = 0
  start : cs = [] → best.specimen = dummyChoice

theorem Best.Holds.congr {best : Best} {cs : List Choice} {s' : State} (h : best.Holds s sel cs)
    (hs : s'.compared = s.compared) : best.Holds s' sel cs := by
  obtain ⟨h1, h2, h3⟩ := h
  refine ⟨?_, ?_, h3⟩
  · simpa only [State.compareWith_congr hs] using h1
  · simpa only [State.compareWith_congr hs] using h2

-- The choices of one more chunk are compared.
theorem keepBestChunks_holds {best : Best} {cs : List Choice} {l : List Nat}
    (hl : ∀ n ∈ l, s.Wants up n) (h : best.Holds s sel cs) :
    Outcome (keepBestChunks sel up l best)
      (fun best' s' => s' = s ∧ (∀ n ∈ l, s.Made up n) ∧
        best'.Holds s sel (s.choices up l ++ cs)) (fun e _ => Astray s up e) s := by
  cases l with
  | nil => exact ⟨rfl, fun _ h => (nomatch h), h⟩
  | cons n q =>
    obtain ⟨⟨hn, -⟩, hq⟩ := List.forall_mem_cons.mp hl
    unfold keepBestChunks
    rw [outcome_get_bind]
    refine Outcome.bind ((readAt_astray fun h => hn.trans_le h.ncomplete.2).mono
      (fun _ _ h => h) fun _ _ h => h.2) fun b s' hb => ?_
    obtain ⟨rfl, hb⟩ := hb
    refine (createChoice_made hn hb).bind fun first s hfirst => ?_
    obtain ⟨rfl, rfl, hmade⟩ := hfirst
    refine (chunkSpecimen_best (fun m hm => (hq m hm).1) _ _).bind fun res s' hres => ?_
    obtain ⟨rfl, hall, hspec⟩ := hres
    obtain ⟨top, memo⟩ := res
    refine Outcome.bind ((check_astray (outOfBounds_assert (by simp)) fun hsized => ?_).mono
      (fun _ _ h => h) fun _ _ h => h.2) fun _ s hs => ?_
    · -- the specimen is about a block of the uploader
      have hblock : ∀ m, s'.Made up m → m < (s'.uploader up).ncomplete →
          (s'.made up m).block < s'.verifiedBitmap.length := fun m hm hlt =>
        hm.block ▸ (lt_of_sized hsized hlt).trans_le hsized.bits
      rcases (hspec _ (s'.agrees_siblings memo)).2.1 with htop | htop
      · rw [show top = s'.made up n from htop]
        exact hblock n hmade hn
      · obtain ⟨m, hm, rfl⟩ := List.mem_map.mp htop
        exact hblock m (hall m hm) (hq m hm).1
    obtain ⟨rfl, -⟩ := hs
    have hall' : ∀ m ∈ n :: q, s.Made up m := fun m hm => by
      rcases List.mem_cons.mp hm with rfl | hm
      · exact hmade
      · exact hall m hm
    have hname : ∀ d ∈ s.choices up (n :: q), d.num ∈ n :: q := by
      intro d hd
      obtain ⟨m, hm, rfl⟩ := List.mem_map.mp hd
      rw [(hall' m hm).num]
      exact hm
    cases hcmp : s.compareChoices sel memo top best.specimen with
    | mk cmp memo' =>
    -- what is known for all counts that agree with the new table
    have hr : ∀ r, State.Agrees r memo' → State.Agrees r best.memo ∧
        cmp = s.compareWith sel r top best.specimen ∧ top ∈ s.choices up (n :: q) ∧
        ∀ d ∈ s.choices up (n :: q), 0 ≤ s.compareWith sel r top d := by
      intro r hr
      obtain ⟨hagrees, heq⟩ := @State.compareChoices_agrees s sel r memo top best.specimen
        (by rw [hcmp]; exact hr)
      obtain ⟨hbest, hmem, hacc, htop⟩ := hspec r hagrees
      rw [hcmp] at heq
      refine ⟨hbest, heq, ?_, fun d hd => ?_⟩
      · rcases hmem with h | h
        · exact List.mem_cons.mpr (.inl h)
        · exact List.mem_cons_of_mem _ h
      · rcases List.mem_cons.mp hd with rfl | hd
        · exact hacc
        · exact htop d hd
    have hcomp := fun r => State.comparator_compareWith s sel r
    have hne : s.choices up (n :: q) ++ cs ≠ [] := by simp [State.choices]
    rw [outcome_pure]
    refine ⟨rfl, hall', ?_⟩
    by_cases hlt : cmp < 0
    · rw [if_pos hlt]
      refine ⟨fun r hagrees => ?_, fun r hagrees hsel _ => ?_, fun hnil => absurd hnil hne⟩
      · obtain ⟨hbest, heq, -, htop⟩ := hr r hagrees
        exact (h.champion r hbest).keep (hcomp r) htop (heq ▸ hlt)
      · obtain ⟨hbest, heq, hmem, -⟩ := hr r hagrees
        by_cases hcs : cs = []
        · -- the first chunk wins against the initial specimen
          obtain ⟨m, hm, rfl⟩ := List.mem_map.mp hmem
          have hprio : (s.made up m).userPriority ≠ 0 := by
            rw [(hall' m hm).userPriority]
            exact (hl m hm).2
          have hwins := State.compareWith_dummyChoice (s := s) (r := r) hsel hprio
          rw [h.start hcs] at heq
          omega
        · obtain ⟨c, hc, htie⟩ := h.found r hbest hsel hcs
          exact ⟨c, List.mem_append_right _ hc, htie⟩
    · rw [if_neg hlt]
      by_cases hgt : 0 < cmp
      · rw [if_pos hgt]
        refine ⟨fun r hagrees => ?_, fun r hagrees _ _ => ?_, fun hnil => absurd hnil hne⟩
        · obtain ⟨hbest, heq, hmem, htop⟩ := hr r hagrees
          exact (h.champion r hbest).replace (hcomp r) hmem htop hname (heq ▸ hgt)
        · obtain ⟨-, -, hmem, -⟩ := hr r hagrees
          exact ⟨top, List.mem_append_left _ hmem, (hcomp r).self top⟩
      · rw [if_neg hgt]
        have hzero : cmp = 0 := by omega
        refine ⟨fun r hagrees => ?_, fun r hagrees _ _ => ?_, fun hnil => absurd hnil hne⟩
        · obtain ⟨hbest, heq, hmem, htop⟩ := hr r hagrees
          exact (h.champion r hbest).add (hcomp r) hmem htop hname (heq ▸ hzero)
        · obtain ⟨-, heq, hmem, -⟩ := hr r hagrees
          exact ⟨top, List.mem_append_left _ hmem, heq ▸ hzero⟩

end Selecting

-- scan_block with the choices that were compared so far: those of a chunk come in when the
-- next chunk begins.
def collect (fileVerify : FileVerify) (sel : Selection) (up : Nat) (acc : Scan × List Choice)
    (n b : Nat) : Act (Scan × List Choice) := do
  let scan ← scanBlock fileVerify sel up acc.1 n b
  let s ← get
  return (scan,
    if scan.chunkNum = acc.1.chunkNum then acc.2
    else s.choices up acc.1.chunkBlocks ++ acc.2)

-- The best chunks, with all choices that were compared.
def bestChoices (fileVerify : FileVerify) (sel : Selection) (up : Nat) :
    Act (Best × List Choice) := do
  let s ← get
  let u := s.uploader up
  let (scan, cs) ← subarrayFoldLefti (collect fileVerify sel up)
    (⟨none, [], ⟨[], dummyChoice, []⟩⟩, []) u.completeBlocks ((u.ncomplete : Int) - 1)
  let best ← keepBestChunks sel up scan.chunkBlocks scan.best
  let s ← get
  return (best, s.choices up scan.chunkBlocks ++ cs)

-- What select_blocks does with the best chunks.
def takeBest (t : Nat) (random : Nat → Nat) (up : Nat) (best : Best) :
    Act (Nat × List UploaderBlock) :=
  tryCatch (do
      let blocks ← (match best.choices with
        | [] => throw .notFound
        | [choice] => pure choice
        | choices => pure (choices.getD (random choices.length % choices.length) []) :
          Act (List Nat))
      let s ← get
      let chunk ← (match blocks with
        | [] => throw (.assertFailure .selectBlocks)
        | n :: _ => do
            readAt (s.frontend t).chunkOfBlock (← readAt (s.uploader up).completeBlocks n) :
          Act Nat)
      return (chunk, ← blocks.mapM (permuteAndReturn up)))
    fun e =>
      match e with
      | .notFound => linearSelectBlocks up
      | e => throw e

section Selecting

variable {fileVerify : FileVerify} {sel : Selection} {up : Nat} {s : State}

theorem foldlM_collect (a l : List Nat) (acc : Scan × List Choice) :
    (do
      let x ← l.foldlM (fun r i => collect fileVerify sel up r i (a.getD i 0)) acc
      return x.1) =
    l.foldlM (fun r i => scanBlock fileVerify sel up r i (a.getD i 0)) acc.1 := by
  induction l generalizing acc with
  | nil => rfl
  | cons i l ih =>
    simp only [List.foldlM_cons, collect, bind_assoc, pure_bind]
    refine congrArg (scanBlock fileVerify sel up acc.1 i (a.getD i 0) >>= ·) ?_
    funext scan
    exact congrArg (get >>= ·) (funext fun s => ih _)

theorem subarrayFoldLefti_collect (a : List Nat) (acc : Scan × List Choice) (last : Int) :
    (do
      let x ← subarrayFoldLefti (collect fileVerify sel up) acc a last
      return x.1) = subarrayFoldLefti (scanBlock fileVerify sel up) acc.1 a last := by
  unfold subarrayFoldLefti
  simp only [bind_assoc, foldlM_collect]

-- select_blocks takes one of the best chunks.
theorem selectBestBlocks_eq (random : Nat → Nat) :
    selectBestBlocks fileVerify sel random up = (do
      let s ← get
      let (best, _) ← bestChoices fileVerify sel up
      takeBest (s.uploader up).t random up best) := by
  unfold selectBestBlocks bestChoices
  have hfold := fun a last => @subarrayFoldLefti_collect fileVerify sel up a
    (⟨none, [], ⟨[], dummyChoice, []⟩⟩, []) last
  simp only [← hfold, bind_assoc, pure_bind]
  rfl

-- After n blocks: the wanted ones are those of the chunk being collected and those whose choices
-- were compared, which the best chunks so far are the best of.
structure Collected (fileVerify : FileVerify) (s₀ : State) (sel : Selection) (up n : Nat)
    (acc : Scan × List Choice) (s : State) : Prop where
  kept : s.kept = s₀.kept
  run : wantedBlocks fileVerify up n s₀ = .ok (acc.1.chunkBlocks ++ acc.2.map Choice.num) s
  best : acc.1.best.Holds s sel acc.2
  wanted : ∀ m ∈ acc.1.chunkBlocks, s₀.Wants up m
  offered : ∀ c ∈ acc.2, s₀.Offers fileVerify up c

-- The exception came from the verification of a wanted block, or from an array.
def Failed (fileVerify : FileVerify) (s₀ : State) (up n : Nat) (e : Exn) (s : State) : Prop :=
  wantedBlocks fileVerify up n s₀ = .error e s ∧ e.Verifying ∨ Astray s₀ up e

theorem uploader_of_kept {s₀ : State} (hs : s.kept = s₀.kept) :
    s.uploader up = s₀.uploader up := by
  have huploaders : s.uploaders = s₀.uploaders := congrArg (·.2.2.2.2.1) hs
  rw [State.uploader, State.uploader, huploaders]

-- The choices of a chunk, made after n blocks.
theorem offers_choices {s₀ : State} {n : Nat} {ns l : List Nat} (hs : s.kept = s₀.kept)
    (hn : n ≤ (s₀.uploader up).ncomplete) (hrun : wantedBlocks fileVerify up n s₀ = .ok ns s)
    (hmade : ∀ m ∈ l, s.Made up m) :
    (∀ c ∈ s.choices up l, s₀.Offers fileVerify up c) ∧ (s.choices up l).map Choice.num = l := by
  refine ⟨fun c hc => ?_, ?_⟩
  · obtain ⟨m, hm, rfl⟩ := List.mem_map.mp hc
    refine ⟨n, hn, ns, s, hrun, ?_⟩
    rw [(hmade m hm).num, ← uploader_of_kept hs]
    exact (hmade m hm).created
  · rw [State.choices, List.map_map]
    exact (List.map_congr_left fun m hm => (hmade m hm).num).trans (List.map_id l)

theorem collect_collected {s₀ : State} {acc : Scan × List Choice} {n : Nat}
    (hn : n < (s₀.uploader up).ncomplete) (h : Collected fileVerify s₀ sel up n acc s) :
    Outcome (collect fileVerify sel up acc n ((s₀.uploader up).completeBlocks.getD n 0))
      (Collected fileVerify s₀ sel up (n + 1)) (Failed fileVerify s₀ up (n + 1)) s := by
  have hrun : wantedBlocks fileVerify up (n + 1) s₀ = wantBlock fileVerify
      (acc.1.chunkBlocks ++ acc.2.map Choice.num) n
        ((s₀.uploader up).completeBlocks.getD n 0) s := by
    rw [wantedBlocks_succ]
    simp only [bind, EStateM.bind, h.run]
  have hblock : ∀ s' : State, s'.kept = s₀.kept → s'.Sized up →
      (s₀.uploader up).completeBlocks.getD n 0 < s'.blocks.length := fun s' hs' hsized => by
    have hup : s'.uploader up = s₀.uploader up := uploader_of_kept hs'
    exact hup ▸ lt_of_sized hsized (hup ▸ hn)
  generalize hb : (s₀.uploader up).completeBlocks.getD n 0 = b at hrun hblock ⊢
  unfold collect scanBlock
  simp only [bind_assoc]
  rw [outcome_get_bind]
  refine Outcome.bind ((readAt_astray fun hs => (hblock s h.kept hs).trans_le hs.priorities).mono
    (fun _ _ h => h) fun _ _ he => .inr (he.2.congr h.kept)) fun p s' hp => ?_
  obtain ⟨rfl, hp⟩ := hp
  split
  · next hzero =>
    rw [pure_bind, outcome_get_bind, outcome_pure, if_pos rfl]
    exact ⟨h.kept, hrun.trans (wantBlock_zero (hzero ▸ hp)), h.best, h.wanted, h.offered⟩
  · next hne =>
    rw [bind_assoc]
    have hshould := (outcome_run (shouldDownloadBlock fileVerify b) s').and
      ((shouldDownloadBlock_kept s' b).and (shouldDownloadBlock_raises (hblock s' h.kept)))
    refine Outcome.bind (hshould.mono (fun _ _ h => h) fun e s'' he => ?_) fun download s'' hd => ?_
    · obtain ⟨he, -, hraises⟩ := he
      rcases hraises with hverify | hastray
      · exact .inl ⟨hrun.trans (wantBlock_error hp hne he), hverify⟩
      · exact .inr (hastray.congr h.kept)
    · obtain ⟨hd, hk, -⟩ := hd
      have hnext := hrun.trans (wantBlock_ok hp hne hd)
      have hkept := hk.trans h.kept
      have hbest := h.best.congr (congrArg (·.2.2) hk)
      have hbitmap : s'.prioritiesBitmap = s₀.prioritiesBitmap := congrArg (·.2.2.2.2.2) h.kept
      have hnew : s₀.Wants up n := ⟨hn, by rw [hb, ← hbitmap, List.getD_eq_getElem?_getD, hp]; exact hne⟩
      cases download with
      | false =>
        simp only [Bool.not_false, if_true]
        rw [pure_bind, outcome_get_bind, outcome_pure, if_pos rfl]
        exact ⟨hkept, hnext, hbest, h.wanted, h.offered⟩
      | true =>
        simp only [Bool.not_true, Bool.false_eq_true, if_false]
        rw [bind_assoc, outcome_get_bind, bind_assoc]
        refine Outcome.bind ((readAt_astray fun hs =>
          (hblock s'' hkept hs).trans_le hs.chunks).mono (fun _ _ h => h)
            fun _ _ he => .inr (he.2.congr hkept)) fun chunkNum s hs => ?_
        obtain ⟨rfl, -⟩ := hs
        split
        · rw [pure_bind, outcome_get_bind, outcome_pure, if_pos rfl]
          exact ⟨hkept, hnext, hbest, List.forall_mem_cons.mpr ⟨hnew, h.wanted⟩, h.offered⟩
        · next hnum =>
          split
          · next hnil =>
            rw [pure_bind, outcome_get_bind, outcome_pure, if_neg hnum, hnil]
            rw [hnil] at hnext
            exact ⟨hkept, hnext, hbest, List.forall_mem_singleton.mpr hnew, h.offered⟩
          · -- the chunk before is compared
            rw [bind_assoc]
            refine Outcome.bind ((keepBestChunks_holds (fun m hm => (h.wanted m hm).congr hkept)
              hbest).mono (fun _ _ h => h) fun _ _ he => .inr (he.congr hkept))
                fun best s' hres => ?_
            obtain ⟨rfl, hmade, hholds⟩ := hres
            rw [pure_bind, outcome_get_bind, outcome_pure, if_neg hnum]
            obtain ⟨hoffers, hnums⟩ := offers_choices hkept hn hnext hmade
            refine ⟨hkept, ?_, hholds, List.forall_mem_singleton.mpr hnew, fun c hc => ?_⟩
            · rw [List.map_append, hnums]
              exact hnext
            · rcases List.mem_append.mp hc with hc | hc
              · exact hoffers c hc
              · exact h.offered c hc

-- The scan of the first n blocks.
theorem foldlM_collected {s₀ : State} {n : Nat} (hn : n ≤ (s₀.uploader up).ncomplete) :
    Outcome ((List.range n).foldlM
      (fun r i => collect fileVerify sel up r i ((s₀.uploader up).completeBlocks.getD i 0))
      (⟨none, [], ⟨[], dummyChoice, []⟩⟩, []))
      (Collected fileVerify s₀ sel up n) (Failed fileVerify s₀ up n) s₀ := by
  induction n with
  | zero =>
    exact ⟨rfl, rfl, ⟨fun _ _ => .nil _, fun _ _ _ h => absurd rfl h, fun _ => rfl⟩,
      fun _ h => (nomatch h), fun _ h => (nomatch h)⟩
  | succ n ih =>
    rw [List.range_succ, List.foldlM_append]
    refine Outcome.bind ((ih (Nat.le_of_succ_le hn)).mono (fun _ _ h => h) fun e s he => ?_)
      fun acc s h => ?_
    · refine he.imp_left fun he => ⟨?_, he.2⟩
      rw [wantedBlocks_succ]
      simp only [bind, EStateM.bind, he.1]
    · rw [List.foldlM_cons]
      simp only [List.foldlM_nil, bind_pure]
      exact collect_collected hn h

theorem bestChoices_holds (s : State) :
    Outcome (bestChoices fileVerify sel up)
      (fun res s' => wantedBlocks fileVerify up (s.uploader up).ncomplete s =
          .ok (res.2.map Choice.num) s' ∧
        (∀ c ∈ res.2, s.Offers fileVerify up c) ∧ res.1.Holds s' sel res.2)
      (Failed fileVerify s up (s.uploader up).ncomplete) s := by
  unfold bestChoices subarrayFoldLefti
  simp only [bind_assoc]
  rw [outcome_get_bind]
  have hassert : Exn.OutOfBounds (.assertFailure .subarrayFoldLefti) := outOfBounds_assert (by simp)
  refine Outcome.bind ((check_astray hassert fun h => ?_).mono (fun _ _ h => h)
    fun _ _ h => .inr h.2) fun _ s' hs' => ?_
  · exact h.ncomplete.1.trans_le h.ncomplete.2
  obtain ⟨rfl, -⟩ := hs'
  refine Outcome.bind ((check_astray hassert fun h => ?_).mono (fun _ _ h => h)
    fun _ _ h => .inr h.2) fun _ s hs => ?_
  · have := h.ncomplete
    omega
  obtain ⟨rfl, hlast, -⟩ := hs
  have hcount : ((s.uploader up).ncomplete - 1 : Int).toNat + 1 = (s.uploader up).ncomplete := by
    omega
  rw [hcount]
  refine (foldlM_collected le_rfl).bind fun acc s' h => ?_
  refine Outcome.bind ((keepBestChunks_holds (fun m hm => (h.wanted m hm).congr h.kept)
    h.best).mono (fun _ _ h => h) fun _ _ he => .inr (he.congr h.kept)) fun best s'' hres => ?_
  obtain ⟨rfl, hmade, hholds⟩ := hres
  obtain ⟨hoffers, hnums⟩ := offers_choices h.kept le_rfl h.run hmade
  refine ⟨?_, fun c hc => ?_, hholds⟩
  · rw [List.map_append, hnums]
    exact h.run
  · rcases List.mem_append.mp hc with hc | hc
    · exact hoffers c hc
    · exact h.offered c hc

-- The candidates are totally preordered in every state. The choices that are compared are those of
-- all wanted blocks that the uploader has whole. The chunks that select_blocks takes one of have a
-- block that none of them beats, and all chunks with such a block are among them when the data
-- for each source is no negative amount. Only the verification of a chunk fails, or an array that is
-- too short.
theorem select_blocks_best (fileVerify : FileVerify) (sel : Selection) (up : Nat) (s : State)
    (random : Nat → Nat) :
    (∀ memo, (∀ c, 0 ≤ (s.compareChoices sel memo c c).1) ∧
      (∀ c1 c2 c3, 0 ≤ (s.compareChoices sel memo c1 c2).1 →
        0 ≤ (s.compareChoices sel memo c2 c3).1 → 0 ≤ (s.compareChoices sel memo c1 c3).1) ∧
      ∀ c1 c2, (s.compareChoices sel memo c2 c1).1 = -(s.compareChoices sel memo c1 c2).1) ∧
    selectBestBlocks fileVerify sel random up = (do
      let s ← get
      let (best, _) ← bestChoices fileVerify sel up
      takeBest (s.uploader up).t random up best) ∧
    Outcome (bestChoices fileVerify sel up)
      (fun (best, cs) s' =>
        (wantedBlocks fileVerify up (s.uploader up).ncomplete s = .ok (cs.map Choice.num) s' ∧
          ∀ c ∈ cs, s.Offers fileVerify up c) ∧
        (∀ l ∈ best.choices, ∃ c ∈ cs, c.num ∈ l ∧
          ∀ d ∈ cs, 0 ≤ (s'.compareChoices sel best.memo c d).1) ∧
        (0 ≤ sel.dataPerSource → ∀ c ∈ cs,
          (∀ d ∈ cs, 0 ≤ (s'.compareChoices sel best.memo c d).1) →
            ∃ l ∈ best.choices, c.num ∈ l) ∧
        (0 ≤ sel.dataPerSource → cs ≠ [] → best.choices ≠ []))
      (Failed fileVerify s up (s.uploader up).ncomplete) s := by
  refine ⟨fun memo => ?_, selectBestBlocks_eq random, ?_⟩
  · have h := State.comparator_compareChoices s sel memo
    exact ⟨fun c => (h.self c).ge, fun _ _ _ h12 h23 => h.trans h12 h23, h.swap⟩
  · refine (bestChoices_holds s).mono (fun res s' hres => ?_) fun _ _ h => h
    obtain ⟨best, cs⟩ := res
    obtain ⟨hrun, hoffers, h⟩ := hres
    change best.Holds s' sel cs at h
    have hcomp := State.comparator_compareWith s' sel (s'.siblings best.memo)
    have hagrees := s'.agrees_siblings best.memo
    have hchampion := h.champion _ hagrees
    simp only [State.compareChoices_eq]
    refine ⟨⟨hrun, hoffers⟩, fun l hl => ?_, fun hsel c hc hall => ?_, fun hsel hne => ?_⟩
    · obtain ⟨c, hc, hnum, htie⟩ := hchampion.sound l hl
      exact ⟨c, hc, hnum, fun d hd => hchampion.unbeaten_of_tie hcomp htie hd⟩
    · obtain ⟨d, hd, htie⟩ := h.found _ hagrees hsel (List.ne_nil_of_mem hc)
      refine hchampion.complete c hc ?_
      have hle := hcomp.trans (hall d hd) htie.ge
      have hge := hchampion.unbeaten c hc
      have := hcomp.swap c best.specimen
      omega
    · obtain ⟨c, hc, htie⟩ := h.found _ hagrees hsel hne
      obtain ⟨l, hl, -⟩ := hchampion.complete c hc htie
      exact List.ne_nil_of_mem hl

-- An uploader with all of a file, of which one part is asked for first and one is there.
def offeredTen : State :=
  Op.next (.setPresent [(0, 4)]) (Op.next (.swarmerSetInterval 4 8 2)
    (Op.next (.registerUploader 0 (.availableIntervals [(0, 10)])) startTen))

def someSelection : Selection := ⟨true, false, 1, 9728000, true⟩

-- The part that is there gets verified and is left out; the block asked for first beats the other.
theorem select_blocks_best_ten : ∃ best cs s',
    bestChoices (fun _ _ _ => .ok true) someSelection 0 offeredTen = .ok (best, cs) s' ∧
    cs.map Choice.num = [1, 0] ∧ best.choices = [[1]] ∧
    ∃ c ∈ cs, c.num = 1 ∧ ∀ d ∈ cs, 0 ≤ (s'.compareChoices someSelection best.memo c d).1 := by
  have h := (select_blocks_best (fun _ _ _ => .ok true) someSelection 0 offeredTen fun _ => 0).2.2
  have hrun : ∃ best cs s', bestChoices (fun _ _ _ => .ok true) someSelection 0 offeredTen =
      .ok (best, cs) s' ∧ cs.map Choice.num = [1, 0] ∧ best.choices = [[1]] :=
    ⟨_, _, _, rfl, by decide, by decide⟩
  obtain ⟨best, cs, s', hrun, hcs, hbest⟩ := hrun
  unfold Outcome at h
  rw [hrun] at h
  obtain ⟨c, hc, hnum, hall⟩ := h.2.1 [1] (by simp [hbest])
  exact ⟨best, cs, s', hrun, hcs, hbest, c, hc, List.mem_singleton.mp hnum, hall⟩

end Selecting

end Mldonkey.Swarming
