import Mldonkey.Indexing.Form

-- Where the query built from a search form means what the form says.
namespace Mldonkey.Indexing

open Gui (QueryEntry Bytes)
open Bencode (ofString int64OfString)
open Query (Clean)

mutual

-- The form is not empty: some field of it is a constraint.
def asks : QueryEntry → Bool
  | .qAnd l | .qHidden l | .qOr l => (asksAll l).any id
  | .qAndnot q1 q2 => asks q1 || asks q2
  | .qModule _ q => asks q
  | .qKeywords _ s | .qFormat _ s | .qMp3Artist _ s | .qMp3Title _ s | .qMp3Album _ s =>
      splitSimplify s 32 ≠ []
  | .qMinsize _ s | .qMaxsize _ s | .qMp3Bitrate _ s => (int64OfString s).isSome
  | .qMedia _ s => (searchMediaList.lookup s).isSome || splitSimplify s 32 ≠ []
  | .qCombo _ _ _ => false

def asksAll : List QueryEntry → List Bool
  | [] => []
  | h :: q => asks h :: asksAll q

end

-- Whether a disjunction asks and excludes, from what its members do: it excludes
-- where the one member that asks does.
def orExcludes (acc member : Bool × Bool) : Bool × Bool :=
  (acc.1 || member.1, (!acc.1 && member.2) || (!member.1 && acc.2))

mutual

-- An AND NOT that excludes something is not shut in between other fields: the
-- rewriting brings it to the root.
def excludes : QueryEntry → Bool
  | .qAnd l | .qHidden l => (excludesAll l).any id
  | .qOr l => (((asksAll l).zip (excludesAll l)).foldl orExcludes (false, false)).2
  | .qAndnot q1 q2 => excludes q1 || asks q2
  | .qModule _ q => excludes q
  | .qKeywords _ s | .qFormat _ s | .qMp3Artist _ s | .qMp3Title _ s | .qMp3Album _ s =>
      unwanted s ≠ []
  | _ => false

def excludesAll : List QueryEntry → List Bool
  | [] => []
  | h :: q => excludes h :: excludesAll q

end

-- The form is an AND NOT itself.
def isAndNot : QueryEntry → Bool
  | .qAndnot q1 q2 => asks q1 || asks q2
  | .qModule _ q => isAndNot q
  | .qHidden [q] => isAndNot q
  | .qKeywords _ s | .qFormat _ s | .qMp3Artist _ s | .qMp3Title _ s | .qMp3Album _ s =>
      unwanted s ≠ []
  | _ => false

-- Words with '-' stand beside a plain one, and no two of them.
def GoodWords (s : Bytes) : Prop := unwanted s = [] ∨ plain s ≠ [] ∧ (unwanted s).length = 1

mutual

-- The forms that are built right: a list of one member is empty, no field has only
-- words with '-' or, but for the format, several of them, nothing is excluded from
-- an empty form, and no AND NOT meets another one.
def Good : QueryEntry → Prop
  | .qAnd [q] | .qOr [q] => asks q = false
  | .qAnd l => AllGood l ∧ (excludesAll l).count true ≤ 1
  | .qOr l => AllGood l
  | .qHidden [q] => Good q
  | .qHidden l => AllGood l ∧ (excludesAll l).count true ≤ 1
  | .qAndnot q1 q2 => Good q1 ∧ Good q2 ∧ (asks q2 → asks q1 ∧ ¬ excludes q1) ∧
      ¬ excludes q2 ∧ ¬ isAndNot q2
  | .qModule _ q => Good q
  | .qKeywords _ s => splitSimplify s 32 = [] ∨ (∃ w ∈ plain s, stem w ≠ []) ∧ GoodWords s ∧
      ∀ w ∈ unwanted s, stem w ≠ []
  | .qFormat _ s => unwanted s = [] ∨ plain s ≠ []
  | .qMp3Artist _ s | .qMp3Title _ s | .qMp3Album _ s => GoodWords s
  | .qCombo _ _ _ => False
  | _ => True

def AllGood : List QueryEntry → Prop
  | [] => True
  | h :: q => Good h ∧ AllGood q

end

-- A query as it is built from a form that asks, or not, and excludes, or not.
structure Shape (q : Query) (a x : Bool) : Prop where
  empty : Query.empty q = !a
  vacuous : Query.vacuous q = !a
  excludes : Query.excludes q = x
  asks : x → a
  clean : Clean q

theorem shape_none : Shape .none false false := ⟨rfl, rfl, rfl, by simp, trivial⟩

theorem Shape.and {q1 q2 : Query} {a b x y : Bool} (h1 : Shape q1 a x) (h2 : Shape q2 b y)
    (hxy : ¬ (x ∧ y)) : Shape (.and q1 q2) (a || b) (x || y) := by
  obtain ⟨he1, hv1, hx1, ha1, hc1⟩ := h1
  obtain ⟨he2, hv2, hx2, ha2, hc2⟩ := h2
  refine ⟨by simp [Query.empty, he1, he2], by simp [Query.vacuous, hv1, hv2],
    by simp [Query.excludes, hx1, hx2], by grind, hc1, hc2, by rw [hx1, hx2]; exact hxy, ?_, ?_⟩
  · rw [hx1, hv1]
    grind
  · rw [hx2, hv2]
    grind

theorem Shape.or {q1 q2 : Query} {a b x y : Bool} (h1 : Shape q1 a x) (h2 : Shape q2 b y) :
    Shape (.or q1 q2) (orExcludes (a, x) (b, y)).1 (orExcludes (a, x) (b, y)).2 := by
  obtain ⟨he1, hv1, hx1, ha1, hc1⟩ := h1
  obtain ⟨he2, hv2, hx2, ha2, hc2⟩ := h2
  refine ⟨by simp [Query.empty, orExcludes, he1, he2], by simp [Query.vacuous, orExcludes, hv1, hv2],
    by simp [Query.excludes, orExcludes, he1, he2, hx1, hx2], ?_, hc1, hc2⟩
  simp only [orExcludes]
  grind

theorem Shape.andNot {q1 q2 : Query} {a b x y : Bool} (h1 : Shape q1 a x) (h2 : Shape q2 b y)
    (hba : b → a ∧ ¬ x) (hy : ¬ y) (hnot : ¬ Query.isAndNot q2) :
    Shape (.andNot q1 q2) (a || b) (x || b) := by
  obtain ⟨he1, hv1, hx1, ha1, hc1⟩ := h1
  obtain ⟨he2, hv2, hx2, ha2, hc2⟩ := h2
  refine ⟨by simp [Query.empty, he1, he2], ?_, by simp [Query.excludes, hx1, he2], by grind, hc1, hc2,
    ?_, by rw [hx2]; exact hy, hnot⟩
  · rw [Query.vacuous, hv1]
    cases a <;> cases b <;> simp_all
  · rw [hx1, he2]
    cases b <;> simp_all

-- What is built from a form: its shape, and its meaning.
structure Built (q : Query) (e : QueryEntry) : Prop where
  shape : Shape q (asks e) (excludes e)
  isAndNot : Query.isAndNot q = isAndNot e
  value : ∀ d : Indexed, Query.value d.document q = asked d e

section Lists

variable {qs : List Query} {es : List QueryEntry} {q : Query} {a x : Bool}

theorem shape_foldl_and (h : List.Forall₂ Built qs es) (hq : Shape q a x)
    (hx : (x :: excludesAll es).count true ≤ 1) :
    Shape (qs.foldl .and q) (a || (asksAll es).any id) (x || (excludesAll es).any id) := by
  induction h generalizing q a x with
  | nil => simpa [asksAll, excludesAll] using hq
  | @cons q' e qs es hb _ ih =>
      have hnot : ¬ (x ∧ excludes e) := by
        rintro ⟨rfl, he⟩
        simp [excludesAll, he] at hx
      have hcount : ((x || excludes e) :: excludesAll es).count true ≤ 1 := by
        refine le_trans ?_ hx
        cases x <;> cases he : excludes e <;> simp [excludesAll, he]
      simpa [asksAll, excludesAll, Bool.or_assoc] using ih (hq.and hb.shape hnot) hcount

theorem shape_foldl_or (h : List.Forall₂ Built qs es) {ax : Bool × Bool} (hq : Shape q ax.1 ax.2) :
    Shape (qs.foldl .or q) (((asksAll es).zip (excludesAll es)).foldl orExcludes ax).1
      (((asksAll es).zip (excludesAll es)).foldl orExcludes ax).2 := by
  induction h generalizing q ax with
  | nil => exact hq
  | cons hb _ ih => exact ih (hq.or hb.shape)

theorem fst_foldl_orExcludes (es : List QueryEntry) (ax : Bool × Bool) :
    (((asksAll es).zip (excludesAll es)).foldl orExcludes ax).1 = (ax.1 || (asksAll es).any id) := by
  induction es generalizing ax with
  | nil => simp [asksAll, excludesAll]
  | cons e es ih =>
      simp only [asksAll, excludesAll, List.zip_cons_cons, List.foldl_cons, ih, orExcludes,
        List.any_cons, id_eq, Bool.or_assoc]

theorem value_foldl {node : Query → Query → Query} {op : Bool → Bool → Bool} (d : Indexed)
    (hnode : ∀ q1 q2, Query.value d.document (node q1 q2) =
      Option.merge op (Query.value d.document q1) (Query.value d.document q2))
    (h : List.Forall₂ Built qs es) :
    Query.value d.document (qs.foldl node q) =
      (askedAll d es).foldl (Option.merge op) (Query.value d.document q) := by
  induction h generalizing q with
  | nil => rfl
  | cons hb _ ih => rw [List.foldl_cons, ih, hnode, hb.value, askedAll, List.foldl_cons]

theorem isAndNot_foldl {node : Query → Query → Query}
    (hnode : ∀ q1 q2, Query.isAndNot (node q1 q2) = false) (hne : qs ≠ []) :
    Query.isAndNot (qs.foldl node q) = false := by
  obtain ⟨qs, q', rfl⟩ := (List.eq_nil_or_concat qs).resolve_left hne
  simp [hnode]

end Lists

section Fields

variable {s : Bytes}

theorem split_ne_nil (c : UInt8) (s : Bytes) : split c s ≠ [] := by
  cases s with
  | nil => simp [split]
  | cons x s =>
      rw [split]
      split
      · simp
      · split <;> simp

theorem split_append (c : UInt8) (s t : Bytes) :
    split c (s ++ c :: t) = split c s ++ split c t := by
  induction s with
  | nil => simp [split]
  | cons x s ih =>
      by_cases hx : x = c
      · simp [split, hx, ih]
      · rw [List.cons_append, split, if_neg hx, ih, split, if_neg hx]
        cases hs : split c s with
        | nil => exact absurd hs (split_ne_nil c s)
        | cons w ws => rfl

theorem stem_nil : stem [] = [] := rfl

theorem stem_joinWord (s w : Bytes) : stem (joinWord s w) = stem s ++ stem w := by
  rw [joinWord]
  split
  · next h => simp [h, stem_nil]
  · have hspace : lowercase 32 = 32 := by decide
    simp [stem, splitSimplify, hspace, split_append]

theorem stem_foldl (ws : List Bytes) (s : Bytes) :
    stem (ws.foldl joinWord s) = stem s ++ ws.flatMap stem := by
  induction ws generalizing s with
  | nil => simp
  | cons w ws ih => rw [List.foldl_cons, ih, stem_joinWord, List.flatMap_cons, List.append_assoc]

theorem foldl_words {β : Type} (f g : β → Bytes → β) (ws : List Bytes) (x y : β) :
    ws.foldl (fun (p : β × β) w => if negated w then (p.1, g p.2 w.tail) else (f p.1 w, p.2)) (x, y) =
      ((ws.filter fun w => !negated w).foldl f x, ((ws.filter negated).map List.tail).foldl g y) := by
  induction ws generalizing x y with
  | nil => rfl
  | cons w ws ih =>
      cases hw : negated w <;> simp [hw, ih]

theorem foldl_cons_reverse (ws acc : List Bytes) :
    ws.foldl (fun acc w => w :: acc) acc = ws.reverse ++ acc := by
  induction ws generalizing acc with
  | nil => rfl
  | cons w ws ih => simp [ih]

theorem words_eq_nil : splitSimplify s 32 = [] ↔ plain s = [] ∧ unwanted s = [] := by
  constructor
  · intro h
    simp [plain, unwanted, h]
  · rintro ⟨hp, hu⟩
    rw [List.eq_nil_iff_forall_not_mem]
    intro w hw
    simp only [plain, List.filter_eq_nil_iff] at hp
    simp only [unwanted, List.map_eq_nil_iff, List.filter_eq_nil_iff] at hu
    have := hp w hw
    have := hu w hw
    simp_all

theorem wantAndNot_eq (f : Bytes → Query) (h : splitSimplify s 32 ≠ []) :
    wantAndNot .andNot f .none s =
      let wanted := (plain s).foldl joinWord []
      let notWanted := (unwanted s).foldl joinWord []
      let q := if wanted ≠ [] then f wanted else .none
      some (if notWanted = [] then q else .andNot q (f notWanted)) := by
  rw [wantAndNot, if_neg h]
  simp only [foldl_words joinWord joinWord, plain, unwanted]
  rfl

theorem value_joined (d : Indexed) {ws : List Bytes} (h : ∃ w ∈ ws, stem w ≠ []) :
    ws.foldl joinWord [] ≠ [] ∧ Query.value d.document (.hasWord (ws.foldl joinWord [])) =
      some (ws.all fun w => (stem w).all d.words) := by
  have hstem := stem_foldl ws []
  rw [stem_nil, List.nil_append] at hstem
  have hne : stem (ws.foldl joinWord []) ≠ [] := by
    obtain ⟨w, hw, hne⟩ := h
    rw [hstem]
    exact fun h => hne (List.flatMap_eq_nil_iff.1 h w hw)
  refine ⟨fun h => hne (by rw [h, stem_nil]), ?_⟩
  rw [hstem] at hne
  simp only [Query.value, Indexed.document, hstem, if_neg hne, List.all_flatMap]

theorem shape_hasWord (w : Bytes) : Shape (.hasWord w) true false :=
  ⟨rfl, rfl, rfl, by simp, trivial⟩

theorem built_keywords {l : Bytes} (h : Good (.qKeywords l s)) :
    Built ((wantAndNot .andNot .hasWord .none s).getD .none) (.qKeywords l s) := by
  by_cases hs : splitSimplify s 32 = []
  · have hu := (words_eq_nil.1 hs).2
    simp only [wantAndNot, hs, if_true, Option.getD_none]
    exact ⟨by simpa [asks, excludes, hs, hu] using shape_none, by simp [isAndNot, hu, Query.isAndNot],
      fun d => by simp [asked, allWords, hs, Query.value]⟩
  · obtain ⟨hstem, hwords, hstems⟩ := h.resolve_left hs
    have hwanted := fun d => (value_joined d hstem).2
    have hne := (value_joined ⟨fun _ => true, fun _ => true, fun _ _ => true, fun _ _ => true,
      fun _ _ => true⟩ hstem).1
    rw [wantAndNot_eq _ hs, Option.getD_some, if_pos hne]
    cases hu : unwanted s with
    | nil =>
        exact ⟨by simpa [asks, excludes, hs, hu] using shape_hasWord _,
          by simp [isAndNot, hu, Query.isAndNot],
          fun d => by simpa [asked, allWords, hs, hu] using hwanted d⟩
    | cons w ws =>
        obtain rfl : ws = [] := by
          have := (hwords.resolve_left (by simp [hu])).2
          simpa [hu] using this
        have hw : stem w ≠ [] := hstems w (by simp [hu])
        have hwne : w ≠ [] := fun h => hw (by rw [h, stem_nil])
        simp only [List.foldl_cons, List.foldl_nil, joinWord, if_true, hwne, if_false]
        have hshape := (shape_hasWord ((plain s).foldl joinWord [])).andNot (shape_hasWord w)
          (by simp) (by simp) (by simp [Query.isAndNot])
        refine ⟨by simpa [asks, excludes, hs, hu] using hshape,
          by simp [isAndNot, hu, Query.isAndNot, Query.empty], fun d => ?_⟩
        have := hwanted d
        simp only [Query.value] at this ⊢
        rw [this]
        simp [asked, allWords, hs, hu, Query.without, Indexed.document, hw]

-- The words of a field under one connective.
def combined (comb : Query → Query → Query) (f : Bytes → Query) (w : Bytes) (tail : List Bytes) :
    Query :=
  tail.foldl (fun q w => comb q (f w)) (f w)

theorem wantCombNot_eq (comb : Query → Query → Query) (f : Bytes → Query) :
    wantCombNot .andNot comb f .none s =
      match (plain s).reverse, (unwanted s).reverse with
      | [], [] => .none
      | w :: ws, [] => combined comb f w ws
      | [], n :: ns => .andNot .none (combined comb f n ns)
      | w :: ws, n :: ns => .andNot (combined comb f w ws) (combined comb f n ns) := by
  simp only [wantCombNot, foldl_words (fun acc w => w :: acc) (fun acc w => w :: acc),
    foldl_cons_reverse, List.append_nil]
  rw [plain, unwanted]
  generalize ((splitSimplify s 32).filter fun w => !negated w).reverse = wanted
  generalize (((splitSimplify s 32).filter negated).map List.tail).reverse = notWanted
  cases wanted <;> cases notWanted <;> rfl

variable {comb : Query → Query → Query} {f : Field}

theorem shape_hasField (f : Field) (w : Bytes) : Shape (.hasField f w) true false :=
  ⟨rfl, rfl, rfl, by simp, trivial⟩

-- What is needed of the connective that joins the words of a field.
structure Joins (comb : Query → Query → Query) (quant : List Bool → Bool) : Prop where
  shape : ∀ {q1 q2}, Shape q1 true false → Shape q2 true false → Shape (comb q1 q2) true false
  isAndNot : ∀ q1 q2, Query.isAndNot (comb q1 q2) = false
  value : ∀ (d : Query.Document) (f : Field) (w : Bytes) (ws : List Bytes),
    Query.value d (combined comb (.hasField f) w ws) = some (quant ((w :: ws).map (d.hasField f)))

theorem joins_and : Joins .and fun answers => answers.all id where
  shape h1 h2 := h1.and h2 (by simp)
  isAndNot _ _ := rfl
  value d f w ws := by
    rw [combined]
    induction ws using List.reverseRecOn with
    | nil => simp [Query.value]
    | append_singleton ws v ih => simp [Query.value, ih, Bool.and_assoc]

theorem joins_or : Joins .or fun answers => answers.any id where
  shape h1 h2 := h1.or h2
  isAndNot _ _ := rfl
  value d f w ws := by
    rw [combined]
    induction ws using List.reverseRecOn with
    | nil => simp [Query.value]
    | append_singleton ws v ih => simp [Query.value, ih, Bool.or_assoc]

theorem Joins.shape_combined {quant : List Bool → Bool} (h : Joins comb quant) (f : Field)
    (w : Bytes) (ws : List Bytes) : Shape (combined comb (.hasField f) w ws) true false ∧
      Query.isAndNot (combined comb (.hasField f) w ws) = false := by
  rw [combined]
  induction ws using List.reverseRecOn with
  | nil => exact ⟨shape_hasField f w, rfl⟩
  | append_singleton ws v ih =>
      rw [List.foldl_append]
      exact ⟨h.shape ih.1 (shape_hasField f v), h.isAndNot _ _⟩

-- A field whose words with '-' stand beside plain ones is built right, as long as
-- none of them is what the connective makes of their negation.
theorem Joins.built {quant : List Bool → Bool} (h : Joins comb quant)
    (hgood : unwanted s = [] ∨ plain s ≠ []) :
    Shape (wantCombNot .andNot comb (.hasField f) .none s) (splitSimplify s 32 ≠ [])
      (unwanted s ≠ []) ∧
    Query.isAndNot (wantCombNot .andNot comb (.hasField f) .none s) = decide (unwanted s ≠ []) ∧
    ∀ d, Query.value d (wantCombNot .andNot comb (.hasField f) .none s) =
      if splitSimplify s 32 = [] then none
      else some ((plain s = [] || quant ((plain s).reverse.map (d.hasField f))) &&
        (unwanted s = [] || !quant ((unwanted s).reverse.map (d.hasField f)))) := by
  rw [wantCombNot_eq]
  cases hp : (plain s).reverse with
  | nil =>
      have hp' : plain s = [] := by simpa using hp
      have hu' : unwanted s = [] := hgood.resolve_right (by simp [hp'])
      have hs := words_eq_nil.2 ⟨hp', hu'⟩
      simp only [hu', List.reverse_nil, hs]
      exact ⟨shape_none, rfl, fun d => rfl⟩
  | cons w ws =>
      have hp' : plain s ≠ [] := by
        intro h
        simp [h] at hp
      have hs : splitSimplify s 32 ≠ [] := fun h => hp' (words_eq_nil.1 h).1
      cases hu : (unwanted s).reverse with
      | nil =>
          have hu' : unwanted s = [] := by simpa using hu
          have := h.shape_combined f w ws
          simp only [hs, hu', ne_eq, not_true, not_false_eq_true, decide_true, decide_false]
          exact ⟨this.1, this.2, fun d => by simp [h.value, hp']⟩
      | cons n ns =>
          have hu' : unwanted s ≠ [] := by
            intro h
            simp [h] at hu
          have h1 := h.shape_combined f w ws
          have h2 := h.shape_combined f n ns
          simp only [hs, hu', ne_eq, not_false_eq_true, decide_true]
          refine ⟨h1.1.andNot h2.1 (by simp) (by simp) (by simp [h2.2]), ?_, fun d => ?_⟩
          · simp [Query.isAndNot, h1.1.empty, h2.1.empty]
          · simp [Query.value, h.value, hp', Query.without]

theorem built_words {e : QueryEntry} (hgood : GoodWords s)
    (hasks : asks e = decide (splitSimplify s 32 ≠ [])) (hexcl : excludes e = decide (unwanted s ≠ []))
    (hnot : isAndNot e = decide (unwanted s ≠ []))
    (hasked : ∀ d : Indexed, asked d e = allWords (d.hasField f) s) :
    Built (wantCombNot .andNot .and (.hasField f) .none s) e := by
  obtain ⟨hshape, hroot, hvalue⟩ := joins_and.built (s := s) (f := f) (hgood.imp_right And.left)
  refine ⟨by rwa [hasks, hexcl], by rw [hroot, hnot], fun d => ?_⟩
  rw [hvalue, hasked, allWords]
  split
  · rfl
  · have hplain : (plain s = [] || ((plain s).reverse.map (d.hasField f)).all id) =
        (plain s).all (d.hasField f) := by
      cases hp : plain s <;> simp [Bool.and_comm]
    have hunwanted : (unwanted s = [] || !((unwanted s).reverse.map (d.hasField f)).all id) =
        (unwanted s).all fun w => !d.hasField f w := by
      rcases hgood with hu | ⟨-, hu⟩
      · simp [hu]
      · obtain ⟨w, hw⟩ := List.length_eq_one_iff.1 hu
        simp [hw]
    exact congrArg some (congrArg₂ _ hplain hunwanted)

theorem built_format {l : Bytes} (hgood : unwanted s = [] ∨ plain s ≠ []) :
    Built (wantCombNot .andNot .or (.hasField .format) .none s) (.qFormat l s) := by
  obtain ⟨hshape, hroot, hvalue⟩ := joins_or.built (s := s) (f := .format) hgood
  refine ⟨hshape, hroot, fun d => ?_⟩
  rw [hvalue, asked, oneWord]
  split
  · rfl
  · have hplain : (plain s = [] || ((plain s).reverse.map (d.hasField .format)).any id) =
        (plain s = [] || (plain s).any (d.hasField .format)) := by
      simp
    have hunwanted : (unwanted s = [] || !((unwanted s).reverse.map (d.hasField .format)).any id) =
        (unwanted s).all fun w => !d.hasField .format w := by
      cases hu : unwanted s <;> simp [List.all_eq_not_any_not, Bool.and_comm]
    exact congrArg some (congrArg₂ _ hplain hunwanted)

theorem built_number {e : QueryEntry} {node : ℤ → Query} {has : Indexed → ℤ → Bool}
    (hshape : ∀ v, Shape (node v) true false) (hroot : ∀ v, Query.isAndNot (node v) = false)
    (hvalue : ∀ (d : Indexed) v, Query.value d.document (node v) = some (has d v))
    (hasks : asks e = (int64OfString s).isSome) (hexcl : excludes e = false)
    (hnot : isAndNot e = false) (hasked : ∀ d, asked d e = bound (has d) s) :
    Built (numberOr node s) e := by
  rw [numberOr]
  cases hv : int64OfString s with
  | none =>
      refine ⟨by rw [hasks, hexcl, hv]; exact shape_none, hnot.symm, fun d => ?_⟩
      rw [hasked, bound, hv]
      rfl
  | some v =>
      refine ⟨by rw [hasks, hexcl, hv]; exact hshape _, by rw [hroot, hnot], fun d => ?_⟩
      rw [hasked, bound, hv, hvalue]
      rfl

theorem built_media {l : Bytes} : Built (mediaQuery s) (.qMedia l s) := by
  rw [mediaQuery]
  cases hm : searchMediaList.lookup s with
  | some m =>
      exact ⟨by simpa [asks, excludes, hm] using shape_hasField .type m, rfl,
        fun d => by simp [asked, media, hm, Query.value, Indexed.document]⟩
  | none =>
      by_cases hs : splitSimplify s 32 = []
      · simp only [hs, if_true]
        exact ⟨by simpa [asks, excludes, hm, hs] using shape_none, rfl,
          fun d => by simp [asked, media, hm, hs, Query.value]⟩
      · simp only [hs, if_false]
        exact ⟨by simpa [asks, excludes, hm, hs] using shape_hasField .type s, rfl,
          fun d => by simp [asked, media, hm, hs, Query.value, Indexed.document]⟩

end Fields

section Trees

variable {q1 q2 : Query} {e1 e2 : QueryEntry}

theorem isSome_together (op : Bool → Bool → Bool) (answers : List (Option Bool)) :
    (together op answers).isSome = (answers.map Option.isSome).any id := by
  rw [together]
  induction answers using List.reverseRecOn with
  | nil => rfl
  | append_singleton answers a ih =>
      rw [List.foldl_append, List.map_append, List.any_append, ← ih]
      cases answers.foldl (Option.merge op) none <;> cases a <;> rfl

mutual

-- The answer of a form that is not empty, and only of such a one, is a constraint.
theorem isSome_asked (d : Indexed) (e : QueryEntry) : (asked d e).isSome = asks e := by
  cases e with
  | qAnd l | qOr l | qHidden l =>
      rw [asked, isSome_together, map_isSome_askedAll d l, asks]
  | qAndnot e1 e2 =>
      rw [asked, asks, ← isSome_asked d e1, ← isSome_asked d e2]
      cases asked d e1 <;> cases asked d e2 <;> rfl
  | qModule l e => rw [asked, asks, isSome_asked d e]
  | qKeywords l s | qMp3Artist l s | qMp3Title l s | qMp3Album l s =>
      rw [asked, asks, allWords]
      split <;> simp_all
  | qFormat l s =>
      rw [asked, asks, oneWord]
      split <;> simp_all
  | qMinsize l s | qMaxsize l s | qMp3Bitrate l s => simp [asked, asks, bound]
  | qMedia l s =>
      rw [asked, asks, media]
      cases hm : searchMediaList.lookup s with
      | some m => rfl
      | none => by_cases hs : splitSimplify s 32 = [] <;> simp [hs]
  | qCombo => rfl

theorem map_isSome_askedAll (d : Indexed) (es : List QueryEntry) :
    (askedAll d es).map Option.isSome = asksAll es := by
  cases es with
  | nil => rfl
  | cons e es => rw [askedAll, asksAll, List.map_cons, isSome_asked d e, map_isSome_askedAll d es]

end

theorem foldl_orExcludes (l : List (Bool × Bool)) (h : ∀ p ∈ l, p.2 → p.1) (acc : Bool × Bool)
    (hacc : acc.2 → acc.1) : (l.foldl orExcludes acc).2 → (l.foldl orExcludes acc).1 := by
  induction l generalizing acc with
  | nil => exact hacc
  | cons p l ih =>
      have hp := h p (by simp)
      refine ih (fun q hq => h q (by simp [hq])) _ ?_
      simp only [orExcludes]
      grind

mutual

-- What excludes something is not empty.
theorem asks_of_excludes (e : QueryEntry) (h : excludes e) : asks e := by
  cases e with
  | qAnd l | qHidden l => exact any_asksAll l h
  | qOr l =>
      have := foldl_orExcludes _ (zip_excludesAll l) (false, false) (by simp) h
      rw [fst_foldl_orExcludes] at this
      simpa [asks] using this
  | qAndnot e1 e2 =>
      simp only [excludes, asks, Bool.or_eq_true] at h ⊢
      exact h.imp_left (asks_of_excludes e1)
  | qModule l e => exact asks_of_excludes e h
  | qKeywords l s | qFormat l s | qMp3Artist l s | qMp3Title l s | qMp3Album l s =>
      simp only [excludes, asks, ne_eq, decide_eq_true_eq] at h ⊢
      exact fun hs => h (words_eq_nil.1 hs).2
  | _ => simp [excludes] at h

theorem zip_excludesAll (es : List QueryEntry) :
    ∀ p ∈ (asksAll es).zip (excludesAll es), p.2 → p.1 := by
  cases es with
  | nil => simp [asksAll]
  | cons e es =>
      intro p hp
      rw [asksAll, excludesAll, List.zip_cons_cons, List.mem_cons] at hp
      rcases hp with rfl | hp
      · exact asks_of_excludes e
      · exact zip_excludesAll es p hp

theorem any_asksAll (es : List QueryEntry) (h : (excludesAll es).any id) : (asksAll es).any id := by
  cases es with
  | nil => exact h
  | cons e es =>
      simp only [excludesAll, asksAll, List.any_cons, id_eq, Bool.or_eq_true] at h ⊢
      exact h.imp (asks_of_excludes e) (any_asksAll es)

end

-- A list of one member is dropped, which is right where that member is empty.
theorem built_single {e' : QueryEntry} (h : asks e1 = false) (hasks : asks e' = asks e1)
    (hexcl : excludes e' = excludes e1) (hnot : isAndNot e' = false)
    (hasked : ∀ d, (asked d e').isSome = asks e') : Built .none e' := by
  have hx : excludes e1 = false := by
    cases hx : excludes e1 with
    | false => rfl
    | true => exact absurd (asks_of_excludes e1 hx) (by simp [h])
  refine ⟨by rw [hasks, hexcl, h, hx]; exact shape_none, hnot.symm, fun d => ?_⟩
  have hnone := hasked d
  rw [hasks, h, Option.isSome_eq_false_iff, Option.isNone_iff_eq_none] at hnone
  exact hnone.symm

theorem Built.andNot (h1 : Built q1 e1) (h2 : Built q2 e2)
    (hba : asks e2 → asks e1 ∧ ¬ excludes e1) (hy : ¬ excludes e2)
    (hnot : ¬ Indexing.isAndNot e2) :
    Built (.andNot q1 q2) (.qAndnot e1 e2) := by
  refine ⟨h1.shape.andNot h2.shape hba hy (by rwa [h2.isAndNot]), ?_, fun d => ?_⟩
  · simp [Query.isAndNot, Indexing.isAndNot, h1.shape.empty, h2.shape.empty]
  · have hs1 := isSome_asked d e1
    have hs2 := isSome_asked d e2
    rw [Query.value, h1.value, h2.value, asked]
    cases ha : asked d e1 <;> cases hb : asked d e2 <;> simp_all [Query.without, butNot]

theorem built_and {es : List QueryEntry} {qs : List Query} {e : QueryEntry} (h1 : Built q1 e1)
    (hqs : List.Forall₂ Built qs es) (hne : es ≠ [])
    (hcount : (excludesAll (e1 :: es)).count true ≤ 1)
    (hasks : asks e = (asksAll (e1 :: es)).any id)
    (hexcl : excludes e = (excludesAll (e1 :: es)).any id) (hnot : isAndNot e = false)
    (hasked : ∀ d, asked d e = together (· && ·) (askedAll d (e1 :: es))) :
    Built (qs.foldl .and q1) e := by
  have hne' : qs ≠ [] := by
    rintro rfl
    cases hqs
    exact hne rfl
  refine ⟨?_, by rw [hnot, isAndNot_foldl (fun _ _ => rfl) hne'], fun d => ?_⟩
  · rw [hasks, hexcl]
    exact shape_foldl_and hqs h1.shape hcount
  · rw [value_foldl d (fun _ _ => rfl) hqs, h1.value, hasked, together, askedAll, List.foldl_cons]
    simp

theorem built_or {es : List QueryEntry} {qs : List Query} (h1 : Built q1 e1)
    (hqs : List.Forall₂ Built qs es) (hne : es ≠ []) :
    Built (qs.foldl .or q1) (.qOr (e1 :: es)) := by
  have hne' : qs ≠ [] := by
    rintro rfl
    cases hqs
    exact hne rfl
  refine ⟨?_, by rw [isAndNot_foldl (fun _ _ => rfl) hne']; rfl, fun d => ?_⟩
  · have hshape := @shape_foldl_or qs es q1 hqs (asks e1, excludes e1) h1.shape
    rw [fst_foldl_orExcludes] at hshape
    simpa [asks, excludes, asksAll, excludesAll, orExcludes] using hshape
  · rw [value_foldl d (fun _ _ => rfl) hqs, h1.value, asked, together, askedAll, List.foldl_cons]
    simp

mutual

theorem built (e : QueryEntry) (h : Good e) : ∃ q, mftpQueryOfQueryEntry e = some q ∧ Built q e := by
  cases e with
  | qAnd l =>
      match l, h with
      | [], _ => exact ⟨_, rfl, shape_none, rfl, fun d => rfl⟩
      | [q], h => exact ⟨_, rfl, built_single h (by simp [asks, asksAll])
          (by simp [excludes, excludesAll]) rfl fun d => isSome_asked d _⟩
      | e1 :: e2 :: es, h =>
          obtain ⟨q1, hq1, hb1⟩ := built e1 h.1.1
          obtain ⟨qs, hqs, hbs⟩ := builtAll (e2 :: es) h.1.2
          exact ⟨qs.foldl .and q1, by simp [mftpQueryOfQueryEntry, hq1, hqs],
            built_and hb1 hbs (by simp) h.2 rfl rfl rfl fun d => rfl⟩
  | qOr l =>
      match l, h with
      | [], _ => exact ⟨_, rfl, shape_none, rfl, fun d => rfl⟩
      | [q], h => exact ⟨_, rfl, built_single h (by simp [asks, asksAll])
          (by simp [excludes, excludesAll, asksAll, orExcludes]) rfl fun d => isSome_asked d _⟩
      | e1 :: e2 :: es, h =>
          obtain ⟨q1, hq1, hb1⟩ := built e1 h.1
          obtain ⟨qs, hqs, hbs⟩ := builtAll (e2 :: es) h.2
          exact ⟨qs.foldl .or q1, by simp [mftpQueryOfQueryEntry, hq1, hqs],
            built_or hb1 hbs (by simp)⟩
  | qHidden l =>
      match l, h with
      | [], _ => exact ⟨_, rfl, shape_none, rfl, fun d => rfl⟩
      | [q], h =>
          obtain ⟨q', hq, hb⟩ := built q h
          refine ⟨q', by rw [mftpQueryOfQueryEntry, hq], ?_, hb.isAndNot, fun d => ?_⟩
          · simpa [asks, asksAll, excludes, excludesAll] using hb.shape
          · simp [asked, askedAll, together, hb.value]
      | e1 :: e2 :: es, h =>
          obtain ⟨q1, hq1, hb1⟩ := built e1 h.1.1
          obtain ⟨qs, hqs, hbs⟩ := builtAll (e2 :: es) h.1.2
          exact ⟨qs.foldl .and q1, by simp [mftpQueryOfQueryEntry, hq1, hqs],
            built_and hb1 hbs (by simp) h.2 rfl rfl rfl fun d => rfl⟩
  | qAndnot e1 e2 =>
      obtain ⟨h1, h2, hba, hy, hnot⟩ := h
      obtain ⟨q1, hq1, hb1⟩ := built e1 h1
      obtain ⟨q2, hq2, hb2⟩ := built e2 h2
      exact ⟨.andNot q1 q2, by rw [mftpQueryOfQueryEntry, hq1, hq2]; rfl,
        hb1.andNot hb2 hba hy hnot⟩
  | qModule l e =>
      obtain ⟨q, hq, hb⟩ := built e h
      exact ⟨q, by rw [mftpQueryOfQueryEntry, hq], hb.shape, hb.isAndNot, hb.value⟩
  | qCombo => exact absurd h id
  | qKeywords l s => exact ⟨_, rfl, built_keywords h⟩
  | qFormat l s => exact ⟨_, rfl, built_format h⟩
  | qMedia l s => exact ⟨_, rfl, built_media⟩
  | qMp3Artist l s => exact ⟨_, rfl, built_words h rfl rfl rfl fun d => rfl⟩
  | qMp3Title l s => exact ⟨_, rfl, built_words h rfl rfl rfl fun d => rfl⟩
  | qMp3Album l s => exact ⟨_, rfl, built_words h rfl rfl rfl fun d => rfl⟩
  | qMinsize l s =>
      exact ⟨_, rfl, built_number (fun v => ⟨rfl, rfl, rfl, by simp, trivial⟩) (fun v => rfl)
        (fun d v => rfl) rfl rfl rfl fun d => rfl⟩
  | qMaxsize l s =>
      exact ⟨_, rfl, built_number (fun v => ⟨rfl, rfl, rfl, by simp, trivial⟩) (fun v => rfl)
        (fun d v => rfl) rfl rfl rfl fun d => rfl⟩
  | qMp3Bitrate l s =>
      exact ⟨_, rfl, built_number (fun v => ⟨rfl, rfl, rfl, by simp, trivial⟩) (fun v => rfl)
        (fun d v => rfl) rfl rfl rfl fun d => rfl⟩

theorem builtAll (es : List QueryEntry) (h : AllGood es) :
    ∃ qs, mftpQueries es = some qs ∧ List.Forall₂ Built qs es := by
  cases es with
  | nil => exact ⟨[], rfl, .nil⟩
  | cons e es =>
      obtain ⟨q, hq, hb⟩ := built e h.1
      obtain ⟨qs, hqs, hbs⟩ := builtAll es h.2
      exact ⟨q :: qs, by rw [mftpQueries, hq, hqs]; rfl, .cons hb hbs⟩

end

end Trees

-- The query that is built, simplified with enough fuel, accepts the documents that
-- the form accepts: those to which it does not answer no.
def Means (e : QueryEntry) : Prop :=
  ∃ q r, mftpQueryOfQueryEntry e = some q ∧
    (∀ fuel, Query.weight q ≤ fuel → Query.simplifyQuery fuel q = some r) ∧
    ∀ d : Indexed, Query.value d.document r = some true ↔ asked d e ≠ some false

theorem form_means {e : QueryEntry} (h : Good e) (hasks : asks e) : Means e := by
  obtain ⟨q, hq, hb⟩ := built e h
  obtain ⟨r, hr, -, hvalue⟩ := Query.simplifyQuery_spec q
  refine ⟨q, r, hq, hr, fun d => ?_⟩
  rw [hvalue hb.shape.clean (by rw [hb.shape.vacuous, hasks]; rfl), hb.value]
  have hsome := isSome_asked d e
  cases ha : asked d e with
  | none => simp [ha, hasks] at hsome
  | some b => cases b <;> simp

-- The form for mp3 files, with an artist to leave out and a size.
theorem form_means_mp3 : Means (.qAnd [.qKeywords [] (ofString "live"),
    .qMp3Artist [] (ofString "abba -queen"), .qMinsize [] (ofString "1000"),
    .qHidden [.qMedia [] (ofString "Audio"), .qFormat [] (ofString "mp3")]]) :=
  form_means ⟨⟨.inr ⟨⟨ofString "live", by decide, by decide⟩, .inl (by decide), by decide⟩,
    .inr ⟨by decide, by decide⟩, trivial, ⟨⟨trivial, .inl (by decide), trivial⟩, by decide⟩,
    trivial⟩, by decide⟩ (by decide)

-- Two words to leave out are joined before they are negated: a document with only
-- one of them is accepted.
theorem unwanted_words_joined : ¬ Means (.qKeywords [] (ofString "a -b -c")) := by
  rintro ⟨q, r, hq, hr, hd⟩
  have hquery : mftpQueryOfQueryEntry (.qKeywords [] (ofString "a -b -c")) =
      some (.andNot (.hasWord (ofString "a")) (.hasWord (ofString "b c"))) := by decide
  obtain rfl := Option.some.inj (hq.symm.trans hquery)
  have hsimple : Query.simplifyQuery 10
      (.andNot (.hasWord (ofString "a")) (.hasWord (ofString "b c"))) =
      some (.andNot (.hasWord (ofString "a")) (.hasWord (ofString "b c"))) := by decide
  obtain rfl := Option.some.inj ((hr 10 (by decide)).symm.trans hsimple)
  have := (hd ⟨fun w => w != ofString "c", fun _ => true, fun _ _ => true, fun _ _ => true,
    fun _ _ => true⟩).1 (by decide)
  exact this (by decide)

end Mldonkey.Indexing
