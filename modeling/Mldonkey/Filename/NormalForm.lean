import Mldonkey.Filename.Normalize

-- When normalize gives the normal form of a path.
namespace Mldonkey.Filename2

open Bencode (Bytes)
open Indexing (split split_ne_nil)
open Gnutella (unsplit split_unsplit split_of_notMem)

section Texts

variable {sl c : UInt8} {p w : Bytes} {r b names : List Bytes}

lemma notMem_of_mem_split (h : w ∈ split c p) : c ∉ w := by
  induction p generalizing w with
  | nil =>
    obtain rfl : w = [] := by simpa [split] using h
    exact List.not_mem_nil
  | cons x p ih =>
    rw [split] at h
    by_cases hx : x = c
    · rw [if_pos hx] at h
      rcases List.mem_cons.mp h with rfl | h
      · exact List.not_mem_nil
      · exact ih h
    · rw [if_neg hx] at h
      have hne := split_ne_nil c p
      cases hs : split c p with
      | nil => exact absurd hs hne
      | cons v ws =>
        rw [hs] at h
        rcases List.mem_cons.mp h with rfl | h
        · rw [List.mem_cons, not_or]
          exact ⟨Ne.symm hx, ih (hs ▸ List.mem_cons_self)⟩
        · exact ih (hs ▸ List.mem_cons_of_mem v h)

lemma split_head_iff : (split c p).head? = some [] ↔ p = [] ∨ p.head? = some c := by
  cases p with
  | nil => simp [split]
  | cons x p =>
    rw [split]
    by_cases hx : x = c
    · simp [hx]
    · have hne := split_ne_nil c p
      cases hs : split c p with
      | nil => exact absurd hs hne
      | cons v ws => simp [hx]

-- The components that stay are some of the components.
lemma mem_pass {l : List Bytes} {x : Bytes} (h : x ∈ (pass l).1) : x ∈ l := by
  induction l using pass_induction generalizing x with
  | nil => rwa [pass_nil] at h
  | skip y l hy ih =>
    rw [pass_skip hy] at h
    exact List.mem_cons_of_mem y (ih h)
  | up l ih =>
    rw [pass_up] at h
    rcases List.mem_cons.mp h with rfl | h
    · exact List.mem_cons_self
    · exact List.mem_cons_of_mem _ (ih h)
  | cancel y l hy ih =>
    rw [pass_cancel hy] at h
    exact List.mem_cons_of_mem y (List.mem_cons_of_mem _ (ih h))
  | name y l hy hl ih ih' =>
    have hcons {z : Bytes} (hz : z ∈ y :: (pass l).1) : z ∈ y :: l := by
      rcases List.mem_cons.mp hz with rfl | hz
      · exact List.mem_cons_self
      · exact List.mem_cons_of_mem y (ih hz)
    rw [pass_name hy hl] at h
    split_ifs at h with hredo
    · exact hcons (ih' hredo h)
    · exact hcons h

-- Clean components without the character between them
def Joinable (sl : UInt8) (b : List Bytes) : Prop := Clean b ∧ ∀ x ∈ b, sl ∉ x

lemma joinable_pass (sl : UInt8) (p : Bytes) : Joinable sl (pass (split sl p)).1 :=
  ⟨clean_pass _, fun _ hx => notMem_of_mem_split (mem_pass hx)⟩

lemma iterAbs_eq (r : List Bytes) : ∃ k, r = List.replicate k dotdot ++ iterAbs r ∧
    (iterAbs r).head? ≠ some dotdot := by
  induction r with
  | nil => exact ⟨0, rfl, by simp [iterAbs]⟩
  | cons x r ih =>
    rw [iterAbs]
    split_ifs with hx
    · obtain ⟨k, heq, hhead⟩ := ih
      exact ⟨k + 1, by rw [List.replicate_succ, List.cons_append, ← heq, hx], hhead⟩
    · exact ⟨0, rfl, by simpa using hx⟩

lemma Joinable.iterAbs (h : Joinable sl r) : Joinable sl (iterAbs r) := by
  obtain ⟨k, heq, -⟩ := iterAbs_eq r
  have hsub : ∀ x ∈ Filename2.iterAbs r, x ∈ r := fun x hx => by
    rw [heq]
    exact List.mem_append_right _ hx
  exact ⟨fun x hx => h.1 x (hsub x hx), fun x hx => h.2 x (hsub x hx)⟩

-- The text that normalize gives for components
def fileOf (sl : UInt8) (isAbsolute : Bool) (b : List Bytes) : Bytes :=
  match (if isAbsolute then [] :: b else b) with
  | [] => dot
  | [[]] => [sl]
  | l => unsplit sl l

-- The components that normalize joins
def body (isAbsolute : Bool) (l : List Bytes) : List Bytes :=
  if isAbsolute then iterAbs (pass l).1 else (pass l).1

lemma normalize_eq (sl : UInt8) (p : Bytes) :
    normalize sl p = fileOf sl ((split sl p).head? == some [])
      (body ((split sl p).head? == some []) (split sl p)) := by
  rw [normalize, fileOf, body]
  split_ifs <;> rfl

lemma fileOf_nil (sl : UInt8) (isAbsolute : Bool) :
    fileOf sl isAbsolute [] = if isAbsolute then [sl] else dot := by
  cases isAbsolute <;> rfl

lemma fileOf_of_ne (isAbsolute : Bool) (hb : Joinable sl b) (hne : b ≠ []) :
    split sl (fileOf sl isAbsolute b) = if isAbsolute then [] :: b else b := by
  obtain ⟨x, b, rfl⟩ := List.exists_cons_of_ne_nil hne
  have hx := hb.1 x List.mem_cons_self
  cases isAbsolute with
  | true => exact split_unsplit (List.cons_ne_nil _ _) (List.forall_mem_cons.mpr ⟨by simp, hb.2⟩)
  | false =>
    have hunsplit : fileOf sl false (x :: b) = unsplit sl (x :: b) := by
      rw [fileOf]
      split
      · next heq => cases heq
      · next heq => exact absurd (Or.inl (List.head_eq_of_cons_eq heq)) hx
      · next heq => rfl
    rw [hunsplit]
    exact split_unsplit (List.cons_ne_nil _ _) hb.2

lemma split_dot (hsl : sl ≠ 46) : split sl dot = [dot] :=
  split_of_notMem (by simpa [dot] using hsl)

lemma split_slash (sl : UInt8) : split sl [sl] = [[], []] := by
  simp [split]

lemma split_fileOf (hsl : sl ≠ 46) (isAbsolute : Bool) (hb : Joinable sl b) :
    ∃ skipped, split sl (fileOf sl isAbsolute b) = skipped ++ b ∧
      (∀ x ∈ skipped, x = [] ∨ x = dot) ∧
      ((split sl (fileOf sl isAbsolute b)).head? = some [] ↔ isAbsolute = true) := by
  by_cases hne : b = []
  · rw [hne, fileOf_nil]
    cases isAbsolute with
    | true => exact ⟨[[], []], by simp [split_slash], by simp, by simp [split_slash]⟩
    | false =>
      rw [if_neg Bool.false_ne_true, split_dot hsl]
      exact ⟨[dot], rfl, by simp, by decide⟩
  · rw [fileOf_of_ne isAbsolute hb hne]
    cases isAbsolute with
    | true => exact ⟨[[]], rfl, by simp, by simp⟩
    | false =>
      refine ⟨[], rfl, by simp, ?_⟩
      obtain ⟨x, b, rfl⟩ := List.exists_cons_of_ne_nil hne
      have hx : x ≠ [] := fun h => hb.1 x List.mem_cons_self (.inl h)
      simpa using hx

lemma pass_skipped {skipped : List Bytes} (h : ∀ x ∈ skipped, x = [] ∨ x = dot)
    (l : List Bytes) : pass (skipped ++ l) = pass l := by
  induction skipped with
  | nil => rfl
  | cons x skipped ih =>
    obtain ⟨hx, hrest⟩ := List.forall_mem_cons.mp h
    rw [List.cons_append, pass_skip hx, ih hrest]

lemma resolve_skipped {skipped : List Bytes} (h : ∀ x ∈ skipped, x = [] ∨ x = dot)
    (l : List Bytes) : resolve (skipped ++ l) = resolve l := by
  rw [resolve, resolve, ← foldl_pass, pass_skipped h, foldl_pass]

lemma fileOf_ne_nil (isAbsolute : Bool) (hb : Joinable sl b) : fileOf sl isAbsolute b ≠ [] := by
  intro hnil
  by_cases hne : b = []
  · rw [hne, fileOf_nil] at hnil
    cases isAbsolute <;> cases hnil
  · have hsplit := fileOf_of_ne isAbsolute hb hne
    rw [hnil, split] at hsplit
    cases isAbsolute with
    | true => exact hne (List.tail_eq_of_cons_eq hsplit).symm
    | false =>
      rw [if_neg Bool.false_ne_true] at hsplit
      exact hb.1 [] (hsplit ▸ List.mem_cons_self) (.inl rfl)

lemma head_fileOf (hsl : sl ≠ 46) (isAbsolute : Bool) (hb : Joinable sl b) :
    (fileOf sl isAbsolute b).head? = some sl ↔ isAbsolute = true := by
  obtain ⟨-, -, -, hhead⟩ := split_fileOf hsl isAbsolute hb
  rw [← hhead, split_head_iff, or_iff_right (fileOf_ne_nil isAbsolute hb)]

lemma components_fileOf (hsl : sl ≠ 46) (isAbsolute : Bool) (hb : Joinable sl b) :
    components sl (fileOf sl isAbsolute b) = b := by
  by_cases hne : b = []
  · rw [hne, fileOf_nil, components]
    exact if_pos (by cases isAbsolute <;> simp)
  · have hsplit := fileOf_of_ne isAbsolute hb hne
    have hhead := head_fileOf hsl isAbsolute hb
    have hshort : ¬ (fileOf sl isAbsolute b = dot ∨ fileOf sl isAbsolute b = [sl]) := by
      rintro (heq | heq)
      · rw [heq, split_dot hsl] at hsplit
        cases isAbsolute with
        | true => exact absurd (List.head_eq_of_cons_eq hsplit) (by decide)
        | false =>
          rw [if_neg Bool.false_ne_true] at hsplit
          exact hb.1 dot (hsplit ▸ List.mem_cons_self) (.inr rfl)
      · rw [heq, split_slash] at hsplit
        have hmem : [] ∈ b := by
          cases isAbsolute with
          | true => exact List.tail_eq_of_cons_eq hsplit ▸ List.mem_cons_self
          | false =>
            rw [if_neg Bool.false_ne_true] at hsplit
            exact hsplit ▸ List.mem_cons_self
        exact hb.1 [] hmem (.inl rfl)
    rw [components, if_neg hshort, hsplit]
    cases isAbsolute with
    | true => rw [if_pos (hhead.mpr rfl), if_pos rfl, List.tail_cons]
    | false => rw [if_neg (fun h => absurd (hhead.mp h) Bool.false_ne_true), if_neg Bool.false_ne_true]

lemma body_fileOf (hsl : sl ≠ 46) (isAbsolute : Bool) (hb : Joinable sl b) :
    body isAbsolute (split sl (fileOf sl isAbsolute b)) = body isAbsolute b := by
  obtain ⟨skipped, hsplit, hskipped, -⟩ := split_fileOf hsl isAbsolute hb
  rw [body, body, hsplit, pass_skipped hskipped]

lemma resolve_fileOf (hsl : sl ≠ 46) (isAbsolute : Bool) (hb : Joinable sl b) :
    resolve (split sl (fileOf sl isAbsolute b)) = resolve b := by
  obtain ⟨skipped, hsplit, hskipped, -⟩ := split_fileOf hsl isAbsolute hb
  rw [hsplit, resolve_skipped hskipped]

end Texts

section Settled

variable {k : ℕ} {names : List Bytes}

lemma notMem_names (h : ∀ x ∈ names, isName x = true) : dotdot ∉ names := fun hmem =>
  (isName_iff.mp (h dotdot hmem)).2 rfl

lemma pass_settled (h : ∀ x ∈ names, isName x = true) (k : ℕ) :
    (pass (List.replicate k dotdot ++ names)).1 = List.replicate k dotdot ++ names := by
  induction k with
  | zero =>
    rw [List.replicate_zero, List.nil_append, pass_names (notMem_names h)]
    exact List.filter_eq_self.mpr h
  | succ k ih => rw [List.replicate_succ, List.cons_append, pass_up, ih]

lemma foldl_names (h : ∀ x ∈ names, isName x = true) (at' : Place) :
    names.foldl Place.step at' = (at'.1, names.reverse ++ at'.2) := by
  induction names generalizing at' with
  | nil => rfl
  | cons x names ih =>
    obtain ⟨hx, hrest⟩ := List.forall_mem_cons.mp h
    obtain ⟨hskip, hup⟩ := isName_iff.mp hx
    rw [List.foldl_cons, ih hrest, Place.step, if_neg hskip, if_neg hup]
    simp

lemma foldl_ups (i k : ℕ) :
    (List.replicate k dotdot).foldl Place.step (i, []) = (i + k, []) := by
  have hdots : ¬ (dotdot = [] ∨ dotdot = dot) := by decide
  induction k generalizing i with
  | zero => rfl
  | succ k ih =>
    rw [List.replicate_succ, List.foldl_cons, Place.step, if_neg hdots, if_pos rfl, if_pos rfl, ih]
    congr 1
    omega

lemma resolve_settled (h : ∀ x ∈ names, isName x = true) (k : ℕ) :
    resolve (List.replicate k dotdot ++ names) = (k, names.reverse) := by
  rw [resolve, List.foldl_append, foldl_ups, foldl_names h, Nat.zero_add, List.append_nil]

lemma iterAbs_settled (h : ∀ x ∈ names, isName x = true) (k : ℕ) :
    iterAbs (List.replicate k dotdot ++ names) = names := by
  induction k with
  | zero =>
    cases names with
    | nil => rfl
    | cons x names =>
      have hup := (isName_iff.mp (h x List.mem_cons_self)).2
      rw [List.replicate_zero, List.nil_append, iterAbs, if_neg hup]
  | succ k ih => rw [List.replicate_succ, List.cons_append, iterAbs, if_pos rfl, ih]

end Settled

-- The normal form of a path, where it is also that of the place that the path leads to
structure Correct (sl : UInt8) (p : Bytes) : Prop where
  idempotent : normalize sl (normalize sl p) = normalize sl p
  no_skipped : ∀ x ∈ components sl (normalize sl p), x ≠ [] ∧ x ≠ dot
  ups_first : ∃ k names, components sl (normalize sl p) = List.replicate k dotdot ++ names ∧
    dotdot ∉ names ∧ ((normalize sl p).head? = some sl → k = 0)
  same_location : location sl (normalize sl p) = location sl p

lemma slash_ne (win32 : Bool) : slash win32 ≠ 46 := by
  cases win32 <;> decide

section Normal

variable {sl : UInt8} {b : List Bytes} (isAbsolute : Bool)

lemma joinable_body (sl : UInt8) (p : Bytes) :
    Joinable sl (body isAbsolute (split sl p)) := by
  have hpass := joinable_pass sl p
  rw [body]
  split_ifs
  · exact hpass.iterAbs
  · exact hpass

lemma normalize_fileOf (hsl : sl ≠ 46) (hb : Joinable sl b) :
    normalize sl (fileOf sl isAbsolute b) = fileOf sl isAbsolute (body isAbsolute b) := by
  obtain ⟨-, -, -, hhead⟩ := split_fileOf hsl isAbsolute hb
  have habs : ((split sl (fileOf sl isAbsolute b)).head? == some []) = isAbsolute := by
    rw [Bool.eq_iff_iff, ← hhead, beq_iff_eq]
  rw [normalize_eq, habs, body_fileOf hsl isAbsolute hb]

lemma location_fileOf (hsl : sl ≠ 46) (hb : Joinable sl b) :
    location sl (fileOf sl isAbsolute b) =
      (isAbsolute, if isAbsolute then (0, (resolve b).2) else resolve b) := by
  have habs : ((fileOf sl isAbsolute b).head? == some sl) = isAbsolute := by
    rw [Bool.eq_iff_iff, ← head_fileOf hsl isAbsolute hb, beq_iff_eq]
  simp only [location, habs, resolve_fileOf hsl isAbsolute hb]

lemma settled_iff_body (l : List Bytes) : Settled (pass l).1 ↔
    ∃ k names, body isAbsolute l = List.replicate k dotdot ++ names ∧ dotdot ∉ names ∧
      (isAbsolute = true → k = 0) := by
  have hclean := clean_pass l
  constructor
  · rintro ⟨k, names, heq, hnames⟩
    cases isAbsolute with
    | true =>
      refine ⟨0, names, ?_, notMem_names hnames, fun _ => rfl⟩
      rw [body, if_pos rfl, heq, iterAbs_settled hnames]
      rfl
    | false => exact ⟨k, names, heq, notMem_names hnames, fun h => absurd h Bool.false_ne_true⟩
  · rintro ⟨k, names, heq, hup, hk⟩
    have hkept {k : ℕ} (heq : (pass l).1 = List.replicate k dotdot ++ names) :
        Settled (pass l).1 := by
      refine ⟨k, names, heq, fun x hx => isName_iff.mpr ⟨hclean x ?_, ?_⟩⟩
      · rw [heq]
        exact List.mem_append_right _ hx
      · exact ne_of_mem_of_not_mem hx hup
    cases isAbsolute with
    | true =>
      obtain ⟨j, hj, -⟩ := iterAbs_eq (pass l).1
      rw [body, if_pos rfl, hk rfl, List.replicate_zero, List.nil_append] at heq
      exact hkept (heq ▸ hj)
    | false => exact hkept heq

-- What the pass gives for settled components is left alone and leads to the same place.
lemma body_settled {l : List Bytes} (h : Settled (pass l).1) :
    body isAbsolute (body isAbsolute l) = body isAbsolute l ∧
      (if isAbsolute then (0, (resolve (body isAbsolute l)).2)
        else resolve (body isAbsolute l)) =
      if isAbsolute then (0, (resolve l).2) else resolve l := by
  obtain ⟨k, names, heq, hnames⟩ := h
  have hl : resolve l = (k, names.reverse) := by
    rw [resolve, ← foldl_pass, heq]
    exact resolve_settled hnames k
  have hresolve := resolve_settled hnames
  have hpass := pass_settled hnames
  have hiter := iterAbs_settled hnames
  cases isAbsolute with
  | true =>
    have hbody : body true l = names := by rw [body, if_pos rfl, heq, hiter]
    have hagain : body true names = names := by
      have hnames0 := hpass 0
      rw [List.replicate_zero, List.nil_append] at hnames0
      rw [body, if_pos rfl, hnames0]
      exact hiter 0
    have hresolve0 := hresolve 0
    rw [List.replicate_zero, List.nil_append] at hresolve0
    rw [hbody, hagain, hresolve0, hl]
    exact ⟨rfl, rfl⟩
  | false =>
    have hbody : body false l = List.replicate k dotdot ++ names := heq
    have hagain : body false (List.replicate k dotdot ++ names) =
        List.replicate k dotdot ++ names := hpass k
    rw [hbody, hagain, hresolve k, hl]
    exact ⟨rfl, rfl⟩

end Normal

-- normalize gives the normal form of a path exactly if the path is not empty and, once what has
-- no name before it and the names taken back at once are dropped at the beginning, a name stands
-- right in front of the first component that goes up.
theorem normalize_correct_iff (win32 : Bool) (p : Bytes) :
    Correct (slash win32) p ↔ p ≠ [] ∧ Uncovered (split (slash win32) p) := by
  have hsl := slash_ne win32
  set sl := slash win32
  set isAbsolute := (split sl p).head? == some [] with habs
  have hb := joinable_body isAbsolute sl p
  have hfile : normalize sl p = fileOf sl isAbsolute (body isAbsolute (split sl p)) :=
    normalize_eq sl p
  have hcomponents := components_fileOf hsl isAbsolute hb
  have hhead := head_fileOf hsl isAbsolute hb
  have hlocation := location_fileOf isAbsolute hsl hb
  rw [← hfile] at hcomponents hhead hlocation
  rw [← settled_iff, settled_iff_body isAbsolute]
  constructor
  · intro h
    refine ⟨?_, ?_⟩
    · rintro rfl
      -- the empty path is taken for one from the root
      have hroot := congrArg Prod.fst h.same_location
      rw [hlocation] at hroot
      cases hroot
    · obtain ⟨k, names, heq, hup, hk⟩ := h.ups_first
      rw [hcomponents] at heq
      exact ⟨k, names, heq, hup, fun hroot => hk (hhead.mpr hroot)⟩
  · rintro ⟨hne, k, names, heq, hup, hk⟩
    obtain ⟨hagain, hplace⟩ := body_settled isAbsolute
      ((settled_iff_body isAbsolute _).mpr ⟨k, names, heq, hup, hk⟩)
    have hroot : (p.head? == some sl) = isAbsolute := by
      rw [habs, Bool.eq_iff_iff, beq_iff_eq, beq_iff_eq, split_head_iff, or_iff_right hne]
    refine ⟨?_, fun x hx => ?_,
      ⟨k, names, hcomponents.trans heq, hup, fun h => hk (hhead.mp h)⟩, ?_⟩
    · rw [hfile, normalize_fileOf isAbsolute hsl hb, hagain]
    · rw [hcomponents] at hx
      exact not_or.mp (hb.1 x hx)
    · rw [hlocation, hplace, location]
      simp only [hroot]

-- In "a/./.." the component that is skipped keeps the other two apart.
theorem normalize_hidden :
    normalize (slash false) [97, 47, 46, 47, 46, 46] = [97, 47, 46, 46] ∧
      normalize (slash false) [97, 47, 46, 46] = dot ∧
      ¬ Correct (slash false) [97, 47, 46, 47, 46, 46] := by
  have hname : isName [97] = true := by decide
  have hhidden : pass [[97], dot, dotdot] = ([[97], dotdot], false) := by
    have hrest : pass [dot, dotdot] = ([dotdot], false) := by
      rw [pass_skip (.inr rfl), pass_up, pass_nil]
    rw [pass_name hname (by decide), hrest]
    rfl
  have hcancel : pass [[97], dotdot] = ([], true) := by rw [pass_cancel hname, pass_nil]
  have hfirst : normalize (slash false) [97, 47, 46, 47, 46, 46] = [97, 47, 46, 46] := by
    have hsplit : split (slash false) [97, 47, 46, 47, 46, 46] = [[97], dot, dotdot] := by decide
    rw [normalize_eq, hsplit]
    have hbody : body false [[97], dot, dotdot] = [[97], dotdot] := congrArg Prod.fst hhidden
    exact congrArg (fileOf (slash false) false) hbody
  have hsecond : normalize (slash false) [97, 47, 46, 46] = dot := by
    have hsplit : split (slash false) [97, 47, 46, 46] = [[97], dotdot] := by decide
    rw [normalize_eq, hsplit]
    have hbody : body false [[97], dotdot] = [] := congrArg Prod.fst hcancel
    exact congrArg (fileOf (slash false) false) hbody
  refine ⟨hfirst, hsecond, fun h => ?_⟩
  have hagain := h.idempotent
  rw [hfirst, hsecond] at hagain
  revert hagain
  decide

end Mldonkey.Filename2
