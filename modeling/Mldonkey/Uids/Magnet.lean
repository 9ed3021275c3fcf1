import Mldonkey.Uids.Uid
import Mldonkey.Urls.Parse

-- Sets of identifiers, and magnet links. None stands for an exception.
namespace Mldonkey.Uids

open Bencode (Bytes ofString int64OfString printInt)
open Indexing (split)
open Urls (cutAt_append cutArgs_of_ne decode decode_of_ne decode_percent hexaChar hexaChar_cons hexaChar_short
  hexValue infix_cons_of_ne infix_percent manageArgs manageArgs_ne_nil putArgs split_manageArgs)

def derive (uid : Uid) : List Uid :=
  match uid.uidType with
  | .bitprint sha1 tiger => [create (.sha1 sha1), create (.tigerTree tiger)]
  | _ => []

-- Identifiers are compared by their texts.
def mem (uid : Uid) (list : List Uid) : Bool :=
  match list with
  | [] => false
  | t :: tail => t.toString == uid.toString || mem uid tail

def add (uid : Uid) (list : List Uid) : List Uid := if mem uid list then list else uid :: list

-- How many identifiers are to be expanded, those that will be derived included
def pending (list : List Uid) : ℕ := (list.map fun t => 1 + (derive t).length).sum

lemma pending_derive (t : Uid) : pending (derive t) = (derive t).length := by
  rw [derive]
  split <;> rfl

def expandRec (list uids : List Uid) : List Uid :=
  match list with
  | [] => uids
  | t :: tail =>
      let list := derive t
      expandRec (list ++ tail) (add t uids)
termination_by pending list
decreasing_by
  have hderive := pending_derive t
  simp only [pending, List.map_append, List.sum_append, List.map_cons, List.sum_cons] at hderive ⊢
  omega

def expand (uids : List Uid) : List Uid := expandRec uids []

section Expand

variable {u v : Uid} {l uids : List Uid}

lemma Uid.ext_type (h : u.uidType = v.uidType) : u = v := by
  obtain ⟨s, t, hs⟩ := u
  obtain ⟨s', t', hs'⟩ := v
  obtain rfl : t = t' := h
  obtain rfl : s = s' := hs.trans hs'.symm
  rfl

lemma create_toUid (u : Uid) : create u.toUid = u := Uid.ext_type rfl

lemma stringOfUid_injective {a b : UidType} (h : stringOfUid a = stringOfUid b) : a = b := by
  have ha : uidOfString (stringOfUid a) = _ := uidOfString_sep (.inl rfl) a
  have hb : uidOfString (stringOfUid b) = _ := uidOfString_sep (.inl rfl) b
  rw [h, hb] at ha
  cases a <;> cases b <;> simp at ha <;> simp [ha]

lemma mem_iff : mem u l = true ↔ u ∈ l := by
  induction l with
  | nil => simp [mem]
  | cons t l ih =>
    have hsame : t.toString = u.toString ↔ u = t := by
      refine ⟨fun h => (Uid.ext_type (stringOfUid_injective ?_)).symm, fun h => h ▸ rfl⟩
      exact t.uidString_eq.symm.trans (h.trans u.uidString_eq)
    rw [mem, Bool.or_eq_true, beq_iff_eq, ih, hsame, List.mem_cons]

lemma mem_add : v ∈ add u l ↔ v = u ∨ v ∈ l := by
  rw [add]
  split_ifs with h
  · rw [mem_iff] at h
    exact ⟨.inr, fun hv => hv.elim (fun heq => heq ▸ h) id⟩
  · exact List.mem_cons

lemma nodup_add (h : l.Nodup) : (add u l).Nodup := by
  rw [add]
  split_ifs with hmem
  · exact h
  · exact List.nodup_cons.mpr ⟨fun hu => hmem (mem_iff.mpr hu), h⟩

lemma derive_derive (h : v ∈ derive u) : derive v = [] := by
  rw [derive] at h
  split at h
  · rcases List.mem_cons.mp h with rfl | h
    · rfl
    · obtain rfl := List.mem_singleton.mp h
      rfl
  · cases h

lemma expandRec_spec (l uids : List Uid) (h : uids.Nodup) :
    (expandRec l uids).Nodup ∧
      ∀ v, v ∈ expandRec l uids ↔ v ∈ uids ∨ ∃ t ∈ l, v = t ∨ v ∈ derive t := by
  induction hn : pending l using Nat.strong_induction_on generalizing l uids with
  | _ n ih =>
    cases l with
    | nil =>
      rw [expandRec]
      exact ⟨h, by simp⟩
    | cons t tail =>
      have hlt : pending (derive t ++ tail) < n := by
        have hderive := pending_derive t
        rw [← hn]
        simp only [pending, List.map_append, List.sum_append, List.map_cons, List.sum_cons] at hderive ⊢
        omega
      obtain ⟨hnodup, hmem⟩ := ih _ hlt (derive t ++ tail) (add t uids) (nodup_add h) rfl
      rw [expandRec]
      refine ⟨hnodup, fun v => ?_⟩
      rw [hmem, mem_add]
      constructor
      · rintro ((rfl | hv) | ⟨s, hs, hv⟩)
        · exact .inr ⟨v, List.mem_cons_self, .inl rfl⟩
        · exact .inl hv
        · rcases List.mem_append.mp hs with hs | hs
          · rcases hv with rfl | hv
            · exact .inr ⟨t, List.mem_cons_self, .inr hs⟩
            · rw [derive_derive hs] at hv
              cases hv
          · exact .inr ⟨s, List.mem_cons_of_mem t hs, hv⟩
      · rintro (hv | ⟨s, hs, hv⟩)
        · exact .inl (.inr hv)
        · rcases List.mem_cons.mp hs with rfl | hs
          · rcases hv with rfl | hv
            · exact .inl (.inl rfl)
            · exact .inr ⟨v, List.mem_append_left tail hv, .inl rfl⟩
          · exact .inr ⟨s, List.mem_append_right _ hs, hv⟩

lemma nodup_expand (l : List Uid) : (expand l).Nodup := (expandRec_spec l [] List.nodup_nil).1

lemma mem_expand : v ∈ expand l ↔ ∃ t ∈ l, v = t ∨ v ∈ derive t := by
  rw [expand, (expandRec_spec l [] List.nodup_nil).2]
  simp

lemma nodup_toUid (l : List Uid) : ((expand l).map Uid.toUid).Nodup :=
  (nodup_expand l).map fun _ _ h => Uid.ext_type h

lemma expand_expand (l : List Uid) : (expand (expand l)).Perm (expand l) := by
  refine (List.perm_ext_iff_of_nodup (nodup_expand _) (nodup_expand _)).mpr fun v => ?_
  constructor
  · intro h
    obtain ⟨t, ht, hv⟩ := mem_expand.mp h
    obtain ⟨s, hs, hts⟩ := mem_expand.mp ht
    refine mem_expand.mpr ⟨s, hs, ?_⟩
    rcases hv with rfl | hv
    · exact hts
    · rcases hts with rfl | hts
      · exact .inr hv
      · rw [derive_derive hts] at hv
        cases hv
  · exact fun h => mem_expand.mpr ⟨v, h, .inl rfl⟩

end Expand

-- What the fields of a magnet link are gathered in
structure Fields where
  uids : List Uid
  name : Bytes
  size : Option Int64
  trackers : List Bytes

structure Magnet where
  name : Bytes
  size : Option Int64
  uids : List UidType
  trackers : List Bytes

def each (m : Fields) (k v : Bytes) : Option Fields :=
  match split 46 k with
  | [] => some m
  | k :: _ =>
      if k = ofString "xt" then (Uid.ofString v).map fun uid => { m with uids := uid :: m.uids }
      else if k = ofString "xl" then (int64OfString v).map fun size => { m with size := some size }
      else if k = ofString "dn" then some { m with name := decode true v }
      else if k = ofString "tr" then some { m with trackers := decode true v :: m.trackers }
      else some m

-- An exception in one field leaves the others as they are.
def iterEach (args : List (Bytes × Bytes)) (m : Fields) : Fields :=
  args.foldl (fun m (k, v) => (each m k v).getD m) m

def parseMagnetUrl (url : Bytes) : Option Magnet := do
  let url ← Urls.ofString [] url
  if url.shortFile = ofString "magnet:" then
    let m := iterEach url.args ⟨[], [], none, []⟩
    some ⟨m.name, m.size, (expand m.uids).map Uid.toUid, m.trackers⟩
  else none

def showArgs (x : Magnet) : List (Bytes × Bytes) :=
  let args := (ofString "dn", x.name) :: x.uids.map fun uid => (ofString "xt", stringOfUid uid)
  match x.size with
  | some n => (ofString "xl", printInt n) :: args
  | none => args

def showMagnetUrl (x : Magnet) : Bytes := putArgs (ofString "magnet:") (showArgs x)

section Unescaped

variable {s : Bytes} {c : UInt8}

-- No percent sign with what is read as the code of a character behind it
def Unescaped (s : Bytes) : Prop :=
  ∀ a b, (hexValue a).isSome → b = 95 ∨ (hexValue b).isSome → ¬ [37, a, b] <:+: s

lemma unescaped_percent : Unescaped (37 :: s) ↔ hexaChar s = none ∧ Unescaped s := by
  have hnone : hexaChar s = none ↔
      ∀ a b, (hexValue a).isSome → b = 95 ∨ (hexValue b).isSome → ¬ [a, b] <+: s := by
    rcases s with _ | ⟨a, _ | ⟨b, r⟩⟩
    · simp [(hexaChar_short (s := []) (by decide)).1]
    · simp [(hexaChar_short (s := [a]) (by simp)).1]
    · rw [hexaChar_cons]
      constructor
      · rintro h a' b' ha hb hpre
        obtain ⟨rfl, htail⟩ := List.cons_prefix_cons.mp hpre
        obtain ⟨rfl, -⟩ := List.cons_prefix_cons.mp htail
        obtain ⟨x, hx⟩ := Option.isSome_iff_exists.mp ha
        rw [hx, Option.bind_some] at h
        split_ifs at h with hlow
        rcases hb with hb | hb
        · exact hlow hb
        · rw [Option.map_eq_none_iff] at h
          rw [h] at hb
          cases hb
      · intro h
        have hab := h a b
        simp only [List.cons_prefix_cons, true_and, List.nil_prefix, not_true] at hab
        cases ha : hexValue a with
        | none => rfl
        | some x =>
          have hb : ¬ (b = 95 ∨ (hexValue b).isSome) := hab (ha ▸ rfl)
          rw [not_or] at hb
          rw [Option.bind_some, if_neg hb.1, Option.map_eq_none_iff]
          exact Option.not_isSome_iff_eq_none.mp hb.2
  simp only [Unescaped, infix_percent, not_or, hnone, ← forall_and]

lemma unescaped_cons_of_ne (hc : c ≠ 37) : Unescaped (c :: s) ↔ Unescaped s := by
  simp only [Unescaped, infix_cons_of_ne hc]

-- Decoding never lengthens, and shortens where a character is read from its code.
lemma decode_spec (s : Bytes) :
    (decode true s).length ≤ s.length ∧ (decode true s = s ↔ Unescaped s) := by
  induction hn : s.length using Nat.strong_induction_on generalizing s with
  | _ n ih =>
    rcases s with _ | ⟨c, s⟩
    · have hfree : Unescaped [] := fun a b _ _ h => by simp at h
      rw [decode]
      exact ⟨Nat.zero_le _, iff_of_true rfl hfree⟩
    · rw [List.length_cons] at hn
      obtain ⟨hlen, hsame⟩ := ih s.length (by omega) s rfl
      by_cases hc : c = 37
      · subst hc
        rw [decode_percent, unescaped_percent]
        cases hhex : hexaChar s with
        | none =>
          simp only [List.length_cons, List.cons.injEq, true_and]
          exact ⟨by omega, hsame⟩
        | some x =>
          have htwo : 2 ≤ s.length := by
            by_contra hshort
            rw [(hexaChar_short (by omega)).1] at hhex
            cases hhex
          obtain ⟨hlen', -⟩ := ih (s.drop 2).length (by simp; omega) (s.drop 2) rfl
          rw [List.length_drop] at hlen'
          simp only [List.length_cons, reduceCtorEq, false_and, iff_false]
          refine ⟨by omega, fun h => ?_⟩
          have hlong := congrArg List.length h
          simp only [List.length_cons] at hlong
          omega
      · have hkeep : decode true (c :: s) = c :: decode true s := by
          rw [decode_of_ne hc, if_neg (fun h => by cases h.2)]
        rw [hkeep, unescaped_cons_of_ne hc, List.length_cons, List.cons.injEq, and_iff_right rfl]
        exact ⟨by omega, hsame⟩

end Unescaped

section RoundTrip

variable {m : Fields}

lemma ofString_stringOfUid (u : UidType) :
    Uid.ofString (stringOfUid u) = if u = .noUid then none else some (create u) := by
  have hread : uidOfString (stringOfUid u) = if u = .noUid then none else some u := by
    have hsep : uidOfString (stringOfUid u) = _ := uidOfString_sep (.inl rfl) u
    rw [hsep]
    cases u <;> simp
  rw [Uid.ofString, hread]
  split_ifs <;> rfl

lemma each_xt (m : Fields) (u : UidType) : (each m (ofString "xt") (stringOfUid u)).getD m =
    if u = .noUid then m else { m with uids := create u :: m.uids } := by
  have hone : split 46 (ofString "xt") = [ofString "xt"] := by decide
  rw [each, hone]
  simp only [if_true, ofString_stringOfUid]
  split_ifs <;> rfl

lemma each_xl (m : Fields) (n : Int64) :
    (each m (ofString "xl") (printInt n)).getD m = { m with size := some n } := by
  have hone : split 46 (ofString "xl") = [ofString "xl"] := by decide
  have hxt : ofString "xl" ≠ ofString "xt" := by decide
  rw [each, hone]
  simp only [if_neg hxt, if_true, Bencode.int64OfString_printInt]
  rfl

lemma each_dn (m : Fields) (name : Bytes) :
    (each m (ofString "dn") name).getD m = { m with name := decode true name } := by
  have hone : split 46 (ofString "dn") = [ofString "dn"] := by decide
  have hxt : ofString "dn" ≠ ofString "xt" := by decide
  have hxl : ofString "dn" ≠ ofString "xl" := by decide
  rw [each, hone]
  simp only [if_neg hxt, if_neg hxl, if_true]
  rfl

-- The identifiers come in the opposite order.
lemma iterEach_uids (uids : List UidType) (m : Fields) :
    iterEach (uids.map fun uid => (ofString "xt", stringOfUid uid)) m =
      { m with uids := ((uids.filter (· ≠ .noUid)).map create).reverse ++ m.uids } := by
  induction uids generalizing m with
  | nil => rfl
  | cons u uids ih =>
    have hstep : iterEach ((u :: uids).map fun uid => (ofString "xt", stringOfUid uid)) m =
        iterEach (uids.map fun uid => (ofString "xt", stringOfUid uid))
          ((each m (ofString "xt") (stringOfUid u)).getD m) := rfl
    rw [hstep, each_xt, ih]
    by_cases hu : u = .noUid <;> simp [hu]

lemma iterEach_showArgs (x : Magnet) : iterEach (showArgs x) ⟨[], [], none, []⟩ =
    ⟨((x.uids.filter (· ≠ .noUid)).map create).reverse, decode true x.name, x.size, []⟩ := by
  have hdn (m : Fields) (l : List (Bytes × Bytes)) : iterEach ((ofString "dn", x.name) :: l) m =
      iterEach l { m with name := decode true x.name } := by
    rw [← each_dn m x.name]
    rfl
  have hxl (n : Int64) (m : Fields) (l : List (Bytes × Bytes)) :
      iterEach ((ofString "xl", printInt n) :: l) m = iterEach l { m with size := some n } := by
    rw [← each_xl m n]
    rfl
  rw [showArgs]
  cases hsize : x.size with
  | none => simp only [hdn, iterEach_uids, List.append_nil]
  | some n => simp only [hxl, hdn, iterEach_uids, List.append_nil]

lemma ofString_showMagnetUrl (x : Magnet) : ∃ url,
    Urls.ofString [] (showMagnetUrl x) = some url ∧
      url.shortFile = ofString "magnet:" ∧ url.args = showArgs x := by
  obtain ⟨arg, l, hargs⟩ : ∃ arg l, showArgs x = arg :: l := by
    rw [showArgs]
    cases x.size with
    | none => exact ⟨_, _, rfl⟩
    | some n => exact ⟨_, _, rfl⟩
  have hnames : ∀ a ∈ arg :: l, a.1 ≠ [] := by
    have hxl : ofString "xl" ≠ [] := by decide
    have hdn : ofString "dn" ≠ [] := by decide
    have hxt : ofString "xt" ≠ [] := by decide
    rw [← hargs, showArgs]
    cases x.size <;> simp [hxl, hdn, hxt]
  have hmark : 63 ∉ ofString "magnet:" := by decide
  have hshow : showMagnetUrl x = ofString "magnet:" ++ 63 :: manageArgs arg l := by
    rw [showMagnetUrl, hargs, putArgs, if_neg hmark]
  have hfront : (showMagnetUrl x).dropWhile (· = 47) = showMagnetUrl x := by
    rw [hshow]
    rfl
  have hcolon : (showMagnetUrl x).idxOf? 58 = some 6 := by
    rw [hshow]
    exact Urls.idxOf_append (s := ofString "magnet") (by decide) (63 :: manageArgs arg l)
  have hscheme : Urls.scheme (showMagnetUrl x) = none := by
    have hnot : ((showMagnetUrl x).drop 7).take 2 ≠ [47, 47] := by
      rw [hshow]
      intro h
      have hhead : some (63 : UInt8) = some 47 := congrArg List.head? h
      revert hhead
      decide
    rw [Urls.scheme, hcolon]
    exact if_neg hnot
  refine ⟨Urls.fileUrl (showMagnetUrl x), ?_, ?_, ?_⟩
  · rw [Urls.ofString, hfront, putArgs, Urls.parse, hscheme]
  · rw [Urls.fileUrl, hshow, cutAt_append hmark]
  · have hread : Urls.cutArgs (manageArgs arg l) = showArgs x := by
      rw [cutArgs_of_ne (manageArgs_ne_nil arg l hnames), split_manageArgs, hargs]
    rw [Urls.fileUrl, hshow, cutAt_append hmark]
    exact hread

lemma parse_show (x : Magnet) : parseMagnetUrl (showMagnetUrl x) =
    some ⟨decode true x.name, x.size,
      (expand ((x.uids.filter (· ≠ .noUid)).map create).reverse).map Uid.toUid, []⟩ := by
  obtain ⟨url, hurl, hfile, hargs⟩ := ofString_showMagnetUrl x
  rw [parseMagnetUrl, hurl, Option.bind_eq_bind, Option.bind_some, if_pos hfile, hargs,
    iterEach_showArgs]

lemma mem_toUid {u : UidType} {l : List Uid} :
    u ∈ (expand l).map Uid.toUid ↔ ∃ t ∈ l, create u = t ∨ create u ∈ derive t := by
  rw [List.mem_map, ← mem_expand]
  constructor
  · rintro ⟨v, hv, rfl⟩
    rw [create_toUid]
    exact hv
  · exact fun h => ⟨create u, h, rfl⟩

-- The empty identifier is never derived, and is lost in a link.
lemma expand_read_iff (uids : List UidType) :
    (∀ u, u ∈ (expand ((uids.filter (· ≠ .noUid)).map create).reverse).map Uid.toUid ↔
      u ∈ (expand (uids.map create)).map Uid.toUid) ↔ .noUid ∉ uids := by
  constructor
  · intro h hmem
    have hno := (h .noUid).mpr
      (mem_toUid.mpr ⟨create .noUid, List.mem_map_of_mem hmem, .inl rfl⟩)
    obtain ⟨t, ht, hnoUid⟩ := mem_toUid.mp hno
    rw [List.mem_reverse, List.mem_map] at ht
    obtain ⟨u, hu, rfl⟩ := ht
    have hne : u ≠ .noUid := by simpa using (List.mem_filter.mp hu).2
    rcases hnoUid with hsame | hderive
    · exact hne (congrArg Uid.toUid hsame).symm
    · cases u <;> simp [derive, create] at hderive
  · intro h u
    have hall : uids.filter (· ≠ .noUid) = uids := by
      rw [List.filter_eq_self]
      intro v hv
      exact decide_eq_true fun heq => h (heq ▸ hv)
    simp only [mem_toUid, hall, List.mem_reverse]

end RoundTrip

-- A link is read back exactly when decoding the name once more does not change it and no
-- identifier is empty; expanding gives different identifiers, and no others when repeated.
theorem magnet_roundtrip_iff (x : Magnet) (l : List Uid) :
    ((∃ m, parseMagnetUrl (showMagnetUrl x) = some m ∧ m.name = x.name ∧ m.size = x.size ∧
        ∀ u, u ∈ m.uids ↔ u ∈ (expand (x.uids.map create)).map Uid.toUid) ↔
      Unescaped x.name ∧ .noUid ∉ x.uids) ∧
    (expand l).Nodup ∧ ((expand l).map Uid.toUid).Nodup ∧ (expand (expand l)).Perm (expand l) := by
  refine ⟨?_, nodup_expand l, nodup_toUid l, expand_expand l⟩
  rw [← (decode_spec x.name).2, ← expand_read_iff, parse_show]
  constructor
  · rintro ⟨m, hm, hname, -, huids⟩
    obtain rfl := Option.some.inj hm
    exact ⟨hname, huids⟩
  · rintro ⟨hname, huids⟩
    exact ⟨_, rfl, hname, rfl, huids⟩

-- The name %41 comes back as A.
theorem magnet_name_lost :
    ¬ ∃ m, parseMagnetUrl (showMagnetUrl ⟨ofString "%41", none, [], []⟩) = some m ∧
      m.name = ofString "%41" := by
  rintro ⟨m, hm, hname⟩
  rw [parse_show] at hm
  obtain rfl := Option.some.inj hm
  have hfree := (decode_spec (ofString "%41")).2.mp hname
  exact hfree 52 49 (by decide) (.inr (by decide)) ⟨[], [], by decide⟩

end Mldonkey.Uids
