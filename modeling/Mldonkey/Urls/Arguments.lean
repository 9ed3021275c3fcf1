import Mldonkey.Urls.Parse

-- The arguments of a URL to which some are added.
namespace Mldonkey.Urls

open Bencode (Bytes number)
open FileTP (intOfString)
open Indexing (split split_append)

-- Behind the two slashes, the file begins at the first slash, or at a second @ before it.
def filePart (seen : Bool) : Bytes → Bytes
  | [] => []
  | c :: s => if c = 47 ∨ c = 64 ∧ seen then c :: s else filePart (seen || c = 64) s

-- Without a protocol all is the file.
def fileText (s : Bytes) : Bytes :=
  match scheme s with
  | some (_, rest) => filePart false rest
  | none => s

-- There is no question mark, or one in the file with something behind the first.
def QueryOpen (s : Bytes) : Prop :=
  63 ∉ s ∨ ∃ short query, fileText s = short ++ 63 :: query ∧ 63 ∉ short ∧ query ≠ []

-- The arguments that are looked for in a file
def argsOf (file : Bytes) : List (Bytes × Bytes) := cutArgs (cutAt file 63).2

section Appended

variable {stop : UInt8 → Bool} {s t a b r : Bytes}

lemma scanTo_eq_some (h : scanTo stop s = some (a, r)) :
    s = a ++ r ∧ (∀ x ∈ a, stop x = false) ∧ ∃ c r', r = c :: r' ∧ stop c = true := by
  induction s generalizing a with
  | nil => cases h
  | cons c s ih =>
    rw [scanTo] at h
    split_ifs at h with hc
    · obtain ⟨rfl, rfl⟩ := Prod.mk.inj (Option.some.inj h)
      exact ⟨rfl, by simp, c, s, rfl, hc⟩
    · obtain ⟨⟨a', r'⟩, hscan, heq⟩ := Option.map_eq_some_iff.mp h
      obtain ⟨rfl, rfl⟩ := Prod.mk.inj heq
      obtain ⟨rfl, ha, hr⟩ := ih hscan
      exact ⟨rfl, List.forall_mem_cons.mpr ⟨by simpa using hc, ha⟩, hr⟩

-- A scan for two texts goes up to a slash or @, the first one.
lemma getTwo_eq_some (h : getTwo s = some (a, b, r)) :
    ∃ pre, s = pre ++ r ∧ (∀ x ∈ pre, x ≠ 47 ∧ x ≠ 64) ∧ ∃ c r', r = c :: r' ∧ (c = 47 ∨ c = 64) := by
  cases hfirst : scanTo (fun c => c = 58 || c = 47 || c = 64) s with
  | none =>
    have hnone : getTwo s = none := by
      rw [getTwo, hfirst]
      rfl
    rw [hnone] at h
    cases h
  | some p =>
    obtain ⟨first, rest⟩ := p
    obtain ⟨hs, hbefore, c, rest, rfl, hc⟩ := scanTo_eq_some hfirst
    have hpre : ∀ x ∈ first, x ≠ 47 ∧ x ≠ 64 := fun x hx => by
      have := hbefore x hx
      simp only [Bool.or_eq_false_iff, decide_eq_false_iff_not] at this
      exact ⟨this.1.2, this.2⟩
    by_cases hcolon : c = 58
    · subst hcolon
      have hget : getTwo s = (scanTo (fun c => c = 64 || c = 47) rest).map fun q =>
          (first, q.1, q.2) := by
        rw [getTwo, hfirst]
        cases hq : scanTo (fun c => c = 64 || c = 47) rest <;>
          simp only [Option.bind_eq_bind, Option.bind_some, hq] <;> rfl
      obtain ⟨⟨second, rest'⟩, hsecond, heq⟩ := Option.map_eq_some_iff.mp (hget.symm.trans h)
      obtain ⟨rfl, rfl, rfl⟩ : first = a ∧ second = b ∧ rest' = r := by simpa using heq
      obtain ⟨rfl, hbetween, c, rest', rfl, hc⟩ := scanTo_eq_some hsecond
      refine ⟨first ++ 58 :: second, by simp [hs], fun x hx => ?_, c, rest', rfl, ?_⟩
      · rcases List.mem_append.mp hx with hx | hx
        · exact hpre x hx
        · rcases List.mem_cons.mp hx with rfl | hx
          · decide
          · have := hbetween x hx
            simp only [Bool.or_eq_false_iff, decide_eq_false_iff_not] at this
            exact ⟨this.2, this.1⟩
      · simpa [or_comm] using hc
    · simp only [Bool.or_eq_true, decide_eq_true_eq, hcolon, false_or] at hc
      have hget : getTwo s = some (first, [], c :: rest) := by
        rw [getTwo, hfirst]
        rcases hc with rfl | rfl <;> rfl
      obtain ⟨rfl, -, rfl⟩ : first = a ∧ [] = b ∧ c :: rest = r := by
        simpa using hget.symm.trans h
      exact ⟨first, hs, hpre, c, rest, rfl, hc⟩

lemma getTwo_append (ht : Free t) (s : Bytes) :
    getTwo (s ++ t) = (getTwo s).map fun p => (p.1, p.2.1, p.2.2 ++ t) := by
  rw [getTwo, getTwo, scanTo_append_right ht.three]
  cases hfirst : scanTo (fun c => c = 58 || c = 47 || c = 64) s with
  | none => rfl
  | some p =>
    obtain ⟨first, rest⟩ := p
    obtain ⟨-, -, c, rest, rfl, hc⟩ := scanTo_eq_some hfirst
    by_cases hcolon : c = 58
    · subst hcolon
      have hsecond := @scanTo_append_right (fun c => c = 64 || c = 47) _ ht.two rest
      simp only [Option.map_some, Option.bind_eq_bind, Option.bind_some, List.cons_append, hsecond]
      cases scanTo (fun c => c = 64 || c = 47) rest <;> rfl
    · simp only [Bool.or_eq_true, decide_eq_true_eq, hcolon, false_or] at hc
      rcases hc with rfl | rfl <;> rfl

lemma cut_append (ht : Free t) (s : Bytes) (port : ℤ) :
    cut (s ++ t) port = (cut s port).map fun p =>
      (p.1, p.2.1, p.2.2.1 ++ t, p.2.2.2.1, p.2.2.2.2) := by
  rw [cut, cut, getTwo_append ht]
  cases hfirst : getTwo s with
  | none => rfl
  | some p =>
    obtain ⟨strA, strB, rest⟩ := p
    obtain ⟨-, -, -, c, rest, rfl, hc⟩ := getTwo_eq_some hfirst
    rcases hc with rfl | rfl
    · simp only [Option.map_some, Option.bind_eq_bind, Option.bind_some, List.cons_append]
      cases readPort port strB <;> rfl
    · simp only [Option.map_some, Option.bind_eq_bind, Option.bind_some, List.cons_append,
        getTwo_append ht]
      cases getTwo rest with
      | none => rfl
      | some q =>
        simp only [Option.map_some, Option.bind_some]
        cases readPort port q.2.1 <;> rfl

lemma filePart_append {pre : Bytes} (h : ∀ x ∈ pre, x ≠ 47 ∧ x ≠ 64) (seen : Bool) (r : Bytes) :
    filePart seen (pre ++ r) = filePart seen r := by
  induction pre with
  | nil => rfl
  | cons x pre ih =>
    obtain ⟨⟨h47, h64⟩, hpre⟩ := List.forall_mem_cons.mp h
    have hstop : ¬ (x = 47 ∨ x = 64 ∧ seen = true) := by simp [h47, h64]
    have hseen : (seen || decide (x = 64)) = seen := by simp [h64]
    rw [List.cons_append, filePart, if_neg hstop, hseen, ih hpre]

lemma filePart_cut {port p : ℤ} {host file user pass : Bytes}
    (h : cut s port = some (host, p, file, user, pass)) : file = filePart false s := by
  cases hfirst : getTwo s with
  | none =>
    have hnone : cut s port = none := by
      rw [cut, hfirst]
      rfl
    rw [hnone] at h
    cases h
  | some q =>
    obtain ⟨strA, strB, rest⟩ := q
    obtain ⟨pre, rfl, hpre, c, rest, rfl, hc⟩ := getTwo_eq_some hfirst
    rw [filePart_append hpre]
    rcases hc with rfl | rfl
    · have hcut : cut (pre ++ 47 :: rest) port = (readPort port strB).map fun p =>
          (strA, p, 47 :: rest, [], []) := by
        rw [cut, hfirst]
        cases hp : readPort port strB <;> simp only [Option.bind_eq_bind, Option.bind_some, hp] <;> rfl
      obtain ⟨p', -, heq⟩ := Option.map_eq_some_iff.mp (hcut.symm.trans h)
      have hfile : 47 :: rest = file := congrArg (fun q => q.2.2.1) heq
      exact hfile.symm
    · have hcut : cut (pre ++ 64 :: rest) port = (getTwo rest).bind fun q =>
          (readPort port q.2.1).map fun p => (q.1, p, q.2.2, strA, strB) := by
        rw [cut, hfirst]
        simp only [Option.bind_eq_bind, Option.bind_some]
        cases getTwo rest with
        | none => rfl
        | some q => cases hp : readPort port q.2.1 <;> simp only [Option.bind_some, hp] <;> rfl
      obtain ⟨⟨host', portStr, file'⟩, hsecond, hrest⟩ :=
        Option.bind_eq_some_iff.mp (hcut.symm.trans h)
      obtain ⟨p', -, heq⟩ := Option.map_eq_some_iff.mp hrest
      obtain rfl : file' = file := congrArg (fun q => q.2.2.1) heq
      obtain ⟨pre', rfl, hpre', c, rest, rfl, hc⟩ := getTwo_eq_some hsecond
      have hskip : filePart false (64 :: (pre' ++ c :: rest)) = filePart true (pre' ++ c :: rest) :=
        rfl
      rw [hskip, filePart_append hpre', filePart, if_pos (by simpa using hc)]

lemma scheme_append_right (ht : Free t) (s : Bytes) :
    scheme (s ++ t) = (scheme s).map fun p => (p.1, p.2 ++ t) := by
  by_cases hcolon : 58 ∈ s
  · obtain ⟨proto, rest, rfl, hproto⟩ := List.eq_append_cons_of_mem hcolon
    have hdrop (r : Bytes) : (proto ++ 58 :: r).drop (proto.length + 1) = r := by simp
    have hdrop3 (r : Bytes) : (proto ++ 58 :: r).drop (proto.length + 3) = r.drop 2 := by simp
    have htwo : (rest ++ t).take 2 = [47, 47] ↔ rest.take 2 = [47, 47] := by
      match rest with
      | [] =>
        refine iff_of_false (fun h => ?_) (by simp)
        have hmem : (47 : UInt8) ∈ t.take 2 := by
          rw [← List.nil_append t, h]
          exact List.mem_cons_self
        exact (ht 47 (List.mem_of_mem_take hmem)).2.1 rfl
      | [x] =>
        refine iff_of_false (fun h => ?_) (by simp)
        have hmem : (47 : UInt8) ∈ t.take 1 := by
          have htail : t.take 1 = [47] := List.tail_eq_of_cons_eq h
          rw [htail]
          exact List.mem_cons_self
        exact (ht 47 (List.mem_of_mem_take hmem)).2.1 rfl
      | x :: y :: rest => simp
    rw [List.append_assoc, List.cons_append, scheme, scheme, idxOf_append hproto,
      idxOf_append hproto, Option.bind_eq_bind, Option.bind_some, Option.bind_some, hdrop, hdrop, hdrop3, hdrop3]
    by_cases h : rest.take 2 = [47, 47]
    · have hlen : 2 ≤ rest.length := by
        have := congrArg List.length h
        rw [List.length_take] at this
        simp only [List.length_cons, List.length_nil] at this
        omega
      rw [if_pos h, if_pos (htwo.mpr h), Option.map_some, List.drop_append_of_le_length hlen]
      simp
    · rw [if_neg h, if_neg (fun h' => h (htwo.mp h'))]
      rfl
  · have hnone : (58 : UInt8) ∉ s ++ t := by
      rw [List.mem_append, not_or]
      exact ⟨hcolon, fun h => (ht 58 h).1 rfl⟩
    rw [scheme, scheme, List.idxOf?_eq_none_iff.mpr hcolon, List.idxOf?_eq_none_iff.mpr hnone]
    rfl

lemma args_create (proto user passwd server : Bytes) (port : ℤ) (file : Bytes) :
    (create proto user passwd server port file).args = argsOf file := rfl

-- What is appended belongs to the file, and nothing else changes.
lemma parse_append (ht : Free t) (s : Bytes) :
    ((parse s = none ∧ parse (s ++ t) = none) ∨ ∃ u u', parse s = some u ∧
      parse (s ++ t) = some u' ∧ u.args = argsOf (fileText s) ∧
        u'.args = argsOf (fileText s ++ t)) := by
  rw [parse, parse, scheme_append_right ht, fileText]
  cases hscheme : scheme s with
  | none => exact .inr ⟨_, _, rfl, rfl, rfl, rfl⟩
  | some p =>
    obtain ⟨proto, rest⟩ := p
    simp only [Option.map_some, cut_append ht]
    cases hcut : cut rest (defaultPort proto) with
    | none => exact .inl ⟨rfl, rfl⟩
    | some q =>
      obtain ⟨host, port, file, user, pass⟩ := q
      have hfile := filePart_cut hcut
      refine .inr ⟨_, _, rfl, rfl, ?_, ?_⟩
      · rw [args_create, hfile]
      · rw [args_create, hfile]

end Appended

section Args

variable {s file short query : Bytes} {arg : Bytes × Bytes} {l : List (Bytes × Bytes)}

lemma argsOf_of_notMem (h : 63 ∉ file) : argsOf file = [] := by
  rw [argsOf, cutAt_of_notMem h]
  rfl

lemma argsOf_append (h : 63 ∉ short) (query : Bytes) :
    argsOf (short ++ 63 :: query) = cutArgs query := by
  rw [argsOf, cutAt_append h]

lemma mem_filePart {seen : Bool} {c : UInt8} (h : c ∈ filePart seen s) : c ∈ s := by
  induction s generalizing seen with
  | nil => exact h
  | cons x s ih =>
    rw [filePart] at h
    split_ifs at h
    · exact h
    · exact List.mem_cons_of_mem x (ih h)

lemma mem_fileText {c : UInt8} (h : c ∈ fileText s) : c ∈ s := by
  rw [fileText] at h
  cases hscheme : scheme s with
  | none => rwa [hscheme] at h
  | some p =>
    obtain ⟨proto, rest⟩ := p
    rw [hscheme] at h
    obtain ⟨colon, -, hif⟩ := Option.bind_eq_some_iff.mp hscheme
    split_ifs at hif
    obtain ⟨-, rfl⟩ := Prod.mk.inj (Option.some.inj hif)
    exact List.mem_of_mem_drop (mem_filePart h)

-- Appended with the separator that the whole text calls for, arguments are found behind those of
-- the file exactly if that is the right separator for the file.
lemma argsOf_put (h : ∀ a ∈ arg :: l, a.1 ≠ []) :
    argsOf (fileText s ++ (if 63 ∈ s then 38 else 63) :: manageArgs arg l) =
      argsOf (fileText s) ++ arg :: l ↔ QueryOpen s := by
  have hnil := manageArgs_ne_nil arg l h
  have hclean : 63 ∉ manageArgs arg l := notMem_manageArgs (.inl rfl) arg l
  have hread := split_manageArgs arg l
  by_cases hmark : 63 ∈ s
  · rw [if_pos hmark]
    by_cases hfile : 63 ∈ fileText s
    · obtain ⟨short, query, heq, hshort⟩ := List.eq_append_cons_of_mem hfile
      have hsame : QueryOpen s ↔ query ≠ [] := by
        constructor
        · rintro (hnot | ⟨short', query', heq', hshort', hquery⟩)
          · exact absurd hmark hnot
          · have hcut := cutAt_append hshort query
            rw [← heq, heq', cutAt_append hshort'] at hcut
            exact (Prod.mk.inj hcut).2 ▸ hquery
        · exact fun hquery => .inr ⟨short, query, heq, hshort, hquery⟩
      have htext : (short ++ 63 :: query) ++ 38 :: manageArgs arg l =
          short ++ 63 :: (query ++ 38 :: manageArgs arg l) := by simp
      have hall : query ++ 38 :: manageArgs arg l ≠ [] := by simp
      rw [hsame, heq, htext, argsOf_append hshort, argsOf_append hshort, cutArgs_of_ne hall,
        split_append, List.map_append, hread]
      by_cases hquery : query = []
      · subst hquery
        refine iff_of_false (fun h => ?_) (by simp)
        have hlen := congrArg List.length h
        simp [split, cutArgs] at hlen
      · rw [cutArgs_of_ne hquery]
        exact iff_of_true rfl hquery
    · have hnot : 63 ∉ fileText s ++ 38 :: manageArgs arg l := by
        rw [List.mem_append, List.mem_cons, not_or, not_or]
        exact ⟨hfile, by decide, hclean⟩
      rw [argsOf_of_notMem hnot, argsOf_of_notMem hfile]
      refine iff_of_false (by simp) ?_
      rintro (hs | ⟨short, query, heq, -⟩)
      · exact hs hmark
      · exact hfile (heq ▸ by simp)
  · have hfile : 63 ∉ fileText s := fun h => hmark (mem_fileText h)
    rw [if_neg hmark, argsOf_append hfile, argsOf_of_notMem hfile, cutArgs_of_ne hnil, hread]
    exact iff_of_true rfl (.inl hmark)

lemma ofString_args (args : List (Bytes × Bytes)) (hargs : ∀ a ∈ args, a.1 ≠ []) (s : Bytes) :
    (ofString [] s = none ∧ ofString args s = none) ∨
      ∃ u u', ofString [] s = some u ∧ ofString args s = some u' ∧
        (u'.args = u.args ++ args ↔ args = [] ∨ QueryOpen (s.dropWhile (· = 47))) := by
  cases args with
  | nil =>
    cases hu : ofString [] s with
    | none => exact .inl ⟨rfl, rfl⟩
    | some u => exact .inr ⟨u, u, rfl, rfl, by simp⟩
  | cons arg l =>
    simp only [ofString, putArgs]
    set s := s.dropWhile (· = 47)
    have hfree : Free ((if 63 ∈ s then 38 else 63) :: manageArgs arg l) := by
      have hclean {c : UInt8} (hc : c = 63 ∨ c = 47 ∨ c = 58 ∨ c = 64) {x : UInt8}
          (hx : x ∈ manageArgs arg l) : x ≠ c := fun h => notMem_manageArgs hc arg l (h ▸ hx)
      refine List.forall_mem_cons.mpr ⟨by split_ifs <;> decide, fun x hx => ?_⟩
      exact ⟨hclean (by simp) hx, hclean (by simp) hx, hclean (by simp) hx⟩
    rcases parse_append hfree s with hnone | ⟨u, u', hu, hu', hargs₁, hargs₂⟩
    · exact .inl hnone
    · refine .inr ⟨u, u', hu, hu', ?_⟩
      rw [hargs₁, hargs₂, argsOf_put hargs]
      simp

end Args

-- The four parts of what a URL is: components are read, and read back from what is printed,
-- exactly if there is a path and the port is an int; arguments come behind those of the URL
-- exactly if its question mark, if any, is in the file and not at its end; what is encoded is
-- decoded, with plus signs or not; and decoding replaces what it is to replace exactly if behind
-- no percent sign stand a hexadecimal digit and an underscore.
theorem url_iff (p : Components) (args : List (Bytes × Bytes)) (hargs : ∀ a ∈ args, a.1 ≠ [])
    (raw : Bool) (s : Bytes) :
    ((ofString [] p.text = some p.url ∧ ofString [] p.url.toString = some p.url) ↔
      p.path.isSome ∧ ∀ port ∈ p.port, number port < 2 ^ 62) ∧
    ((ofString [] s = none ∧ ofString args s = none) ∨
      ∃ u u', ofString [] s = some u ∧ ofString args s = some u' ∧
        (u'.args = u.args ++ args ↔ args = [] ∨ QueryOpen (s.dropWhile (· = 47)))) ∧
    decode raw (encode s) = s ∧
    (decode raw s = decoded raw s ↔ Digits s) :=
  ⟨ofString_components_iff p, ofString_args args hargs s, decode_encode raw s, decode_eq_iff raw s⟩

-- "http://u:p@h:80/f?q"
def everything : Components where
  proto := http
  user := some [117]
  passwd := some [112]
  server := [104]
  port := some [56, 48]
  path := some [102]
  query := some [113]
  user_of_passwd := id
  plain_proto := by unfold Plain; decide +kernel
  plain_user := by unfold Plain; decide +kernel
  plain_passwd := by unfold Plain; decide +kernel
  plain_server := by unfold Plain; decide +kernel
  digits_port := by decide +kernel
  plain_path := by unfold Plain; decide +kernel
  plain_query := by unfold Plain; decide +kernel

-- The argument "x" of "f?x" stays in front of two others, of which one has characters to encode.
theorem url_iff_everything :
    (ofString [] everything.text = some everything.url ∧
      ofString [] everything.url.toString = some everything.url) ∧
    (∃ u u', ofString [] [102, 63, 120] = some u ∧
      ofString [([97], [98]), ([99], [32, 37, 43])] [102, 63, 120] = some u' ∧
      u'.args = u.args ++ [([97], [98]), ([99], [32, 37, 43])]) := by
  obtain ⟨hread, hargs, -⟩ := url_iff everything [([97], [98]), ([99], [32, 37, 43])] (by simp) true
    [102, 63, 120]
  refine ⟨hread.mpr ⟨rfl, by decide⟩, ?_⟩
  rcases hargs with ⟨hnone, -⟩ | ⟨u, u', hu, hu', hiff⟩
  · cases hnone
  · exact ⟨u, u', hu, hu', hiff.mpr (.inr (.inr ⟨[102], [120], by decide, by decide, by decide⟩))⟩

-- "http://h"
def withoutPath : Components where
  proto := http
  user := none
  passwd := none
  server := [104]
  port := none
  path := none
  query := none
  user_of_passwd := id
  plain_proto := by unfold Plain; decide +kernel
  plain_user := by simp
  plain_passwd := by simp
  plain_server := by unfold Plain; decide +kernel
  digits_port := by simp
  plain_path := by simp
  plain_query := by simp

-- Without a path the components are not read; a digit before an underscore is decoded, and
-- arguments behind a question mark at the end come with an empty one.
theorem url_fails :
    ofString [] withoutPath.text = none ∧
    decode true [37, 52, 95] ≠ decoded true [37, 52, 95] ∧
    ∃ u, ofString [([97], [98])] [102, 63] = some u ∧ u.args = [([], []), ([97], [98])] := by
  have hdigits : ¬ Digits [37, 52, 95] := fun h => h 52 (by decide) List.infix_rfl
  refine ⟨?_, fun h => hdigits ((decode_eq_iff true _).mp h), _, rfl, ?_⟩
  · rw [Components.text, ofString_scheme withoutPath.plain_proto, withoutPath.cut_none rfl]
    rfl
  · have hempty : readArg [] = ([], []) := by simp [readArg, cutAt, decode]
    have hfile : argsOf ([102] ++ 63 :: 38 :: manageArgs ([97], [98]) []) =
        [([], []), ([97], [98])] := by
      have hsplit : split 38 (38 :: manageArgs ([97], [98]) []) =
          [] :: split 38 (manageArgs ([97], [98]) []) := rfl
      rw [argsOf_append (by decide), cutArgs_of_ne (List.cons_ne_nil _ _), hsplit, List.map_cons,
        hempty, split_manageArgs]
    exact hfile

end Mldonkey.Urls
