import Mldonkey.Filename.Normalize
import Mldonkey.Lib.BitString
import Mathlib.Data.List.DropRight

-- File names that a file system accepts. None stands for an exception.
namespace Mldonkey.Filename2

open Bencode (Bytes)
open BitString (forall_byte)

inductive Fstype
  | win
  | mac
  | posix
  | unknown
  deriving DecidableEq, Repr

-- String.rindex
def rindex (s : Bytes) (c : UInt8) : Option ℕ :=
  (s.reverse.findIdx? (· = c)).map (s.length - 1 - ·)

def extension (slash : UInt8) (file : Bytes) : Bytes :=
  let pos2 := (rindex file slash).getD 0
  match (file.drop pos2).findIdx? (· = 46) with
  | some pos => file.drop (pos2 + pos)
  | none => []

def escapeChars (p : UInt8 → Bool) (filename : Bytes) : Bytes :=
  filename.map fun c => if p c then 95 else c

def trimLeft (p : UInt8 → Bool) (filename : Bytes) : Bytes := filename.dropWhile p

def trimRight (p : UInt8 → Bool) (filename : Bytes) : Bytes := filename.rdropWhile p

-- / \ < > "
def minimalFilter (c : UInt8) : Bool := c = 47 || c = 92 || c = 60 || c = 62 || c = 34

-- * ? | : "
def windowsFilter (c : UInt8) : Bool :=
  minimalFilter c || (c = 42 || c = 63 || c = 124 || c = 58 || c = 34)

def macosxFilter (c : UInt8) : Bool := minimalFilter c || c = 58

def posixCompliant (name : Bytes) : Bytes := escapeChars minimalFilter name

def windowsTrimmed (name : Bytes) : Bytes :=
  trimRight (fun c => c = 46 || c = 32) (trimLeft (fun c => c = 46) name)

def windowsCompliant (name : Bytes) : Bytes := escapeChars windowsFilter (windowsTrimmed name)

def macosxCompliant (name : Bytes) : Bytes := escapeChars macosxFilter name

def removeLastSpaces (s : Bytes) : Bytes := s.rdropWhile (· = 32)

-- String.sub s 0 n
def subFirst (s : Bytes) (n : ℤ) : Option Bytes :=
  if 0 ≤ n ∧ n ≤ s.length then some (s.take n.toNat) else none

def sysChecked (name : Bytes) : Fstype → Bytes
  | .win => windowsCompliant name
  | .mac => macosxCompliant name
  | .posix => posixCompliant name
  | .unknown => posixCompliant name

def fsChecked (name : Bytes) (fstype : Fstype) : Bytes :=
  match fstype with
  | .win => removeLastSpaces (sysChecked name fstype)
  | _ => sysChecked name fstype

-- The extension is looked for with the slash of the host.
def filesystemCompliant (slash : UInt8) (name : Bytes) (fstype : Fstype) (namemax : ℤ) :
    Option Bytes :=
  let sysCheckedName := sysChecked name fstype
  let fsCheckedName := fsChecked name fstype
  if namemax < 1 ∨ sysCheckedName.length < namemax then some fsCheckedName
  else
    let ext := extension slash fsCheckedName
    if namemax < ext.length then subFirst fsCheckedName namemax
    else (subFirst fsCheckedName (namemax - ext.length)).map (· ++ ext)

section Cut

variable {s e : Bytes} {n : ℕ} {f : UInt8 → UInt8}

-- The part before the first dot, and what begins with it
def base (s : Bytes) : Bytes := s.takeWhile (· ≠ 46)

def ext (s : Bytes) : Bytes := s.dropWhile (· ≠ 46)

-- The length check
def cut (s : Bytes) (n : ℕ) : Bytes :=
  if s.length < n then s
  else if n < (ext s).length then s.take n
  else s.take (n - (ext s).length) ++ ext s

lemma base_append_ext (s : Bytes) : base s ++ ext s = s := List.takeWhile_append_dropWhile

lemma length_base_add (s : Bytes) : (base s).length + (ext s).length = s.length := by
  rw [← List.length_append, base_append_ext]

lemma notMem_base (s : Bytes) : 46 ∉ base s := fun h => by
  simpa using List.mem_takeWhile_imp h

lemma head_ext (s : Bytes) : ext s = [] ∨ (ext s).head? = some 46 := by
  cases h : ext s with
  | nil => exact .inl rfl
  | cons c l =>
    have hhead := List.head?_dropWhile_not (fun c : UInt8 => decide (c ≠ 46)) s
    rw [← ext, h] at hhead
    exact .inr (by simpa using hhead)

lemma cut_of_ext_le (hn : n ≤ s.length) (he : (ext s).length ≤ n) :
    cut s n = (base s).take (n - (ext s).length) ++ ext s := by
  have hlen := length_base_add s
  have htake : s.take (n - (ext s).length) = (base s).take (n - (ext s).length) := by
    have hle : n - (ext s).length ≤ (base s).length := by omega
    have happend : (base s ++ ext s).take (n - (ext s).length) = _ :=
      List.take_append_of_le_length hle
    rw [← happend, base_append_ext]
  rw [cut, if_neg (by omega), if_neg (by omega), htake]

lemma length_cut (s : Bytes) (n : ℕ) : (cut s n).length = min n s.length := by
  have hlen := length_base_add s
  by_cases hn : s.length < n
  · rw [cut, if_pos hn]
    omega
  · by_cases he : n < (ext s).length
    · rw [cut, if_neg hn, if_pos he, List.length_take]
    · rw [cut_of_ext_le (by omega) (by omega), List.length_append, List.length_take]
      omega

lemma cut_of_le (hn : s.length ≤ n) : cut s n = s := by
  have hlen := length_base_add s
  rcases hn.lt_or_eq with hlt | rfl
  · rw [cut, if_pos hlt]
  · have hbase : s.length - (ext s).length = (base s).length := by omega
    rw [cut_of_ext_le le_rfl (by omega), hbase, List.take_length, base_append_ext]

lemma ext_map (hf : ∀ c, f c = 46 ↔ c = 46) (s : Bytes) : ext (s.map f) = (ext s).map f := by
  rw [ext, List.dropWhile_map, ext]
  congr 2
  funext c
  simp [hf c]

lemma cut_map (hf : ∀ c, f c = 46 ↔ c = 46) (s : Bytes) (n : ℕ) :
    cut (s.map f) n = (cut s n).map f := by
  rw [cut, cut, ext_map hf, List.length_map, List.length_map]
  split_ifs <;> simp

end Cut

section Compliant

variable {s name : Bytes} {fstype : Fstype} {n : ℕ}

-- The characters that a kind of file system does not allow
def forbidden : Fstype → UInt8 → Bool
  | .win => windowsFilter
  | .mac => macosxFilter
  | .posix => minimalFilter
  | .unknown => minimalFilter

def replaced (fstype : Fstype) (c : UInt8) : UInt8 := if forbidden fstype c then 95 else c

-- What a name is before its characters are replaced
def trimmed : Fstype → Bytes → Bytes
  | .win => windowsTrimmed
  | _ => id

lemma extension_eq {slash : UInt8} (h : slash ∉ s) : extension slash s = ext s := by
  have hfind (s : Bytes) : (match s.findIdx? (· = 46) with
      | some pos => s.drop (0 + pos)
      | none => []) = ext s := by
    induction s with
    | nil => rfl
    | cons c s ih =>
      by_cases hc : c = 46
      · simp [hc, ext, List.findIdx?_cons]
      · rw [ext, List.dropWhile_cons_of_pos (by simpa using hc), ← ext, ← ih, List.findIdx?_cons,
          if_neg (by simpa using hc)]
        cases s.findIdx? (· = 46) <;> simp
  have hnone : s.reverse.findIdx? (· = slash) = none := by
    rw [List.findIdx?_eq_none_iff]
    intro c hc
    simpa using ne_of_mem_of_not_mem (List.mem_reverse.mp hc) h
  rw [extension, rindex, hnone]
  exact hfind s

lemma replaced_spec (fstype : Fstype) (c : UInt8) :
    forbidden fstype (replaced fstype c) = false ∧ (replaced fstype c = 46 ↔ c = 46) ∧
      (replaced fstype c = 32 ↔ c = 32) := by
  have hall : ∀ fstype, ∀ c, forbidden fstype (replaced fstype c) = false ∧
      (replaced fstype c = 46 ↔ c = 46) ∧ (replaced fstype c = 32 ↔ c = 32) := by
    intro fstype
    refine forall_byte ?_
    cases fstype <;> decide
  exact hall fstype c

lemma forbidden_separators (fstype : Fstype) :
    forbidden fstype 47 = true ∧ forbidden fstype 92 = true := by
  cases fstype <;> decide

lemma replaced_of_allowed {c : UInt8} (h : forbidden fstype c = false) :
    replaced fstype c = c := by
  rw [replaced, if_neg (by simp [h])]

lemma last_windowsTrimmed {c : UInt8} (h : (windowsTrimmed name).getLast? = some c) :
    c ≠ 46 ∧ c ≠ 32 := by
  have hne : windowsTrimmed name ≠ [] := by
    intro hnil
    rw [hnil] at h
    cases h
  have hlast := List.rdropWhile_last_not (fun c : UInt8 => c = 46 || c = 32) _ hne
  rw [List.getLast?_eq_some_getLast hne] at h
  have hc : (List.rdropWhile (fun c : UInt8 => c = 46 || c = 32) _).getLast hne = c :=
    Option.some.inj h
  rw [hc] at hlast
  simpa using hlast

lemma head_windowsTrimmed (name : Bytes) : (windowsTrimmed name).head? ≠ some 46 := by
  intro h
  obtain ⟨r, hr⟩ := List.rdropWhile_prefix (fun c : UInt8 => c = 46 || c = 32)
    (trimLeft (fun c => c = 46) name)
  have hhead : (trimLeft (fun c => c = 46) name).head? = some 46 := by
    obtain ⟨l, hl⟩ := List.head?_eq_some_iff.mp h
    rw [← hr, ← trimRight, ← windowsTrimmed, hl]
    rfl
  have hdrop := List.head?_dropWhile_not (fun c : UInt8 => decide (c = 46)) name
  rw [trimLeft] at hhead
  rw [hhead] at hdrop
  simp at hdrop

-- Trimming does nothing exactly if there is nothing to trim.
lemma windowsTrimmed_eq_self (hhead : s.head? ≠ some 46)
    (hlast : ∀ c, s.getLast? = some c → c ≠ 46 ∧ c ≠ 32) : windowsTrimmed s = s := by
  have hleft : trimLeft (fun c => c = 46) s = s := by
    cases s with
    | nil => rfl
    | cons c s => exact List.dropWhile_cons_of_neg (by simpa using hhead)
  rw [windowsTrimmed, hleft]
  exact List.rdropWhile_eq_self_iff.mpr fun hne => by
    simpa using hlast _ (List.getLast?_eq_some_getLast hne)

lemma length_windowsTrimmed_lt (hhead : s.head? = some 46) :
    (windowsTrimmed s).length < s.length := by
  obtain ⟨l, rfl⟩ := List.head?_eq_some_iff.mp hhead
  have hright := (List.rdropWhile_prefix (fun c : UInt8 => c = 46 || c = 32)
    (trimLeft (fun c => c = 46) (46 :: l))).length_le
  have hleft := (List.dropWhile_suffix (fun c : UInt8 => c = 46) (l := l)).length_le
  exact Nat.lt_succ_of_le (hright.trans hleft)

lemma sysChecked_eq (name : Bytes) (fstype : Fstype) :
    sysChecked name fstype = (trimmed fstype name).map (replaced fstype) := by
  cases fstype <;> rfl

lemma getLast_map_replaced (fstype : Fstype) (s : Bytes) {c : UInt8} (hc : c = 46 ∨ c = 32) :
    (s.map (replaced fstype)).getLast? = some c ↔ s.getLast? = some c := by
  rw [List.getLast?_map, Option.map_eq_some_iff]
  constructor
  · rintro ⟨d, hd, hrep⟩
    obtain ⟨-, hdot, hspace⟩ := replaced_spec fstype d
    rcases hc with rfl | rfl
    · rw [hd, hdot.mp hrep]
    · rw [hd, hspace.mp hrep]
  · intro h
    obtain ⟨-, hdot, hspace⟩ := replaced_spec fstype c
    exact ⟨c, h, hc.elim (fun h => (hdot.mpr h).trans h.symm) fun h => (hspace.mpr h).trans h.symm⟩

-- No space is left at the end to remove.
lemma fsChecked_eq (name : Bytes) (fstype : Fstype) :
    fsChecked name fstype = (trimmed fstype name).map (replaced fstype) := by
  rw [← sysChecked_eq]
  cases fstype with
  | win =>
    refine List.rdropWhile_eq_self_iff.mpr fun hne hlast => ?_
    have hspace : (sysChecked name .win).getLast? = some 32 := by
      rw [List.getLast?_eq_some_getLast hne]
      simpa using hlast
    rw [sysChecked_eq, getLast_map_replaced .win _ (.inr rfl)] at hspace
    exact (last_windowsTrimmed hspace).2 rfl
  | _ => rfl

lemma filesystemCompliant_eq (win32 : Bool) (name : Bytes) (fstype : Fstype) (hn : 1 ≤ n) :
    filesystemCompliant (slash win32) name fstype n =
      some ((cut (trimmed fstype name) n).map (replaced fstype)) := by
  rw [← cut_map fun c => (replaced_spec fstype c).2.1, filesystemCompliant, sysChecked_eq,
    fsChecked_eq]
  set s := (trimmed fstype name).map (replaced fstype) with hs
  have hslash : slash win32 ∉ s := by
    intro hmem
    obtain ⟨c, -, hc⟩ := List.mem_map.mp hmem
    have hallowed := (replaced_spec fstype c).1
    obtain ⟨hslash, hbackslash⟩ := forbidden_separators fstype
    rw [hc] at hallowed
    cases win32
    · exact absurd (hslash.symm.trans hallowed) (by decide)
    · exact absurd (hbackslash.symm.trans hallowed) (by decide)
  have hlen := length_base_add s
  have hsub {k : ℕ} (hk : k ≤ s.length) : subFirst s k = some (s.take k) := by
    rw [subFirst, if_pos ⟨by omega, by omega⟩, Int.toNat_natCast]
  simp only [extension_eq hslash]
  by_cases hlt : s.length < n
  · rw [if_pos (by omega), cut, if_pos hlt]
  · rw [if_neg (by omega), cut, if_neg hlt]
    by_cases hext : n < (ext s).length
    · rw [if_pos (by omega), if_pos hext, hsub (by omega)]
    · have hcast : (n : ℤ) - (ext s).length = ((n - (ext s).length : ℕ) : ℤ) := by omega
      rw [if_neg (by omega), if_neg hext, hcast, hsub (by omega), Option.map_some]

-- What the result is to be
structure Sound (win32 : Bool) (fstype : Fstype) (namemax : ℕ) (r : Bytes) : Prop where
  no_separator : 47 ∉ r ∧ 92 ∉ r
  allowed : ∀ c ∈ r, forbidden fstype c = false
  not_dots : r ≠ dot ∧ r ≠ dotdot
  length_le : r.length ≤ namemax
  windows_end : fstype = .win → ∀ c, r.getLast? = some c → c ≠ 46 ∧ c ≠ 32
  idempotent : filesystemCompliant (slash win32) r fstype namemax = some r

lemma head_map_replaced (fstype : Fstype) (s : Bytes) :
    (s.map (replaced fstype)).head? = some 46 ↔ s.head? = some 46 := by
  have hdot c := (replaced_spec fstype c).2.1
  cases s <;> simp [hdot]

lemma map_replaced_dots (fstype : Fstype) (s : Bytes) :
    s.map (replaced fstype) = dot ∨ s.map (replaced fstype) = dotdot ↔ s = dot ∨ s = dotdot := by
  have hdot c := (replaced_spec fstype c).2.1
  simp [dot, dotdot, List.map_eq_cons_iff, hdot]

lemma sound_iff (win32 : Bool) (hn : 1 ≤ n) (hs : s.length ≤ n) :
    Sound win32 fstype n (s.map (replaced fstype)) ↔ ¬ (s = dot ∨ s = dotdot) ∧
      (fstype = .win → s.head? ≠ some 46 ∧ ∀ c, s.getLast? = some c → c ≠ 46 ∧ c ≠ 32) := by
  set r := s.map (replaced fstype) with hr
  have hallowed : ∀ c ∈ r, forbidden fstype c = false := by
    intro c hc
    obtain ⟨d, -, rfl⟩ := List.mem_map.mp hc
    exact (replaced_spec fstype d).1
  have hlen : r.length ≤ n := (List.length_map _).trans_le hs
  have hkept : r.map (replaced fstype) = r :=
    (List.map_congr_left fun c hc => replaced_of_allowed (hallowed c hc)).trans r.map_id
  have hends : (∀ c, r.getLast? = some c → c ≠ 46 ∧ c ≠ 32) ↔
      ∀ c, s.getLast? = some c → c ≠ 46 ∧ c ≠ 32 := by
    have hiff (s : Bytes) : (∀ c, s.getLast? = some c → c ≠ 46 ∧ c ≠ 32) ↔
        s.getLast? ≠ some 46 ∧ s.getLast? ≠ some 32 :=
      ⟨fun h => ⟨fun h46 => (h 46 h46).1 rfl, fun h32 => (h 32 h32).2 rfl⟩, fun h c hc =>
        ⟨fun h46 => h.1 (h46 ▸ hc), fun h32 => h.2 (h32 ▸ hc)⟩⟩
    rw [hiff, hiff, ne_eq, ne_eq, getLast_map_replaced fstype s (.inl rfl),
      getLast_map_replaced fstype s (.inr rfl)]
  constructor
  · intro h
    refine ⟨fun hdots => ?_, fun hwin => ⟨fun hhead => ?_, hends.mp (h.windows_end hwin)⟩⟩
    · exact ((map_replaced_dots fstype s).mpr hdots).elim h.not_dots.1 h.not_dots.2
    · -- a dot at the beginning would be trimmed
      have hagain := h.idempotent
      rw [filesystemCompliant_eq win32 r fstype hn, Option.some_inj] at hagain
      have hcut := congrArg List.length hagain
      have hlt := length_windowsTrimmed_lt ((head_map_replaced fstype s).mpr hhead)
      rw [List.length_map, length_cut, hwin, trimmed] at hcut
      rw [← hr] at hlt
      omega
  · rintro ⟨hdots, hwin⟩
    have hseparators := forbidden_separators fstype
    refine ⟨⟨fun h => ?_, fun h => ?_⟩, hallowed, ?_, hlen, fun h => hends.mpr (hwin h).2, ?_⟩
    · exact absurd (hseparators.1.symm.trans (hallowed 47 h)) (by decide)
    · exact absurd (hseparators.2.symm.trans (hallowed 92 h)) (by decide)
    · rw [← not_or, map_replaced_dots]
      exact hdots
    · have htrimmed : trimmed fstype r = r := by
        cases fstype with
        | win =>
          obtain ⟨hhead, hlast⟩ := hwin rfl
          exact windowsTrimmed_eq_self (fun h => hhead ((head_map_replaced .win s).mp h))
            (hends.mpr hlast)
        | _ => rfl
      rw [filesystemCompliant_eq win32 r fstype hn, htrimmed, cut_of_le hlen, hkept]

-- A name whose cut leaves neither of the two directory names
def CutsClean (name : Bytes) (n : ℕ) : Prop :=
  (name.length < n → ¬ (name = dot ∨ name = dotdot)) ∧
  (n ≤ name.length → n < (ext name).length → ¬ (name.take n = dot ∨ name.take n = dotdot)) ∧
  (n ≤ name.length → (ext name).length = n → ¬ (ext name = dot ∨ ext name = dotdot))

-- A trimmed name whose cut leaves nothing to trim
def CutsTrimmed (t : Bytes) (n : ℕ) : Prop :=
  t.length < n ∨
  (n < (ext t).length ∨ ext t = []) ∧ (∀ c, t[n - 1]? = some c → c ≠ 46 ∧ c ≠ 32) ∨
  (ext t ≠ [] ∧ (ext t).length < n)

def Complies (fstype : Fstype) (name : Bytes) (n : ℕ) : Prop :=
  if fstype = .win then CutsTrimmed (windowsTrimmed name) n else CutsClean name n

lemma cut_dots_iff (s : Bytes) (n : ℕ) : ¬ (cut s n = dot ∨ cut s n = dotdot) ↔ CutsClean s n := by
  have hlen := length_base_add s
  rw [CutsClean]
  by_cases hlt : s.length < n
  · rw [cut, if_pos hlt]
    exact ⟨fun h => ⟨fun _ => h, by omega, by omega⟩, fun h => h.1 hlt⟩
  by_cases hext : n < (ext s).length
  · rw [cut, if_neg hlt, if_pos hext]
    exact ⟨fun h => ⟨fun h => absurd h hlt, fun _ _ => h, by omega⟩, fun h => h.2.1 (by omega) hext⟩
  have hcut := cut_of_ext_le (s := s) (n := n) (by omega) (by omega)
  have hsame : (cut s n = dot ∨ cut s n = dotdot) ↔
      (ext s).length = n ∧ (ext s = dot ∨ ext s = dotdot) := by
    constructor
    · intro hdots
      have hall : ∀ c ∈ cut s n, c = 46 := by
        intro c hc
        rcases hdots with h | h
        · rw [h] at hc
          simpa [dot] using hc
        · rw [h] at hc
          simpa [dotdot] using hc
      have hnil : (base s).take (n - (ext s).length) = [] := by
        refine List.eq_nil_iff_forall_not_mem.mpr fun c hc => ?_
        have hdot := hall c (by rw [hcut]; exact List.mem_append_left _ hc)
        exact notMem_base s (hdot ▸ List.mem_of_mem_take hc)
      rw [hnil, List.nil_append] at hcut
      have hlencut := length_cut s n
      rw [hcut] at hlencut hdots
      exact ⟨by omega, hdots⟩
    · rintro ⟨heq, hdots⟩
      rw [hcut, heq, Nat.sub_self, List.take_zero, List.nil_append]
      exact hdots
  rw [hsame]
  exact ⟨fun h => ⟨by omega, by omega, fun _ heq hdots => h ⟨heq, hdots⟩⟩,
    fun h ⟨heq, hdots⟩ => h.2.2 (by omega) heq hdots⟩

lemma cut_trimmed_iff (hn : 1 ≤ n) (hhead : s.head? ≠ some 46)
    (hlast : ∀ c, s.getLast? = some c → c ≠ 46 ∧ c ≠ 32) :
    ((cut s n).head? ≠ some 46 ∧ ∀ c, (cut s n).getLast? = some c → c ≠ 46 ∧ c ≠ 32) ↔
      CutsTrimmed s n := by
  have hlen := length_base_add s
  rw [CutsTrimmed]
  by_cases hlt : s.length < n
  · rw [cut, if_pos hlt]
    exact iff_of_true ⟨hhead, hlast⟩ (.inl hlt)
  have htake : (s.take n).head? ≠ some 46 ∧
      ((∀ c, (s.take n).getLast? = some c → c ≠ 46 ∧ c ≠ 32) ↔
        ∀ c, s[n - 1]? = some c → c ≠ 46 ∧ c ≠ 32) := by
    have hget : s[n - 1]? = some s[n - 1] := List.getElem?_eq_getElem _
    rw [List.head?_take, if_neg (by omega), List.getLast?_take, if_neg (by omega), hget]
    exact ⟨hhead, by simp⟩
  by_cases hext : n < (ext s).length
  · rw [cut, if_neg hlt, if_pos hext, and_iff_right htake.1, htake.2]
    have hshort : ¬ (ext s).length < n := by omega
    simp [hlt, hext, hshort]
  by_cases hnil : ext s = []
  · rw [cut, if_neg hlt, if_neg hext, hnil, List.length_nil, Nat.sub_zero, List.append_nil,
      and_iff_right htake.1, htake.2]
    simp [hlt]
  have hcut := cut_of_ext_le (s := s) (n := n) (by omega) (by omega)
  have hlastcut : ∀ c, (cut s n).getLast? = some c → c ≠ 46 ∧ c ≠ 32 := by
    intro c hc
    refine hlast c ?_
    rw [← hc, hcut, List.getLast?_append_of_ne_nil _ hnil]
    conv_lhs => rw [← base_append_ext s]
    exact List.getLast?_append_of_ne_nil _ hnil
  have hheadcut : (cut s n).head? ≠ some 46 ↔ (ext s).length < n := by
    rw [hcut]
    by_cases heq : (ext s).length = n
    · have hdot := (head_ext s).resolve_left hnil
      rw [heq, Nat.sub_self, List.take_zero, List.nil_append, hdot]
      simp
    · refine iff_of_true ?_ (by omega)
      have hbase : base s ≠ [] := fun h => by
        rw [h, List.length_nil] at hlen
        omega
      obtain ⟨c, b, hb⟩ := List.exists_cons_of_ne_nil hbase
      obtain ⟨k, hk⟩ : ∃ k, n - (ext s).length = k + 1 := ⟨n - (ext s).length - 1, by omega⟩
      have hc : c ≠ 46 := fun h => notMem_base s (by rw [hb, h]; exact List.mem_cons_self)
      rw [hk, hb]
      simpa using hc
  rw [and_iff_left hlastcut, hheadcut]
  simp [hlt, hext, hnil]

-- The result is sound exactly if the cut leaves nothing that the checks before would have changed
-- and neither of the two directory names.
theorem filesystemCompliant_iff (win32 : Bool) (name : Bytes) (fstype : Fstype) (namemax : ℕ)
    (hn : 1 ≤ namemax) :
    (∃ r, filesystemCompliant (slash win32) name fstype namemax = some r ∧
      Sound win32 fstype namemax r) ↔ Complies fstype name namemax := by
  have hcut : (cut (trimmed fstype name) namemax).length ≤ namemax := by
    rw [length_cut]
    exact min_le_left _ _
  rw [filesystemCompliant_eq win32 name fstype hn]
  simp only [Option.some_inj, exists_eq_left', sound_iff win32 hn hcut, Complies]
  by_cases hwin : fstype = .win
  · subst hwin
    have hiff := cut_trimmed_iff hn (head_windowsTrimmed name) fun c => last_windowsTrimmed
    rw [if_pos rfl, ← hiff]
    refine ⟨fun h => h.2 rfl, fun h => ⟨?_, fun _ => h⟩⟩
    rintro (hdots | hdots)
    · exact h.1 (congrArg List.head? hdots)
    · exact h.1 (congrArg List.head? hdots)
  · have htrimmed : trimmed fstype name = name := by
      cases fstype <;> first | rfl | exact absurd rfl hwin
    rw [if_neg hwin, htrimmed, ← cut_dots_iff]
    exact ⟨fun h => h.1, fun h => ⟨h, fun heq => absurd heq hwin⟩⟩

theorem filesystemCompliant_iff_short : ∃ r,
    filesystemCompliant (slash false) [97, 47, 98, 46, 99] .posix 4 = some r ∧
      Sound false .posix 4 r := by
  refine (filesystemCompliant_iff false [97, 47, 98, 46, 99] .posix 4 (by decide)).mpr ?_
  have hclean : CutsClean [97, 47, 98, 46, 99] 4 := by
    rw [CutsClean]
    decide
  exact hclean

-- "abc def" loses its end and not the space before it; ".." goes through where it is no longer
-- than the limit.
theorem filesystemCompliant_unsound :
    filesystemCompliant (slash true) [97, 98, 99, 32, 100, 101, 102] .win 4 =
      some [97, 98, 99, 32] ∧ ¬ Sound true .win 4 [97, 98, 99, 32] ∧
    filesystemCompliant (slash false) dotdot .posix 255 = some dotdot ∧
      ¬ Sound false .posix 255 dotdot := by
  refine ⟨by decide, fun h => ?_, by decide, fun h => h.not_dots.2 rfl⟩
  exact (h.windows_end rfl 32 rfl).2 rfl

end Compliant

end Mldonkey.Filename2
