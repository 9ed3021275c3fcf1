import Mldonkey.Hashes.Digest
import Mldonkey.Urls.Coding

-- Identifiers of files as texts and as names of temporary files. None stands for an exception.
namespace Mldonkey.Uids

open Bencode (Bytes ofString)
open Hashes (Hash)
open Indexing (lowercase)
open Urls (cutAt cutAt_append cutAt_of_notMem)

inductive UidType
  | bitprint (sha1 : Hash 20) (ttr : Hash 24)
  | sha1 (sha1 : Hash 20)
  | md5 (md5 : Hash 16)
  | ed2k (ed2k : Hash 16)
  | tigerTree (ttr : Hash 24)
  | md5Ext (md5 : Hash 20)
  | btUrl (url : Hash 20)
  | fileTP (file : Hash 16)
  | noUid
  deriving DecidableEq

def urn (sep sign rem : Bytes) : Bytes := ofString "urn" ++ sep ++ sign ++ sep ++ rem

def stringOfUidSep (uid : UidType) (sep : Bytes) : Bytes :=
  match uid with
  | .bitprint sha1 ttr => urn sep (ofString "bitprint") (sha1.toBase32 ++ ofString "." ++ ttr.toBase32)
  | .sha1 sha1 => urn sep (ofString "sha1") sha1.toBase32
  | .ed2k ed2k => urn sep (ofString "ed2k") ed2k.toBase16
  | .md5 md5 => urn sep (ofString "md5") md5.toBase16
  | .tigerTree ttr => urn sep (ofString "tree") (ofString "tiger" ++ sep ++ ttr.toBase32)
  | .md5Ext md5 => urn sep (ofString "sig2dat") md5.toBase32
  | .btUrl url => urn sep (ofString "btih") url.toBase32
  | .fileTP file => urn sep (ofString "filetp") file.toBase16
  | .noUid => []

def stringOfUid (uid : UidType) : Bytes := stringOfUidSep uid (ofString ":")

def fileStringOfUid (uid : UidType) : Bytes := stringOfUidSep uid (ofString "_")

-- String2.before and String2.after; none stands for Invalid_argument.
def before (s : Bytes) (pos : ℕ) : Option Bytes := if pos ≤ s.length then some (s.take pos) else none

def after (s : Bytes) (pos : ℕ) : Option Bytes := if pos ≤ s.length then some (s.drop pos) else none

-- The match on the name of the hash
def uidOfSign (sign rem : Bytes) : Option UidType :=
  if sign = ofString "ed2k" then (Hash.ofBase16 16 rem).map .ed2k
  else if sign = ofString "bitprint" ∨ sign = ofString "bp" then do
    let (sha1, ttr) := cutAt rem 46
    let sha1 ← Hash.ofBase32 20 sha1
    let tiger ← Hash.ofBase32 24 ttr
    return .bitprint sha1 tiger
  else if sign = ofString "sha1" then (Hash.ofBase32 20 rem).map .sha1
  else if sign = ofString "tree" then
    let (tiger, rem) := cutAt rem 58
    if tiger ≠ ofString "tiger" then none else (Hash.ofBase32 24 rem).map .tigerTree
  else if sign = ofString "ttr" then (Hash.ofBase32 24 rem).map .tigerTree
  else if sign = ofString "md5" then (Hash.ofBase16 16 rem).map .md5
  else if sign = ofString "sig2dat" then (Hash.ofBase32 20 rem).map .md5Ext
  else if sign = ofString "bt" ∨ sign = ofString "btih" then
    (if rem.length = 40 then Hash.ofBase16 20 rem else Hash.ofBase32 20 rem).map .btUrl
  else if sign = ofString "filetp" then (Hash.ofBase16 16 rem).map .fileTP
  else none

def sepOf (urn : Bytes) : Option UInt8 :=
  if urn = ofString "urn:" then some 58 else if urn = ofString "urn_" then some 95 else none

def uidOfString (s : Bytes) : Option UidType := do
  let s := s.map lowercase
  let urn ← before s 4
  let rem ← after s 4
  let sep ← sepOf urn
  let (sign, rem) := cutAt rem sep
  uidOfSign sign rem

-- Uid.t, which is abstract: all its values keep the text of their identifier.
structure Uid where
  uidString : Bytes
  uidType : UidType
  uidString_eq : uidString = stringOfUid uidType

def no : Uid := ⟨[], .noUid, rfl⟩

def create (uid : UidType) : Uid := ⟨stringOfUid uid, uid, rfl⟩

def Uid.ofString (s : Bytes) : Option Uid := do
  let uid ← uidOfString s
  let s := stringOfUid uid
  return ⟨s, uid, by rfl⟩

def Uid.toString (t : Uid) : Bytes := t.uidString

def Uid.toFileString (t : Uid) : Bytes := fileStringOfUid t.uidType

def Uid.toUid (t : Uid) : UidType := t.uidType

section RoundTrip

variable {n : ℕ} {sep : UInt8} {sign rem : Bytes}

-- A text with a separator is read by its name and by what stands behind, in small letters.
lemma uidOfString_urn (hsep : sep = 58 ∨ sep = 95) (hsign : sign.map lowercase = sign)
    (hnot : sep ∉ sign) (rem : Bytes) :
    uidOfString (urn [sep] sign rem) = uidOfSign sign (rem.map lowercase) := by
  have hlower : (urn [sep] sign rem).map lowercase =
      ofString "urn" ++ sep :: (sign ++ sep :: rem.map lowercase) := by
    have hurn : (ofString "urn").map lowercase = ofString "urn" := by decide
    have hsame : lowercase sep = sep := by rcases hsep with rfl | rfl <;> decide
    simp only [urn, List.map_append, List.map_cons, hurn, hsame, hsign,
      List.append_assoc, List.cons_append, List.nil_append]
  have hlen : 4 ≤ (ofString "urn" ++ sep :: (sign ++ sep :: rem.map lowercase)).length := by
    rw [List.length_append, List.length_cons]
    exact Nat.add_le_add (le_of_eq rfl) (Nat.le_add_left 1 _)
  have hbefore : (ofString "urn" ++ sep :: (sign ++ sep :: rem.map lowercase)).take 4 =
      ofString "urn" ++ [sep] := rfl
  have hafter : (ofString "urn" ++ sep :: (sign ++ sep :: rem.map lowercase)).drop 4 =
      sign ++ sep :: rem.map lowercase := rfl
  have hread : sepOf (ofString "urn" ++ [sep]) = some sep := by
    rcases hsep with rfl | rfl <;> decide
  rw [uidOfString, hlower, before, if_pos hlen, after, if_pos hlen, hbefore, hafter]
  simp only [Option.bind_eq_bind, Option.bind_some, hread, cutAt_append hnot]

lemma ofBase16_map (h : Hash n) (f : Hash n → UidType) :
    (Hash.ofBase16 n (h.toBase16.map lowercase)).map f = some (f h) := by
  rw [Hashes.ofBase16_toBase16, Option.map_some]

lemma ofBase32_map (h : Hash n) (f : Hash n → UidType) :
    (Hash.ofBase32 n (h.toBase32.map lowercase)).map f = some (f h) := by
  rw [Hashes.ofBase32_toBase32, Option.map_some]

lemma notMem_toBase32 (h : Hash n) {c : UInt8} (hc : Base32.inAlphabet c = false) :
    c ∉ h.toBase32.map lowercase := fun hmem => by
  rw [Hashes.toBase32_alphabet h hmem] at hc
  cases hc

lemma uidOfSign_bitprint (sha1 : Hash 20) (ttr : Hash 24) :
    uidOfSign (ofString "bitprint")
      ((sha1.toBase32 ++ ofString "." ++ ttr.toBase32).map lowercase) =
      some (.bitprint sha1 ttr) := by
  have hdot : (sha1.toBase32 ++ ofString "." ++ ttr.toBase32).map lowercase =
      sha1.toBase32.map lowercase ++ 46 :: ttr.toBase32.map lowercase := by
    have hlower : (ofString ".").map lowercase = [46] := by decide
    rw [List.map_append, List.map_append, hlower, List.append_assoc]
    rfl
  have hcut := cutAt_append (notMem_toBase32 sha1 (c := 46) rfl) (ttr.toBase32.map lowercase)
  have hunfold (rem : Bytes) : uidOfSign (ofString "bitprint") rem =
      (Hash.ofBase32 20 (cutAt rem 46).1).bind fun sha1 =>
        (Hash.ofBase32 24 (cutAt rem 46).2).bind fun tiger => some (.bitprint sha1 tiger) := rfl
  rw [hunfold, hdot, hcut, Hashes.ofBase32_toBase32, Option.bind_some, Hashes.ofBase32_toBase32,
    Option.bind_some]

-- The name of the tree is cut off at a colon, whatever the separator is.
lemma uidOfSign_tree (sep : UInt8) (ttr : Hash 24) (hsep : sep = 58 ∨ sep = 95) :
    uidOfSign (ofString "tree") ((ofString "tiger" ++ [sep] ++ ttr.toBase32).map lowercase) =
      if sep = 58 then some (.tigerTree ttr) else none := by
  have hunfold (rem : Bytes) : uidOfSign (ofString "tree") rem =
      if (cutAt rem 58).1 ≠ ofString "tiger" then none
      else (Hash.ofBase32 24 (cutAt rem 58).2).map .tigerTree := rfl
  have hlower : (ofString "tiger").map lowercase = ofString "tiger" := by decide
  have hcolon : 58 ∉ ofString "tiger" := by decide
  rw [hunfold, List.map_append, List.map_append, hlower, List.append_assoc]
  rcases hsep with rfl | rfl
  · have hcut := cutAt_append hcolon (ttr.toBase32.map lowercase)
    have hone : [58].map lowercase ++ ttr.toBase32.map lowercase =
        58 :: ttr.toBase32.map lowercase := rfl
    rw [hone, hcut, if_neg (not_not.mpr rfl), if_pos rfl]
    exact ofBase32_map ttr .tigerTree
  · have hnot : 58 ∉ ofString "tiger" ++ ([95].map lowercase ++ ttr.toBase32.map lowercase) := by
      rw [List.mem_append, List.mem_append, not_or, not_or]
      exact ⟨hcolon, by decide, notMem_toBase32 ttr rfl⟩
    have hlong : ofString "tiger" ++ ([95].map lowercase ++ ttr.toBase32.map lowercase) ≠
        ofString "tiger" := by simp
    rw [cutAt_of_notMem hnot, if_pos hlong, if_neg (by decide)]

lemma uidOfString_sep (hsep : sep = 58 ∨ sep = 95) (u : UidType) :
    uidOfString (stringOfUidSep u [sep]) =
      match u with
      | .noUid => none
      | .tigerTree ttr => if sep = 58 then some (.tigerTree ttr) else none
      | u => some u := by
  have hnot {sign : Bytes} (h58 : 58 ∉ sign) (h95 : 95 ∉ sign) : sep ∉ sign := by
    rcases hsep with rfl | rfl
    · exact h58
    · exact h95
  cases u with
  | bitprint sha1 ttr =>
    rw [stringOfUidSep, uidOfString_urn hsep (by decide) (hnot (by decide) (by decide))]
    exact uidOfSign_bitprint sha1 ttr
  | sha1 h =>
    rw [stringOfUidSep, uidOfString_urn hsep (by decide) (hnot (by decide) (by decide))]
    exact ofBase32_map h .sha1
  | md5 h =>
    rw [stringOfUidSep, uidOfString_urn hsep (by decide) (hnot (by decide) (by decide))]
    exact ofBase16_map h .md5
  | ed2k h =>
    rw [stringOfUidSep, uidOfString_urn hsep (by decide) (hnot (by decide) (by decide))]
    exact ofBase16_map h .ed2k
  | tigerTree h =>
    rw [stringOfUidSep, uidOfString_urn hsep (by decide) (hnot (by decide) (by decide))]
    exact uidOfSign_tree sep h hsep
  | md5Ext h =>
    rw [stringOfUidSep, uidOfString_urn hsep (by decide) (hnot (by decide) (by decide))]
    exact ofBase32_map h .md5Ext
  | btUrl h =>
    rw [stringOfUidSep, uidOfString_urn hsep (by decide) (hnot (by decide) (by decide))]
    have hlen : ¬ (h.toBase32.map lowercase).length = 40 := by
      rw [List.length_map, Hashes.length_toBase32]
      decide
    have hunfold (rem : Bytes) : uidOfSign (ofString "btih") rem =
        (if rem.length = 40 then Hash.ofBase16 20 rem else Hash.ofBase32 20 rem).map .btUrl := rfl
    rw [hunfold, if_neg hlen]
    exact ofBase32_map h .btUrl
  | fileTP h =>
    rw [stringOfUidSep, uidOfString_urn hsep (by decide) (hnot (by decide) (by decide))]
    exact ofBase16_map h .fileTP
  | noUid => rfl

end RoundTrip

-- An identifier is read back from its text unless it is none, and from the name of its file
-- unless it is a tree hash.
theorem uid_roundtrip_iff (u : UidType) :
    ((Uid.ofString (create u).toString).map Uid.toUid = some u ↔ u ≠ .noUid) ∧
      (uidOfString (create u).toFileString = some u ↔ u ≠ .noUid ∧ ∀ ttr, u ≠ .tigerTree ttr) := by
  have htext : uidOfString (stringOfUid u) = _ := uidOfString_sep (.inl rfl) u
  have hfile : uidOfString (fileStringOfUid u) = _ := uidOfString_sep (.inr rfl) u
  have hof : (Uid.ofString (create u).toString).map Uid.toUid = uidOfString (stringOfUid u) := by
    rw [create, Uid.toString, Uid.ofString]
    cases uidOfString (stringOfUid u) <;> rfl
  rw [hof, create, Uid.toFileString, htext, hfile]
  cases u <;> simp

-- The tree hash of zeroes
theorem tigerTree_file_unread :
    uidOfString (create (.tigerTree ⟨List.replicate 24 0, rfl⟩)).toFileString = none := by
  have hfile : uidOfString (fileStringOfUid (.tigerTree ⟨List.replicate 24 0, rfl⟩)) = none :=
    uidOfString_sep (.inr rfl) (.tigerTree ⟨List.replicate 24 0, rfl⟩)
  exact hfile

end Mldonkey.Uids
