import Mldonkey.Urls.Coding

-- URLs as records and as texts. None stands for an exception.
namespace Mldonkey.Urls

open Bencode (Bytes ofString decimal number isDigit)
open FileTP (intOfString)
open Indexing (split split_append)

structure Url where
  proto : Bytes
  server : Bytes
  port : ℤ
  fullFile : Bytes
  shortFile : Bytes
  user : Bytes
  passwd : Bytes
  args : List (Bytes × Bytes)
  string : Bytes
  deriving DecidableEq

-- string_of_int
def stringOfInt (i : ℤ) : Bytes := if i < 0 then 45 :: decimal i.natAbs else decimal i.natAbs

def http : Bytes := Bencode.ofString "http"
def ftp : Bytes := Bencode.ofString "ftp"
def ssh : Bytes := Bencode.ofString "ssh"

def portString (proto : Bytes) (port : ℤ) : Bytes :=
  if proto = http ∧ port = 80 ∨ proto = ftp ∧ port = 21 ∨ proto = ssh ∧ port = 22 then []
  else if proto = http ∨ proto = ftp ∨ proto = ssh then 58 :: stringOfInt port
  else if port ≠ 0 then 58 :: stringOfInt port
  else []

-- The first to_string, which the string of a record is made with
def Url.contents (url : Url) : Bytes :=
  url.proto ++ [58, 47, 47] ++
    (if url.user ≠ [] ∨ url.passwd ≠ [] then url.user ++ 58 :: url.passwd ++ [64] else []) ++
    url.server ++ portString url.proto url.port ++ url.fullFile

def create (proto user passwd server : Bytes) (port : ℤ) (fullFile : Bytes) : Url :=
  let (shortFile, args) := cutAt fullFile 63
  let args := cutArgs args
  let url : Url := ⟨proto, server, port, fullFile, shortFile, user, passwd, args, []⟩
  { url with string := url.contents }

-- Up to a character, which is missing where the loop runs out of the string
def scanTo (stop : UInt8 → Bool) : Bytes → Option (Bytes × Bytes)
  | [] => none
  | c :: s => if stop c then some ([], c :: s) else (scanTo stop s).map fun (a, r) => (c :: a, r)

def getTwo (s : Bytes) : Option (Bytes × Bytes × Bytes) := do
  let (first, rest) ← scanTo (fun c => c = 58 || c = 47 || c = 64) s
  match rest with
  | 58 :: rest =>
      let (second, rest) ← scanTo (fun c => c = 64 || c = 47) rest
      return (first, second, rest)
  | rest => return (first, [], rest)

def readPort (defaultPort : ℤ) (portStr : Bytes) : Option ℤ :=
  if portStr = [] then some defaultPort else intOfString portStr

-- Host, port, file, user and password
def cut (s : Bytes) (defaultPort : ℤ) : Option (Bytes × ℤ × Bytes × Bytes × Bytes) := do
  let (strA, strB, rest) ← getTwo s
  match rest with
  | 64 :: rest =>
      let (host, portStr, file) ← getTwo rest
      let port ← readPort defaultPort portStr
      return (host, port, file, strA, strB)
  | file =>
      let port ← readPort defaultPort strB
      return (strA, port, file, [], [])

def defaultPort (proto : Bytes) : ℤ :=
  if proto = http then 80 else if proto = ftp then 21 else if proto = ssh then 22 else 0

-- The protocol and what stands behind the two slashes; none stands for Not_found.
def scheme (s : Bytes) : Option (Bytes × Bytes) := do
  let colon ← s.idxOf? 58
  if (s.drop (colon + 1)).take 2 = [47, 47] then some (s.take colon, s.drop (colon + 3)) else none

def fileUrl (s : Bytes) : Url :=
  let (shortFile, args) := cutAt s 63
  ⟨Bencode.ofString "file", [], 0, s, shortFile, [], [], cutArgs args, s⟩

def parse (s : Bytes) : Option Url :=
  match scheme s with
  | some (proto, rest) => do
      let (host, port, fullFile, user, pass) ← cut rest (defaultPort proto)
      return create proto user pass host port fullFile
  | none => some (fileUrl s)

def ofString (args : List (Bytes × Bytes)) (s : Bytes) : Option Url :=
  let s := s.dropWhile (· = 47)
  let s := putArgs s args
  parse s

def Url.toString (url : Url) : Bytes := url.string

section Scan

variable {stop : UInt8 → Bool} {a b r s t p : Bytes} {c : UInt8}

lemma scanTo_append (ha : ∀ x ∈ a, stop x = false) (hc : stop c = true) (r : Bytes) :
    scanTo stop (a ++ c :: r) = some (a, c :: r) := by
  induction a with
  | nil => rw [List.nil_append, scanTo, if_pos hc]
  | cons x a ih =>
    obtain ⟨hx, ha⟩ := List.forall_mem_cons.mp ha
    rw [List.cons_append, scanTo, hx, ih ha]
    rfl

lemma scanTo_eq_none (ha : ∀ x ∈ a, stop x = false) : scanTo stop a = none := by
  induction a with
  | nil => rfl
  | cons x a ih =>
    obtain ⟨hx, ha⟩ := List.forall_mem_cons.mp ha
    rw [scanTo, hx, ih ha]
    rfl

-- What is appended and has no character to stop at is only found behind the stop.
lemma scanTo_append_right (ht : ∀ x ∈ t, stop x = false) (s : Bytes) :
    scanTo stop (s ++ t) = (scanTo stop s).map fun p => (p.1, p.2 ++ t) := by
  induction s with
  | nil => exact scanTo_eq_none ht
  | cons x s ih =>
    rw [List.cons_append, scanTo, scanTo]
    split_ifs
    · rfl
    · rw [ih, Option.map_map, Option.map_map]
      rfl

-- No character at which a user, a password, a server or a port ends
def Free (s : Bytes) : Prop := ∀ x ∈ s, x ≠ 58 ∧ x ≠ 47 ∧ x ≠ 64

lemma Free.two (h : Free s) : ∀ x ∈ s, (x = 64 || x = 47) = false := fun x hx => by
  obtain ⟨-, h47, h64⟩ := h x hx
  simp [h47, h64]

lemma Free.three (h : Free s) : ∀ x ∈ s, (x = 58 || x = 47 || x = 64) = false := fun x hx => by
  obtain ⟨h58, h47, h64⟩ := h x hx
  simp [h58, h47, h64]

-- A text and perhaps another one behind a colon
def paired (a : Bytes) (b : Option Bytes) : Bytes :=
  match b with
  | none => a
  | some b => a ++ 58 :: b

lemma getTwo_paired (ha : Free a) {b : Option Bytes} (hb : ∀ x ∈ b, Free x)
    (hc : c = 47 ∨ c = 64) (r : Bytes) :
    getTwo (paired a b ++ c :: r) = some (a, b.getD [], c :: r) := by
  have hstop : (c = 58 || c = 47 || c = 64) = true := by rcases hc with rfl | rfl <;> rfl
  have hstop' : (c = 64 || c = 47) = true := by rcases hc with rfl | rfl <;> rfl
  cases b with
  | none =>
    rw [getTwo, paired, scanTo_append ha.three hstop]
    rcases hc with rfl | rfl <;> rfl
  | some b =>
    have hcolon : ((58 : UInt8) = 58 || (58 : UInt8) = 47 || (58 : UInt8) = 64) = true := rfl
    rw [getTwo, paired, List.append_assoc, List.cons_append, scanTo_append ha.three hcolon]
    simp only [Option.bind_eq_bind, Option.bind_some, scanTo_append (hb b rfl).two hstop']
    rfl

lemma getTwo_paired_none (ha : Free a) {b : Option Bytes} (hb : ∀ x ∈ b, Free x)
    (hr : Free r) : getTwo (paired a b ++ r) = none := by
  have hfree {x : Bytes} (hx : Free x) : Free (x ++ r) := fun y hy =>
    (List.mem_append.mp hy).elim (hx y) (hr y)
  cases b with
  | none =>
    rw [getTwo, paired, scanTo_eq_none (hfree ha).three]
    rfl
  | some b =>
    have hcolon : ((58 : UInt8) = 58 || (58 : UInt8) = 47 || (58 : UInt8) = 64) = true := rfl
    rw [getTwo, paired, List.append_assoc, List.cons_append, scanTo_append ha.three hcolon]
    simp only [Option.bind_eq_bind, Option.bind_some, scanTo_eq_none (hfree (hb b rfl)).two]
    rfl

end Scan

section Components

-- The characters that separate the components
def separator (c : UInt8) : Bool := c = 58 || c = 47 || c = 64 || c = 63 || c = 38 || c = 61

def Plain (s : Bytes) : Prop := ∀ c ∈ s, separator c = false

-- The components of a URL; the password comes with a user.
structure Components where
  proto : Bytes
  user : Option Bytes
  passwd : Option Bytes
  server : Bytes
  port : Option Bytes
  path : Option Bytes
  query : Option Bytes
  user_of_passwd : passwd.isSome → user.isSome
  plain_proto : Plain proto
  plain_user : ∀ s ∈ user, Plain s
  plain_passwd : ∀ s ∈ passwd, Plain s
  plain_server : Plain server
  digits_port : ∀ s ∈ port, s ≠ [] ∧ ∀ c ∈ s, isDigit c
  plain_path : ∀ s ∈ path, Plain s
  plain_query : ∀ s ∈ query, Plain s

variable (p : Components)

def Components.file : Bytes :=
  (match p.path with
    | none => []
    | some path => 47 :: path) ++
  match p.query with
    | none => []
    | some query => 63 :: query

def Components.rest : Bytes :=
  (match p.user with
    | none => []
    | some user => paired user p.passwd ++ [64]) ++
  paired p.server p.port ++ p.file

-- proto://[user[:passwd]@]server[:port][/path][?query]
def Components.text : Bytes := p.proto ++ [58, 47, 47] ++ p.rest

-- The record with exactly these components
def Components.url : Url :=
  let url : Url :=
    { proto := p.proto
      server := p.server
      port := match p.port with
        | none => defaultPort p.proto
        | some port => number port
      fullFile := p.file
      shortFile := match p.path with
        | none => []
        | some path => 47 :: path
      user := p.user.getD []
      passwd := p.passwd.getD []
      args := match p.query with
        | none => []
        | some query => if query = [] then [] else [(decode false query, [])]
      string := [] }
  { url with string := url.contents }

variable {p} {s t : Bytes} {c : UInt8}

lemma Plain.free (h : Plain s) : Free s := fun c hc => by
  have := h c hc
  simp only [separator, Bool.or_eq_false_iff, decide_eq_false_iff_not] at this
  exact ⟨this.1.1.1.1.1, this.1.1.1.1.2, this.1.1.1.2⟩

lemma Plain.notMem (h : Plain s) (hc : separator c = true) : c ∉ s := fun hmem => by
  rw [h c hmem] at hc
  cases hc

lemma plain_digits (h : ∀ c ∈ s, isDigit c) : Plain s := by
  have hall : ∀ c, isDigit c = true → separator c = false :=
    BitString.forall_byte (by decide)
  exact fun c hc => hall c (h c hc)

lemma plain_nil : Plain [] := fun _ h => absurd h List.not_mem_nil

lemma idxOf_append (h : c ∉ s) (t : Bytes) : (s ++ c :: t).idxOf? c = some s.length := by
  induction s with
  | nil => simp [List.idxOf?_cons]
  | cons x s ih =>
    rw [List.mem_cons, not_or] at h
    have hx : ¬ x = c := Ne.symm h.1
    rw [List.cons_append, List.idxOf?_cons, ih h.2]
    simp [hx]

lemma scheme_append (h : 58 ∉ s) (t : Bytes) : scheme (s ++ [58, 47, 47] ++ t) = some (s, t) := by
  have htext : s ++ [58, 47, 47] ++ t = s ++ 58 :: 47 :: 47 :: t := by simp
  have htwo : (47 :: 47 :: t).take 2 = [47, 47] := rfl
  have hdrop : (s ++ 58 :: 47 :: 47 :: t).drop (s.length + 1) = 47 :: 47 :: t := by
    simp
  have hdrop3 : (s ++ 58 :: 47 :: 47 :: t).drop (s.length + 3) = t := by simp
  rw [htext, scheme, idxOf_append h, Option.bind_eq_bind, Option.bind_some, hdrop, hdrop3,
    if_pos htwo]
  simp

-- Leading slashes are dropped, and a protocol has none.
lemma ofString_scheme (h : Plain s) (t : Bytes) : ofString [] (s ++ [58, 47, 47] ++ t) =
    (cut t (defaultPort s)).map fun (host, port, file, user, pass) =>
      create s user pass host port file := by
  have hdrop : (s ++ [58, 47, 47] ++ t).dropWhile (· = 47) = s ++ [58, 47, 47] ++ t := by
    cases s with
    | nil => rfl
    | cons c s =>
      have hc : c ≠ 47 := fun hc => h.notMem (c := 47) rfl (hc ▸ List.mem_cons_self)
      exact List.dropWhile_cons_of_neg (by simpa using hc)
  simp only [ofString, hdrop, putArgs, parse, scheme_append (h.notMem rfl)]
  cases cut t (defaultPort s) <;> rfl

end Components

section Numbers

variable {s : Bytes} {n : ℕ}

-- What is read is the number, and fits 64 bits.
lemma restOfDigits_eq_some (l : Bytes) (h : ∀ c ∈ l, isDigit c) {n k : ℕ} (hn : n < 2 ^ 64)
    (hrest : Bencode.restOfDigits 10 n l = some k) :
    k = l.foldl (fun n c => 10 * n + (c.toNat - 48)) n ∧ k < 2 ^ 64 := by
  induction l generalizing n with
  | nil =>
    obtain rfl := Option.some.inj hrest
    exact ⟨rfl, hn⟩
  | cons c l ih =>
    have hd := h c List.mem_cons_self
    have hu : c ≠ Bencode.chr '_' := by
      rintro rfl
      exact absurd hd (by decide)
    rw [Bencode.restOfDigits, if_neg hu, Bencode.digitValue_ten hd] at hrest
    simp only at hrest
    split_ifs at hrest with hlt
    exact ih (fun d hd => h d (List.mem_cons_of_mem c hd)) hlt hrest

-- A decimal number is read exactly if it is an int.
lemma intOfString_digits (hne : s ≠ []) (h : ∀ c ∈ s, isDigit c) :
    intOfString s = if number s < 2 ^ 62 then some (number s : ℤ) else none := by
  obtain ⟨c, l, rfl⟩ := List.exists_cons_of_ne_nil hne
  have hnum : l.foldl (fun n c => 10 * n + (c.toNat - 48)) (c.toNat - 48) = number (c :: l) := by
    rw [number, List.foldl_cons, Nat.mul_zero, Nat.zero_add]
  have hl : ∀ d ∈ l, isDigit d := fun d hd => h d (List.mem_cons_of_mem c hd)
  simp only [intOfString, Bencode.signAndBase_digits h, Bencode.digitValue_ten (h c List.mem_cons_self),
    Option.bind_eq_bind, Option.bind_some, if_true, Bool.false_eq_true, if_false]
  by_cases hlt : number (c :: l) < 2 ^ 64
  · rw [Bencode.restOfDigits_ten l hl _ (hnum ▸ hlt), hnum, Option.bind_some]
    split_ifs <;> first | rfl | omega
  · have hnone : Bencode.restOfDigits 10 (c.toNat - 48) l = none := by
      cases hrest : Bencode.restOfDigits 10 (c.toNat - 48) l with
      | none => rfl
      | some k =>
        have hc := c.toNat_lt
        obtain ⟨rfl, hk⟩ := restOfDigits_eq_some l hl (by omega) hrest
        exact absurd (hnum ▸ hk) hlt
    rw [hnone, if_neg (by omega)]
    rfl

end Numbers

section Parsing

variable (p : Components)

-- The port that of_string finds, where it is an int
def portOf (proto : Bytes) : Option Bytes → Option ℤ
  | none => some (defaultPort proto)
  | some port => if number port < 2 ^ 62 then some (number port) else none

lemma portOf_eq (proto : Bytes) {port : Option Bytes}
    (h : ∀ s ∈ port, s ≠ [] ∧ ∀ c ∈ s, isDigit c) :
    readPort (defaultPort proto) (port.getD []) = portOf proto port := by
  cases port with
  | none => exact if_pos rfl
  | some port =>
    obtain ⟨hne, hdigits⟩ := h port rfl
    exact (if_neg hne).trans (intOfString_digits hne hdigits)

lemma Components.free_port : ∀ s ∈ p.port, Free s := fun s hs =>
  (plain_digits (p.digits_port s hs).2).free

lemma Components.free_query : Free (match p.query with
    | none => []
    | some query => 63 :: query) := by
  have hquery := p.plain_query
  cases hq : p.query with
  | none => exact plain_nil.free
  | some query =>
    rw [hq] at hquery
    exact List.forall_mem_cons.mpr ⟨by decide, (hquery query rfl).free⟩

-- With a path, the two scans end at its slash.
lemma Components.cut_path {path : Bytes} (hpath : p.path = some path) :
    cut p.rest (defaultPort p.proto) = (portOf p.proto p.port).map fun port =>
      (p.server, port, p.file, p.user.getD [], p.passwd.getD []) := by
  obtain ⟨r, hfile⟩ : ∃ r, p.file = 47 :: r := by
    rw [Components.file, hpath]
    exact ⟨_, rfl⟩
  have hserver := getTwo_paired p.plain_server.free p.free_port (c := 47) (.inl rfl) r
  have hport := portOf_eq p.proto p.digits_port
  rw [Components.rest, hfile]
  cases huser : p.user with
  | none =>
    have hpasswd : p.passwd = none := by
      rw [← Option.not_isSome_iff_eq_none]
      intro h
      have := p.user_of_passwd h
      rw [huser] at this
      cases this
    rw [List.nil_append, cut, hserver, hpasswd]
    simp only [Option.bind_eq_bind, Option.bind_some, hport]
    cases portOf p.proto p.port <;> rfl
  | some user =>
    have hfirst := getTwo_paired (p.plain_user user huser).free
      (fun s hs => (p.plain_passwd s hs).free) (c := 64) (.inr rfl)
      (paired p.server p.port ++ 47 :: r)
    have htext : paired user p.passwd ++ [64] ++ paired p.server p.port ++ 47 :: r =
        paired user p.passwd ++ 64 :: (paired p.server p.port ++ 47 :: r) := by simp
    rw [htext, cut, hfirst]
    simp only [Option.bind_eq_bind, Option.bind_some, hserver, hport]
    cases portOf p.proto p.port <;> rfl

-- Without one, the last scan runs out of the string.
lemma Components.cut_none (hpath : p.path = none) :
    cut p.rest (defaultPort p.proto) = none := by
  have hfree : Free p.file := by
    rw [Components.file, hpath]
    exact p.free_query
  have hserver := getTwo_paired_none p.plain_server.free p.free_port hfree
  rw [Components.rest]
  cases huser : p.user with
  | none =>
    rw [List.nil_append, cut, hserver]
    rfl
  | some user =>
    have hfirst := getTwo_paired (p.plain_user user huser).free
      (fun s hs => (p.plain_passwd s hs).free) (c := 64) (.inr rfl)
      (paired p.server p.port ++ p.file)
    have htext : paired user p.passwd ++ [64] ++ paired p.server p.port ++ p.file =
        paired user p.passwd ++ 64 :: (paired p.server p.port ++ p.file) := by simp
    rw [htext, cut, hfirst]
    simp only [Option.bind_eq_bind, Option.bind_some, hserver]
    rfl

lemma create_file {path : Bytes} (hpath : p.path = some path) {port : ℤ}
    (hport : portOf p.proto p.port = some port) :
    create p.proto (p.user.getD []) (p.passwd.getD []) p.server port p.file = p.url := by
  have hplain : 63 ∉ 47 :: path := by
    rw [List.mem_cons, not_or]
    exact ⟨by decide, (p.plain_path path hpath).notMem rfl⟩
  have hvalue : p.url.port = port := by
    rw [Components.url]
    cases hp : p.port with
    | none =>
      rw [hp] at hport
      exact Option.some.inj hport
    | some digits =>
      rw [hp, portOf] at hport
      split_ifs at hport
      exact Option.some.inj hport
  have hcut : cutAt p.file 63 = (p.url.shortFile, p.query.getD []) := by
    have hshort : p.url.shortFile = 47 :: path := by rw [Components.url, hpath]
    rw [hshort, Components.file, hpath]
    cases p.query with
    | none => exact (List.append_nil _).symm ▸ cutAt_of_notMem hplain
    | some query => exact cutAt_append hplain query
  have hargs : cutArgs (p.query.getD []) = p.url.args := by
    rw [Components.url]
    cases hq : p.query with
    | none => rfl
    | some query =>
      by_cases hnil : query = []
      · simp [hnil, cutArgs]
      · have hamp : 38 ∉ query := (p.plain_query query hq).notMem rfl
        have heq : 61 ∉ query := (p.plain_query query hq).notMem rfl
        rw [Option.getD_some, cutArgs_of_ne hnil, Gnutella.split_of_notMem hamp]
        simp [hnil, readArg, cutAt_of_notMem heq, decode]
  simp only [create, hcut, hargs, ← hvalue]
  rfl

lemma ofString_text {path : Bytes} (hpath : p.path = some path) :
    ofString [] p.text = (portOf p.proto p.port).map fun _ => p.url := by
  rw [Components.text, ofString_scheme p.plain_proto, p.cut_path hpath, Option.map_map]
  cases hport : portOf p.proto p.port with
  | none => rfl
  | some port => exact congrArg some (create_file p hpath hport)

end Parsing

section Printing

variable (p : Components)

-- The port that to_string prints
def printedPort (proto : Bytes) (port : ℤ) : Option Bytes :=
  if proto = http ∧ port = 80 ∨ proto = ftp ∧ port = 21 ∨ proto = ssh ∧ port = 22 then none
  else if proto = http ∨ proto = ftp ∨ proto = ssh ∨ port ≠ 0 then some (stringOfInt port)
  else none

lemma paired_printedPort (server proto : Bytes) (port : ℤ) :
    paired server (printedPort proto port) = server ++ portString proto port := by
  rw [printedPort, portString]
  by_cases hstandard : proto = http ∧ port = 80 ∨ proto = ftp ∧ port = 21 ∨ proto = ssh ∧ port = 22
  · rw [if_pos hstandard, if_pos hstandard]
    exact (List.append_nil server).symm
  · rw [if_neg hstandard, if_neg hstandard]
    by_cases hknown : proto = http ∨ proto = ftp ∨ proto = ssh
    · have hany : proto = http ∨ proto = ftp ∨ proto = ssh ∨ port ≠ 0 := by tauto
      rw [if_pos hknown, if_pos hany]
      rfl
    · by_cases hzero : port ≠ 0
      · rw [if_neg hknown, if_pos (.inr (.inr (.inr hzero))), if_pos hzero]
        rfl
      · have hnone : ¬ (proto = http ∨ proto = ftp ∨ proto = ssh ∨ port ≠ 0) := by tauto
        rw [if_neg hknown, if_neg hnone, if_neg hzero]
        exact (List.append_nil server).symm

lemma stringOfInt_natCast (n : ℕ) : stringOfInt n = decimal n := by
  rw [stringOfInt, if_neg (by omega), Int.natAbs_natCast]

-- A port is read back, or found again from the protocol where it is not printed.
lemma portOf_printedPort (proto : Bytes) {n : ℕ} (hn : n < 2 ^ 62) :
    portOf proto (printedPort proto n) = some (n : ℤ) := by
  have hdefault : defaultPort http = 80 ∧ defaultPort ftp = 21 ∧ defaultPort ssh = 22 := by decide
  rw [printedPort]
  split_ifs with hstandard hprinted
  · rw [portOf]
    rcases hstandard with ⟨rfl, hport⟩ | ⟨rfl, hport⟩ | ⟨rfl, hport⟩ <;> rw [hport]
    · rw [hdefault.1]
    · rw [hdefault.2.1]
    · rw [hdefault.2.2]
  · rw [stringOfInt_natCast, portOf, Bencode.number_decimal, if_pos hn]
  · simp only [not_or, not_not] at hprinted
    obtain ⟨hhttp, hftp, hssh, hzero⟩ := hprinted
    rw [portOf, defaultPort, if_neg hhttp, if_neg hftp, if_neg hssh, hzero]

lemma digits_printedPort (proto : Bytes) (n : ℕ) :
    ∀ s ∈ printedPort proto n, s ≠ [] ∧ ∀ c ∈ s, isDigit c := by
  intro s hs
  rw [printedPort, stringOfInt_natCast] at hs
  split_ifs at hs
  · cases hs
  · obtain rfl : decimal n = s := by simpa using hs
    obtain ⟨c, l, hcl⟩ := Bencode.decimal_eq_cons n
    exact ⟨by rw [hcl]; exact List.cons_ne_nil c l, fun c hc => Bencode.isDigit_of_mem_decimal hc⟩
  · cases hs

-- The components of the printed text
def Components.printed (n : ℕ) : Components :=
  let shown := p.user.getD [] ≠ [] ∨ p.passwd.getD [] ≠ []
  { proto := p.proto
    user := if shown then some (p.user.getD []) else none
    passwd := if shown then some (p.passwd.getD []) else none
    server := p.server
    port := printedPort p.proto n
    path := p.path
    query := p.query
    user_of_passwd := by split_ifs <;> simp
    plain_proto := p.plain_proto
    plain_user := by
      intro s hs
      split_ifs at hs
      · obtain rfl : p.user.getD [] = s := by simpa using hs
        cases hu : p.user with
        | none => exact plain_nil
        | some user => exact p.plain_user user hu
      · cases hs
    plain_passwd := by
      intro s hs
      split_ifs at hs
      · obtain rfl : p.passwd.getD [] = s := by simpa using hs
        cases hu : p.passwd with
        | none => exact plain_nil
        | some passwd => exact p.plain_passwd passwd hu
      · cases hs
    plain_server := p.plain_server
    digits_port := digits_printedPort p.proto n
    plain_path := p.plain_path
    plain_query := p.plain_query }

variable {p} {n : ℕ}

lemma getD_printed (n : ℕ) : (p.printed n).user.getD [] = p.user.getD [] ∧
    (p.printed n).passwd.getD [] = p.passwd.getD [] := by
  by_cases hshown : p.user.getD [] ≠ [] ∨ p.passwd.getD [] ≠ []
  · simp only [Components.printed, if_pos hshown, Option.getD_some, and_self]
  · simp only [Components.printed, if_neg hshown, Option.getD_none]
    simp only [not_or, not_not] at hshown
    exact ⟨hshown.1.symm, hshown.2.symm⟩

-- The record of the printed text is the record that was printed.
lemma url_printed (hport : p.url.port = n) (hn : n < 2 ^ 62) : (p.printed n).url = p.url := by
  obtain ⟨huser, hpasswd⟩ := getD_printed (p := p) n
  have hread := portOf_printedPort p.proto hn
  have hsame : (p.printed n).url.port = p.url.port := by
    rw [hport]
    have hprinted : (p.printed n).port = printedPort p.proto n := rfl
    rw [Components.url, hprinted]
    cases hp : printedPort p.proto n with
    | none =>
      rw [hp] at hread
      exact Option.some.inj hread
    | some digits =>
      rw [hp, portOf] at hread
      split_ifs at hread
      exact Option.some.inj hread
  have hurl (p : Components) : p.url =
      let url : Url := ⟨p.proto, p.server, p.url.port, p.file, p.url.shortFile, p.user.getD [],
        p.passwd.getD [], p.url.args, []⟩
      { url with string := url.contents } := rfl
  rw [hurl (p.printed n), hurl p, hsame, huser, hpasswd]
  rfl

lemma text_printed (hport : p.url.port = n) : (p.printed n).text = p.url.toString := by
  have hstring : p.url.toString = p.proto ++ [58, 47, 47] ++
      (if p.user.getD [] ≠ [] ∨ p.passwd.getD [] ≠ [] then
        p.user.getD [] ++ 58 :: p.passwd.getD [] ++ [64] else []) ++
      p.server ++ portString p.proto n ++ p.file := by
    rw [← hport]
    rfl
  have hserver := paired_printedPort p.server p.proto n
  have htext : (p.printed n).text = p.proto ++ [58, 47, 47] ++
      ((if p.user.getD [] ≠ [] ∨ p.passwd.getD [] ≠ [] then
        p.user.getD [] ++ 58 :: p.passwd.getD [] ++ [64] else []) ++
      paired p.server (printedPort p.proto n) ++ p.file) := by
    rw [Components.text, Components.rest]
    simp only [Components.printed]
    split_ifs <;> rfl
  rw [htext, hstring, hserver]
  simp only [List.append_assoc]

-- A URL is read as its components exactly if it has a path and its port is an int; then its
-- record is read back from the text that is printed for it.
lemma ofString_components_iff (p : Components) :
    (ofString [] p.text = some p.url ∧ ofString [] p.url.toString = some p.url) ↔
      p.path.isSome ∧ ∀ port ∈ p.port, number port < 2 ^ 62 := by
  constructor
  · rintro ⟨htext, -⟩
    have hpath : p.path.isSome := by
      by_contra hnone
      rw [Option.not_isSome_iff_eq_none] at hnone
      rw [Components.text, ofString_scheme p.plain_proto, p.cut_none hnone] at htext
      cases htext
    obtain ⟨path, hpath'⟩ := Option.isSome_iff_exists.mp hpath
    refine ⟨hpath, fun port hp => ?_⟩
    by_contra hlarge
    have hnone : portOf p.proto p.port = none := by
      rw [Option.mem_def.mp hp, portOf, if_neg hlarge]
    rw [ofString_text p hpath', hnone] at htext
    cases htext
  · rintro ⟨hpath, hport⟩
    obtain ⟨path, hpath⟩ := Option.isSome_iff_exists.mp hpath
    obtain ⟨n, hn, hvalue, hread⟩ : ∃ n : ℕ, n < 2 ^ 62 ∧ p.url.port = n ∧
        portOf p.proto p.port = some (n : ℤ) := by
      rw [Components.url]
      cases hp : p.port with
      | none =>
        have hdefault : ∃ n : ℕ, n < 2 ^ 62 ∧ defaultPort p.proto = n := by
          rw [defaultPort]
          split_ifs
          · exact ⟨80, by norm_num, rfl⟩
          · exact ⟨21, by norm_num, rfl⟩
          · exact ⟨22, by norm_num, rfl⟩
          · exact ⟨0, by norm_num, rfl⟩
        obtain ⟨n, hn, heq⟩ := hdefault
        exact ⟨n, hn, heq, congrArg some heq⟩
      | some port =>
        have hlt := hport port hp
        exact ⟨number port, hlt, rfl, if_pos hlt⟩
    refine ⟨by rw [ofString_text p hpath, hread, Option.map_some], ?_⟩
    rw [← text_printed hvalue, ofString_text (p.printed n) hpath, url_printed hvalue hn]
    have hprinted : portOf (p.printed n).proto (p.printed n).port = some (n : ℤ) :=
      portOf_printedPort p.proto hn
    rw [hprinted, Option.map_some]

end Printing

end Mldonkey.Urls
