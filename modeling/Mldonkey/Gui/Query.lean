import Mldonkey.Gui.Cut

-- Searches in the messages of the GUI protocol: buf_query and get_query.
namespace Mldonkey.Gui

open BigEndian (bufInt8 getInt8)
open Donkey.LittleEndian (bufInt16 bufInt getInt16 getInt sub sub_drop drop_next getInt8_drop
  getInt16_drop getInt_drop length_bufInt16 length_bufInt)

inductive QueryEntry where
  | qAnd (list : List QueryEntry)
  | qOr (list : List QueryEntry)
  | qAndnot (q1 q2 : QueryEntry)
  | qModule (s : Bytes) (q : QueryEntry)
  | qKeywords (s1 s2 : Bytes)
  | qMinsize (s1 s2 : Bytes)
  | qMaxsize (s1 s2 : Bytes)
  | qFormat (s1 s2 : Bytes)
  | qMedia (s1 s2 : Bytes)
  | qMp3Artist (s1 s2 : Bytes)
  | qMp3Title (s1 s2 : Bytes)
  | qMp3Album (s1 s2 : Bytes)
  | qMp3Bitrate (s1 s2 : Bytes)
  | qCombo (s1 s2 : Bytes) (list : List Bytes)
  | qHidden (list : List QueryEntry)

-- The charset module: is_utf8, and fast_encode to UTF-8, which tries one charset of the
-- language after the other.
structure Locale where
  isUtf8 : Bytes → Bool
  fastEncode : Bytes → Bytes

def Locale.toUtf8 (loc : Locale) (s : Bytes) : Bytes :=
  if s = [] then s else if loc.isUtf8 s then s else loc.fastEncode s

section Writing

variable (loc : Locale)

def bufString (s : Bytes) : Bytes :=
  let s := loc.toUtf8 s
  if s.length < 0xffff then bufInt16 s.length ++ s
  else bufInt16 0xffff ++ (bufInt s.length ++ s)

-- An opcode and two strings.
def bufPair (op : Int) (s1 s2 : Bytes) : Bytes := bufInt8 op ++ (bufString loc s1 ++ bufString loc s2)

mutual

-- None stands for assert false.
def bufQuery : QueryEntry → Option Bytes
  | .qAnd list => do return bufInt8 0 ++ (bufInt16 list.length ++ (← bufQueries list))
  | .qOr list => do return bufInt8 1 ++ (bufInt16 list.length ++ (← bufQueries list))
  | .qAndnot q1 q2 => do return bufInt8 2 ++ ((← bufQuery q1) ++ (← bufQuery q2))
  | .qModule s q => do return bufInt8 3 ++ (bufString loc s ++ (← bufQuery q))
  | .qKeywords s1 s2 => some (bufPair loc 4 s1 s2)
  | .qMinsize s1 s2 => some (bufPair loc 5 s1 s2)
  | .qMaxsize s1 s2 => some (bufPair loc 6 s1 s2)
  | .qFormat s1 s2 => some (bufPair loc 7 s1 s2)
  | .qMedia s1 s2 => some (bufPair loc 8 s1 s2)
  | .qMp3Artist s1 s2 => some (bufPair loc 9 s1 s2)
  | .qMp3Title s1 s2 => some (bufPair loc 10 s1 s2)
  | .qMp3Album s1 s2 => some (bufPair loc 11 s1 s2)
  | .qMp3Bitrate s1 s2 => some (bufPair loc 12 s1 s2)
  | .qHidden list => do return bufInt8 13 ++ (bufInt16 list.length ++ (← bufQueries list))
  | .qCombo _ _ _ => none

-- The items of a list; buf_list writes their number before them.
def bufQueries : List QueryEntry → Option Bytes
  | [] => some []
  | q :: list => do return (← bufQuery q) ++ (← bufQueries list)

end

end Writing

def getString (s : Bytes) (pos : Nat) : Option (Bytes × Nat) := do
  let len ← getInt16 s pos
  if len = 0xffff then
    let len ← getInt s (pos + 2)
    return (← sub s (pos + 6) len.toNat, pos + 6 + len.toNat)
  else return (← sub s (pos + 2) len.toNat, pos + 2 + len.toNat)

-- The function iter of get_list.
def getItems {α : Type} (f : Nat → Option (α × Nat)) : Nat → Nat → Option (List α × Nat)
  | 0, pos => some ([], pos)
  | n + 1, pos => do
      let head ← f pos
      let tail ← getItems f n head.2
      return (head.1 :: tail.1, tail.2)

def getList {α : Type} (f : Nat → Option (α × Nat)) (s : Bytes) (pos : Nat) :
    Option (List α × Nat) := do
  let len ← getInt16 s pos
  getItems f len.toNat (pos + 2)

-- The two strings behind an opcode.
def getPair (make : Bytes → Bytes → QueryEntry) (s : Bytes) (pos : Nat) :
    Option (QueryEntry × Nat) := do
  let s1 ← getString s (pos + 1)
  let s2 ← getString s s1.2
  return (make s1.1 s2.1, s2.2)

-- Each call reads an opcode of its own, so the depth is at most the number of bytes.
def getQueryIn (s : Bytes) : Nat → Nat → Option (QueryEntry × Nat)
  | 0, _ => none
  | fuel + 1, pos => do
      let op ← getInt8 s pos
      match op.toNat with
      | 0 =>
          let list ← getList (getQueryIn s fuel) s (pos + 1)
          return (.qAnd list.1, list.2)
      | 1 =>
          let list ← getList (getQueryIn s fuel) s (pos + 1)
          return (.qOr list.1, list.2)
      | 2 =>
          let q1 ← getQueryIn s fuel (pos + 1)
          let q2 ← getQueryIn s fuel q1.2
          return (.qAndnot q1.1 q2.1, q2.2)
      | 3 =>
          let s1 ← getString s (pos + 1)
          let q ← getQueryIn s fuel s1.2
          return (.qModule s1.1 q.1, q.2)
      | 4 => getPair .qKeywords s pos
      | 5 => getPair .qMinsize s pos
      | 6 => getPair .qMaxsize s pos
      | 7 => getPair .qFormat s pos
      | 8 => getPair .qMedia s pos
      | 9 => getPair .qMp3Artist s pos
      | 10 => getPair .qMp3Title s pos
      | 11 => getPair .qMp3Album s pos
      | 12 => getPair .qMp3Bitrate s pos
      | 13 =>
          let list ← getList (getQueryIn s fuel) s (pos + 1)
          return (.qHidden list.1, list.2)
      | _ => none

def getQuery (s : Bytes) (pos : Nat) : Option (QueryEntry × Nat) := getQueryIn s (s.length + 1) pos

section Sending

variable (loc : Locale)

-- A string whose length is read back.
def Short (s : Bytes) : Prop := (loc.toUtf8 s).length < 2 ^ 30

namespace QueryEntry

mutual

-- The query with its strings in UTF-8.
def inUtf8 : QueryEntry → QueryEntry
  | .qAnd list => .qAnd (allInUtf8 list)
  | .qOr list => .qOr (allInUtf8 list)
  | .qAndnot q1 q2 => .qAndnot (inUtf8 q1) (inUtf8 q2)
  | .qModule s q => .qModule (loc.toUtf8 s) (inUtf8 q)
  | .qKeywords s1 s2 => .qKeywords (loc.toUtf8 s1) (loc.toUtf8 s2)
  | .qMinsize s1 s2 => .qMinsize (loc.toUtf8 s1) (loc.toUtf8 s2)
  | .qMaxsize s1 s2 => .qMaxsize (loc.toUtf8 s1) (loc.toUtf8 s2)
  | .qFormat s1 s2 => .qFormat (loc.toUtf8 s1) (loc.toUtf8 s2)
  | .qMedia s1 s2 => .qMedia (loc.toUtf8 s1) (loc.toUtf8 s2)
  | .qMp3Artist s1 s2 => .qMp3Artist (loc.toUtf8 s1) (loc.toUtf8 s2)
  | .qMp3Title s1 s2 => .qMp3Title (loc.toUtf8 s1) (loc.toUtf8 s2)
  | .qMp3Album s1 s2 => .qMp3Album (loc.toUtf8 s1) (loc.toUtf8 s2)
  | .qMp3Bitrate s1 s2 => .qMp3Bitrate (loc.toUtf8 s1) (loc.toUtf8 s2)
  | .qCombo s1 s2 list => .qCombo s1 s2 list
  | .qHidden list => .qHidden (allInUtf8 list)

def allInUtf8 : List QueryEntry → List QueryEntry
  | [] => []
  | q :: list => inUtf8 q :: allInUtf8 list

end

mutual

-- A query of the protocol: no combo, and no list with more items than two bytes count.
def Sendable : QueryEntry → Prop
  | .qAnd list => list.length < 2 ^ 16 ∧ AllSendable list
  | .qOr list => list.length < 2 ^ 16 ∧ AllSendable list
  | .qAndnot q1 q2 => Sendable q1 ∧ Sendable q2
  | .qModule s q => Short loc s ∧ Sendable q
  | .qKeywords s1 s2 => Short loc s1 ∧ Short loc s2
  | .qMinsize s1 s2 => Short loc s1 ∧ Short loc s2
  | .qMaxsize s1 s2 => Short loc s1 ∧ Short loc s2
  | .qFormat s1 s2 => Short loc s1 ∧ Short loc s2
  | .qMedia s1 s2 => Short loc s1 ∧ Short loc s2
  | .qMp3Artist s1 s2 => Short loc s1 ∧ Short loc s2
  | .qMp3Title s1 s2 => Short loc s1 ∧ Short loc s2
  | .qMp3Album s1 s2 => Short loc s1 ∧ Short loc s2
  | .qMp3Bitrate s1 s2 => Short loc s1 ∧ Short loc s2
  | .qCombo _ _ _ => False
  | .qHidden list => list.length < 2 ^ 16 ∧ AllSendable list

def AllSendable : List QueryEntry → Prop
  | [] => True
  | q :: list => Sendable q ∧ AllSendable list

end

end QueryEntry

end Sending

section Reading

variable {loc : Locale} {s r : Bytes} {pos fuel : Nat}

theorem pos_le {a : Bytes} (hpos : pos ≤ s.length) (h : s.drop pos = a ++ r) :
    pos + a.length ≤ s.length := by
  have hlen := congrArg List.length h
  rw [List.length_drop, List.length_append] at hlen
  omega

theorem getString_drop {t : Bytes} (ht : Short loc t) (hpos : pos ≤ s.length)
    (h : s.drop pos = bufString loc t ++ r) :
    getString s pos = some (loc.toUtf8 t, pos + (bufString loc t).length) := by
  rw [Short] at ht
  rw [bufString] at h ⊢
  generalize loc.toUtf8 t = t at ht h ⊢
  have hend := pos_le hpos h
  by_cases hshort : t.length < 0xffff
  · rw [if_pos hshort] at h hend ⊢
    rw [List.append_assoc] at h
    rw [List.length_append, length_bufInt16] at hend ⊢
    rw [getString, getInt16_drop h (by omega)]
    simp only [Option.bind_eq_bind, Option.bind_some]
    rw [if_neg (by omega), Int.toNat_natCast, sub_drop (drop_next h 2 rfl) rfl (by omega), Nat.add_assoc]
    rfl
  · rw [if_neg hshort] at h hend ⊢
    rw [List.append_assoc, List.append_assoc] at h
    rw [List.length_append, List.length_append, length_bufInt16, length_bufInt] at hend ⊢
    have h2 := drop_next h 2 rfl
    rw [getString, getInt16_drop h (by omega)]
    simp only [Option.bind_eq_bind, Option.bind_some, if_pos]
    rw [getInt_drop h2 (by omega) (by omega), Option.bind_some, Int.toNat_natCast,
      sub_drop (drop_next h2 4 rfl) rfl (by omega)]
    show some (_, _) = some (_, _)
    congr 2
    omega

theorem getPair_drop {make : Bytes → Bytes → QueryEntry} {op : Int} {s1 s2 : Bytes}
    (h1 : Short loc s1) (h2 : Short loc s2) (hpos : pos ≤ s.length)
    (h : s.drop pos = bufPair loc op s1 s2 ++ r) :
    getPair make s pos =
      some (make (loc.toUtf8 s1) (loc.toUtf8 s2), pos + (bufPair loc op s1 s2).length) := by
  have hend := pos_le hpos h
  rw [bufPair, List.append_assoc, List.append_assoc] at h
  rw [bufPair, List.length_append, List.length_append, BigEndian.length_bufInt8] at hend ⊢
  have hs1 := drop_next h 1 rfl
  have hs2 := drop_next hs1 _ rfl
  rw [getPair, getString_drop h1 (by omega) hs1]
  simp only [Option.bind_eq_bind, Option.bind_some]
  rw [getString_drop h2 (by omega) hs2]
  show some (_, _) = some (_, _)
  congr 2
  omega

theorem getList_drop {α : Type} {f : Nat → Option (α × Nat)} {n : Nat} {items : List α} {bytes : Bytes}
    (hn : n < 2 ^ 16) (h : s.drop pos = bufInt16 n ++ (bytes ++ r))
    (hitems : getItems f n (pos + 2) = some (items, pos + 2 + bytes.length)) :
    getList f s pos = some (items, pos + 2 + bytes.length) := by
  rw [getList, getInt16_drop h (by omega)]
  exact hitems

-- get_query reads the query whose bytes are at pos.
def Reads (loc : Locale) (q : QueryEntry) (bytes : Bytes) : Prop :=
  ∀ s r pos fuel, bytes.length ≤ fuel → pos ≤ s.length → s.drop pos = bytes ++ r →
    getQueryIn s fuel pos = some (q.inUtf8 loc, pos + bytes.length)

def ReadsAll (loc : Locale) (list : List QueryEntry) (bytes : Bytes) : Prop :=
  ∀ s r pos fuel, bytes.length ≤ fuel → pos ≤ s.length → s.drop pos = bytes ++ r →
    getItems (getQueryIn s fuel) list.length pos =
      some (QueryEntry.allInUtf8 loc list, pos + bytes.length)

theorem reads_pair {q : QueryEntry} (make : Bytes → Bytes → QueryEntry) {op : Int} {s1 s2 : Bytes}
    (h1 : Short loc s1) (h2 : Short loc s2)
    (hop : ∀ s pos fuel, getInt8 s pos = some op → getQueryIn s (fuel + 1) pos = getPair make s pos)
    (hrange : 0 ≤ op ∧ op < 2 ^ 8) (hmake : make (loc.toUtf8 s1) (loc.toUtf8 s2) = q.inUtf8 loc) :
    Reads loc q (bufPair loc op s1 s2) := by
  intro s r pos fuel hfuel hpos h
  have hpair := @getPair_drop loc s r pos make op s1 s2 h1 h2 hpos h
  rw [bufPair, List.append_assoc] at h
  rw [bufPair, List.length_append, BigEndian.length_bufInt8] at hfuel
  obtain ⟨fuel, rfl⟩ := Nat.exists_eq_add_one_of_ne_zero (show fuel ≠ 0 by omega)
  rw [hop s pos fuel (getInt8_drop h hrange), hpair, hmake]

theorem reads_list {q : QueryEntry} (make : List QueryEntry → QueryEntry) {op : Int}
    {list : List QueryEntry} {bytes : Bytes} (hlen : list.length < 2 ^ 16)
    (hop : ∀ s pos fuel, getInt8 s pos = some op → getQueryIn s (fuel + 1) pos =
      (getList (getQueryIn s fuel) s (pos + 1)).bind fun l => some (make l.1, l.2))
    (hrange : 0 ≤ op ∧ op < 2 ^ 8) (hmake : make (QueryEntry.allInUtf8 loc list) = q.inUtf8 loc)
    (hall : ReadsAll loc list bytes) :
    Reads loc q (bufInt8 op ++ (bufInt16 list.length ++ bytes)) := by
  intro s r pos fuel hfuel hpos h
  have hend := pos_le hpos h
  rw [List.append_assoc, List.append_assoc] at h
  rw [List.length_append, List.length_append, BigEndian.length_bufInt8, length_bufInt16] at hfuel hend ⊢
  obtain ⟨fuel, rfl⟩ := Nat.exists_eq_add_one_of_ne_zero (show fuel ≠ 0 by omega)
  have hcount := drop_next h 1 rfl
  have hitems := hall s r (pos + 1 + 2) fuel (by omega) (by omega) (drop_next hcount 2 rfl)
  rw [hop s pos fuel (getInt8_drop h hrange), getList_drop hlen hcount hitems]
  show some (_, _) = some (_, _)
  rw [hmake]
  congr 2
  omega

end Reading

section RoundTrip

variable (loc : Locale)

mutual

theorem bufQuery_reads (q : QueryEntry) (hq : q.Sendable loc) :
    ∃ bytes, bufQuery loc q = some bytes ∧ Reads loc q bytes := by
  cases q with
  | qAnd list =>
      obtain ⟨bytes, hbytes, hall⟩ := bufQueries_reads list hq.2
      exact ⟨_, by rw [bufQuery, hbytes]; rfl,
        reads_list .qAnd hq.1 (fun s pos fuel h => by rw [getQueryIn, h]; rfl) (by decide) rfl hall⟩
  | qOr list =>
      obtain ⟨bytes, hbytes, hall⟩ := bufQueries_reads list hq.2
      exact ⟨_, by rw [bufQuery, hbytes]; rfl,
        reads_list .qOr hq.1 (fun s pos fuel h => by rw [getQueryIn, h]; rfl) (by decide) rfl hall⟩
  | qHidden list =>
      obtain ⟨bytes, hbytes, hall⟩ := bufQueries_reads list hq.2
      exact ⟨_, by rw [bufQuery, hbytes]; rfl,
        reads_list .qHidden hq.1 (fun s pos fuel h => by rw [getQueryIn, h]; rfl) (by decide) rfl hall⟩
  | qAndnot q1 q2 =>
      obtain ⟨b1, hb1, hr1⟩ := bufQuery_reads q1 hq.1
      obtain ⟨b2, hb2, hr2⟩ := bufQuery_reads q2 hq.2
      refine ⟨bufInt8 2 ++ (b1 ++ b2), by rw [bufQuery, hb1, hb2]; rfl, ?_⟩
      intro s r pos fuel hfuel hpos h
      have hend := pos_le hpos h
      rw [List.append_assoc, List.append_assoc] at h
      rw [List.length_append, List.length_append, BigEndian.length_bufInt8] at hfuel hend ⊢
      obtain ⟨fuel, rfl⟩ := Nat.exists_eq_add_one_of_ne_zero (show fuel ≠ 0 by omega)
      have h1 := drop_next h 1 rfl
      have h2 := drop_next h1 _ rfl
      have hq1 := hr1 s _ (pos + 1) fuel (by omega) (by omega) h1
      have hq2 := hr2 s _ (pos + 1 + b1.length) fuel (by omega) (by omega) h2
      rw [getQueryIn, getInt8_drop h (by decide)]
      show ((getQueryIn s fuel (pos + 1)).bind fun q1 => (getQueryIn s fuel q1.2).bind fun q2 =>
        some (QueryEntry.qAndnot q1.1 q2.1, q2.2)) = _
      rw [hq1, Option.bind_some, hq2]
      show some (_, _) = some (_, _)
      congr 2
      omega
  | qModule t q =>
      obtain ⟨b, hb, hr⟩ := bufQuery_reads q hq.2
      refine ⟨bufInt8 3 ++ (bufString loc t ++ b), by rw [bufQuery, hb]; rfl, ?_⟩
      intro s r pos fuel hfuel hpos h
      have hend := pos_le hpos h
      rw [List.append_assoc, List.append_assoc] at h
      rw [List.length_append, List.length_append, BigEndian.length_bufInt8] at hfuel hend ⊢
      obtain ⟨fuel, rfl⟩ := Nat.exists_eq_add_one_of_ne_zero (show fuel ≠ 0 by omega)
      have h1 := drop_next h 1 rfl
      have hsub := hr s _ (pos + 1 + (bufString loc t).length) fuel (by omega) (by omega)
        (drop_next h1 _ rfl)
      rw [getQueryIn, getInt8_drop h (by decide)]
      show ((getString s (pos + 1)).bind fun s1 => (getQueryIn s fuel s1.2).bind fun q =>
        some (QueryEntry.qModule s1.1 q.1, q.2)) = _
      rw [getString_drop hq.1 (by omega) h1, Option.bind_some, hsub]
      show some (_, _) = some (_, _)
      congr 2
      omega
  | qCombo => exact absurd hq id
  | qKeywords s1 s2 =>
      exact ⟨_, rfl,
        reads_pair .qKeywords hq.1 hq.2 (fun s pos fuel h => by rw [getQueryIn, h]; rfl) (by decide) rfl⟩
  | qMinsize s1 s2 =>
      exact ⟨_, rfl,
        reads_pair .qMinsize hq.1 hq.2 (fun s pos fuel h => by rw [getQueryIn, h]; rfl) (by decide) rfl⟩
  | qMaxsize s1 s2 =>
      exact ⟨_, rfl,
        reads_pair .qMaxsize hq.1 hq.2 (fun s pos fuel h => by rw [getQueryIn, h]; rfl) (by decide) rfl⟩
  | qFormat s1 s2 =>
      exact ⟨_, rfl,
        reads_pair .qFormat hq.1 hq.2 (fun s pos fuel h => by rw [getQueryIn, h]; rfl) (by decide) rfl⟩
  | qMedia s1 s2 =>
      exact ⟨_, rfl,
        reads_pair .qMedia hq.1 hq.2 (fun s pos fuel h => by rw [getQueryIn, h]; rfl) (by decide) rfl⟩
  | qMp3Artist s1 s2 =>
      exact ⟨_, rfl,
        reads_pair .qMp3Artist hq.1 hq.2 (fun s pos fuel h => by rw [getQueryIn, h]; rfl) (by decide) rfl⟩
  | qMp3Title s1 s2 =>
      exact ⟨_, rfl,
        reads_pair .qMp3Title hq.1 hq.2 (fun s pos fuel h => by rw [getQueryIn, h]; rfl) (by decide) rfl⟩
  | qMp3Album s1 s2 =>
      exact ⟨_, rfl,
        reads_pair .qMp3Album hq.1 hq.2 (fun s pos fuel h => by rw [getQueryIn, h]; rfl) (by decide) rfl⟩
  | qMp3Bitrate s1 s2 =>
      exact ⟨_, rfl,
        reads_pair .qMp3Bitrate hq.1 hq.2 (fun s pos fuel h => by rw [getQueryIn, h]; rfl) (by decide) rfl⟩

theorem bufQueries_reads (list : List QueryEntry) (hlist : QueryEntry.AllSendable loc list) :
    ∃ bytes, bufQueries loc list = some bytes ∧ ReadsAll loc list bytes := by
  cases list with
  | nil => exact ⟨[], rfl, fun s r pos fuel _ _ _ => rfl⟩
  | cons q list =>
      obtain ⟨b, hb, hr⟩ := bufQuery_reads q hlist.1
      obtain ⟨bs, hbs, hrs⟩ := bufQueries_reads list hlist.2
      refine ⟨b ++ bs, by rw [bufQueries, hb, hbs]; rfl, ?_⟩
      intro s r pos fuel hfuel hpos h
      have hend := pos_le hpos h
      rw [List.append_assoc] at h
      rw [List.length_append] at hfuel hend ⊢
      have hq := hr s _ pos fuel (by omega) hpos h
      have hqs := hrs s _ (pos + b.length) fuel (by omega) (by omega) (drop_next h _ rfl)
      rw [List.length_cons, getItems, hq]
      show ((getItems (getQueryIn s fuel) list.length (pos + b.length)).bind fun tail =>
        some (QueryEntry.inUtf8 loc q :: tail.1, tail.2)) = _
      rw [hqs, Nat.add_assoc]
      rfl

end

end RoundTrip

-- A search comes back from the wire with its strings in UTF-8, whatever stands before
-- and behind it.
theorem get_query_buf_query (loc : Locale) {q : QueryEntry} (hq : q.Sendable loc)
    (before after : Bytes) :
    ∃ bytes, bufQuery loc q = some bytes ∧
      getQuery (before ++ (bytes ++ after)) before.length =
        some (q.inUtf8 loc, before.length + bytes.length) := by
  obtain ⟨bytes, hbytes, hreads⟩ := bufQuery_reads loc q hq
  refine ⟨bytes, hbytes, hreads _ after _ _ ?_ (by simp) (by simp)⟩
  rw [List.length_append, List.length_append]
  omega

theorem get_query_buf_query_nested :
    ∃ bytes, bufQuery ⟨fun _ => true, id⟩
        (.qAnd [.qKeywords [] [97], .qModule [98] (.qHidden [])]) = some bytes ∧
      getQuery ([9] ++ (bytes ++ [1])) ([9] : Bytes).length =
        some (QueryEntry.inUtf8 ⟨fun _ => true, id⟩
          (.qAnd [.qKeywords [] [97], .qModule [98] (.qHidden [])]),
          ([9] : Bytes).length + bytes.length) :=
  get_query_buf_query ⟨fun _ => true, id⟩
    (by simp [QueryEntry.Sendable, QueryEntry.AllSendable, Short, Locale.toUtf8]) [9] [1]

-- A combo is not written at all.
theorem get_query_buf_query_false : ¬ ∀ (loc : Locale) (q : QueryEntry) (before after : Bytes),
    ∃ bytes, bufQuery loc q = some bytes ∧
      getQuery (before ++ (bytes ++ after)) before.length = some (q, before.length + bytes.length) := by
  intro h
  obtain ⟨bytes, hbytes, -⟩ := h ⟨fun _ => true, id⟩ (.qCombo [] [] []) [] []
  rw [bufQuery] at hbytes
  cases hbytes

end Mldonkey.Gui
