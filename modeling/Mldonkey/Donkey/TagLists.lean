import Mldonkey.Donkey.Tags

-- Tag lists on the wire: which of them come back, and from where each tag is read.
namespace Mldonkey.Donkey

open BigEndian (bufInt8 getInt8)
open LittleEndian

-- A number that get_int reads back from what buf_int writes.
def CountRead (n : Nat) : Prop := CountKept n ∧ n < 2 ^ 32

-- A tag whose field has a name of its own and whose value has a type of the wire.
def Tag.Listed (names : Names) (tag : Tag) : Prop :=
  (tag.name ∈ names.map Prod.snd ∨
    ∃ s, tag.name = .unknown s ∧ names.lookup s = none ∧ fieldOfString s = .known s) ∧
    match tag.value with
    | .uint64 n | .fint64 n => 0 ≤ n ∧ n < 2 ^ 32
    | .string s => s.length < 2 ^ 16
    | .uint16 n => 0 ≤ n ∧ n < 2 ^ 16
    | .uint8 n => 0 ≤ n ∧ n < 2 ^ 8
    | .addr _ | .pair _ _ => False

-- A tag that buf_tag writes with its name, the length of which fits in two bytes.
def Tag.Plain (names : Names) (tag : Tag) : Prop :=
  (nameOf names tag.name).length < 2 ^ 16 ∧
    match tag.value with
    | .uint16 _ | .uint8 _ => False
    | _ => True

-- The names of a table have a length of two bytes.
def Names.Short (names : Names) : Prop := ∀ p ∈ names, p.1.length < 2 ^ 16

theorem fileCommonTags_short : fileCommonTags.Short := by
  rw [Names.Short]
  decide

def tagBytes (names : Names) (tag : Tag) : Bytes := (bufTag names tag).getD []

-- The tags without their number.
def written (names : Names) (tags : List Tag) : Bytes := (tags.map (tagBytes names)).flatten

variable {names : Names} {s r : Bytes} {pos : Nat} {tag : Tag} {tags : List Tag}

theorem written_append (l l' : List Tag) :
    written names (l ++ l') = written names l ++ written names l' := by
  rw [written, written, written, List.map_append, List.flatten_append]

theorem written_singleton (tag : Tag) : written names [tag] = tagBytes names tag :=
  List.append_nil _

theorem bufTag_eq (h : tag.Listed names) : bufTag names tag = some (tagBytes names tag) := by
  obtain ⟨f, v⟩ := tag
  cases v with
  | addr ip => exact absurd h.2 id
  | pair n m => exact absurd h.2 id
  | _ => rfl

theorem mapM_eq_some {α : Type} {f : α → Option Bytes} {g : α → Bytes} {l : List α}
    (h : ∀ a ∈ l, f a = some (g a)) : l.mapM f = some (l.map g) := by
  induction l with
  | nil => rfl
  | cons a l ih =>
      obtain ⟨ha, hl⟩ := List.forall_mem_cons.mp h
      rw [List.mapM_cons, ha, ih hl]
      rfl

theorem bufTags_eq (h : ∀ tag ∈ tags, tag.Listed names) :
    bufTags names tags = some (bufInt tags.length ++ written names tags) := by
  rw [bufTags, mapM_eq_some fun tag htag => bufTag_eq (h tag htag)]
  rfl

theorem Tag.Listed.inRange (h : tag.Listed names) (hp : tag.Plain names) : tag.InRange names := by
  obtain ⟨f, v⟩ := tag
  refine ⟨hp.1, ?_⟩
  cases v with
  | addr ip => exact absurd h.2 id
  | pair n m => exact absurd h.2 id
  | _ => exact h.2

theorem Tag.Listed.kept (h : tag.Listed names) (hp : tag.Plain names) : tag.Kept names := by
  obtain ⟨f, v⟩ := tag
  refine ⟨h.1.imp id ?_, ?_⟩
  · rintro ⟨s, rfl, hs, hf⟩
    exact ⟨hs, .inr ⟨s, rfl, hf⟩⟩
  · cases v with
    | uint16 n => exact absurd hp.2 id
    | uint8 n => exact absurd hp.2 id
    | addr ip => exact absurd h.2 id
    | pair n m => exact absurd h.2 id
    | _ => trivial

theorem getString16_past {n : Bytes × Nat} (h : getString16 s pos = some n) :
    pos + 2 ≤ n.2 ∧ n.1.length < 2 ^ 16 := by
  simp only [getString16, getInt16, getInt8, sub, Option.bind_eq_bind, Option.bind_eq_some_iff,
    Option.map_eq_some_iff, Option.pure_def, Option.some.injEq, Option.ite_none_right_eq_some] at h
  obtain ⟨len, ⟨_, ⟨c1, -, rfl⟩, _, ⟨c2, -, rfl⟩, rfl⟩, t, ⟨-, rfl⟩, rfl⟩ := h
  have := c1.toNat_lt
  have := c2.toNat_lt
  refine ⟨by simp, ?_⟩
  simp only [List.length_take]
  omega

-- A tag without the bit of a short name.
theorem getTag_of_type {t : Nat} (ht : t < 16) (h : getInt8 s pos = some (t : Int)) :
    getTag names s pos = (getString16 s (pos + 1)).bind fun n =>
      (getValue s t n.2).bind fun v => some (⟨fieldOf names n.1, v.1⟩, v.2) := by
  have hbits : ∀ t < 16, t &&& 0x80 ≠ 0x80 ∧ t &&& 0x7f = t := by decide
  rw [getTag, h]
  simp only [Option.bind_eq_bind, Option.bind_some, Int.toNat_natCast, if_neg (hbits t ht).1,
    (hbits t ht).2]
  rfl

theorem getTag_parts {t : Nat} {out : Tag × Nat} (ht : t < 16) (h : getInt8 s pos = some (t : Int))
    (hout : getTag names s pos = some out) :
    ∃ n v, getString16 s (pos + 1) = some n ∧ getValue s t n.2 = some v ∧
      out = (⟨fieldOf names n.1, v.1⟩, v.2) := by
  rw [getTag_of_type ht h] at hout
  simp only [Option.bind_eq_some_iff, Option.some.injEq] at hout
  obtain ⟨n, hn, v, hv, rfl⟩ := hout
  exact ⟨n, v, hn, hv, rfl⟩

-- A tag whose name is missing is read with one, from what is behind it.
theorem getTag_past {out : Tag × Nat}
    (hv : (∃ n, tag.value = .uint16 n) ∨ ∃ n, tag.value = .uint8 n)
    (h : s.drop pos = tagBytes names tag ++ r) (hout : getTag names s pos = some out) :
    pos + (tagBytes names tag).length < out.2 := by
  obtain ⟨f, v⟩ := tag
  rcases hv with ⟨n, rfl⟩ | ⟨n, rfl⟩
  · have hb : tagBytes names ⟨f, .uint16 n⟩ = bufInt8 8 ++ bufInt16 n := rfl
    rw [hb, List.append_assoc] at h
    obtain ⟨name, v, hname, hv, rfl⟩ := getTag_parts (by decide) (getInt8_drop h (by decide)) hout
    have hpast := (getString16_past hname).1
    simp only [getValue, Option.bind_eq_bind, Option.bind_eq_some_iff, Option.pure_def,
      Option.some.injEq, reduceIte, Nat.reduceEqDiff, or_self] at hv
    obtain ⟨_, -, rfl⟩ := hv
    rw [hb, List.length_append, length_bufInt16, length_bufInt8]
    simp only
    omega
  · have hb : tagBytes names ⟨f, .uint8 n⟩ = bufInt8 9 ++ bufInt8 n := rfl
    rw [hb, List.append_assoc] at h
    obtain ⟨name, v, hname, hv, rfl⟩ := getTag_parts (by decide) (getInt8_drop h (by decide)) hout
    have hpast := (getString16_past hname).1
    simp only [getValue, Option.bind_eq_bind, Option.bind_eq_some_iff, Option.pure_def,
      Option.some.injEq, reduceIte, Nat.reduceEqDiff, or_self] at hv
    obtain ⟨_, -, rfl⟩ := hv
    rw [hb, List.length_append, length_bufInt8, length_bufInt8]
    simp only
    omega

theorem fieldOfString_eq (t : Bytes) :
    fieldOfString t ∈ namedFields ∨ fieldOfString t = .known t := by
  rw [fieldOfString]
  cases hfind : namedFields.find? fun f => lowercase t = stringOfField f with
  | none => exact .inr rfl
  | some f => exact .inl (List.mem_of_find?_eq_some hfind)

-- An unknown field is read from no other name.
theorem name_of_unknown {t u : Bytes} (hu : Field.unknown u ∉ names.map Prod.snd)
    (h : fieldOf names t = .unknown u) : t = u := by
  rw [fieldOf] at h
  cases hlookup : names.lookup t with
  | some f =>
      rw [hlookup] at h
      obtain ⟨l₁, l₂, hl, -⟩ := List.lookup_eq_some_iff.mp hlookup
      refine absurd (List.mem_map.mpr ⟨(t, f), ?_, h⟩) hu
      simp [hl]
  | none =>
      rw [hlookup] at h
      rcases fieldOfString_eq t with hmem | hknown
      · simp only at h
        split at h
        · next u' heq =>
            rw [heq] at hmem
            simp [namedFields] at hmem
        · rw [h] at hmem
          simp [namedFields] at hmem
      · rw [hknown] at h
        exact Field.unknown.inj h

-- The name of a field of the table is one of its names.
theorem nameOf_mem {f : Field} (h : f ∈ names.map Prod.snd) :
    ∃ p ∈ names, nameOf names f = p.1 := by
  rw [nameOf]
  cases hfind : names.find? fun p => p.2 = f with
  | none =>
      obtain ⟨p, hp, rfl⟩ := List.mem_map.mp h
      have hne := List.find?_eq_none.mp hfind p hp
      simp at hne
  | some p => exact ⟨p, List.mem_of_find?_eq_some hfind, rfl⟩

theorem nameOf_unlisted {f : Field} (h : f ∉ names.map Prod.snd) :
    nameOf names f = stringOfField f := by
  have hfind : names.find? (fun p => p.2 = f) = none := by
    apply List.find?_eq_none.mpr
    intro p hp he
    exact h (List.mem_map.mpr ⟨p, hp, of_decide_eq_true he⟩)
  rw [nameOf, hfind]

-- A tag written with its name begins with a type and the length of the name.
theorem getInt8_tagBytes (hl : tag.Listed names) (h : s.drop pos = tagBytes names tag ++ r)
    (hv : ¬ ((∃ n, tag.value = .uint16 n) ∨ ∃ n, tag.value = .uint8 n)) :
    ∃ t : Nat, t < 16 ∧ getInt8 s pos = some (t : Int) := by
  obtain ⟨f, v⟩ := tag
  cases v with
  | uint64 n => exact ⟨3, by decide, getInt8_drop (by rw [h]; rfl) (by decide)⟩
  | fint64 n => exact ⟨4, by decide, getInt8_drop (by rw [h]; rfl) (by decide)⟩
  | string t => exact ⟨2, by decide, getInt8_drop (by rw [h]; rfl) (by decide)⟩
  | addr ip => exact absurd hl.2 id
  | uint16 n => exact absurd (.inl ⟨n, rfl⟩) hv
  | uint8 n => exact absurd (.inr ⟨n, rfl⟩) hv
  | pair n m => exact absurd hl.2 id

theorem getTag_long_name {t : Nat} {out : Tag × Nat} (hshort : names.Short) (hl : tag.Listed names)
    (ht : t < 16) (h : getInt8 s pos = some (t : Int))
    (hlong : 2 ^ 16 ≤ (nameOf names tag.name).length) (hout : getTag names s pos = some out) :
    out.1 ≠ tag := by
  obtain ⟨n, v, hn, -, rfl⟩ := getTag_parts ht h hout
  have hlen := (getString16_past hn).2
  intro heq
  have hfield : fieldOf names n.1 = tag.name := congrArg Tag.name heq
  by_cases hmem : tag.name ∈ names.map Prod.snd
  · obtain ⟨p, hp, hname⟩ := nameOf_mem hmem
    have := hshort p hp
    rw [hname] at hlong
    omega
  · obtain ⟨u, hu, -⟩ := hl.1.resolve_left hmem
    rw [nameOf_unlisted hmem, hu] at hlong
    rw [hu] at hmem hfield
    rw [name_of_unknown hmem hfield] at hlen
    exact absurd hlen (Nat.not_lt.mpr hlong)

-- A tag is read from its bytes, up to their end, just when it is written with a name
-- whose length has two bytes.
theorem getTag_iff (hn : names.Sound) (hshort : names.Short) (hl : tag.Listed names)
    (h : s.drop pos = tagBytes names tag ++ r) :
    getTag names s pos = some (tag, pos + (tagBytes names tag).length) ↔ tag.Plain names := by
  constructor
  · intro hread
    by_cases hv : (∃ n, tag.value = .uint16 n) ∨ ∃ n, tag.value = .uint8 n
    · exact absurd (getTag_past hv h hread) (Nat.lt_irrefl _)
    · constructor
      · by_contra hlong
        obtain ⟨t, ht, hbyte⟩ := getInt8_tagBytes hl h hv
        exact getTag_long_name hshort hl ht hbyte (Nat.not_lt.mp hlong) hread rfl
      · obtain ⟨f, v⟩ := tag
        cases v with
        | uint16 n => exact hv (.inl ⟨n, rfl⟩)
        | uint8 n => exact hv (.inr ⟨n, rfl⟩)
        | _ => trivial
  · intro hp
    exact getTag_drop hn (bufTag_eq hl) (hl.inRange hp) (hl.kept hp) h

theorem length_iterTags {n : Nat} {done : List Tag} {out : List Tag × Nat}
    (h : iterTags names s n pos done = some out) : out.1.length = n + done.length := by
  induction n generalizing pos done with
  | zero =>
      obtain rfl := Option.some.inj h
      simp
  | succ n ih =>
      rw [iterTags, Option.bind_eq_bind, Option.bind_eq_some_iff] at h
      obtain ⟨tag, -, h⟩ := h
      rw [ih h, List.length_cons]
      omega

-- What get_int makes of a number of tags.
theorem getInt_count {n : Nat} (h : s.drop pos = bufInt n ++ r) :
    getInt s pos = some (n : Int) ↔ CountRead n := by
  rw [CountRead, CountKept]
  by_cases hlt : n < 2 ^ 32
  · rw [getInt_bufInt h (by omega), Option.some.injEq]
    split <;> omega
  · constructor
    · intro hread
      rw [bufInt] at h
      rw [getInt_bytes h, Option.some.injEq] at hread
      omega
    · exact fun hc => absurd hc.2 hlt

-- A list of tags comes back from the wire, and each tag of it is read from where it
-- stands, just when its number is read back and no tag is written without its name.
theorem get_tags_buf_tags (hn : names.Sound) (hshort : names.Short)
    (hl : ∀ tag ∈ tags, tag.Listed names) :
    ∃ b, bufTags names tags = some b ∧ ∀ s r pos, s.drop pos = b ++ r →
      ((getTags names s pos = some (tags, pos + b.length) ∧
          ∀ done tag rest, tags = done ++ tag :: rest →
            getTag names s (pos + 4 + (written names done).length) =
              some (tag, pos + 4 + (written names (done ++ [tag])).length)) ↔
        CountRead tags.length ∧ ∀ tag ∈ tags, tag.Plain names) := by
  refine ⟨_, bufTags_eq hl, fun s r pos h => ?_⟩
  -- the bytes of a tag in their place
  have hat : ∀ done tag rest, tags = done ++ tag :: rest →
      s.drop (pos + 4 + (written names done).length) =
        tagBytes names tag ++ (written names rest ++ r) := by
    intro done tag rest heq
    rw [heq, List.append_assoc] at h
    have hbody := drop_next h 4 rfl
    rw [written_append, List.append_assoc] at hbody
    have hrest := drop_next hbody _ rfl
    rw [show written names (tag :: rest) = tagBytes names tag ++ written names rest from rfl,
      List.append_assoc] at hrest
    exact hrest
  have hend : ∀ done (tag : Tag), pos + 4 + (written names (done ++ [tag])).length =
      pos + 4 + (written names done).length + (tagBytes names tag).length := by
    intro done tag
    rw [written_append, written_singleton, List.length_append, Nat.add_assoc (pos + 4)]
  constructor
  · rintro ⟨hall, heach⟩
    constructor
    · rw [List.append_assoc] at h
      rw [← getInt_count h]
      rw [getTags, Option.bind_eq_bind, Option.bind_eq_some_iff] at hall
      obtain ⟨n, hread, hiter⟩ := hall
      have hlen := length_iterTags hiter
      have hrange : 0 ≤ n := by
        rw [getInt_bytes h] at hread
        obtain rfl := Option.some.inj hread
        omega
      rw [hread, Option.some.injEq]
      simp only [List.length_nil] at hlen
      omega
    · intro tag htag
      obtain ⟨done, rest, heq⟩ := List.append_of_mem htag
      have hread := heach done tag rest heq
      rw [hend] at hread
      exact (getTag_iff hn hshort (hl tag htag) (hat done tag rest heq)).mp hread
  · rintro ⟨hc, hplain⟩
    constructor
    · exact getTags_drop hn (bufTags_eq hl) hc.2 hc.1
        (fun tag htag => (hl tag htag).inRange (hplain tag htag))
        (fun tag htag => (hl tag htag).kept (hplain tag htag)) h
    · intro done tag rest heq
      have htag : tag ∈ tags := heq ▸ by simp
      rw [hend]
      exact (getTag_iff hn hshort (hl tag htag) (hat done tag rest heq)).mpr (hplain tag htag)

-- A size of the table and a name that no table knows.
theorem get_tags_buf_tags_two :
    ∃ b, bufTags fileCommonTags [⟨.size, .uint64 7⟩, ⟨.unknown [120], .uint8 1⟩] = some b ∧
      ∀ s r pos, s.drop pos = b ++ r →
        ((getTags fileCommonTags s pos =
            some ([⟨.size, .uint64 7⟩, ⟨.unknown [120], .uint8 1⟩], pos + b.length) ∧
          ∀ done tag rest, [⟨.size, .uint64 7⟩, ⟨.unknown [120], .uint8 1⟩] = done ++ tag :: rest →
            getTag fileCommonTags s (pos + 4 + (written fileCommonTags done).length) =
              some (tag, pos + 4 + (written fileCommonTags (done ++ [tag])).length)) ↔
        CountRead [(⟨.size, .uint64 7⟩ : Tag), ⟨.unknown [120], .uint8 1⟩].length ∧
          ∀ tag ∈ [(⟨.size, .uint64 7⟩ : Tag), ⟨.unknown [120], .uint8 1⟩],
            tag.Plain fileCommonTags) :=
  get_tags_buf_tags fileCommonTags_sound fileCommonTags_short (by
    intro tag htag
    simp only [List.mem_cons, List.not_mem_nil, or_false] at htag
    rcases htag with rfl | rfl
    · exact ⟨.inl (by decide), by decide⟩
    · exact ⟨.inr ⟨[120], rfl, by decide, by decide⟩, by decide⟩)

-- The port of a tag without its name is taken for a length.
theorem get_tags_buf_tags_false : ¬ ∀ (tags : List Tag) (s r : Bytes) (pos : Nat),
    (∀ tag ∈ tags, tag.Listed fileCommonTags) →
      ∃ b, bufTags fileCommonTags tags = some b ∧ (s.drop pos = b ++ r →
        getTags fileCommonTags s pos = some (tags, pos + b.length)) := by
  intro h
  obtain ⟨b, hb, hread⟩ := h [⟨.size, .uint16 5⟩] [1, 0, 0, 0, 8, 5, 0] [] 0 (by
    intro tag htag
    obtain rfl := List.mem_singleton.mp htag
    exact ⟨.inl (by decide), by decide⟩)
  have hbytes : bufTags fileCommonTags [⟨.size, .uint16 5⟩] = some [1, 0, 0, 0, 8, 5, 0] := by decide
  obtain rfl := Option.some.inj (hbytes.symm.trans hb)
  exact absurd (hread rfl) (by decide)

end Mldonkey.Donkey
