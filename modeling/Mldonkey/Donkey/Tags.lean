import Mldonkey.Bencode.Codec
import Mldonkey.Donkey.LittleEndian

-- The tags of DonkeyMftp.
namespace Mldonkey.Donkey

open BigEndian (bufInt8 getInt8)
open LittleEndian

inductive Field
  | artist
  | title
  | album
  | format
  | type
  | length
  | bitrate
  | codec
  | availability
  | completesources
  | filename
  | size
  | sizeHi
  | uid
  | filerating
  | lastseencomplete
  | mediacodec
  | medialength
  | known (s : Bytes)
  | unknown (s : Bytes)
  deriving DecidableEq, Repr

inductive TagValue
  | uint64 (n : Int)
  | fint64 (n : Int)
  | string (s : Bytes)
  | addr (ip : Ip)
  | uint16 (n : Int)
  | uint8 (n : Int)
  | pair (n m : Int)
  deriving DecidableEq, Repr

structure Tag where
  name : Field
  value : TagValue
  deriving DecidableEq, Repr

def stringOfField : Field → Bytes
  | .artist => Bencode.ofString "artist"
  | .title => Bencode.ofString "title"
  | .album => Bencode.ofString "album"
  | .format => Bencode.ofString "format"
  | .type => Bencode.ofString "type"
  | .length => Bencode.ofString "length"
  | .availability => Bencode.ofString "availability"
  | .completesources => Bencode.ofString "completesources"
  | .filename => Bencode.ofString "filename"
  | .size => Bencode.ofString "size"
  | .sizeHi => Bencode.ofString "size_hi"
  | .uid => Bencode.ofString "uid"
  | .bitrate => Bencode.ofString "bitrate"
  | .codec => Bencode.ofString "codec"
  | .filerating => Bencode.ofString "rating"
  | .lastseencomplete => Bencode.ofString "lastcompl"
  | .medialength => Bencode.ofString "mlen"
  | .mediacodec => Bencode.ofString "mediacodec"
  | .known s => s
  | .unknown s => s

-- String.lowercase, in Latin-1.
def lowercase (s : Bytes) : Bytes :=
  s.map fun c =>
    if (65 ≤ c ∧ c ≤ 90) ∨ (192 ≤ c ∧ c ≤ 214) ∨ (216 ≤ c ∧ c ≤ 222) then c + 32
    else c

-- The fields whose string field_of_string tells from the others.
def namedFields : List Field :=
  [.artist, .title, .album, .format, .type, .length, .availability, .completesources, .filename,
    .size, .sizeHi, .uid, .bitrate, .codec, .filerating, .lastseencomplete, .medialength,
    .mediacodec]

def fieldOfString (t : Bytes) : Field :=
  (namedFields.find? fun f => lowercase t = stringOfField f).getD (.known t)

abbrev Names := List (Bytes × Field)

-- rev_assoc, and the string of the field where it raises Not_found.
def nameOf (names : Names) (f : Field) : Bytes :=
  match names.find? fun p => p.2 = f with
  | some p => p.1
  | none => stringOfField f

-- List.assoc, and where it raises Not_found the field of the string, a known name
-- of which the table knows nothing being unknown.
def fieldOf (names : Names) (name : Bytes) : Field :=
  match names.lookup name with
  | some f => f
  | none =>
      match fieldOfString name with
      | .known s => .unknown s
      | field => field

-- None stands for the assertion that fails.
def bufTag (names : Names) (tag : Tag) : Option Bytes :=
  let name := nameOf names tag.name
  match tag.value with
  | .uint64 n => some (bufInt8 3 ++ (bufString name ++ bufInt64_32 n))
  | .fint64 n => some (bufInt8 4 ++ (bufString name ++ bufInt64_32 n))
  | .addr _ => none
  | .string s => some (bufInt8 2 ++ (bufString name ++ bufString s))
  | .uint16 n => some (bufInt8 8 ++ bufInt16 n)
  | .uint8 n => some (bufInt8 9 ++ bufInt8 n)
  | .pair _ _ => none

def bufTags (names : Names) (tags : List Tag) : Option Bytes := do
  return bufInt tags.length ++ (← tags.mapM (bufTag names)).flatten

def getValue (s : Bytes) (t : Nat) (pos : Nat) : Option (TagValue × Nat) :=
  if t = 2 then do
    let (v, pos) ← getString16 s pos
    return (.string v, pos)
  else if t = 1 ∨ t = 3 then do return (.uint64 (← getInt s pos), pos + 4)
  else if t = 4 then do return (.fint64 (← getInt s pos), pos + 4)
  else if t = 8 then do return (.uint16 (← getInt16 s pos), pos + 2)
  else if t = 9 then do return (.uint8 (← getInt8 s pos), pos + 1)
  else if 0x11 ≤ t ∧ t ≤ 0x20 then do
    return (.string (← sub s pos (t - 0x10)), pos + t - 0x10)
  else none

def getTag (names : Names) (s : Bytes) (pos : Nat) : Option (Tag × Nat) := do
  let t2 := (← getInt8 s pos).toNat
  let (name, pos2) ←
    if t2 &&& 0x80 = 0x80 then do pure (← sub s (pos + 1) 1, pos + 2)
    else getString16 s (pos + 1)
  let (v, pos) ← getValue s (t2 &&& 0x7f) pos2
  return (⟨fieldOf names name, v⟩, pos)

-- The loop of get_tags over their number.
def iterTags (names : Names) (s : Bytes) : Nat → Nat → List Tag → Option (List Tag × Nat)
  | 0, pos, tags => some (tags.reverse, pos)
  | ntags + 1, pos, tags => do
      let (tag, pos) ← getTag names s pos
      iterTags names s ntags pos (tag :: tags)

def getTags (names : Names) (s : Bytes) (pos : Nat) : Option (List Tag × Nat) := do
  iterTags names s (← getInt s pos).toNat (pos + 4) []

def fileCommonTags : Names :=
  [([1], .filename),
    ([2], .size),
    ([3], .type),
    ([4], .format),
    ([5], .lastseencomplete),
    ([21], .availability),
    ([48], .completesources),
    ([58], .sizeHi),
    ([208], .artist),
    ([209], .album),
    ([210], .title),
    ([211], .medialength),
    ([212], .bitrate),
    ([213], .mediacodec),
    ([247], .filerating),
    (Bencode.ofString "Artist", .artist),
    (Bencode.ofString "Album", .album),
    (Bencode.ofString "Title", .title)]

def clientTagStrings : List (Bytes × String) :=
  [([1], "name"),
    ([15], "port"),
    ([17], "version"),
    ([31], "udpport"),
    ([32], "compression"),
    ([33], "udpport"),
    ([34], "udpver"),
    ([35], "sourceexchange"),
    ([36], "comments"),
    ([37], "extendedrequest"),
    ([38], "compatibleclient"),
    ([39], "features"),
    ([59], "extrainfo"),
    ([60], "downloadtime"),
    ([61], "incompleteparts"),
    ([62], "l2hac"),
    ([63], "realparts"),
    ([65], "mod_unknown41"),
    ([66], "mod_unknown42"),
    ([67], "mod_unknown43"),
    ([78], "neo_features"),
    ([84], "mod_featureset"),
    ([85], "mod_version"),
    ([86], "mod_protocol"),
    ([90], "mod_bowlfish"),
    ([92], "mod_secure_community"),
    ([93], "mod_unknown0x5d"),
    ([96], "mod_unknown0x60"),
    ([100], "mod_unknown0x64"),
    ([102], "mod_fusion"),
    ([103], "mod_fusion_version"),
    ([105], "edonkeyclc serverip?"),
    ([106], "edonkeyclc serverport?"),
    ([108], "mod_unknown0x6c"),
    ([117], "mod_unknown0x75"),
    ([118], "mod_unknown0x76"),
    ([119], "mod_tarod"),
    ([120], "mod_tarod_version"),
    ([121], "mod_morph"),
    ([128], "mod_morph_version"),
    ([130], "mod_mortillo"),
    ([131], "mod_mortillo_version"),
    ([132], "chanblard_version"),
    ([133], "signature"),
    ([134], "cache"),
    ([135], "mod_lsd"),
    ([136], "mod_lsd_version"),
    ([144], "mod_lovelace_version"),
    ([148], "os_info"),
    ([153], "mod_plus"),
    ([160], "mod_wombat"),
    ([161], "dev_wombat"),
    ([170], "koizo"),
    ([205], "mod_unknown0xcd"),
    ([224], "isp_bypass"),
    ([225], "nat_tunneling"),
    ([239], "emule_compatoptions"),
    ([240], "nat_security"),
    ([249], "emule_udpports"),
    ([250], "emule_miscoptions1"),
    ([251], "emule_version"),
    ([252], "buddy_ip"),
    ([253], "buddy_udp"),
    ([254], "emule_miscoptions2"),
    (Bencode.ofString "pr", "edonkeyclc horde"),
    (Bencode.ofString "wombia", "wombat a"),
    (Bencode.ofString "wombib", "wombat b")]

-- names_of_tag of Connect and of EmuleClientInfo.
def clientCommonTags : Names :=
  clientTagStrings.map fun p => (p.1, .known (Bencode.ofString p.2))

-- A field that its name in a packet stands for: one of the table, or one whose
-- string is not taken for another field.
def Field.Kept (names : Names) (f : Field) : Prop :=
  f ∈ names.map Prod.snd ∨
    names.lookup (stringOfField f) = none ∧
      (f ∈ namedFields ∨ ∃ s, f = .unknown s ∧ fieldOfString s = .known s)

-- A tag that is written with its name.
def Tag.Kept (names : Names) (tag : Tag) : Prop :=
  tag.name.Kept names ∧
    match tag.value with
    | .uint64 _ | .fint64 _ | .string _ => True
    | _ => False

def Tag.InRange (names : Names) (tag : Tag) : Prop :=
  (nameOf names tag.name).length < 2 ^ 16 ∧
    match tag.value with
    | .uint64 n | .fint64 n => 0 ≤ n ∧ n < 2 ^ 32
    | .string s => s.length < 2 ^ 16
    | .uint16 n => 0 ≤ n ∧ n < 2 ^ 16
    | .uint8 n => 0 ≤ n ∧ n < 2 ^ 8
    | .addr _ | .pair _ _ => True

-- The first name that a table gives a field stands for this field.
def Names.Sound (names : Names) : Prop :=
  ∀ p ∈ names, names.lookup (nameOf names p.2) = some p.2

-- A table without a key twice is sound: the first entry of a field is the one that
-- its key finds.
theorem Names.sound_of_nodup {names : Names} (h : (names.map Prod.fst).Nodup) : names.Sound := by
  intro p hp
  rw [nameOf]
  cases hfind : names.find? (fun q => q.2 = p.2) with
  | none =>
      have hne := List.find?_eq_none.mp hfind p hp
      simp at hne
  | some q =>
      have hq : q.2 = p.2 := by simpa using List.find?_some hfind
      obtain ⟨l₁, l₂, hl⟩ := List.append_of_mem (List.mem_of_find?_eq_some hfind)
      rw [← hq]
      apply List.lookup_eq_some_iff.mpr
      refine ⟨l₁, l₂, hl, fun x hx => ?_⟩
      rw [hl, List.map_append, List.map_cons] at h
      have hne := (List.nodup_append.mp h).2.2 x.1 (List.mem_map_of_mem hx) q.1 List.mem_cons_self
      simpa using Ne.symm hne

theorem fileCommonTags_sound : fileCommonTags.Sound := Names.sound_of_nodup (by decide)

theorem clientCommonTags_sound : clientCommonTags.Sound := by
  apply Names.sound_of_nodup
  rw [clientCommonTags, List.map_map]
  decide

theorem fieldOfString_named : ∀ f ∈ namedFields, fieldOfString (stringOfField f) = f := by
  decide

theorem fieldOf_nameOf {names : Names} (hn : names.Sound) {f : Field} (hf : f.Kept names) :
    fieldOf names (nameOf names f) = f := by
  by_cases hmem : f ∈ names.map Prod.snd
  · obtain ⟨p, hp, rfl⟩ := List.mem_map.mp hmem
    rw [fieldOf, hn p hp]
  · obtain ⟨hnone, hf⟩ := hf.resolve_left hmem
    have hfind : names.find? (fun p => p.2 = f) = none := by
      apply List.find?_eq_none.mpr
      intro p hp he
      exact hmem (List.mem_map.mpr ⟨p, hp, of_decide_eq_true he⟩)
    rw [nameOf, hfind]
    show fieldOf names (stringOfField f) = f
    rw [fieldOf, hnone]
    rcases hf with hf | ⟨s, rfl, hs⟩
    · have he := fieldOfString_named f hf
      have hne : ∀ s, f ≠ .known s := by
        rintro s rfl
        simp [namedFields] at hf
      show (match fieldOfString (stringOfField f) with
        | .known s => Field.unknown s
        | field => field) = f
      rw [he]
      cases f with
      | known s => exact absurd rfl (hne s)
      | _ => rfl
    · show (match fieldOfString s with
        | .known s => Field.unknown s
        | field => field) = _
      rw [hs]

variable {names : Names} {s r : Bytes} {pos : Nat}

theorem getTag_name (names : Names) (t : Nat) {name v : Bytes} (ht : t < 16)
    (h : s.drop pos = bufInt8 t ++ (bufString name ++ v)) (hname : name.length < 2 ^ 16) :
    s.drop (pos + 3 + name.length) = v ∧
      getTag names s pos = do
        let (v, pos) ← getValue s t (pos + 3 + name.length)
        return (⟨fieldOf names name, v⟩, pos) := by
  have h1 := drop_next h 1 rfl
  have hstring := getString16_drop h1 hname
  have hpos : pos + 1 + 2 + name.length = pos + 3 + name.length := by omega
  have hbits : ∀ t < 16, t &&& 0x80 ≠ 0x80 ∧ t &&& 0x7f = t := by decide
  constructor
  · rw [← hpos, Nat.add_assoc (pos + 1)]
    exact drop_next h1 _ (by simp [bufString])
  · rw [getTag, getInt8_drop h ⟨by omega, by omega⟩]
    simp only [Option.bind_eq_bind, Option.bind_some, Int.toNat_natCast, if_neg (hbits t ht).1,
      (hbits t ht).2, hstring, hpos]

theorem getTag_drop (hn : names.Sound) {tag : Tag} {b : Bytes} (hb : bufTag names tag = some b)
    (hr : tag.InRange names) (hk : tag.Kept names) (h : s.drop pos = b ++ r) :
    getTag names s pos = some (tag, pos + b.length) := by
  obtain ⟨f, v⟩ := tag
  have hname := fieldOf_nameOf hn hk.1
  cases v with
  | uint64 n =>
      obtain rfl := Option.some.inj hb
      rw [List.append_assoc, List.append_assoc] at h
      obtain ⟨h2, htag⟩ := getTag_name names 3 (by omega) h hr.1
      rw [htag, hname, getValue]
      simp [getInt64_32_drop h2 hr.2, bufString]
      omega
  | fint64 n =>
      obtain rfl := Option.some.inj hb
      rw [List.append_assoc, List.append_assoc] at h
      obtain ⟨h2, htag⟩ := getTag_name names 4 (by omega) h hr.1
      rw [htag, hname, getValue]
      simp [getInt64_32_drop h2 hr.2, bufString]
      omega
  | string t =>
      obtain rfl := Option.some.inj hb
      rw [List.append_assoc, List.append_assoc] at h
      obtain ⟨h2, htag⟩ := getTag_name names 2 (by omega) h hr.1
      rw [htag, hname, getValue]
      simp [getString16_drop h2 hr.2, bufString]
      omega
  | addr ip => exact absurd hk.2 id
  | uint16 n => exact absurd hk.2 id
  | uint8 n => exact absurd hk.2 id
  | pair n m => exact absurd hk.2 id

theorem iterTags_drop (hn : names.Sound) {tags : List Tag} {bs : List Bytes}
    (hb : tags.mapM (bufTag names) = some bs) (hr : ∀ tag ∈ tags, tag.InRange names)
    (hk : ∀ tag ∈ tags, tag.Kept names) (h : s.drop pos = bs.flatten ++ r) (done : List Tag) :
    iterTags names s tags.length pos done =
      some (done.reverse ++ tags, pos + bs.flatten.length) := by
  induction tags generalizing bs pos done with
  | nil =>
      obtain rfl : bs = [] := (Option.some.inj hb).symm
      simp [iterTags]
  | cons tag tags ih =>
      rw [List.mapM_cons] at hb
      simp only [Option.bind_eq_bind, Option.bind_eq_some_iff, Option.pure_def,
        Option.some.injEq] at hb
      obtain ⟨b, hb, bs, hbs, rfl⟩ := hb
      rw [List.flatten_cons, List.append_assoc] at h
      rw [List.length_cons, iterTags, getTag_drop hn hb (hr tag List.mem_cons_self)
        (hk tag List.mem_cons_self) h]
      show iterTags names s tags.length (pos + b.length) (tag :: done) = _
      rw [ih hbs (fun t ht => hr t (List.mem_cons_of_mem _ ht))
        (fun t ht => hk t (List.mem_cons_of_mem _ ht)) (drop_next h _ rfl)]
      simp [Nat.add_assoc]

-- A number that buf_int writes as it is.
def CountKept (n : Nat) : Prop := n < 2 ^ 30 ∨ 2 ^ 31 ≤ n

theorem getTags_drop (hn : names.Sound) {tags : List Tag} {b : Bytes}
    (hb : bufTags names tags = some b) (hlen : tags.length < 2 ^ 32)
    (hc : CountKept tags.length) (hr : ∀ tag ∈ tags, tag.InRange names)
    (hk : ∀ tag ∈ tags, tag.Kept names) (h : s.drop pos = b ++ r) :
    getTags names s pos = some (tags, pos + b.length) := by
  simp only [bufTags, Option.bind_eq_bind, Option.bind_eq_some_iff, Option.pure_def,
    Option.some.injEq] at hb
  obtain ⟨bs, hbs, rfl⟩ := hb
  rw [List.append_assoc] at h
  rw [CountKept] at hc
  rw [getTags, getInt_drop h ⟨by omega, by omega⟩ (by omega)]
  show iterTags names s ((tags.length : Int)).toNat (pos + 4) [] = _
  rw [Int.toNat_natCast, iterTags_drop hn hbs hr hk (drop_next h 4 rfl)]
  simp [Nat.add_assoc]

end Mldonkey.Donkey
