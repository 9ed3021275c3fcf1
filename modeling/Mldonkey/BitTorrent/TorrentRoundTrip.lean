import Mldonkey.BitTorrent.Torrent

-- A generated torrent and what decode_torrent makes of it.
namespace Mldonkey.TorrentFile

open Bencode (Bytes Value Exn ofString chr)

section Paths

def slashed (path : List Bytes) : Bytes := path.flatMap fun dir => chr '/' :: dir

lemma foldl_path (path : List Bytes) (s : Bytes) :
    path.foldl (fun s dir => s ++ chr '/' :: dir) s = s ++ slashed path := by
  induction path generalizing s with
  | nil => simp [slashed]
  | cons dir path ih => simp [slashed, ih]

lemma pathToString_cons (dir : Bytes) (path : List Bytes) :
    pathToString (dir :: path) = dir ++ slashed path := by
  rw [pathToString, foldl_path]
  simp [slashed]

lemma stringToPathFrom_append (dir start s : Bytes) (h : chr '/' ∉ dir) :
    stringToPathFrom start (dir ++ s) = stringToPathFrom (start ++ dir) s := by
  induction dir generalizing start with
  | nil => simp
  | cons c dir ih =>
    obtain ⟨hc, hdir⟩ := not_or.mp (fun h' => h (List.mem_cons.mpr h'))
    rw [List.cons_append, stringToPathFrom, if_neg (Ne.symm hc), ih _ hdir]
    simp

lemma stringToPathFrom_slashed (path : List Bytes) (h : ∀ dir ∈ path, dir ≠ [] ∧ chr '/' ∉ dir)
    (start : Bytes) (hstart : start ≠ []) :
    stringToPathFrom start (slashed path) = start :: path := by
  induction path generalizing start with
  | nil => simp [slashed, stringToPathFrom, hstart]
  | cons dir path ih =>
    obtain ⟨hne, hslash⟩ := h dir (by simp)
    have hcons : slashed (dir :: path) = chr '/' :: (dir ++ slashed path) := by simp [slashed]
    rw [hcons, stringToPathFrom, if_pos rfl, if_neg hstart, stringToPathFrom_append _ _ _ hslash,
      List.nil_append, ih (fun d hd => h d (by simp [hd])) dir hne]

-- The names that make_torrent builds from those of directories and of a file.
def IsPath (s : Bytes) : Prop :=
  ∃ path : List Bytes, path ≠ [] ∧ (∀ dir ∈ path, dir ≠ [] ∧ chr '/' ∉ dir) ∧
    s = pathToString path

lemma pathToString_stringToPath {s : Bytes} (h : IsPath s) :
    pathToString (stringToPath s) = s ∧ s ≠ [] := by
  obtain ⟨path, hne, hpath, rfl⟩ := h
  obtain ⟨dir, path, rfl⟩ := List.exists_cons_of_ne_nil hne
  obtain ⟨hdir, hslash⟩ := hpath dir (by simp)
  have hback : stringToPath (pathToString (dir :: path)) = dir :: path := by
    rw [pathToString_cons, stringToPath, stringToPathFrom_append _ _ _ hslash, List.nil_append]
    exact stringToPathFrom_slashed path (fun d hd => hpath d (by simp [hd])) dir hdir
  refine ⟨by rw [hback], ?_⟩
  rw [pathToString_cons]
  simp [hdir]

end Paths

section Files

lemma mapM_str (l : List Bytes) : (l.map Value.string).mapM str = .ok l := by
  induction l with
  | nil => rfl
  | cons s l ih =>
    rw [List.map_cons, List.mapM_cons, ih]
    rfl

lemma parseFile_encodeFile (d : Decoding) {f : Bytes × Int64} (h : IsPath f.1) :
    parseFile d (encodeFile f)
      = .ok { d with length := d.length + f.2, files := f :: d.files } := by
  obtain ⟨hpath, hne⟩ := pathToString_stringToPath h
  have hfields : ([(ofString "length", Value.int f.2),
      (ofString "path", .list ((stringToPath f.1).map .string))].foldlM fileField
        ⟨d.length, [], [], 0, false⟩ : Except Exn FileDecoding)
      = .ok ⟨d.length + f.2, f.1, [], f.2, true⟩ := by
    have hlist : pathListToString ((stringToPath f.1).map .string) = .ok f.1 := by
      rw [pathListToString, mapM_str]
      simp [bind, Except.bind, pure, Except.pure, hpath]
    have hlength : fileField ⟨d.length, [], [], 0, false⟩ (ofString "length", .int f.2)
        = .ok ⟨d.length + f.2, [], [], f.2, true⟩ := rfl
    rw [List.foldlM_cons, hlength]
    show (fileField _ _ >>= fun x => [].foldlM fileField x) = _
    have hif : fileField ⟨d.length + f.2, [], [], f.2, true⟩
        (ofString "path", .list ((stringToPath f.1).map .string))
        = (pathListToString ((stringToPath f.1).map .string) >>= fun s =>
          .ok ⟨d.length + f.2, s, [], f.2, true⟩) := rfl
    rw [hif, hlist]
    rfl
  rw [encodeFile, parseFile, hfields]
  simp [bind, Except.bind, pure, Except.pure, hne]

def totalLength (files : List (Bytes × Int64)) : Int64 := (files.map Prod.snd).sum

lemma parseFiles_encodeFiles (files : List (Bytes × Int64)) (h : ∀ f ∈ files, IsPath f.1)
    (d : Decoding) :
    parseFiles d (files.map encodeFile)
      = .ok { d with length := d.length + totalLength files, files := files.reverse ++ d.files } := by
  induction files generalizing d with
  | nil =>
    simp [parseFiles, totalLength, pure, Except.pure]
  | cons f files ih =>
    rw [parseFiles, List.map_cons, List.foldlM_cons, parseFile_encodeFile d (h f (by simp))]
    show parseFiles _ (files.map encodeFile) = _
    rw [ih fun f hf => h f (by simp [hf])]
    simp [totalLength, Int64.add_assoc]

end Files

section Pieces

lemma cutPieces_flatMap (pieces : List Sha1) :
    cutPieces (pieces.flatMap fun p => p.1) pieces.length = .ok pieces := by
  induction pieces with
  | nil => rfl
  | cons p pieces ih =>
    have htake : ((p :: pieces).flatMap fun p => p.1).take 20 = p.1 := by
      rw [List.flatMap_cons, List.take_left' p.2]
    have hdrop : ((p :: pieces).flatMap fun p => p.1).drop 20 = pieces.flatMap fun p => p.1 := by
      rw [List.flatMap_cons, List.drop_left' p.2]
    rw [List.length_cons, cutPieces, dif_pos (by rw [htake]; exact p.2), hdrop, ih]
    simp only [bind, Except.bind, pure, Except.pure, htake]
    rfl

end Pieces

section Sorted

lemma keysSorted_string (s : Bytes) : (Value.string s).KeysSorted := by
  rw [Value.KeysSorted]
  trivial

lemma keysSorted_int (i : Int64) : (Value.int i).KeysSorted := by
  rw [Value.KeysSorted]
  trivial

lemma listSorted_of_forall (l : List Value) (h : ∀ v ∈ l, v.KeysSorted) : Bencode.listSorted l := by
  induction l with
  | nil => rw [Bencode.listSorted]; trivial
  | cons v l ih =>
    rw [Bencode.listSorted]
    exact ⟨h v (by simp), ih fun v hv => h v (by simp [hv])⟩

lemma keysSorted_list (l : List Value) (h : ∀ v ∈ l, v.KeysSorted) :
    (Value.list l).KeysSorted := by
  rw [Value.KeysSorted]
  exact listSorted_of_forall l h

lemma keysSorted_dictionary (l : List (Bytes × Value))
    (hkeys : (l.map Prod.fst).Pairwise fun x y => Bencode.keyLe x y)
    (h : ∀ e ∈ l, e.2.KeysSorted) : (Value.dictionary l).KeysSorted := by
  rw [Value.KeysSorted]
  exact ⟨List.pairwise_map.mp hkeys, (Bencode.entriesSorted_iff l).mpr h⟩

lemma keysSorted_encodeFile (f : Bytes × Int64) : (encodeFile f).KeysSorted := by
  apply keysSorted_dictionary
  · show [ofString "length", ofString "path"].Pairwise _
    decide
  · intro e he
    simp only [List.mem_cons, List.not_mem_nil, or_false] at he
    rcases he with rfl | rfl
    · exact keysSorted_int _
    · refine keysSorted_list _ fun v hv => ?_
      obtain ⟨s, -, rfl⟩ := List.mem_map.mp hv
      exact keysSorted_string s

lemma filesEntry_key (t : Torrent) :
    (filesEntry t).1 = ofString "length" ∨ (filesEntry t).1 = ofString "files" := by
  unfold filesEntry
  split
  · exact .inl rfl
  · exact .inr rfl

lemma keysSorted_info (t : Torrent) : (Value.dictionary (infoEntries t)).KeysSorted := by
  apply keysSorted_dictionary
  · show [(filesEntry t).1, ofString "name", ofString "name.utf-8", ofString "piece length",
      ofString "pieces", ofString "private"].Pairwise _
    rcases filesEntry_key t with hkey | hkey
    · rw [hkey]
      decide
    · rw [hkey]
      decide
  · intro e he
    simp only [infoEntries, List.mem_cons, List.not_mem_nil, or_false] at he
    rcases he with rfl | rfl | rfl | rfl | rfl | rfl
    · unfold filesEntry
      split
      · exact keysSorted_int _
      · refine keysSorted_list _ fun v hv => ?_
        obtain ⟨f, -, rfl⟩ := List.mem_map.mp hv
        exact keysSorted_encodeFile f
    · exact keysSorted_string _
    · exact keysSorted_string _
    · exact keysSorted_int _
    · exact keysSorted_string _
    · exact keysSorted_int _

lemma keysSorted_encodeTorrent (sha1 : Bytes → Sha1) (t : Torrent) :
    (encodeTorrent sha1 t).2.KeysSorted := by
  apply keysSorted_dictionary
  · show [ofString "announce", ofString "comment", ofString "created by", ofString "creation date",
      ofString "encoding", ofString "info", ofString "modified-by"].Pairwise _
    decide
  · intro e he
    simp only [List.mem_cons, List.not_mem_nil, or_false] at he
    rcases he with rfl | rfl | rfl | rfl | rfl | rfl | rfl
    · exact keysSorted_string _
    · exact keysSorted_string _
    · exact keysSorted_string _
    · exact keysSorted_int _
    · exact keysSorted_string _
    · exact keysSorted_info t
    · exact keysSorted_string _

end Sorted

section Decode

variable (shuffle : List Bytes → List Bytes) (convert : Bytes → Bytes → Bytes)
variable (sha1 : Bytes → Sha1) (ofFloat : Bytes → Option Int64)

-- What make_torrent says about the torrent that it builds.
structure Made (t : Torrent) : Prop where
  nameUtf8 : t.nameUtf8 ≠ []
  encoding : t.encoding = []
  pieceSize : 0 < t.pieceSize
  pieces : (t.pieces.length : Int) = npieces t.length t.pieceSize
  somePiece : t.pieces ≠ []
  paths : ∀ f ∈ t.files, IsPath f.1
  length : t.files ≠ [] → totalLength t.files = t.length

-- The references behind the first entries of the torrent, and behind the info.
def beforeInfo (t : Torrent) : Decoding :=
  { Decoding.start with
    announce := t.announce
    comment := t.comment
    createdBy := t.createdBy
    creationDate := t.creationDate
    encoding := t.encoding
    info := .dictionary (infoEntries t) }

def afterInfo (t : Torrent) : Decoding :=
  { beforeInfo t with
    length := t.length
    files := t.files.reverse
    name := t.name
    nameUtf8 := some t.nameUtf8
    pieceSize := t.pieceSize
    pieces := t.pieces.flatMap fun p => p.1
    isPrivate := t.isPrivate }

lemma infoField_filesEntry {t : Torrent} (h : Made t) :
    infoField (beforeInfo t) (filesEntry t)
      = .ok { beforeInfo t with length := t.length, files := t.files.reverse } := by
  cases hfiles : t.files with
  | nil =>
    have hentry : filesEntry t = (ofString "length", .int t.length) := by rw [filesEntry, hfiles]
    rw [hentry]
    rfl
  | cons f files =>
    have hentry : filesEntry t = (ofString "files", .list (t.files.map encodeFile)) := by
      rw [filesEntry, hfiles]
    have hfield : infoField (beforeInfo t) (ofString "files", .list (t.files.map encodeFile))
        = parseFiles (beforeInfo t) (t.files.map encodeFile) := rfl
    have hzero : (beforeInfo t).length = 0 := rfl
    have hnil : (beforeInfo t).files = [] := rfl
    rw [hentry, hfield, parseFiles_encodeFiles t.files h.paths, h.length (by simp [hfiles]), hzero,
      hnil, hfiles]
    simp

lemma foldlM_infoEntries {t : Torrent} (h : Made t) :
    (infoEntries t).foldlM infoField (beforeInfo t) = .ok (afterInfo t) := by
  have hprivate : decide ((if t.isPrivate then 1 else 0 : Int64) ≠ 0) = t.isPrivate := by
    cases t.isPrivate <;> decide
  have hfiles := infoField_filesEntry h
  rw [infoEntries, List.foldlM_cons, hfiles]
  have hafter : afterInfo t = { beforeInfo t with
      length := t.length
      files := t.files.reverse
      name := t.name
      nameUtf8 := some t.nameUtf8
      pieceSize := t.pieceSize
      pieces := t.pieces.flatMap fun p => p.1
      isPrivate := decide ((if t.isPrivate then 1 else 0 : Int64) ≠ 0) } := by
    rw [hprivate]
    rfl
  rw [hafter]
  rfl

lemma foldlM_encodeTorrent {t : Torrent} (h : Made t) :
    ([(ofString "announce", .string t.announce), (ofString "comment", .string t.comment),
        (ofString "created by", .string t.createdBy),
        (ofString "creation date", .int t.creationDate),
        (ofString "encoding", .string t.encoding),
        (ofString "info", .dictionary (infoEntries t)),
        (ofString "modified-by", .string t.modifiedBy)].foldlM (torrentField shuffle)
          Decoding.start : Except Exn Decoding)
      = .ok { afterInfo t with modifiedBy := t.modifiedBy } := by
  have hinfo : torrentField shuffle { beforeInfo t with info := .list [] }
      (ofString "info", .dictionary (infoEntries t)) = .ok (afterInfo t) :=
    foldlM_infoEntries h
  show (torrentField shuffle { beforeInfo t with info := .list [] }
    (ofString "info", .dictionary (infoEntries t)) >>= fun d =>
      [(ofString "modified-by", Value.string t.modifiedBy)].foldlM (torrentField shuffle) d) = _
  rw [hinfo]
  rfl

lemma pieces_ne_nil {t : Torrent} (h : Made t) : (t.pieces.flatMap fun p => p.1) ≠ [] := by
  obtain ⟨p, pieces, hp⟩ := List.exists_cons_of_ne_nil h.somePiece
  intro hnil
  have hlen := congrArg List.length hnil
  rw [hp, List.flatMap_cons, List.length_append, p.2] at hlen
  simp at hlen

-- A list of one file is lost, any other one is read in its order.
def readFiles (files : List (Bytes × Int64)) : List (Bytes × Int64) :=
  if files.length = 1 then [] else files

lemma finish_afterInfo {t : Torrent} (h : Made t) :
    finish convert sha1 ofFloat { afterInfo t with modifiedBy := t.modifiedBy }
      = .ok (sha1 (Bencode.encode false (.dictionary (infoEntries t))),
        { name := t.nameUtf8
          nameUtf8 := t.nameUtf8
          filename := []
          length := t.length
          announce := t.announce
          announceList := []
          pieceSize := t.pieceSize
          files := readFiles t.files
          pieces := t.pieces
          comment := t.comment
          createdBy := t.createdBy
          creationDate := t.creationDate
          modifiedBy := t.modifiedBy
          encoding := []
          isPrivate := t.isPrivate }) := by
  have hencoding : (afterInfo t).encoding = [] := h.encoding
  have hsize : t.pieceSize ≠ 0 := fun he => by
    have := h.pieceSize
    rw [he] at this
    exact absurd this (by decide)
  have hpieces := pieces_ne_nil h
  have hagain := Bencode.decode_encode ofFloat (.dictionary (infoEntries t))
  have hcut : cutPieces (t.pieces.flatMap fun p => p.1) (npieces t.length t.pieceSize).toNat
      = .ok t.pieces := by
    rw [← h.pieces, Int.toNat_natCast]
    exact cutPieces_flatMap t.pieces
  have hnonneg : ¬npieces t.length t.pieceSize < 0 := by
    rw [← h.pieces]
    omega
  simp only [finish, afterInfo, beforeInfo, Decoding.start, h.encoding, hagain, hcut, filesOf,
    safeConvert, readFiles, bind, Except.bind, pure, Except.pure]
  simp [h.nameUtf8, hsize, hpieces, hnonneg]

lemma decodeTorrent_encodeTorrent {t : Torrent} (h : Made t) :
    ∃ t', decodeTorrent shuffle convert sha1 ofFloat
        (Bencode.encode true (encodeTorrent sha1 t).2) = .ok ((encodeTorrent sha1 t).1, t') ∧
      t'.length = t.length ∧ t'.pieceSize = t.pieceSize ∧ t'.pieces = t.pieces ∧
      t'.isPrivate = t.isPrivate ∧ t'.files = readFiles t.files := by
  have hdecode : Bencode.decode ofFloat (Bencode.encode true (encodeTorrent sha1 t).2)
      = .ok (encodeTorrent sha1 t).2 := by
    rw [Bencode.decode_encode_strict,
      Bencode.sortKeys_of_keysSorted _ (keysSorted_encodeTorrent sha1 t)]
  have hid : (encodeTorrent sha1 t).1
      = sha1 (Bencode.encode false (.dictionary (infoEntries t))) := by
    show sha1 (Bencode.encode true (.dictionary (infoEntries t))) = _
    rw [Bencode.encode_strict, Bencode.sortKeys_of_keysSorted _ (keysSorted_info t)]
  have hfinish := finish_afterInfo convert sha1 ofFloat h
  have hfold : decodeTorrent shuffle convert sha1 ofFloat
      (Bencode.encode true (encodeTorrent sha1 t).2)
      = finish convert sha1 ofFloat { afterInfo t with modifiedBy := t.modifiedBy } := by
    rw [decodeTorrent, hdecode]
    show (List.foldlM (torrentField shuffle) Decoding.start _ >>= fun d =>
      finish convert sha1 ofFloat d) = _
    rw [foldlM_encodeTorrent shuffle h]
    rfl
  rw [hid]
  exact ⟨_, hfold.trans hfinish, rfl, rfl, rfl, rfl, rfl⟩

end Decode

-- A generated torrent is read with its identifier and its content; only a list of
-- exactly one file is read as no list.
theorem torrent_round_trip (shuffle : List Bytes → List Bytes) (convert : Bytes → Bytes → Bytes)
    (sha1 : Bytes → Sha1) (ofFloat : Bytes → Option Int64) {t : Torrent} (h : Made t) :
    ∃ t', decodeTorrent shuffle convert sha1 ofFloat
        (Bencode.encode true (encodeTorrent sha1 t).2) = .ok ((encodeTorrent sha1 t).1, t') ∧
      t'.length = t.length ∧ t'.pieceSize = t.pieceSize ∧ t'.pieces = t.pieces ∧
      t'.isPrivate = t.isPrivate ∧ t'.files = if t.files.length = 1 then [] else t.files :=
  decodeTorrent_encodeTorrent shuffle convert sha1 ofFloat h

section Examples

def nullSha1 : Sha1 := ⟨List.replicate 20 0, List.length_replicate⟩

-- A directory with the files a, of 3 bytes, and b/c, of 4.
def madeTorrent (files : List (Bytes × Int64)) (length : Int64) : Torrent where
  name := ofString "dir"
  nameUtf8 := ofString "dir"
  filename := []
  length := length
  announce := ofString "http://localhost/"
  announceList := [ofString "http://localhost/"]
  pieceSize := 262144
  files := files
  pieces := [nullSha1]
  comment := ofString "files"
  createdBy := ofString "MLdonkey"
  creationDate := 0
  modifiedBy := []
  encoding := []
  isPrivate := true

lemma isPath_a : IsPath (ofString "a") :=
  ⟨[ofString "a"], by simp, by decide, by decide⟩

lemma isPath_b_c : IsPath (ofString "b/c") :=
  ⟨[ofString "b", ofString "c"], by simp, by decide, by decide⟩

lemma made_two : Made (madeTorrent [(ofString "a", 3), (ofString "b/c", 4)] 7) where
  nameUtf8 := by decide
  encoding := rfl
  pieceSize := by decide
  pieces := by decide
  somePiece := by simp [madeTorrent]
  paths f hf := by
    simp only [madeTorrent, List.mem_cons, List.not_mem_nil, or_false] at hf
    rcases hf with rfl | rfl
    · exact isPath_a
    · exact isPath_b_c
  length _ := by decide

lemma made_one : Made (madeTorrent [(ofString "a", 3)] 3) where
  nameUtf8 := by decide
  encoding := rfl
  pieceSize := by decide
  pieces := by decide
  somePiece := by simp [madeTorrent]
  paths f hf := by
    simp only [madeTorrent, List.mem_cons, List.not_mem_nil, or_false] at hf
    rw [hf]
    exact isPath_a
  length _ := by decide

theorem torrent_round_trip_two :
    ∃ t', decodeTorrent id (fun _ s => s) (fun _ => nullSha1) (fun _ => none)
        (Bencode.encode true (encodeTorrent (fun _ => nullSha1)
          (madeTorrent [(ofString "a", 3), (ofString "b/c", 4)] 7)).2) = .ok (nullSha1, t') ∧
      t'.files = [(ofString "a", 3), (ofString "b/c", 4)] := by
  obtain ⟨t', hdecode, -, -, -, -, hfiles⟩ :=
    torrent_round_trip id (fun _ s => s) (fun _ => nullSha1) (fun _ => none) made_two
  exact ⟨t', hdecode, hfiles⟩

-- A directory with one file.
theorem torrent_round_trip_false : ¬ ∀ t : Torrent, Made t →
    ∃ id t', decodeTorrent (fun l => l) (fun _ s => s) (fun _ => nullSha1) (fun _ => none)
        (Bencode.encode true (encodeTorrent (fun _ => nullSha1) t).2) = .ok (id, t') ∧
      t'.files = t.files := by
  intro h
  obtain ⟨i, t', hdecode, hfiles⟩ := h _ made_one
  obtain ⟨t'', hdecode', -, -, -, -, hfiles'⟩ := decodeTorrent_encodeTorrent (fun l => l)
    (fun _ s => s) (fun _ => nullSha1) (fun _ => none) made_one
  obtain ⟨-, rfl⟩ := Prod.mk.inj (Except.ok.inj (hdecode.symm.trans hdecode'))
  rw [hfiles'] at hfiles
  simp [readFiles, madeTorrent] at hfiles

end Examples

end Mldonkey.TorrentFile
