import Mldonkey.Http.Wget

-- Which answers reach the callback of wget_string with the body that was sent.
namespace Mldonkey.Wget

open Bencode (Bytes chr ofString int64OfString digitValue restOfDigits signAndBase)
open FileTP (intOfString)
open Indexing (lowercase)

section Hexadecimal

variable {s e : Bytes} {acc n : ℕ} {b : UInt8}

-- The digits read so far never exceed the whole number, so no check of the range fails
theorem restOfDigits_of_foldlM
    (h : s.foldlM (fun n c => (digitValue 16 c).map fun d => 16 * n + d) acc = some n) :
    acc ≤ n ∧ (n < 2 ^ 64 → restOfDigits 16 acc s = some n) := by
  induction s generalizing acc with
  | nil =>
    obtain rfl : acc = n := by simpa using h
    exact ⟨le_rfl, fun _ => rfl⟩
  | cons c s ih =>
    cases hd : digitValue 16 c with
    | none => simp [hd] at h
    | some d =>
      simp only [List.foldlM_cons, hd, Option.map_some, Option.bind_eq_bind, Option.bind_some] at h
      obtain ⟨hle, hrest⟩ := ih h
      refine ⟨by omega, fun hlt => ?_⟩
      have hc : c ≠ chr '_' := by
        rintro rfl
        have hnone : digitValue 16 (chr '_') = none := by decide
        rw [hnone] at hd
        cases hd
      rw [restOfDigits, if_neg hc]
      simp only [hd]
      rw [if_pos (by omega)]
      exact hrest hlt

theorem restOfDigits_eq_none (hb : digitValue 16 b = none) (hne : b ≠ chr '_') :
    restOfDigits 16 acc (s ++ b :: e) = none := by
  induction s generalizing acc with
  | nil => simp [restOfDigits, hb, hne]
  | cons c s ih =>
    rw [List.cons_append, restOfDigits]
    split
    · exact ih
    · split
      · rfl
      · split
        · exact ih
        · rfl

theorem signAndBase_hex : signAndBase (ofString "0x" ++ s) = (false, 16, false, s) := by
  have h : ofString "0x" = [chr '0', chr 'x'] := rfl
  simp only [h, List.cons_append, List.nil_append, signAndBase]
  rfl

theorem intOfString_hex (h : hexValue s = some n) (hs : s ≠ []) (hn : n < 2 ^ 62) :
    intOfString (ofString "0x" ++ s) = some (n : ℤ) := by
  obtain ⟨c, s, rfl⟩ := List.exists_cons_of_ne_nil hs
  unfold intOfString
  simp only [signAndBase_hex]
  rw [hexValue, List.foldlM_cons] at h
  cases hd : digitValue 16 c with
  | none => simp [hd] at h
  | some d =>
    simp only [hd, Option.map_some, Option.bind_eq_bind, Option.bind_some, mul_zero,
      zero_add] at h
    have hrest := (restOfDigits_of_foldlM h).2 (by omega)
    have hmod : Int.bmod (n : ℤ) (2 ^ 63) = n := by
      rw [Int.bmod_eq_of_le_mul_two] <;> omega
    simp only [hrest, Option.bind_eq_bind, Option.bind_some, Bool.false_eq_true, if_false]
    rw [if_neg (by omega), hmod]

theorem intOfString_eq_none (hs : s ≠ []) :
    intOfString (ofString "0x" ++ (s ++ chr ';' :: e)) = none := by
  obtain ⟨c, s, rfl⟩ := List.exists_cons_of_ne_nil hs
  unfold intOfString
  simp only [signAndBase_hex, List.cons_append]
  cases digitValue 16 c with
  | none => rfl
  | some d =>
    simp [restOfDigits_eq_none (b := chr ';') (by decide) (by decide)]

theorem notMem_of_hexValue (h : hexValue s = some n) : 13 ∉ s := by
  suffices ∀ acc, s.foldlM (fun n c => (digitValue 16 c).map fun d => 16 * n + d) acc = some n →
      13 ∉ s from this 0 h
  clear h
  induction s with
  | nil => simp
  | cons c s ih =>
    intro acc h
    cases hd : digitValue 16 c with
    | none => simp [hd] at h
    | some d =>
      simp only [List.foldlM_cons, hd, Option.map_some, Option.bind_eq_bind,
        Option.bind_some] at h
      have hc : 13 ≠ c := by
        rintro rfl
        have hnone : digitValue 16 13 = none := by decide
        rw [hnone] at hd
        cases hd
      rw [List.mem_cons, not_or]
      exact ⟨hc, ih _ h⟩

end Hexadecimal

section Chunked

variable {t s s2 : Bytes}

theorem searchCrlf_append (ht : 13 ∉ t) : searchCrlf (t ++ (crlf ++ s)) = some t.length := by
  induction t with
  | nil => simp [searchCrlf, crlf]
  | cons c t ih =>
    rw [List.mem_cons, not_or] at ht
    have hc : ¬ crlf <+: c :: (t ++ (crlf ++ s)) := by
      rintro ⟨u, hu⟩
      exact ht.1 (List.cons_eq_cons.mp hu).1
    rw [List.cons_append, searchCrlf, if_neg hc, ih ht.2]
    rfl

theorem Chunk.size_ne_nil (c : Chunk) : c.size ≠ [] := by
  intro h
  have hsize := c.size_eq
  rw [h] at hsize
  have hdata := List.length_pos_iff.mpr c.nonempty
  simp [hexValue] at hsize
  omega

theorem Chunk.size_ne_zero (c : Chunk) : c.size ≠ ofString "0" := by
  intro h
  have hsize := c.size_eq
  rw [h] at hsize
  have hdata := List.length_pos_iff.mpr c.nonempty
  have hzero : hexValue (ofString "0") = some 0 := by decide
  rw [hzero, Option.some_inj] at hsize
  omega

theorem chunked_chunk (c : Chunk) (hext : c.ext = []) :
    chunked (c.text ++ s) s2 = chunked s (s2 ++ c.data) := by
  have hsearch : searchCrlf (c.text ++ s) = some c.size.length := by
    have h := searchCrlf_append (s := c.data ++ (crlf ++ s)) (notMem_of_hexValue c.size_eq)
    simpa [Chunk.text, hext] using h
  have htake : (c.text ++ s).take c.size.length = c.size := by simp [Chunk.text, hext]
  have hdrop : (c.text ++ s).drop (c.size.length + 2) = c.data ++ (crlf ++ s) := by
    simp [Chunk.text, hext, crlf, ← List.drop_drop]
  have hrest : (c.data ++ (crlf ++ s)).drop (c.data.length + 2) = s := by
    simp [crlf, ← List.drop_drop]
  rw [chunked]
  simp only [hsearch, htake, hdrop]
  rw [if_pos ⟨List.length_pos_iff.mpr c.size_ne_nil, c.size_ne_zero⟩,
    intOfString_hex c.size_eq c.size_ne_nil c.length_lt]
  simp only [Int.toNat_natCast, hrest, List.take_left]
  rw [if_pos (by simp [crlf])]

-- The extension is part of what int_of_string is given
theorem chunked_ext (size s2 : Bytes) {e : Bytes} (hsize : size ≠ []) (h13 : 13 ∉ size) (he : 13 ∉ e) :
    chunked (size ++ (chr ';' :: e) ++ (crlf ++ s)) s2 = none := by
  have hstart : 13 ∉ size ++ chr ';' :: e := by
    simp only [List.mem_append, List.mem_cons, not_or]
    exact ⟨h13, by decide, he⟩
  have hne : size ++ chr ';' :: e ≠ ofString "0" := by
    intro h
    have hmem : chr ';' ∈ ofString "0" := by rw [← h]; simp
    exact absurd hmem (by decide)
  rw [chunked]
  simp only [searchCrlf_append hstart, List.take_left]
  rw [if_pos ⟨by simp, hne⟩, intOfString_eq_none hsize]

theorem chunked_last (trailer : Bytes) :
    chunked (ofString "0" ++ (crlf ++ trailer)) s2 = some s2 := by
  rw [chunked, searchCrlf_append (by decide)]
  simp

theorem chunked_text (cs : List Chunk) {lastExt : Bytes} (trailer : Bytes)
    (hlast : lastExt = [] ∨ ∃ e, lastExt = chr ';' :: e ∧ 13 ∉ e) :
    chunked ((cs.map Chunk.text).flatten ++ (ofString "0" ++ lastExt ++ crlf ++ trailer)) s2 =
      if (∀ k ∈ cs, k.ext = []) ∧ lastExt = [] then some (s2 ++ (cs.map Chunk.data).flatten)
      else none := by
  induction cs generalizing s2 with
  | nil =>
    obtain rfl | ⟨e, rfl, he⟩ := hlast
    · simpa using chunked_last trailer
    · simpa using chunked_ext (ofString "0") s2 (by decide) (by decide) he
  | cons c cs ih =>
    rw [List.map_cons, List.flatten_cons, List.append_assoc]
    obtain hext | ⟨e, hext, he⟩ := c.ext_eq
    · rw [chunked_chunk c hext, ih]
      simp [hext]
    · rw [if_neg (by simp [hext])]
      have h := chunked_ext (s := c.data ++ (crlf ++ ((cs.map Chunk.text).flatten ++
        (ofString "0" ++ lastExt ++ crlf ++ trailer)))) c.size s2 c.size_ne_nil
        (notMem_of_hexValue c.size_eq) he
      simpa [Chunk.text, hext] using h

end Chunked

section Records

variable {records : List Request} {r r' : Request} {code : ℤ} {codes : List ℤ}

theorem follow_eq (hlast : records.getLast? = some r) (hcode : IsHop code)
    (hretry : r.reqRetry < r.reqMaxRetry) :
    follow records code = some (records ++ [{ r with reqRetry := r.reqRetry + 1 }]) := by
  have hif : code ∈ ([301, 302, 304, 502, 503, 504] : List ℤ) ∧ r.reqRetry < r.reqMaxRetry :=
    ⟨hcode, hretry⟩
  simp only [follow, hlast, Option.bind_eq_bind, Option.bind_some]
  rw [if_pos hif]

-- Every hop adds a copy of the record
theorem foldlM_follow (hlast : records.getLast? = some r) (hcodes : ∀ code ∈ codes, IsHop code)
    (hretry : codes.length + r.reqRetry ≤ r.reqMaxRetry) :
    ∃ copies, codes.foldlM follow records = some (records ++ copies) ∧
      copies.length = codes.length ∧
      ∃ r', (records ++ copies).getLast? = some r' := by
  induction codes generalizing records r with
  | nil => exact ⟨[], by simp, rfl, r, by simpa using hlast⟩
  | cons code codes ih =>
    rw [List.forall_mem_cons] at hcodes
    rw [List.length_cons] at hretry
    obtain ⟨copies, hfold, hlen, r', hr'⟩ :=
      ih (show (records ++ [{ r with reqRetry := r.reqRetry + 1 }]).getLast? =
        some { r with reqRetry := r.reqRetry + 1 } by simp) hcodes.2 (by dsimp only; omega)
    refine ⟨{ r with reqRetry := r.reqRetry + 1 } :: copies, ?_, by simp [hlen], r', ?_⟩
    · rw [List.foldlM_cons, follow_eq hlast hcodes.1 (by omega)]
      simpa using hfold
    · simpa using hr'

end Records

section Coding

variable {headers : List (Bytes × Bytes)} {r : Request} {len : Int64}

theorem onHeader_reqGzip (r : Request) (len : Int64) (h : Bytes × Bytes) :
    (onHeader (r, len) h).1.reqGzip = true ↔ r.reqGzip = true ∨ NamesGzip h := by
  have hne : ofString "content-encoding" ≠ ofString "content-length" := by decide
  have hne' : ofString "content-encoding" ≠ ofString "transfer-encoding" := by decide
  unfold onHeader NamesGzip
  dsimp only
  split <;> rename_i h₁
  · simp [h₁, hne.symm]
  · split <;> rename_i h₂
    · split <;> simp_all
    · split
      · split <;> simp [h₂]
      · simp [h₂]

theorem onHeader_reqChunk (r : Request) (len : Int64) (h : Bytes × Bytes) :
    (onHeader (r, len) h).1.reqChunk = true ↔ r.reqChunk = true ∨ NamesChunked h := by
  have hne : ofString "transfer-encoding" ≠ ofString "content-length" := by decide
  have hne' : ofString "content-encoding" ≠ ofString "transfer-encoding" := by decide
  unfold onHeader NamesChunked
  dsimp only
  split <;> rename_i h₁
  · simp [h₁, hne.symm]
  · split <;> rename_i h₂
    · split <;> simp [h₂, hne']
    · split <;> rename_i h₃
      · split <;> simp_all
      · simp [h₃]

-- A flag that one header sets is set by the headers when one of them is of its kind
theorem foldl_onHeader_flag {f : Request → Bool} {N : Bytes × Bytes → Prop}
    (hstep : ∀ r len h, f (onHeader (r, len) h).1 = true ↔ f r = true ∨ N h) :
    f (headers.foldl onHeader (r, len)).1 = true ↔ f r = true ∨ ∃ h ∈ headers, N h := by
  induction headers generalizing r len with
  | nil => simp
  | cons h headers ih =>
    rw [List.foldl_cons, ih, hstep]
    simp only [List.mem_cons, exists_eq_or_imp, or_assoc]

theorem onHeader_length {P : Int64 → Prop} {h : Bytes × Bytes} (hlen : P len)
    (hheader : h.1.map lowercase = ofString "content-length" →
      ∃ n, int64OfString h.2 = some n ∧ P n) : P (onHeader (r, len) h).2 := by
  unfold onHeader
  dsimp only
  split <;> rename_i hname
  · obtain ⟨n, hn, hP⟩ := hheader hname
    simpa [hn] using hP
  · split
    · exact hlen
    · split <;> exact hlen

theorem foldl_onHeader_length {P : Int64 → Prop} (hlen : P len)
    (hheaders : ∀ h ∈ headers, h.1.map lowercase = ofString "content-length" →
      ∃ n, int64OfString h.2 = some n ∧ P n) :
    P (headers.foldl onHeader (r, len)).2 := by
  induction headers generalizing r len with
  | nil => exact hlen
  | cons h headers ih =>
    rw [List.forall_mem_cons] at hheaders
    rw [List.foldl_cons]
    exact ih (onHeader_length hlen hheaders.1) hheaders.2

-- A length that is the number of bytes sent cuts nothing off
theorem foldl_onContent {maxlen : ℤ} {got : Bytes} {reads : List Bytes}
    (hmax : maxlen < 0 ∨ (got.length + reads.flatten.length : ℤ) ≤ maxlen) :
    reads.foldl (onContent maxlen) (got, false) = (got ++ reads.flatten, false) := by
  induction reads generalizing got with
  | nil => simp
  | cons data reads ih =>
    have hread : onContent maxlen (got, false) data = (got ++ data, false) := by
      rw [List.flatten_cons, List.length_append] at hmax
      unfold onContent
      dsimp only
      split
      · obtain hneg | hmax := hmax
        · rw [if_neg (by omega)]
          simp
        · rw [if_pos (by omega), min_eq_right (by omega)]
          simp
      · have hnil : data = [] := by
          rw [← List.length_eq_zero_iff]
          simp_all
        simp [hnil]
    rw [List.foldl_cons, hread, ih, List.flatten_cons, List.append_assoc]
    simpa [add_assoc] using hmax

end Coding

section Body

variable {gz : Gzip} {body : Bytes} {r : Request} {codes : List ℤ}

theorem Answer.fileBuf_eq (a : Answer gz body) (r : Request) :
    (a.reads.foldl (onContent (a.headers.foldl onHeader (r, -1)).2.toInt) ([], false)).1 =
      a.reads.flatten := by
  have hlen : (a.headers.foldl onHeader (r, -1)).2.toInt < 0 ∨
      (a.reads.flatten.length : ℤ) ≤ (a.headers.foldl onHeader (r, -1)).2.toInt :=
    foldl_onHeader_length (P := fun n => n.toInt < 0 ∨ (a.reads.flatten.length : ℤ) ≤ n.toInt)
      (.inl (by decide)) fun h hh hname =>
        let ⟨n, hn, heq⟩ := a.length_eq h hh hname
        ⟨n, hn, .inr heq.ge⟩
  rw [foldl_onContent (by simpa using hlen)]
  rfl

theorem Gzip.decoded (gz : Gzip) (gzip : Bool) (body : Bytes) :
    (if gzip = true then gz.gunzip (gz.content gzip body) else some (gz.content gzip body)) =
      some body := by
  unfold Gzip.content
  split
  · exact gz.exact body
  · rfl

theorem Answer.finish_eq (a : Answer gz body) (hgzip : r.reqGzip = a.gzip)
    (hchunk : r.reqChunk = a.chunks.isSome) :
    finish gz.gunzip r a.reads.flatten = some body ↔ a.Plain := by
  unfold finish Answer.Plain
  have hreads := a.reads_eq
  cases hc : a.chunks with
  | none =>
    rw [hc] at hreads hchunk
    simp [hchunk, hgzip, hreads, gz.decoded]
  | some c =>
    rw [hc] at hreads hchunk
    have htext : chunked c.text [] = _ := chunked_text c.list c.trailer c.lastExt_eq
    have hdata : (c.list.map Chunk.data).flatten = _ := a.data_eq c hc
    by_cases hplain : (∀ k ∈ c.list, k.ext = []) ∧ c.lastExt = []
    · rw [if_pos hplain, List.nil_append, hdata] at htext
      simpa [hchunk, hgzip, hreads, htext, gz.decoded, hplain.2] using hplain.1
    · rw [if_neg hplain] at htext
      simp only [hchunk, hreads, Option.map_some, Option.getD_some, Option.isSome_some, if_true,
        htext, Option.bind_eq_bind, Option.bind_none, Option.some_inj, forall_eq', hplain,
        reduceCtorEq]

theorem wgetString_eq (a : Answer gz body) (hcodes : ∀ code ∈ codes, IsHop code)
    (hretry : codes.length + r.reqRetry ≤ r.reqMaxRetry) :
    wgetString gz.gunzip r codes a.headers a.reads =
      finish gz.gunzip
        (if codes = [] then (a.headers.foldl onHeader (r, -1)).1 else r) a.reads.flatten := by
  obtain ⟨copies, hfold, hlen, r', hr'⟩ :=
    foldlM_follow (show [r].getLast? = some r from rfl) hcodes hretry
  unfold wgetString
  simp only [hfold, hr', Option.bind_eq_bind, Option.bind_some, a.fileBuf_eq]
  cases codes with
  | nil =>
    obtain rfl : copies = [] := List.length_eq_zero_iff.mp hlen
    obtain rfl : r = r' := by simpa using hr'
    simp
  | cons code codes =>
    obtain ⟨copy, copies, rfl⟩ := List.exists_cons_of_length_pos (l := copies) (by simp [hlen])
    simp

-- The closure at the end asks the first record, while the headers of the answer are noted in the
-- last; after a hop the bytes reach the callback as they were sent.
theorem wgetString_eq_body_iff (a : Answer gz body) (hgzip : r.reqGzip = false)
    (hchunk : r.reqChunk = false) (hcodes : ∀ code ∈ codes, IsHop code)
    (hretry : codes.length + r.reqRetry ≤ r.reqMaxRetry) :
    wgetString gz.gunzip r codes a.headers a.reads = some body ↔
      if codes = [] then a.Plain else a.reads.flatten = body := by
  rw [wgetString_eq a hcodes hretry]
  split
  · refine a.finish_eq ?_ ?_
    · rw [Bool.eq_iff_iff, foldl_onHeader_flag onHeader_reqGzip, a.gzip_iff]
      simp [hgzip]
    · rw [Bool.eq_iff_iff, foldl_onHeader_flag onHeader_reqChunk, a.chunks_iff]
      simp [hchunk]
  · simp [finish, hgzip, hchunk]

-- A library under which nothing is shorter; the answers below are not compressed.
def uncompressed : Gzip := ⟨id, some, fun _ => rfl⟩

def hello : Chunks where
  list := [⟨ofString "5", [], ofString "hello", by decide, by decide, by decide, .inl rfl⟩]
  lastExt := []
  trailer := crlf
  lastExt_eq := .inl rfl

def helloAnswer : Answer uncompressed (ofString "hello") where
  headers := [(ofString "Transfer-Encoding", ofString "chunked")]
  gzip := false
  chunks := some hello
  reads := [ofString "5\r\nhe", ofString "llo\r\n0\r\n\r\n"]
  data_eq := by
    rintro c ⟨⟩
    rfl
  reads_eq := by decide
  gzip_iff := by
    simp only [List.mem_singleton, exists_eq_left, NamesGzip]
    decide
  chunks_iff := by simpa using ⟨by decide, by decide⟩
  length_eq := by
    intro h hh
    rw [List.mem_singleton.mp hh]
    decide

def helloRequest : Request := ⟨false, false, 0, 10⟩

theorem wgetString_hello :
    wgetString uncompressed.gunzip helloRequest [] helloAnswer.headers helloAnswer.reads =
      some (ofString "hello") :=
  (wgetString_eq_body_iff helloAnswer rfl rfl (by simp) (by decide)).mpr (by
    rintro c ⟨⟩
    exact ⟨by decide, rfl⟩)

-- The same answer after a redirection: the callback gets the chunks
theorem wgetString_redirected :
    wgetString uncompressed.gunzip helloRequest [302] helloAnswer.headers helloAnswer.reads =
        some (ofString "5\r\nhello\r\n0\r\n\r\n") ∧
      wgetString uncompressed.gunzip helloRequest [302] helloAnswer.headers helloAnswer.reads ≠
        some (ofString "hello") := by
  decide

end Body

end Mldonkey.Wget
