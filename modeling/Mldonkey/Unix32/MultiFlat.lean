import Mldonkey.Unix32.MultiFile

-- Reads and writes of a multi-file are those of the flat array.
namespace Mldonkey.Unix32

open Patch

namespace MultiFile

variable {f : SubFile} {files A B : List SubFile} {s : Bytes} {p q n r : Nat} {w : Bool}

theorem fill_of_le (h : p + n ≤ s.length) : fill s p n = .ok (patch s p (List.replicate n 0)) := by
  rw [fill, if_neg (by omega)]
  rfl

-- What lies behind the end of the sub-file on disk is read as zero.
theorem fileRead_of_pos (hf : f.Ok w) (hn : 0 < n) (hs : q + n ≤ s.length) :
    fileRead f p s q n = .ok (f, patch s q (region f.fd.bytes p n)) := by
  have hlen := hf.currentLen
  rw [fileRead]
  split
  case isTrue h =>
      rw [FdCache.read_of_le hn hs (by omega)]
      rfl
  case isFalse h =>
      have hmax : max 0 ((f.currentLen : Int) - p) = (f.currentLen - p : Nat) := by omega
      simp only [hmax]
      generalize hm : f.currentLen - p = m
      have hcut : region f.fd.bytes p n =
          region f.fd.bytes p m ++ List.replicate (n - m) 0 := by
        have hzero : region f.fd.bytes (p + m) (n - m) = List.replicate (n - m) 0 :=
          region_of_length_le (by omega)
        rw [← hzero, ← region_append, Nat.add_sub_cancel' (by omega)]
      have hread : (if (m : Int) > 0 then f.fd.read p s q m else .ok s) =
          .ok (patch s q (region f.fd.bytes p m)) := by
        by_cases hm0 : m = 0
        · subst hm0
          rfl
        · rw [if_pos (by omega), FdCache.read_of_le (by omega) (by omega) (by omega)]
      have hsub : (n : Int) - m = (n - m : Nat) := by omega
      rw [hread, ok_bind, hsub, Int.toNat_natCast,
        fill_of_le (by rw [length_patch_of_le (by rw [length_region]; omega)]; omega), ok_bind, hcut,
        ← patch_append, length_region]
      rfl

theorem fileRead_zero (hs : q ≤ s.length) (hp : p ≤ f.currentLen) :
    fileRead f p s q 0 = .error .endOfFile := by
  rw [fileRead, if_pos (by omega), FdCache.read_zero hs]
  rfl

-- A file behind the end of which nothing is read leaves the string as it is.
theorem fileRead_zero_behind (hs : q ≤ s.length) (hp : f.currentLen < p) :
    fileRead f p s q 0 = .ok (f, s) := by
  have hmax : max 0 ((f.currentLen : Int) - p) = (0 : Nat) := by omega
  rw [fileRead, if_neg (by omega)]
  simp only [hmax]
  have hfill := fill_of_le (s := s) (p := q) (n := 0) (by omega)
  rw [if_neg (by omega), ok_bind]
  show (do
    let s ← fill s (q + 0) ((0 : Nat) : Int)
    return (f, s)) = _
  rw [Nat.add_zero, hfill]
  rfl

theorem fileWrite_spec (hf : f.Ok true) (hs : q + n ≤ s.length) :
    ∃ f', fileWrite f p s q n = .ok (f', s) ∧ f'.Ok true ∧ f'.pos = f.pos ∧ f'.len = f.len ∧
      f'.fd.bytes = patch f.fd.bytes p (region s q n) := by
  rw [fileWrite]
  by_cases hn : n = 0
  · subst hn
    exact ⟨f, rfl, hf, rfl, rfl, rfl⟩
  · rw [if_pos (by omega), FdCache.write_of_lt hf.writable (by omega) hs]
    refine ⟨_, rfl, ⟨hf.writable, ?_⟩, rfl, rfl, rfl⟩
    have hne : region s q n ≠ [] := fun h => hn (by simpa using congrArg List.length h)
    have := hf.currentLen
    show (max (f.currentLen : Int) (p + n)).toNat = (patch f.fd.bytes p (region s q n)).length
    rw [length_patch _ _ hne, length_region]
    omega

theorem doOnRemaining_cons {α : Type} (g : SubFile → α → Int → Except Exn (SubFile × α)) (arg : α) :
    doOnRemaining g (f :: files) arg r = (do
      let (file, arg) ← g f arg (min r f.len : Nat)
      if r ≤ f.len then return (file :: files, arg)
      else
        let (tail, arg) ← doOnRemaining g files arg (r - f.len : Nat)
        return (file :: tail, arg)) := by
  have hmin : min (r : Int) f.len = (min r f.len : Nat) := by omega
  rw [doOnRemaining]
  simp only [hmin]
  congr 1
  funext x
  by_cases hle : r ≤ f.len
  · rw [if_pos hle, if_neg (by omega)]
  · have hsub : (r : Int) - (min r f.len : Nat) = (r - f.len : Nat) := by omega
    rw [if_neg hle, hsub, if_pos (by omega)]

theorem region_flat_cons_inside (hr : r ≤ f.len) :
    region (flat (f :: files)) 0 r = region f.fd.bytes 0 r := by
  rw [flat_cons, region_append_left _ (by rw [length_region]; omega), region_region _ _ (by omega)]

theorem region_flat_cons_split (hr : f.len ≤ r) :
    region (flat (f :: files)) 0 r =
      region f.fd.bytes 0 f.len ++ region (flat files) 0 (r - f.len) := by
  have hsum : r = f.len + (r - f.len) := by omega
  conv_lhs => rw [hsum, region_append, region_flat_cons_inside (Nat.le_refl _)]
  rw [flat_cons, region_append_right _ (by rw [length_region]; omega), length_region, Nat.zero_add,
    Nat.sub_self]

-- The other files, when none of those that are read is empty.
theorem readRemaining (hok : ∀ f ∈ files, f.Ok w) (hlay : Layout p files) (hr : 0 < r)
    (hrt : r ≤ total files) (hs : q + r ≤ s.length)
    (hne : ∀ f ∈ files, f.len = 0 → p + r ≤ f.pos) :
    doOnRemaining (next fileRead) files (s, q) r =
      .ok (files, patch s q (region (flat files) 0 r), q + r) := by
  induction files generalizing s p q r with
  | nil =>
      rw [total_nil] at hrt
      omega
  | cons f files ih =>
      obtain ⟨hf, hok⟩ := List.forall_mem_cons.mp hok
      obtain ⟨hpos, hlay⟩ := hlay
      have hlen : 0 < f.len := by
        by_contra hzero
        have := hne f (by simp) (by omega)
        omega
      have hfile : fileRead f 0 s q (min r f.len : Nat) =
          .ok (f, patch s q (region f.fd.bytes 0 (min r f.len))) :=
        @fileRead_of_pos f s 0 q _ w hf (by omega) (by omega)
      rw [doOnRemaining_cons, next]
      simp only [hfile, ok_bind, pure_bind, Int.toNat_natCast]
      rw [total_cons] at hrt
      split
      case isTrue hle =>
          rw [Nat.min_eq_left hle, region_flat_cons_inside hle]
          rfl
      case isFalse hlt =>
          have hlen' : (patch s q (region f.fd.bytes 0 f.len)).length = s.length :=
            length_patch_of_le (by rw [length_region]; omega)
          rw [Nat.min_eq_right (by omega),
            ih hok hlay (by omega) (by omega) (by omega) fun g hg hzero => by
              have := hne g (by simp [hg]) hzero
              omega, region_flat_cons_split (Nat.le_of_not_ge hlt), ← patch_append, length_region,
            ok_bind]
          show Except.ok (_, _, q + f.len + (r - f.len)) = _
          rw [Nat.add_assoc, Nat.add_sub_cancel' (by omega)]

theorem Layout.le_pos {files : List SubFile} {g : SubFile} {p : Nat} (h : Layout p files)
    (hg : g ∈ files) : p ≤ g.pos := by
  obtain ⟨A, B, rfl⟩ := List.append_of_mem hg
  rw [h.pos_eq]
  omega

-- An empty file among them raises End_of_file.
theorem readRemaining_error (hok : ∀ f ∈ files, f.Ok w) (hlay : Layout p files)
    (hs : q + r ≤ s.length) {g : SubFile} (hg : g ∈ files) (hzero : g.len = 0)
    (hpos : g.pos < p + r) :
    doOnRemaining (next fileRead) files (s, q) r = .error .endOfFile := by
  induction files generalizing s p q r with
  | nil => exact absurd hg (by simp)
  | cons f files ih =>
      obtain ⟨hf, hok⟩ := List.forall_mem_cons.mp hok
      obtain ⟨hp, hlay⟩ := hlay
      rw [doOnRemaining_cons, next]
      by_cases hlen : f.len = 0
      · have hfile : fileRead f 0 s q (min r f.len : Nat) = .error .endOfFile := by
          rw [hlen, Nat.min_zero]
          exact @fileRead_zero f s 0 q (by omega) (Nat.zero_le _)
        simp only [hfile, error_bind]
      · have hg' : g ∈ files := by
          rcases List.mem_cons.mp hg with rfl | hg
          · exact absurd hzero hlen
          · exact hg
        have hle := Layout.le_pos hlay hg'
        have hfile : fileRead f 0 s q (min r f.len : Nat) =
            .ok (f, patch s q (region f.fd.bytes 0 (min r f.len))) :=
          @fileRead_of_pos f s 0 q _ w hf (by omega) (by omega)
        have hmin : min r f.len = f.len := by omega
        have hlen' : (patch s q (region f.fd.bytes 0 f.len)).length = s.length :=
          length_patch_of_le (by rw [length_region]; omega)
        simp only [hfile, ok_bind, pure_bind, Int.toNat_natCast]
        rw [if_neg (by omega), hmin, ih hok hlay (by omega) hg' (by omega)]
        rfl

theorem writeRemaining (hok : ∀ f ∈ files, f.Ok true) (hlay : Layout p files) (hr : 0 < r)
    (hrt : r ≤ total files) (hs : q + r ≤ s.length) :
    ∃ files', doOnRemaining (next fileWrite) files (s, q) r = .ok (files', s, q + r) ∧
      (∀ f ∈ files', f.Ok true) ∧ Layout p files' ∧ files'.map SubFile.len = files.map SubFile.len ∧
      flat files' = patch (flat files) 0 (region s q r) := by
  induction files generalizing p q r with
  | nil =>
      rw [total_nil] at hrt
      omega
  | cons f files ih =>
      obtain ⟨hf, hok⟩ := List.forall_mem_cons.mp hok
      obtain ⟨hpos, hlay⟩ := hlay
      obtain ⟨f', hwrite, hf', hpos', hlen', hbytes⟩ :=
        @fileWrite_spec f s 0 q (min r f.len) hf (by omega)
      have hfile : fileWrite f 0 s q (min r f.len : Nat) = .ok (f', s) := hwrite
      rw [total_cons] at hrt
      rw [doOnRemaining_cons, next]
      simp only [hfile, ok_bind, pure_bind, Int.toNat_natCast]
      by_cases hle : r ≤ f.len
      · rw [if_pos hle]
        refine ⟨f' :: files, by rw [Nat.min_eq_left hle]; rfl, List.forall_mem_cons.mpr ⟨hf', hok⟩,
          ⟨hpos'.trans hpos, by rwa [hlen']⟩, by simp [hlen'], ?_⟩
        rw [flat_cons, flat_cons, hlen', hbytes, Nat.min_eq_left hle,
          region_patch _ _ (by rw [length_region]; omega),
          patch_append_left _ (by rw [length_region, length_region]; omega)]
      · obtain ⟨files', hrest, hok', hlay', hlens, hflat⟩ :=
          ih (q := q + f.len) (r := r - f.len) hok hlay (by omega) (by omega) (by omega)
        rw [if_neg hle, Nat.min_eq_right (by omega), hrest]
        refine ⟨f' :: files', by
          rw [ok_bind, Nat.add_assoc, Nat.add_sub_cancel' (by omega)]; rfl,
          List.forall_mem_cons.mpr ⟨hf', hok'⟩, ⟨hpos'.trans hpos, by rwa [hlen']⟩,
          by simp [hlen', hlens], ?_⟩
        rw [flat_cons, flat_cons, hlen', hbytes, Nat.min_eq_right (by omega), hflat,
          region_patch _ _ (by rw [length_region]; omega)]
        have hsum : r = f.len + (r - f.len) := by omega
        conv_rhs => rw [hsum, region_append]
        rw [← patch_append, length_region, patch_append_left _ (by simp)]
        have hlen1 : (patch (region f.fd.bytes 0 f.len) 0 (region s q f.len)).length = f.len := by
          rw [length_patch_of_le (by simp), length_region]
        have hright : patch (_ ++ flat files) (_ + 0) (region s (q + f.len) (r - f.len)) = _ :=
          patch_append_right (patch (region f.fd.bytes 0 f.len) 0 (region s q f.len))
            (by rw [length_region, length_flat]; omega)
        rw [hlen1] at hright
        rw [Nat.zero_add, ← hright, Nat.add_zero]

-- Where the bytes end that the sub-file of a position has on disk.
def presentEnd (t : MultiFile) (b : Nat) : Nat :=
  match t.files.drop (t.tree.findFile b) with
  | [] => 0
  | file :: _ => file.pos + file.currentLen

-- No empty sub-file lies strictly inside, and if nothing is to be read then the
-- position lies behind the bytes on disk.
def Readable (t : MultiFile) (b n : Nat) : Prop :=
  (∀ f ∈ t.files, f.len = 0 → b < f.pos → b + n ≤ f.pos) ∧ (n = 0 → t.presentEnd b < b)

variable {t : MultiFile} {b : Nat}

theorem region_flat_split {first : Nat} (hA : f.pos = total A) (hb : f.pos ≤ b)
    (hfirst : b + first = f.pos + f.len) (hn : first ≤ n) :
    region (flat (A ++ f :: B)) b n =
      region f.fd.bytes (b - f.pos) first ++ region (flat B) 0 (n - first) := by
  have hlenA : (flat A).length = f.pos := by rw [length_flat, hA]
  have hsum : n = first + (n - first) := by omega
  have h1 : region (flat (A ++ f :: B)) b first = region f.fd.bytes (b - f.pos) first := by
    rw [flat_append, flat_cons, region_append_right _ (by omega), hlenA,
      region_append_left _ (by rw [length_region]; omega), region_region _ _ (by omega),
      Nat.zero_add]
  have h2 : region (flat (A ++ f :: B)) (b + first) (n - first) =
      region (flat B) 0 (n - first) := by
    rw [flat_append, flat_cons, region_append_right _ (by omega), hlenA,
      region_append_right _ (by rw [length_region]; omega), length_region]
    congr 1
    omega
  conv_lhs => rw [hsum, region_append, h1, h2]

theorem region_flat_inside (hA : f.pos = total A) (hb : f.pos ≤ b)
    (hn : b + n ≤ f.pos + f.len) :
    region (flat (A ++ f :: B)) b n = region f.fd.bytes (b - f.pos) n := by
  have hlenA : (flat A).length = f.pos := by rw [length_flat, hA]
  rw [flat_append, flat_cons, region_append_right _ (by omega), hlenA,
    region_append_left _ (by rw [length_region]; omega), region_region _ _ (by omega),
    Nat.zero_add]

-- The sub-file f that a position lies in, between those before and those behind.
structure Located (t : MultiFile) (w : Bool) (b : Nat) (A : List SubFile) (f : SubFile)
    (B : List SubFile) : Prop where
  files : t.files = A ++ f :: B
  drop : t.files.drop (t.tree.findFile b) = f :: B
  take : t.files.take (t.tree.findFile b) = A
  ok : f.Ok w
  before_ok : ∀ g ∈ A, g.Ok w
  behind_ok : ∀ g ∈ B, g.Ok w
  pos : f.pos = total A
  before : Layout 0 A
  behind : Layout (f.pos + f.len) B
  total_eq : total t.files = f.pos + (f.len + total B)
  pos_le : f.pos ≤ b
  le_end : b ≤ f.pos + f.len
  lt_end : b < total t.files → b < f.pos + f.len
  pos_len : 0 < f.len

theorem Wf.located (h : t.Wf w) (hb : b ≤ total t.files) : ∃ A f B, Located t w b A f B := by
  obtain ⟨A, f, B, hfiles, hfind, hpos, hle, hge, hlt, hlen⟩ := h.findFile hb
  obtain ⟨hA, -, hB⟩ := (hfiles ▸ h.layout).split
  refine ⟨A, f, B, hfiles, by rw [hfind, hfiles, List.drop_left],
    by rw [hfind, hfiles, List.take_left], h.ok f (by simp [hfiles]),
    fun g hg => h.ok g (by simp [hfiles, hg]), fun g hg => h.ok g (by simp [hfiles, hg]), hpos, hA,
    ?_, ?_, hle, hge, hlt, hlen⟩
  · rwa [Nat.zero_add, ← hpos] at hB
  · rw [hfiles, total_append, total_cons, hpos]

-- An empty file behind the position is one of those behind f.
theorem Located.mem_behind (h : Located t w b A f B) {g : SubFile} (hg : g ∈ t.files)
    (hlt : b < g.pos) : g ∈ B := by
  rw [h.files, List.mem_append, List.mem_cons] at hg
  rcases hg with hg | rfl | hg
  · obtain ⟨A₁, A₂, rfl⟩ := List.append_of_mem hg
    have hposg := h.before.pos_eq
    have hpos := h.pos
    have hle := h.pos_le
    simp only [total_append, total_cons] at hpos
    omega
  · have hle := h.pos_le
    omega
  · exact hg

theorem Located.read_inside (h : Located t w b A f B) (hn : b + n ≤ f.pos + f.len)
    (hs : q + n ≤ s.length) :
    t.Readable b n ∧ t.read b s q n = .ok (patch s q (region (flat t.files) b n)) ∨
      ¬ t.Readable b n ∧ t.read b s q n = .error .endOfFile := by
  have hle := h.pos_le
  have hsub : (b : Int) - f.pos = (b - f.pos : Nat) := by omega
  have hend : t.presentEnd b = f.pos + f.currentLen := by rw [presentEnd, h.drop]
  rw [MultiFile.read, io]
  simp only [h.drop, h.take, hsub]
  rw [if_pos hn]
  by_cases hzero : n = 0
  · subst hzero
    by_cases hcur : b - f.pos ≤ f.currentLen
    · have hfile : fileRead f (b - f.pos : Nat) s q (0 : Nat) = .error .endOfFile :=
        fileRead_zero (by omega) hcur
      simp only [hfile, error_bind]
      refine .inr ⟨fun hr => ?_, trivial⟩
      have := hr.2 rfl
      omega
    · have hfile : fileRead f (b - f.pos : Nat) s q (0 : Nat) = .ok (f, s) :=
        fileRead_zero_behind (by omega) (by omega)
      simp only [hfile, ok_bind]
      exact .inl ⟨⟨fun g _ _ hlt => by omega, fun _ => by omega⟩, rfl⟩
  · rw [fileRead_of_pos h.ok (by omega) hs, ok_bind, h.files, region_flat_inside h.pos hle hn]
    refine .inl ⟨⟨fun g hg hempty hlt => ?_, fun h0 => absurd h0 hzero⟩, rfl⟩
    have := Layout.le_pos h.behind (h.mem_behind hg hlt)
    omega

theorem Located.read_across (h : Located t w b A f B) (hn : ¬ b + n ≤ f.pos + f.len)
    (hb : b + n ≤ total t.files) (hs : q + n ≤ s.length) :
    t.Readable b n ∧ t.read b s q n = .ok (patch s q (region (flat t.files) b n)) ∨
      ¬ t.Readable b n ∧ t.read b s q n = .error .endOfFile := by
  have hle := h.pos_le
  have htotal := h.total_eq
  have hge := h.le_end
  have hlt := h.lt_end (by omega)
  have hsub : (b : Int) - f.pos = (b - f.pos : Nat) := by omega
  have hfirst : ((f.pos + f.len : Nat) : Int) - b = (f.pos + f.len - b : Nat) := by omega
  generalize hm : f.pos + f.len - b = m at hfirst
  have hrem : (n : Int) - m = (n - m : Nat) := by omega
  have hlen : (patch s q (region f.fd.bytes (b - f.pos) m)).length = s.length :=
    length_patch_of_le (by rw [length_region]; omega)
  rw [MultiFile.read, io]
  simp only [h.drop, h.take, hsub]
  rw [if_neg hn]
  simp only [hfirst, Int.toNat_natCast, hrem]
  rw [fileRead_of_pos h.ok (by omega) (by omega), ok_bind]
  by_cases hne : ∀ g ∈ B, g.len = 0 → f.pos + f.len + (n - m) ≤ g.pos
  · simp only
    rw [readRemaining h.behind_ok h.behind (by omega) (by omega) (by omega) hne, h.files,
      region_flat_split h.pos hle (show b + m = f.pos + f.len by omega) (by omega), ← patch_append,
      length_region]
    refine .inl ⟨⟨fun g hg hzero hlt => ?_, fun h0 => by omega⟩, rfl⟩
    have := hne g (h.mem_behind hg hlt) hzero
    omega
  · simp only [not_forall, not_le] at hne
    obtain ⟨g, hg, hzero, hgpos⟩ := hne
    simp only
    rw [readRemaining_error h.behind_ok h.behind (by omega) hg hzero hgpos]
    refine .inr ⟨fun hr => ?_, rfl⟩
    have := Layout.le_pos h.behind hg
    have := hr.1 g (by simp [h.files, hg]) hzero (by omega)
    omega

-- What a read returns, and when.
theorem Wf.read_cases (h : t.Wf w) (hb : b + n ≤ total t.files) (hs : q + n ≤ s.length) :
    t.Readable b n ∧ t.read b s q n = .ok (patch s q (region (flat t.files) b n)) ∨
      ¬ t.Readable b n ∧ t.read b s q n = .error .endOfFile := by
  obtain ⟨A, f, B, hat⟩ := h.located (b := b) (by omega)
  by_cases hin : b + n ≤ f.pos + f.len
  · exact hat.read_inside hin hs
  · exact hat.read_across hin hb hs

theorem Wf.read_iff (h : t.Wf w) (hb : b + n ≤ total t.files) (hs : q + n ≤ s.length) :
    t.read b s q n = .ok (patch s q (region (flat t.files) b n)) ↔ t.Readable b n := by
  rcases h.read_cases hb hs with ⟨hr, hread⟩ | ⟨hr, hread⟩
  · exact ⟨fun _ => hr, fun _ => hread⟩
  · exact ⟨fun hok => (nomatch hread.symm.trans hok), fun h => absurd h hr⟩

theorem cuts_congr {files' : List SubFile} {k : Nat} (h : Layout p files) (h' : Layout p files')
    (hlen : files'.map SubFile.len = files.map SubFile.len) : cuts k files' = cuts k files := by
  induction files generalizing files' p k with
  | nil => rw [List.map_eq_nil_iff.mp hlen]
  | cons f files ih =>
      cases files' with
      | nil => simp at hlen
      | cons f' files' =>
          obtain ⟨h1, h2⟩ := List.cons.inj hlen
          rw [cuts, cuts, h1, h'.1, h.1, ih h.2 (h1 ▸ h'.2) h2]

-- What a write changes.
structure Written (t t' : MultiFile) (b : Nat) (xs : Bytes) : Prop where
  wf : t'.Wf true
  lens : t'.files.map SubFile.len = t.files.map SubFile.len
  bytes : flat t'.files = patch (flat t.files) b xs

theorem Written.total_eq {t' : MultiFile} {xs : Bytes} (h : Written t t' b xs) :
    total t'.files = total t.files := congrArg List.sum h.lens

theorem Wf.replace (h : t.Wf w) {files' : List SubFile} {size : Nat} (hlay : Layout 0 files')
    (hok : ∀ f ∈ files', f.Ok w) (hlen : files'.map SubFile.len = t.files.map SubFile.len) :
    Wf w ⟨size, files', t.tree⟩ :=
  ⟨hlay, hok, by rw [cuts_congr h.layout hlay hlen]; exact h.tree⟩

theorem patch_flat {xs : Bytes} (hA : f.pos = total A) (hb : f.pos ≤ b)
    (hn : b + xs.length ≤ f.pos + f.len) :
    patch (flat (A ++ f :: B)) b xs =
      flat A ++ (region (patch f.fd.bytes (b - f.pos) xs) 0 f.len ++ flat B) := by
  have hlenA : (flat A).length = f.pos := by rw [length_flat, hA]
  have hsum : b = (flat A).length + (b - f.pos) := by omega
  rw [flat_append, flat_cons, region_patch _ _ (by omega)]
  conv_lhs => rw [hsum]
  rw [patch_append_right _ (by rw [List.length_append, length_region]; omega),
    patch_append_left _ (by rw [length_region]; omega)]

-- The files with f and those behind it replaced.
theorem Located.replace (h : t.Wf true) (hat : Located t true b A f B) {f' : SubFile}
    {B' : List SubFile} (size : Nat) (hf' : f'.Ok true) (hpos : f'.pos = f.pos)
    (hlen : f'.len = f.len) (hok : ∀ g ∈ B', g.Ok true) (hlay : Layout (f.pos + f.len) B')
    (hlens : B'.map SubFile.len = B.map SubFile.len) :
    Wf true ⟨size, A ++ f' :: B', t.tree⟩ ∧
      (A ++ f' :: B').map SubFile.len = t.files.map SubFile.len := by
  have hposA := hat.pos
  have hsame : (A ++ f' :: B').map SubFile.len = t.files.map SubFile.len := by
    simp [hat.files, hlen, hlens]
  refine ⟨h.replace (hat.before.append ⟨?_, ?_⟩) ?_ hsame, hsame⟩
  · omega
  · rwa [Nat.zero_add, hlen, ← hposA]
  · intro g hg
    rcases List.mem_append.mp hg with hg | hg
    · exact hat.before_ok g hg
    · rcases List.mem_cons.mp hg with rfl | hg
      · exact hf'
      · exact hok g hg

-- A write in bounds succeeds, and is one on the flat array.
theorem Wf.write (h : t.Wf true) (hb : b + n ≤ total t.files) (hs : q + n ≤ s.length) :
    ∃ t', t.write b s q n = .ok t' ∧ Written t t' b (region s q n) := by
  obtain ⟨A, f, B, hat⟩ := h.located (b := b) (by omega)
  have hle := hat.pos_le
  have htotal := hat.total_eq
  have hsub : (b : Int) - f.pos = (b - f.pos : Nat) := by omega
  rw [MultiFile.write, io]
  simp only [hat.drop, hat.take, hsub]
  by_cases hin : b + n ≤ f.pos + f.len
  · obtain ⟨f', hwrite, hf', hpos', hlen', hbytes⟩ := fileWrite_spec (p := b - f.pos) hat.ok hs
    obtain ⟨hwf', hlens⟩ :=
      hat.replace h (max t.size (b + n)) hf' hpos' hlen' hat.behind_ok hat.behind rfl
    rw [if_pos hin, hwrite]
    refine ⟨_, rfl, hwf', hlens, ?_⟩
    show flat (A ++ f' :: B) = _
    rw [hat.files, patch_flat hat.pos hle (by rw [length_region]; omega), flat_append, flat_cons,
      hlen', hbytes]
  · have hge := hat.le_end
    have hlt := hat.lt_end (by omega)
    have hfirst : ((f.pos + f.len : Nat) : Int) - b = (f.pos + f.len - b : Nat) := by omega
    generalize hm : f.pos + f.len - b = m at hfirst
    have hrem : (n : Int) - m = (n - m : Nat) := by omega
    obtain ⟨f', hwrite, hf', hpos', hlen', hbytes⟩ :=
      fileWrite_spec (s := s) (p := b - f.pos) (q := q) (n := m) hat.ok (by omega)
    obtain ⟨B', hrest, hokB', hlayB', hlens, hflat⟩ :=
      writeRemaining (s := s) (q := q + m) (r := n - m) hat.behind_ok hat.behind (by omega)
        (by omega) (by omega)
    obtain ⟨hwf', hlens'⟩ :=
      hat.replace h (max t.size (b + n)) hf' hpos' hlen' hokB' hlayB' hlens
    rw [if_neg hin]
    simp only [hfirst, Int.toNat_natCast, hrem]
    rw [hwrite, ok_bind]
    simp only
    rw [hrest]
    refine ⟨_, rfl, hwf', hlens', ?_⟩
    show flat (A ++ f' :: B') = _
    have hsum : n = m + (n - m) := by omega
    conv_rhs => rw [hsum, region_append]
    rw [← patch_append, length_region, hat.files,
      patch_flat hat.pos hle (by rw [length_region]; omega), flat_append, flat_cons, hlen', hbytes,
      hflat, ← List.append_assoc, ← List.append_assoc]
    have hpos := hat.pos
    have hend : b + m = (flat A ++ region (patch f.fd.bytes (b - f.pos) (region s q m)) 0
        f.len).length + 0 := by
      rw [List.length_append, length_flat, length_region]
      omega
    rw [hend, patch_append_right _ (by rw [length_region, length_flat]; omega)]

end MultiFile

end Mldonkey.Unix32
