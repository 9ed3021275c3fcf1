import Mldonkey.Unix32.MultiFlat

-- Runs of writes on a multi-file that was created on empty files.
namespace Mldonkey.Unix32

open Patch

-- A call of write: `len` bytes of the string from `string_pos` on go to `pos`.
structure WriteCall where
  pos : Nat
  string : Bytes
  stringPos : Nat
  len : Nat
  deriving DecidableEq, Repr

def WriteCall.bytes (w : WriteCall) : Bytes := region w.string w.stringPos w.len

structure WriteCall.InBounds (w : WriteCall) (size : Nat) : Prop where
  file : w.pos + w.len ≤ size
  string : w.stringPos + w.len ≤ w.string.length

-- The same writes on one array.
def writeFlat (l : Bytes) (ws : List WriteCall) : Bytes :=
  ws.foldl (fun l w => patch l w.pos w.bytes) l

namespace MultiFile

def writeAll (t : MultiFile) (ws : List WriteCall) : Except Exn MultiFile :=
  ws.foldlM (fun t w => t.write w.pos w.string w.stringPos w.len) t

variable {t : MultiFile} {p : Nat}

theorem layout_openFiles (w : Bool) (l : List (Nat × Bytes)) (p : Nat) :
    Layout p (openFiles w l p) := by
  induction l generalizing p with
  | nil => trivial
  | cons x l ih => exact ⟨rfl, ih (p + x.1)⟩

theorem ok_openFiles (w : Bool) (l : List (Nat × Bytes)) (p : Nat) :
    ∀ f ∈ openFiles w l p, f.Ok w := by
  induction l generalizing p with
  | nil => simp [openFiles]
  | cons x l ih => exact List.forall_mem_cons.mpr ⟨⟨rfl, rfl⟩, ih (p + x.1)⟩

theorem flat_openFiles (w : Bool) (l : List (Nat × Bytes)) (p : Nat) :
    flat (openFiles w l p) = l.flatMap fun x => region x.2 0 x.1 := by
  induction l generalizing p with
  | nil => rfl
  | cons x l ih =>
      rw [List.flatMap_cons, ← ih (p + x.1)]
      rfl

theorem total_openFiles (w : Bool) (l : List (Nat × Bytes)) (p : Nat) :
    total (openFiles w l p) = (l.map Prod.fst).sum := by
  induction l generalizing p with
  | nil => rfl
  | cons x l ih => rw [List.map_cons, List.sum_cons, ← ih (p + x.1), openFiles, total_cons]

theorem create_spec {w : Bool} {l : List (Nat × Bytes)} (h : create w l = .ok t) :
    t.Wf w ∧ total t.files = (l.map Prod.fst).sum ∧
      flat t.files = l.flatMap fun x => region x.2 0 x.1 := by
  obtain ⟨tree, htree, h⟩ := bind_eq_ok.mp h
  obtain rfl := Except.ok.inj h
  exact ⟨⟨layout_openFiles w l 0, ok_openFiles w l 0, htree⟩, total_openFiles w l 0,
    flat_openFiles w l 0⟩

theorem Wf.writeAll {ws : List WriteCall} (h : t.Wf true)
    (hws : ∀ w ∈ ws, w.InBounds (total t.files)) :
    ∃ t', t.writeAll ws = .ok t' ∧ t'.Wf true ∧ total t'.files = total t.files ∧
      flat t'.files = writeFlat (flat t.files) ws := by
  induction ws generalizing t with
  | nil => exact ⟨t, rfl, h, rfl, rfl⟩
  | cons w ws ih =>
      obtain ⟨hw, hws⟩ := List.forall_mem_cons.mp hws
      obtain ⟨t₁, hwrite, hwritten⟩ := h.write hw.file hw.string
      obtain ⟨t₂, hall, hwf, htotal, hflat⟩ :=
        ih hwritten.wf (by rw [hwritten.total_eq]; exact hws)
      refine ⟨t₂, ?_, hwf, htotal.trans hwritten.total_eq, ?_⟩
      · rw [MultiFile.writeAll, List.foldlM_cons, hwrite]
        exact hall
      · rw [hflat, hwritten.bytes]
        rfl

-- Whatever a write does, if it succeeds.
structure Kept (w : Bool) (f f' : SubFile) : Prop where
  ok : f'.Ok w
  pos : f'.pos = f.pos
  len : f'.len = f.len

theorem fileWrite_kept {w : Bool} {f f' : SubFile} {p n : Int} {s s' : Bytes} {q : Nat}
    (hf : f.Ok w) (h : fileWrite f p s q n = .ok (f', s')) : Kept w f f' := by
  rw [fileWrite] at h
  split at h
  case isTrue hn =>
      obtain ⟨fd, hfd, h⟩ := bind_eq_ok.mp h
      obtain ⟨rfl, -⟩ := Prod.mk.inj (Except.ok.inj h)
      rw [FdCache.write] at hfd
      split at hfd
      case isTrue => cases hfd
      split at hfd
      case isTrue => cases hfd
      rename_i hp
      split at hfd
      case isTrue => cases hfd
      case isFalse hlen =>
          obtain rfl := Except.ok.inj hfd
          refine ⟨⟨hf.writable, ?_⟩, rfl, rfl⟩
          have hne : region s q n.toNat ≠ [] := fun h => by
            have := congrArg List.length h
            simp at this
            omega
          have := hf.currentLen
          show (max (f.currentLen : Int) (p + n)).toNat =
            (patch f.fd.bytes p.toNat (region s q n.toNat)).length
          rw [length_patch _ _ hne, length_region]
          omega
  case isFalse =>
      obtain ⟨rfl, -⟩ := Prod.mk.inj (Except.ok.inj h)
      exact ⟨hf, rfl, rfl⟩

theorem doOnRemaining_kept {α : Type} {w : Bool}
    {g : SubFile → α → Int → Except Exn (SubFile × α)}
    (hg : ∀ f arg n f' arg', f.Ok w → g f arg n = .ok (f', arg') → Kept w f f')
    {files files' : List SubFile} {arg arg' : α} {r : Int} (hok : ∀ f ∈ files, f.Ok w)
    (h : doOnRemaining g files arg r = .ok (files', arg')) :
    List.Forall₂ (Kept w) files files' := by
  have hsame : ∀ {files : List SubFile}, (∀ f ∈ files, f.Ok w) →
      List.Forall₂ (Kept w) files files := fun hok =>
    List.forall₂_same.mpr fun f hf => ⟨hok f hf, rfl, rfl⟩
  induction files generalizing files' arg arg' r with
  | nil => cases h
  | cons f files ih =>
      obtain ⟨hf, hok⟩ := List.forall_mem_cons.mp hok
      rw [doOnRemaining] at h
      obtain ⟨⟨f', arg₁⟩, hfirst, h⟩ := bind_eq_ok.mp h
      simp only at h
      split at h
      case isTrue =>
          obtain ⟨⟨tail, arg₂⟩, hrest, h⟩ := bind_eq_ok.mp h
          obtain ⟨rfl, -⟩ := Prod.mk.inj (Except.ok.inj h)
          exact .cons (hg _ _ _ _ _ hf hfirst) (ih hok hrest)
      case isFalse =>
          obtain ⟨rfl, -⟩ := Prod.mk.inj (Except.ok.inj h)
          exact .cons (hg _ _ _ _ _ hf hfirst) (hsame hok)

theorem layout_kept {w : Bool} {files files' : List SubFile}
    (h : List.Forall₂ (Kept w) files files') (hlay : Layout p files) :
    Layout p files' ∧ (∀ f ∈ files', f.Ok w) ∧
      files'.map SubFile.len = files.map SubFile.len := by
  induction h generalizing p with
  | nil => exact ⟨trivial, by simp, rfl⟩
  | cons hf _ ih =>
      obtain ⟨h1, h2, h3⟩ := ih hlay.2
      exact ⟨⟨hf.pos.trans hlay.1, by rwa [hf.len]⟩, List.forall_mem_cons.mpr ⟨hf.ok, h2⟩, by
        rw [List.map_cons, List.map_cons, hf.len, h3]⟩

theorem next_kept {w : Bool} {f f' : SubFile} {arg arg' : Bytes × Nat} {n : Int} (hf : f.Ok w)
    (h : next fileWrite f arg n = .ok (f', arg')) : Kept w f f' := by
  obtain ⟨⟨f₁, s⟩, hwrite, h⟩ := bind_eq_ok.mp h
  obtain ⟨rfl, -⟩ := Prod.mk.inj (Except.ok.inj h)
  exact fileWrite_kept hf hwrite

theorem Wf.write_kept {w : Bool} {t' : MultiFile} {b q n : Nat} {s : Bytes} (h : t.Wf w)
    (hwrite : t.write b s q n = .ok t') :
    t'.Wf w ∧ t'.files.map SubFile.len = t.files.map SubFile.len := by
  obtain ⟨⟨t₁, s'⟩, hio, hwrite⟩ := bind_eq_ok.mp hwrite
  obtain rfl := Except.ok.inj hwrite
  have hsame : ∀ {l : List SubFile}, (∀ f ∈ l, f ∈ t.files) → List.Forall₂ (Kept w) l l :=
    fun hl => List.forall₂_same.mpr fun f hf => ⟨h.ok f (hl f hf), rfl, rfl⟩
  have hend : ∀ {f' : SubFile} {tail : List SubFile}, List.Forall₂ (Kept w)
      (t.files.drop (t.tree.findFile b)) (f' :: tail) → List.Forall₂ (Kept w) t.files
        (t.files.take (t.tree.findFile b) ++ f' :: tail) := fun hk => by
    have htake : List.Forall₂ (Kept w) (t.files.take (t.tree.findFile b))
        (t.files.take (t.tree.findFile b)) := hsame fun f hf => List.mem_of_mem_take hf
    have := List.rel_append htake hk
    simpa only [List.take_append_drop] using this
  have hdone : ∀ {files' : List SubFile} {size : Nat}, List.Forall₂ (Kept w) t.files files' →
      Wf w ⟨size, files', t.tree⟩ ∧ files'.map SubFile.len = t.files.map SubFile.len := by
    intro files' size hk
    obtain ⟨h1, h2, h3⟩ := layout_kept hk h.layout
    exact ⟨h.replace h1 h2 h3, h3⟩
  rw [io] at hio
  simp only at hio
  split at hio
  case h_1 => cases hio
  case h_2 f tail hdrop =>
      have hin : ∀ g ∈ f :: tail, g ∈ t.files := fun g hg => List.mem_of_mem_drop (hdrop ▸ hg)
      have hf : f.Ok w := h.ok f (hin f (by simp))
      split at hio
      case isTrue =>
          obtain ⟨⟨f', s₁⟩, hfirst, hio⟩ := bind_eq_ok.mp hio
          obtain ⟨rfl, -⟩ := Prod.mk.inj (Except.ok.inj hio)
          refine hdone (hend (hdrop ▸ .cons (fileWrite_kept hf hfirst) (hsame fun g hg => ?_)))
          exact hin g (by simp [hg])
      case isFalse =>
          obtain ⟨⟨f', s₁⟩, hfirst, hio⟩ := bind_eq_ok.mp hio
          obtain ⟨⟨tail', arg⟩, hrest, hio⟩ := bind_eq_ok.mp hio
          obtain ⟨rfl, -⟩ := Prod.mk.inj (Except.ok.inj hio)
          refine hdone (hend (hdrop ▸ .cons (fileWrite_kept hf hfirst) ?_))
          exact doOnRemaining_kept (fun _ _ _ _ _ hg hn => next_kept hg hn)
            (fun g hg => h.ok g (hin g (by simp [hg]))) hrest

-- The states of a multi-file: sub-files of any size, whatever they hold on disk
-- when they are opened, and any writes that succeed.
inductive Reachable : MultiFile → Prop
  | create {writable : Bool} {files : List (Nat × Bytes)} {t : MultiFile}
      (h : create writable files = .ok t) : Reachable t
  | write {t t' : MultiFile} {w : WriteCall} (h : Reachable t)
      (hwrite : t.write w.pos w.string w.stringPos w.len = .ok t') : Reachable t'

theorem Reachable.wf (h : Reachable t) : ∃ w, t.Wf w := by
  induction h with
  | create h => exact ⟨_, (create_spec h).1⟩
  | write _ hwrite ih =>
      obtain ⟨w, hwf⟩ := ih
      exact ⟨w, (hwf.write_kept hwrite).1⟩

end MultiFile

theorem flatMap_region_nil (sizes : List Nat) :
    ((sizes.map fun size => (size, ([] : Bytes))).flatMap fun x => region x.2 0 x.1) =
      List.replicate sizes.sum 0 := by
  induction sizes with
  | nil => rfl
  | cons n sizes ih =>
      rw [List.map_cons, List.flatMap_cons, ih, List.sum_cons, List.replicate_add,
        region_of_length_le (by simp)]

theorem read_of_writes {sizes : List Nat} {t₀ : MultiFile}
    (hcreate : MultiFile.create true (sizes.map fun size => (size, [])) = .ok t₀)
    {ws : List WriteCall} (hws : ∀ w ∈ ws, w.InBounds sizes.sum) :
    ∃ t, t₀.writeAll ws = .ok t ∧ ∀ (b n q : Nat) (s : Bytes), b + n ≤ sizes.sum →
      q + n ≤ s.length →
      (t.read b s q n =
          .ok (patch s q (region (writeFlat (List.replicate sizes.sum 0) ws) b n)) ↔
        t.Readable b n) := by
  obtain ⟨hwf, htotal, hflat⟩ := MultiFile.create_spec hcreate
  have hsum : total t₀.files = sizes.sum := by rw [htotal, List.map_map]; simp [Function.comp_def]
  obtain ⟨t, hall, hwf', htotal', hflat'⟩ := hwf.writeAll (by rwa [hsum])
  refine ⟨t, hall, fun b n q s hb hs => ?_⟩
  rw [← flatMap_region_nil, ← hflat, ← hflat']
  exact hwf'.read_iff (by omega) hs

-- The multi-file that is created on empty files.
def fresh (sizes : List Nat) : MultiFile :=
  match MultiFile.create true (sizes.map fun size => (size, [])) with
  | .ok t => t
  | .error _ => ⟨0, [], .leaf 0⟩

-- "abc" is written over an empty sub-file, and the last two bytes are read.
theorem read_of_writes_two :
    ∃ t, (fresh [2, 0, 3]).writeAll [⟨1, [97, 98, 99], 0, 3⟩] = .ok t ∧
      t.read 2 [0, 0] 0 2 = .ok [98, 99] := by
  obtain ⟨t, hall, hread⟩ := @read_of_writes [2, 0, 3] (fresh [2, 0, 3]) rfl
    [⟨1, [97, 98, 99], 0, 3⟩] (by intro w hw; obtain rfl := List.mem_singleton.mp hw; exact ⟨by decide, by decide⟩)
  obtain rfl := Except.ok.inj ((show _ = _ from rfl : (fresh [2, 0, 3]).writeAll
    [⟨1, [97, 98, 99], 0, 3⟩] = .ok _).symm.trans hall)
  exact ⟨_, hall, (hread 2 2 0 [0, 0] (by decide) (by decide)).mpr
    ⟨by decide, by decide⟩⟩

-- A read that crosses an empty sub-file.
theorem read_of_writes_false : ¬ ∀ (sizes : List Nat) (t₀ : MultiFile) (ws : List WriteCall),
    MultiFile.create true (sizes.map fun size => (size, [])) = .ok t₀ →
    (∀ w ∈ ws, w.InBounds sizes.sum) →
    ∃ t, t₀.writeAll ws = .ok t ∧ ∀ (b n q : Nat) (s : Bytes), b + n ≤ sizes.sum →
      q + n ≤ s.length →
      t.read b s q n =
        .ok (patch s q (region (writeFlat (List.replicate sizes.sum 0) ws) b n)) := by
  intro h
  obtain ⟨t, hall, hread⟩ := h [1, 0, 1] (fresh [1, 0, 1]) [] rfl (by simp)
  obtain rfl := Except.ok.inj hall
  have := hread 0 2 0 [0, 0] (by decide) (by decide)
  exact absurd this (by decide)

end Mldonkey.Unix32
