import Mldonkey.Multimedia.Ogg

-- The probing of AVI files, and that all the probing ends.
namespace Mldonkey.Multimedia

open Effects
open Bencode (Bytes ofString)

variable {φ : Type} (fl : Floats φ) (ic : Bytes)

-- The header of a stream. The flags and the fields behind them are read for their bytes.
def streamHeader : Act φ Unit := do
  let _ ← inputString4 ic
  let fccType ← inputString4 ic
  let fccHandler ← inputString4 ic
  let _dwFlags ← inputInt32 ic
  let _wPriority ← inputInt16 ic
  let _wLanguage ← inputInt16 ic
  let _dwInitialFrames ← inputInt32 ic
  let dwScale ← inputInt32 ic
  let dwRate ← inputInt32 ic
  let _dwStart ← inputInt32 ic
  let dwLength ← inputInt32 ic
  let _dwSuggestedBufferSize ← inputInt32 ic
  let _dwQuality ← inputInt32 ic
  let _dwSampleSize ← inputInt32 ic
  let _rcFrameX ← inputInt16 ic
  let _rcFrameY ← inputInt16 ic
  let rcFrameDx ← inputInt16 ic
  let rcFrameDy ← inputInt16 ic
  if fccType = ofString "vids" then
    throw (.formatFound (.avi
      { codec := fccHandler
        width := rcFrameDx
        height := rcFrameDy
        fps := fl.toInt (fl.div (fl.mul (fl.ofInt 1000) (fl.ofInt dwRate)) (fl.ofInt dwScale))
        rate := dwLength }))
  else pure ()

-- A chunk is only looked at when its size can be read at its position, so that no
-- position goes far behind the end of the file, where an int64 would end.
def iterList : Nat → Int → Int → Act φ Unit
  | 0, _, _ => throw .unfinished
  | fuel + 1, pos, endPos =>
      if pos < endPos then do
        seekIn pos
        let size2 ← inputInt32 ic
        if size2 = 0 then throw .notFound
        else do
          let headerName ← inputString4 ic
          if headerName = ofString "hdrl" then do
            let s ← inputString4 ic
            if s ≠ ofString "avih" then failwith "Bad AVI file (avih absent)"
            else do
              let mainHeaderLen := 52
              let _ ← inputString4 ic
              seekIn (pos + mainHeaderLen + 20)
              let posIn := pos + (mainHeaderLen + 24)
              let lastPos := posIn + size2
              called pos posIn
              iterList fuel posIn lastPos
          else if headerName = ofString "movi" then pure ()
          else if headerName = ofString "strl" then do
            let pos0 := pos + 4
            let endPos0 := pos + size2
            called pos pos0
            iterList fuel pos0 endPos0
          else if headerName = ofString "strh" then streamHeader fl ic
          else pure ()
          called pos (pos + size2 + 8)
          iterList fuel (pos + size2 + 8) endPos
      else pure ()

def searchInfoAvi (fuel : Nat) : Act φ Unit :=
  tryCatch
    (do
      let s ← inputString4 ic
      if s ≠ ofString "RIFF" then failwith "Not an AVI file (RIFF absent)"
      else do
        let size ← inputInt32 ic
        let s ← inputString4 ic
        if s ≠ ofString "AVI " then failwith "Not an AVI file (AVI absent)"
        else do
          let s ← inputString4 ic
          if s ≠ ofString "LIST" then failwith "Not an AVI file (LIST absent)"
          else do
            let pos0 := 16
            iterList fl ic fuel pos0 (pos0 + size))
    fun
      | .formatFound format => throw (.formatFound format)
      | .unfinished => throw .unfinished
      | _ => pure ()

section Spec

variable {fl ic} {P : Prop} {s : Probe φ}

theorem streamHeader_spec (hs : s.Rising) :
    Outcome (streamHeader fl ic) (fun _ s' => s'.Rising) (Ends P) s := by
  rw [streamHeader]
  iterate 3 refine outcome_reallyInput (Probe.Rising.at hs _) fun _ _ _ => ?_
  refine outcome_inputInt32 (Probe.Rising.at hs _) fun _ _ _ => ?_
  iterate 2 refine outcome_inputInt16 (Probe.Rising.at hs _) fun _ _ _ => ?_
  iterate 8 refine outcome_inputInt32 (Probe.Rising.at hs _) fun _ _ _ => ?_
  iterate 4 refine outcome_inputInt16 (Probe.Rising.at hs _) fun _ _ _ => ?_
  split
  · exact outcome_fail hs nofun
  · exact hs

theorem iterList_spec : ∀ {fuel : Nat} {pos endPos : Int} {s : Probe φ}, s.Rising →
    (P → 0 < fuel ∧ ic.length < pos + fuel) →
      Outcome (iterList fl ic fuel pos endPos) (fun _ s' => s'.Rising) (Ends P) s
  | 0, pos, endPos, s, hs, hfuel => ⟨hs, fun hP => absurd (hfuel hP).1 (Nat.lt_irrefl 0)⟩
  | fuel + 1, pos, endPos, s, hs, hfuel => by
    rw [iterList]
    split
    swap
    · exact hs
    refine outcome_seekIn hs fun hpos => ?_
    refine outcome_inputInt32 (hs.at _) fun size2 hsize hread => ?_
    rw [Probe.pos_at] at hread
    split
    · exact outcome_fail hs nofun
    refine outcome_reallyInput (hs.at _) fun headerName _ _ => ?_
    -- a call further behind, with the fuel that is left
    have hcall : ∀ {next last : Int} {s' : Probe φ} {β : Type} {f : Unit → Act φ β}
        {Q : β → Probe φ → Prop}, pos < next → s'.Rising →
        (∀ s'' : Probe φ, s''.Rising → Outcome (f ()) Q (Ends P) s'') →
          Outcome (called pos next >>= fun _ => iterList fl ic fuel next last >>= f) Q (Ends P)
            s' := by
      intro next last s' β f Q hlt hs' hf
      refine outcome_called hs' hlt fun s'' _ hs'' => ?_
      refine (iterList_spec hs'' fun hP => ?_).bind fun _ s₃ hs₃ => hf s₃ hs₃
      have := hfuel hP
      omega
    have hnext : ∀ s' : Probe φ, s'.Rising → Outcome (do
        called pos (pos + size2 + 8)
        iterList fl ic fuel (pos + size2 + 8) endPos) (fun _ s'' => s''.Rising) (Ends P) s' := by
      intro s' hs'
      have h := @hcall (pos + size2 + 8) endPos s' Unit pure (fun _ s'' => s''.Rising) (by omega)
        hs' fun s'' hs'' => hs''
      simpa only [bind_pure] using h
    dsimp only
    split_ifs
    · refine outcome_reallyInput (hs.at _) fun _ _ _ => ?_
      split
      · exact outcome_fail hs nofun
      · refine outcome_reallyInput (hs.at _) fun _ _ _ => outcome_seekIn (hs.at _) fun _ => ?_
        exact hcall (by omega) hs hnext
    · exact hnext _ hs
    · exact hcall (by omega) hs hnext
    · refine Outcome.bind (streamHeader_spec ?_) fun _ s' hs' => hnext s' hs'
      exact hs
    · exact hnext _ hs

theorem searchInfoAvi_spec {fuel : Nat} (hs : s.Rising) (hfuel : P → ic.length < fuel) :
    Outcome (searchInfoAvi fl ic fuel) (fun _ s' => s'.Rising)
      (fun e s' => s'.Rising ∧ (P → ∃ format, e = .formatFound format)) s := by
  rw [searchInfoAvi]
  refine Outcome.tryCatch (P := Ends P) ?_ fun e s' he => ?_
  · refine outcome_reallyInput hs fun _ _ _ => ?_
    split
    · exact outcome_fail hs nofun
    refine outcome_inputInt32 (hs.at _) fun size _ _ => ?_
    refine outcome_reallyInput (hs.at _) fun _ _ _ => ?_
    split
    · exact outcome_fail hs nofun
    refine outcome_reallyInput (hs.at _) fun _ _ _ => ?_
    split
    · exact outcome_fail hs nofun
    refine iterList_spec hs fun hP => ?_
    have := hfuel hP
    omega
  · obtain ⟨hrising, hend⟩ := he
    cases e with
    | unfinished => exact ⟨hrising, fun hP => absurd rfl (hend hP)⟩
    | formatFound format => exact ⟨hrising, fun _ => ⟨format, rfl⟩⟩
    | _ => exact hrising

end Spec

-- Whatever the file holds, the probing returns or raises FormatFound, within a number of
-- nested calls that its length bounds, and every recursive call works behind its caller.
theorem probing_ends (fl : Floats φ) (ic : Bytes) (pos fuel : Nat) (hfuel : ic.length < fuel) :
    Outcome (searchInfoAvi fl ic fuel) (fun _ s => s.Rising)
        (fun e s => s.Rising ∧ ∃ format, e = .formatFound format) (.start pos) ∧
      Outcome (searchInfoOgg fl ic fuel) (fun _ s => s.Rising)
        (fun e s => s.Rising ∧ ∃ format, e = .formatFound format) (.start pos) := by
  have hs : (Probe.start pos : Probe φ).Rising := fun call h => absurd h List.not_mem_nil
  exact ⟨(searchInfoAvi_spec (P := True) hs fun _ => hfuel).mono (fun _ _ h => h)
      fun _ _ h => ⟨h.1, h.2 trivial⟩,
    (searchInfoOgg_spec (P := True) hs fun _ => hfuel).mono (fun _ _ h => h)
      fun _ _ h => ⟨h.1, h.2 trivial⟩⟩

-- A list of headers with a list of one stream in it, whose header is that of a video.
@[irreducible] def videoFile : Bytes :=
  ofString "RIFF" ++ [0, 4, 0, 0] ++ ofString "AVI LIST" ++ [200, 0, 0, 0] ++
    ofString "hdrlavih" ++ [56, 0, 0, 0] ++ List.replicate 60 0 ++ [100, 0, 0, 0] ++
    ofString "strlstrh" ++ [56, 0, 0, 0] ++ ofString "vidsXVID" ++ List.replicate 12 0 ++
    [1, 0, 0, 0, 25, 0, 0, 0] ++ List.replicate 4 0 ++ [0xF4, 1, 0, 0] ++ List.replicate 16 0 ++
    [0x40, 1, 240, 0]

-- Numbers that are multiplied and divided without a remainder
def wholeFloats : Floats Int := ⟨id, (· * ·), (· / ·), id, (0 < ·)⟩

def videoProbe : EStateM.Result (Stop Int) (Probe Int) Unit :=
  searchInfoAvi wholeFloats videoFile 200 (.start 0)

-- What was found, and the calls, the last one first
def foundAvi : EStateM.Result (Stop Int) (Probe Int) Unit → Option (AviInfo × List (Int × Int))
  | .error (.formatFound (.avi info)) s => some (info, s.calls)
  | _ => none

theorem probing_ends_video :
    Outcome (searchInfoAvi wholeFloats videoFile 200) (fun _ s => s.Rising)
      (fun e s => s.Rising ∧ ∃ format, e = .formatFound format) (.start 0) ∧
    foundAvi videoProbe = some (⟨ofString "XVID", 320, 240, 25000, 500⟩, [(92, 96), (16, 92)]) :=
  ⟨(probing_ends wholeFloats videoFile 0 200 (by decide +kernel)).1, by decide +kernel⟩

end Mldonkey.Multimedia
