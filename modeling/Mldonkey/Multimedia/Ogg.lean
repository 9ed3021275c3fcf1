import Mldonkey.Donkey.Tags
import Mldonkey.Multimedia.Channel

-- The probing of Ogg files.
namespace Mldonkey.Multimedia

open Effects
open Bencode (Bytes chr ofString int64OfString)
open Donkey (lowercase)

variable {φ : Type} (fl : Floats φ) (ic : Bytes)

def sizeofOldOgmPacket : Int := 48

def byte (s : Bytes) (i : Nat) : Int := (s.getD i 0).toNat

-- The bytes as digits of a number, the weakest one first
def little (s : Bytes) : Int := s.foldr (fun c n => c.toNat + 2 ^ 8 * n) 0

def read16 (s : Bytes) : Int := little s

def read24B (s : Bytes) : Int := little s.reverse

def read32 (s : Bytes) : φ := fl.ofInt (little s)

-- Int64.of_string takes the sign bit from the digits.
def read64 (s : Bytes) : φ := fl.ofInt ((little s).bmod (2 ^ 64))

def read32B (s : Bytes) : φ := fl.ofInt (little s.reverse)

def getAudioCodec (s : Bytes) : Bytes :=
  let other := chr '[' :: (s ++ [chr ']'])
  match int64OfString (s.filter (· ≠ 0)) with
  | some n =>
      if n = 1 then ofString "pcm"
      else if n = 55 then ofString "mp3"
      else if n = 2000 then ofString "ac3"
      else other
  | none => other

def getTheoraCs (n : Int) : TheoraColorSpace :=
  if n = 1 then .csRec470M else if n = 2 then .csRec470BG else .csUndefined

-- 256 offsets are looked at, and one call more gives up.
def pageSeek : Nat → Int → Act φ Unit
  | 0, _ => throw .unfinished
  | fuel + 1, pos => do
      let here ← posIn
      if here - pos > 255 then failwith "No more OGG Stream Header"
      else do
        let s ← reallyInput ic 4
        let next ← posIn
        seekIn (next - 3)
        let next ← posIn
        if s = ofString "OggS" then seekIn (next + 3)
        else do
          called here next
          pageSeek fuel pos

def pageSeekCalls : Nat := 257

def normalizeStreamType (s : Bytes) (ct : Int) : Act φ OggStreamType := do
  let s ← sub s 0 6
  if s = ofString "vorbis" ∧ ct = 0x1 then return .vorbisStream
  else if s = ofString "theora" ∧ ct = 0x80 then return .theoraStream
  else do
    let s ← sub s 0 5
    if s = ofString "video" ∧ ct = 0x1 then return .videoStream
    else if s = ofString "audio" ∧ ct = 0x1 then return .audioStream
    else if s = ofString "index" ∧ ct = 0x1 then return .indexStream
    else do
      let s ← sub s 0 4
      if s = ofString "text" ∧ ct = 0x1 then return .textStream
      else failwith "No more OGG Stream Header"

def incrStreamNumber : Act φ Unit :=
  modify fun s => { s with streamNumber := s.streamNumber + 1 }

def addStream (streamType : OggStreamType) (streamTags : List (OggTag φ)) : Act φ Unit :=
  modify fun s =>
    { s with oggInfos := ⟨s.streamNumber, streamType, streamTags⟩ :: s.oggInfos }

-- Each function get_ogg_*_info ends with the call of next_ogg_stream, which stands behind
-- it in nextOggStream.

def getOggVideoInfo (sizeofPacket : Int) : Act φ Unit := do
  let s ← reallyInput ic sizeofPacket.toNat
  let codec ← sub s 0 4
  let timeUnit ← sub s 8 8
  let videoWidth ← sub s (if sizeofPacket ≥ sizeofOldOgmPacket then 36 else 34) 4
  let videoHeight ← sub s (if sizeofPacket ≥ sizeofOldOgmPacket then 40 else 38) 4
  addStream .videoStream
    [.codec (lowercase codec),
      .videoSampleRate (fl.div (fl.ofInt 10000000) (read64 fl timeUnit)),
      .videoWidth (read32 fl videoWidth), .videoHeight (read32 fl videoHeight)]

def getOggAudioInfo (sizeofPacket : Int) : Act φ Unit := do
  let s ← reallyInput ic sizeofPacket.toNat
  let codec ← sub s 0 4
  let samplePerUnit ← sub s 16 8
  let channels ← sub s (if sizeofPacket ≥ sizeofOldOgmPacket then 36 else 34) 2
  let blockalign ← sub s (if sizeofPacket ≥ sizeofOldOgmPacket then 38 else 36) 2
  let avgbytespersec ← sub s (if sizeofPacket ≥ sizeofOldOgmPacket then 40 else 38) 4
  addStream .audioStream
    [.codec (getAudioCodec codec), .audioChannels (read16 channels),
      .audioSampleRate (read64 fl samplePerUnit), .audioBlockalign (read16 blockalign),
      .audioAvgbytespersec (read32 fl avgbytespersec)]

-- The list is built from the front.
def vorbisBitrates (brMax brNom brMin : φ) : List (VorbisBitrate φ) :=
  (if fl.positive brMin then [.minimumBr brMin] else []) ++
    ((if fl.positive brNom then [.nominalBr brNom] else []) ++
      if fl.positive brMax then [.maximumBr brMax] else [])

def getOggVorbisInfo : Act φ Unit := do
  let pos ← posIn
  seekIn (pos - 2)
  let s ← reallyInput ic 22
  let version ← sub s 0 4
  let sampleRate ← sub s 5 4
  let brMax ← sub s 9 4
  let brNom ← sub s 13 4
  let brMin ← sub s 17 4
  addStream .vorbisStream
    [.codec (ofString "vorbis"), .vorbisVersion (read32 fl version),
      .audioChannels (byte s 4), .vorbisSampleRate (read32 fl sampleRate),
      .vorbisBitrates (vorbisBitrates fl (read32 fl brMax) (read32 fl brNom) (read32 fl brMin)),
      .vorbisBlocksize0 (byte s 21 % 16), .vorbisBlocksize1 (byte s 21 / 16 % 16)]

def getOggTheoraInfo : Act φ Unit := do
  let pos ← posIn
  seekIn (pos - 2)
  let s ← reallyInput ic 34
  let codec := ofString "theora-" ++ (Bencode.decimal (byte s 0).toNat ++ (chr '.' ::
    (Bencode.decimal (byte s 1).toNat ++ (chr '.' :: Bencode.decimal (byte s 2).toNat))))
  let picw ← sub s 7 3
  let pich ← sub s 10 3
  let frn ← sub s 15 4
  let frd ← sub s 19 4
  let parn ← sub s 23 3
  let pard ← sub s 26 3
  let (parn, pard) := if read24B parn = 0 then (1, 1) else (read24B parn, read24B pard)
  let nombr ← sub s 30 3
  addStream .theoraStream
    ([.codec codec, .videoSampleRate (fl.div (read32B fl frn) (read32B fl frd)),
      .videoWidth (fl.ofInt (read24B picw)), .videoHeight (fl.ofInt (read24B pich)),
      .aspectRatio (fl.div (fl.ofInt pard) (fl.ofInt parn)), .theoraCs (getTheoraCs (byte s 29)),
      .theoraQuality (byte s 33 / 4 % 64)] ++
        if read24B nombr > 0 then [.theoraAvgbytespersec (read24B nombr)] else [])

def getOggTextInfo : Act φ Unit := addStream .textStream [.hasSubtitle]

def getOggIndexInfo : Act φ Unit := addStream .indexStream [.hasIndex]

def getOggInfo (sizeofPacket : Int) : OggStreamType → Act φ Unit
  | .videoStream => getOggVideoInfo fl ic sizeofPacket
  | .audioStream => getOggAudioInfo fl ic sizeofPacket
  | .indexStream => getOggIndexInfo
  | .textStream => getOggTextInfo
  | .vorbisStream => getOggVorbisInfo fl ic
  | .theoraStream => getOggTheoraInfo fl ic

def nextOggStream : Nat → Act φ Unit
  | 0 => throw .unfinished
  | fuel + 1 => do
      let here ← posIn
      pageSeek ic pageSeekCalls here
      let pos ← posIn
      seekIn (pos + 24)
      let contentType ← reallyInput ic 1
      seekIn (pos + 25)
      let streamType ← reallyInput ic 8
      let streamType ← normalizeStreamType streamType (byte contentType 0)
      incrStreamNumber
      let pos ← posIn
      pageSeek ic pageSeekCalls pos
      let next ← posIn
      seekIn pos
      getOggInfo fl ic (next - pos - 4) streamType
      let next ← posIn
      called here next
      nextOggStream fuel

def searchInfoOgg (fuel : Nat) : Act φ Unit := do
  seekIn 0
  tryCatch (nextOggStream fl ic fuel) fun
    | .unfinished => throw .unfinished
    | _ => do
        let s ← get
        match s.oggInfos with
        | [] => pure ()
        | infos => throw (.formatFound (.ogg infos.reverse))

section Spec

variable {fl ic} {P : Prop} {s : Probe φ}

-- A page is found behind the position. Under `P` there is fuel for the offsets left.
theorem pageSeek_spec : ∀ {fuel : Nat} {pos : Int} {s : Probe φ}, s.Rising → s.pos ≤ pos + 256 →
    (P → pos + 256 < s.pos + fuel) →
      Outcome (pageSeek ic fuel pos)
        (fun _ s' => s'.Rising ∧ s.pos + 4 ≤ s'.pos ∧ s.pos + 4 ≤ ic.length) (Ends P) s
  | 0, pos, s, hs, hle, hfuel => ⟨hs, fun hP => by have := hfuel hP; omega⟩
  | fuel + 1, pos, s, hs, hle, hfuel => by
    rw [pageSeek]
    refine outcome_posIn ?_
    split
    · exact outcome_fail hs nofun
    · refine outcome_reallyInput hs fun a _ hread => ?_
      refine outcome_posIn (outcome_seekIn (hs.at _) fun _ => outcome_posIn ?_)
      -- one byte behind the place of the caller
      have hpos : ((s.pos + 4 : Nat) - 3 : Int).toNat = s.pos + 1 := by omega
      simp only [Probe.pos_at, Probe.at_at, hpos]
      split
      · rw [← bind_pure (seekIn _)]
        refine outcome_seekIn (hs.at _) fun _ => ⟨hs, ?_, hread⟩
        rw [Probe.pos_at]
        omega
      · refine outcome_called (hs.at _) (by omega) fun s' hs' hrising => ?_
        rw [Probe.pos_at] at hs'
        refine (pageSeek_spec hrising (by omega) fun hP => ?_).mono
          (fun _ s'' h => ⟨h.1, by omega, hread⟩) fun _ _ h => h
        have := hfuel hP
        omega

-- The calls for a page behind the position always come to an end.
theorem pageSeek_here (hs : s.Rising) : Outcome (pageSeek ic pageSeekCalls s.pos)
    (fun _ s' => s'.Rising ∧ s.pos + 4 ≤ s'.pos ∧ s.pos + 4 ≤ ic.length) (Ends P) s :=
  pageSeek_spec hs (by omega) fun _ => by rw [pageSeekCalls]; omega

theorem normalizeStreamType_spec (hs : s.Rising) (a : Bytes) (ct : Int) :
    Outcome (normalizeStreamType a ct) (fun _ s' => s' = s) (Ends P) s := by
  rw [normalizeStreamType]
  refine outcome_sub hs fun a => ?_
  split_ifs
  · rfl
  · rfl
  refine outcome_sub hs fun a => ?_
  split_ifs
  · rfl
  · rfl
  · rfl
  refine outcome_sub hs fun a => ?_
  split_ifs
  · rfl
  · exact outcome_fail hs nofun

-- The information on a stream is taken from what lies behind the position, although two
-- kinds go back two bytes first.
theorem getOggInfo_spec (hs : s.Rising) (sizeofPacket : Int) (t : OggStreamType) :
    Outcome (getOggInfo fl ic sizeofPacket t) (fun _ s' => s'.Rising ∧ s.pos ≤ s'.pos) (Ends P)
      s := by
  cases t with
  | indexStream => exact ⟨hs, le_rfl⟩
  | textStream => exact ⟨hs, le_rfl⟩
  | videoStream =>
    rw [getOggInfo, getOggVideoInfo]
    refine outcome_reallyInput hs fun _ _ _ => ?_
    iterate 4 refine outcome_sub (hs.at _) fun _ => ?_
    exact ⟨hs, Nat.le_add_right _ _⟩
  | audioStream =>
    rw [getOggInfo, getOggAudioInfo]
    refine outcome_reallyInput hs fun _ _ _ => ?_
    iterate 5 refine outcome_sub (hs.at _) fun _ => ?_
    exact ⟨hs, Nat.le_add_right _ _⟩
  | vorbisStream =>
    rw [getOggInfo, getOggVorbisInfo]
    refine outcome_posIn (outcome_seekIn hs fun hpos => ?_)
    refine outcome_reallyInput (hs.at _) fun _ _ _ => ?_
    iterate 5 refine outcome_sub (hs.at _) fun _ => ?_
    refine ⟨hs, ?_⟩
    change s.pos ≤ ((s.pos : Int) - 2).toNat + 22
    omega
  | theoraStream =>
    rw [getOggInfo, getOggTheoraInfo]
    refine outcome_posIn (outcome_seekIn hs fun hpos => ?_)
    refine outcome_reallyInput (hs.at _) fun _ _ _ => ?_
    iterate 7 refine outcome_sub (hs.at _) fun _ => ?_
    refine ⟨hs, ?_⟩
    change s.pos ≤ ((s.pos : Int) - 2).toNat + 34
    omega

theorem outcome_incrStreamNumber {β : Type} {Q : β → Probe φ → Prop} {f : Unit → Act φ β}
    (hs : s.Rising)
    (h : ∀ s' : Probe φ, s'.pos = s.pos → s'.Rising → Outcome (f ()) Q (Ends P) s') :
    Outcome (incrStreamNumber >>= f) Q (Ends P) s :=
  h { s with streamNumber := s.streamNumber + 1 } rfl hs

-- Each stream is looked for behind the one before.
theorem nextOggStream_spec : ∀ {fuel : Nat} {s : Probe φ}, s.Rising →
    (P → 0 < fuel ∧ ic.length < s.pos + fuel) →
      Outcome (nextOggStream fl ic fuel) (fun _ s' => s'.Rising) (Ends P) s
  | 0, s, hs, hfuel => ⟨hs, fun hP => absurd (hfuel hP).1 (Nat.lt_irrefl 0)⟩
  | fuel + 1, s, hs, hfuel => by
    rw [nextOggStream]
    refine outcome_posIn ((pageSeek_here hs).bind fun _ s₁ h₁ => ?_)
    obtain ⟨hrising₁, hpos₁, hread⟩ := h₁
    refine outcome_posIn (outcome_seekIn hrising₁ fun _ => ?_)
    refine outcome_reallyInput (hrising₁.at _) fun ct _ _ => ?_
    refine outcome_seekIn (hrising₁.at _) fun _ => ?_
    refine outcome_reallyInput (hrising₁.at _) fun a _ _ => ?_
    refine (normalizeStreamType_spec (hrising₁.at _) _ _).bind fun t s₂ hs₂ => ?_
    rw [hs₂]
    refine outcome_incrStreamNumber (hrising₁.at _) fun s₂ hpos₂ hrising₂ => ?_
    have hpos₂ : s₂.pos = s₁.pos + 33 := by
      simp only [hpos₂, Probe.pos_at]
      omega
    refine outcome_posIn ((pageSeek_here hrising₂).bind fun _ s₃ h₃ => ?_)
    refine outcome_posIn (outcome_seekIn h₃.1 fun _ => ?_)
    refine (getOggInfo_spec (h₃.1.at _) _ t).bind fun _ s₄ ⟨hrising₄, hpos₄⟩ => outcome_posIn ?_
    have hpos₄ : s₂.pos ≤ s₄.pos := hpos₄
    refine outcome_called hrising₄ (by omega) fun s₅ hpos₅ hrising₅ => ?_
    refine nextOggStream_spec hrising₅ fun hP => ?_
    have := hfuel hP
    omega

theorem searchInfoOgg_spec {fuel : Nat} (hs : s.Rising) (hfuel : P → ic.length < fuel) :
    Outcome (searchInfoOgg fl ic fuel) (fun _ s' => s'.Rising)
      (fun e s' => s'.Rising ∧ (P → ∃ format, e = .formatFound format)) s := by
  have hseek : Outcome (seekIn 0 : Act φ Unit) (fun _ s' => s'.Rising) (fun _ _ => False) s := by
    rw [seekIn, outcome_bind, outcome_check]
    exact ⟨fun _ => hs, fun hneg => hneg le_rfl⟩
  rw [searchInfoOgg]
  refine (hseek.mono (fun _ _ h => h) fun _ _ h => h.elim).bind fun _ s₁ hs₁ => ?_
  refine (nextOggStream_spec hs₁ (P := P) fun hP => ?_).tryCatch fun e s₂ he => ?_
  · have := hfuel hP
    omega
  · obtain ⟨hrising, hend⟩ := he
    cases e with
    | unfinished => exact ⟨hrising, fun hP => absurd rfl (hend hP)⟩
    | _ =>
      rw [outcome_get_bind]
      split
      · exact hrising
      · exact ⟨hrising, fun _ => ⟨_, rfl⟩⟩

end Spec

end Mldonkey.Multimedia
