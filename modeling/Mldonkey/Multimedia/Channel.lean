import Mldonkey.Bencode.Codec
import Mldonkey.Lib.Effects

-- Reading from a channel on a file, as the media probing does it.
namespace Mldonkey.Multimedia

open Effects
open Bencode (Bytes chr ofString)

-- The floats of the results, with Int64.to_float and float_of_int as `ofInt`
structure Floats (φ : Type) where
  ofInt : Int → φ
  mul : φ → φ → φ
  div : φ → φ → φ
  toInt : φ → Int
  positive : φ → Bool

inductive OggStreamType
  | indexStream
  | textStream
  | audioStream
  | vorbisStream
  | theoraStream
  | videoStream
  deriving DecidableEq, Repr

inductive VorbisBitrate (φ : Type)
  | maximumBr (f : φ)
  | nominalBr (f : φ)
  | minimumBr (f : φ)

inductive TheoraColorSpace
  | csUndefined
  | csRec470M
  | csRec470BG
  deriving DecidableEq, Repr

inductive OggTag (φ : Type)
  | codec (s : Bytes)
  | hasSubtitle
  | hasIndex
  | audioChannels (n : Int)
  | audioSampleRate (f : φ)
  | audioBlockalign (n : Int)
  | audioAvgbytespersec (f : φ)
  | vorbisVersion (f : φ)
  | vorbisSampleRate (f : φ)
  | vorbisBitrates (l : List (VorbisBitrate φ))
  | vorbisBlocksize0 (n : Int)
  | vorbisBlocksize1 (n : Int)
  | videoWidth (f : φ)
  | videoHeight (f : φ)
  | videoSampleRate (f : φ)
  | aspectRatio (f : φ)
  | theoraCs (cs : TheoraColorSpace)
  | theoraQuality (n : Int)
  | theoraAvgbytespersec (n : Int)

structure OggStreamInfo (φ : Type) where
  streamNo : Int
  streamType : OggStreamType
  streamTags : List (OggTag φ)

structure AviInfo where
  codec : Bytes
  width : Int
  height : Int
  fps : Int
  rate : Int
  deriving DecidableEq

inductive Format (φ : Type)
  | avi (info : AviInfo)
  | ogg (infos : List (OggStreamInfo φ))

-- How a program stops early: with an exception, or with calls that are not over when
-- the fuel is.
inductive Stop (φ : Type)
  | failure (message : String)
  | endOfFile
  | notFound
  | invalidArgument
  | sysError
  | formatFound (format : Format φ)
  | unfinished

-- The position of the channel, with the offsets at which a caller and the one it calls
-- work for each recursive call so far, and the references of the Ogg probing.
structure Probe (φ : Type) where
  pos : Nat
  calls : List (Int × Int)
  oggInfos : List (OggStreamInfo φ)
  streamNumber : Int

abbrev Act (φ α : Type) := EStateM (Stop φ) (Probe φ) α

variable {φ α β : Type}

def Probe.start (pos : Nat) : Probe φ := ⟨pos, [], [], 0⟩

def Probe.at (s : Probe φ) (pos : Nat) : Probe φ := { s with pos := pos }

@[simp] theorem Probe.pos_at (s : Probe φ) (pos : Nat) : (s.at pos).pos = pos := rfl

@[simp] theorem Probe.at_at (s : Probe φ) (p q : Nat) : (s.at p).at q = s.at q := rfl

section

variable (ic : Bytes)

def posIn : Act φ Int := do return (← get).pos

def seekIn (pos : Int) : Act φ Unit := do
  check (0 ≤ pos) .sysError
  modify (·.at pos.toNat)

def reallyInput (n : Nat) : Act φ Bytes := do
  let s ← get
  check (s.pos + n ≤ ic.length) .endOfFile
  modify fun s => s.at (s.pos + n)
  return (ic.drop s.pos).take n

def inputString4 : Act φ Bytes := reallyInput ic 4

def inputInt8 : Act φ Int := do return ((← reallyInput ic 1).headD 0).toNat

def inputInt16 : Act φ Int := do
  let i0 ← inputInt8 ic
  let i1 ← inputInt8 ic
  return i0 + i1 * 2 ^ 8

def inputInt32 : Act φ Int := do
  let i0 ← inputInt16 ic
  let i1 ← inputInt16 ic
  return i0 + i1 * 2 ^ 16

-- String.sub
def sub (s : Bytes) (pos len : Nat) : Act φ Bytes := do
  check (pos + len ≤ s.length) .invalidArgument
  return (s.drop pos).take len

def failwith (message : String) : Act φ α := throw (.failure message)

-- A recursive call is made.
def called (caller callee : Int) : Act φ Unit :=
  modify fun s => { s with calls := (caller, callee) :: s.calls }

end

-- Each recursive call works behind its caller.
def Probe.Rising (s : Probe φ) : Prop := ∀ call ∈ s.calls, call.1 < call.2

-- A program that stops leaves rising calls, and under `P` it has come to its end.
def Ends (P : Prop) (e : Stop φ) (s : Probe φ) : Prop := s.Rising ∧ (P → e ≠ .unfinished)

section Rules

variable {ic : Bytes} {P : Prop} {s : Probe φ} {Q : β → Probe φ → Prop}

theorem Probe.Rising.at (h : s.Rising) (pos : Nat) : (s.at pos).Rising := h

theorem outcome_fail {e : Stop φ} (hs : s.Rising) (he : e ≠ .unfinished) :
    Outcome (throw e : Act φ β) Q (Ends P) s := ⟨hs, fun _ => he⟩

theorem outcome_posIn {f : Int → Act φ β} (h : Outcome (f s.pos) Q (Ends P) s) :
    Outcome (posIn >>= f) Q (Ends P) s := h

theorem outcome_seekIn {pos : Int} {f : Unit → Act φ β} (hs : s.Rising)
    (h : 0 ≤ pos → Outcome (f ()) Q (Ends P) (s.at pos.toNat)) :
    Outcome (seekIn pos >>= f) Q (Ends P) s := by
  rw [seekIn, outcome_bind, outcome_bind, outcome_check]
  exact ⟨h, fun _ => ⟨hs, fun _ => nofun⟩⟩

theorem outcome_reallyInput {n : Nat} {f : Bytes → Act φ β} (hs : s.Rising)
    (h : ∀ a : Bytes, a.length = n → s.pos + n ≤ ic.length →
      Outcome (f a) Q (Ends P) (s.at (s.pos + n))) :
    Outcome (reallyInput ic n >>= f) Q (Ends P) s := by
  rw [reallyInput, outcome_bind, outcome_get_bind, outcome_bind, outcome_check]
  refine ⟨fun hle => h _ ?_ hle, fun _ => ⟨hs, fun _ => nofun⟩⟩
  rw [List.length_take, List.length_drop]
  omega

theorem outcome_inputInt8 {f : Int → Act φ β} (hs : s.Rising)
    (h : ∀ i, 0 ≤ i → s.pos + 1 ≤ ic.length → Outcome (f i) Q (Ends P) (s.at (s.pos + 1))) :
    Outcome (inputInt8 ic >>= f) Q (Ends P) s := by
  rw [inputInt8, bind_assoc]
  refine outcome_reallyInput hs fun a _ hle => ?_
  rw [pure_bind]
  exact h _ (Int.natCast_nonneg _) hle

theorem outcome_inputInt16 {f : Int → Act φ β} (hs : s.Rising)
    (h : ∀ i, 0 ≤ i → s.pos + 2 ≤ ic.length → Outcome (f i) Q (Ends P) (s.at (s.pos + 2))) :
    Outcome (inputInt16 ic >>= f) Q (Ends P) s := by
  rw [inputInt16, bind_assoc]
  refine outcome_inputInt8 hs fun i0 h0 _ => ?_
  rw [bind_assoc]
  refine outcome_inputInt8 (hs.at _) fun i1 h1 hle => ?_
  rw [pure_bind]
  exact h _ (by omega) hle

theorem outcome_inputInt32 {f : Int → Act φ β} (hs : s.Rising)
    (h : ∀ i, 0 ≤ i → s.pos + 4 ≤ ic.length → Outcome (f i) Q (Ends P) (s.at (s.pos + 4))) :
    Outcome (inputInt32 ic >>= f) Q (Ends P) s := by
  rw [inputInt32, bind_assoc]
  refine outcome_inputInt16 hs fun i0 h0 _ => ?_
  rw [bind_assoc]
  refine outcome_inputInt16 (hs.at _) fun i1 h1 hle => ?_
  rw [pure_bind]
  exact h _ (by omega) hle

theorem outcome_sub {a : Bytes} {pos len : Nat} {f : Bytes → Act φ β} (hs : s.Rising)
    (h : ∀ a, Outcome (f a) Q (Ends P) s) : Outcome (sub a pos len >>= f) Q (Ends P) s := by
  rw [sub, outcome_bind, outcome_bind, outcome_check]
  exact ⟨fun _ => h _, fun _ => ⟨hs, fun _ => nofun⟩⟩

theorem outcome_called {caller callee : Int} {f : Unit → Act φ β} (hs : s.Rising)
    (hlt : caller < callee)
    (h : ∀ s' : Probe φ, s'.pos = s.pos → s'.Rising → Outcome (f ()) Q (Ends P) s') :
    Outcome (called caller callee >>= f) Q (Ends P) s := by
  refine h { s with calls := (caller, callee) :: s.calls } rfl fun call hcall => ?_
  rcases List.mem_cons.mp hcall with rfl | hcall
  · exact hlt
  · exact hs call hcall

end Rules

end Mldonkey.Multimedia
