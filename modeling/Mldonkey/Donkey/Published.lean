import Mldonkey.Donkey.Publish

-- Which of the files recorded as published were in a message to the server.
namespace Mldonkey.Donkey.Publish

open LittleEndian
open EmuleRequestSourcesReply (nullMd4)
open Runs (Reach)

set_option linter.unusedSectionVars false

variable {S F : Type} [DecidableEq S] [DecidableEq F] {md4 : F → Md4} {compress : Bytes → Bytes}
  {st st' st'' : State S F}

-- The messages stay and no record is added.
structure Shrinks (st st' : State S F) : Prop where
  written : ∀ s, (st'.server s).written = (st.server s).written
  recorded : ∀ s f, Recorded st' s f → Recorded st s f

theorem Shrinks.refl (st : State S F) : Shrinks st st := ⟨fun _ => rfl, fun _ _ h => h⟩

theorem Shrinks.trans (h : Shrinks st st') (h' : Shrinks st' st'') : Shrinks st st'' :=
  ⟨fun s => (h'.written s).trans (h.written s), fun s f hr => h.recorded s f (h'.recorded s f hr)⟩

theorem Shrinks.foldl {α : Type} {g : State S F → α → State S F} (hg : ∀ st a, Shrinks st (g st a))
    (l : List α) (st : State S F) : Shrinks st (l.foldl g st) := by
  induction l generalizing st with
  | nil => exact .refl st
  | cons a l ih => exact (hg st a).trans (ih (g st a))

theorem Shrinks.setServer {s : S} {sv : Server F} (hw : sv.written = (st.server s).written)
    (hs : sv.sentShared ⊆ (st.server s).sentShared) : Shrinks st (st.setServer s sv) where
  written s' := by
    by_cases h : s' = s
    · subst h
      simpa [State.setServer] using hw
    · simp [State.setServer, h]
  recorded s' f hr := by
    refine hr.imp (fun hf => ?_) id
    by_cases h : s' = s
    · subst h
      simp only [State.setServer, Function.update_self] at hf
      exact hs hf
    · simpa [State.setServer, h] using hf

theorem Shrinks.setFile {f : F} {file : SharedFile S}
    (h : ∀ servers, file.shared = some servers → ∀ s ∈ servers,
      ∃ old, (st.file f).shared = some old ∧ s ∈ old) : Shrinks st (st.setFile f file) where
  written _ := rfl
  recorded s g hr := by
    refine hr.imp id ?_
    rintro ⟨servers, hshared, hs⟩
    by_cases hg : g = f
    · subst hg
      simp only [State.setFile, Function.update_self] at hshared
      exact h servers hshared s hs
    · exact ⟨servers, by simpa [State.setFile, hg] using hshared, hs⟩

theorem shrinks_forgetServer (st : State S F) (s : S) : Shrinks st (forgetServer st s) where
  written _ := rfl
  recorded s' f hr := by
    refine hr.imp id ?_
    rintro ⟨servers, hshared, hs⟩
    obtain ⟨old, hold, rfl⟩ := Option.map_eq_some_iff.mp hshared
    exact ⟨old, hold, List.mem_of_mem_filter hs⟩

theorem shrinks_next {op : Op S F} (hop : Legal st op) (h : op ≠ .sendNewShared) :
    Shrinks st (next md4 compress op st) := by
  cases op with
  | sendNewShared => exact absurd rfl h
  | removeServer s =>
    have hfold := Shrinks.foldl (fun st _ => shrinks_forgetServer st s) (st.server s).sentShared st
    exact hfold.trans (.setServer (hfold.written s).symm (List.nil_subset _))
  | unshareFile f =>
    rw [next, unshareFile]
    split
    · exact .refl st
    · refine (Shrinks.foldl (fun st s => ?_) st.connectedServers st).trans (.setFile ?_)
      · exact .setServer rfl (List.filter_subset_self _)
      · simp
  | mustShareFile f =>
    rw [next, mustShareFile]
    split
    · exact .refl st
    · refine .setFile ?_
      rintro _ ⟨⟩ s hs
      exact absurd hs List.not_mem_nil
  | world st' =>
    refine ⟨hop.written, fun s f hr => ?_⟩
    rwa [Recorded, next, hop.sentShared, hop.shared] at hr

theorem written_recordFiles (st : State S F) (s : S) (files : List F) (s' : S) :
    ((recordFiles st s files).server s').written = (st.server s').written := by
  have hfold (st : State S F) : ((files.foldl
      (fun st f =>
        let file := st.file f
        st.setFile f { file with shared := file.shared.map (· ++ [s]) }) st).server) =
      st.server := by
    induction files generalizing st with
    | nil => rfl
    | cons f files ih => exact ih _
  rw [recordFiles, hfold]
  by_cases h : s' = s
  · subst h
    simp [State.setServer]
  · simp [State.setServer, h]

-- A publication adds the records of the files to be sent and no others.
theorem recorded_recordFiles {s s' : S} {files : List F} {f : F}
    (h : Recorded (recordFiles st s files) s' f) : Recorded st s' f ∨ s' = s ∧ f ∈ files := by
  have hfold : ∀ (l : List F) (st : State S F), (∀ g ∈ l, g ∈ files) →
      Recorded (l.foldl
        (fun st f =>
          let file := st.file f
          st.setFile f { file with shared := file.shared.map (· ++ [s]) }) st) s' f →
      Recorded st s' f ∨ s' = s ∧ f ∈ files := by
    intro l
    induction l with
    | nil => exact fun _ _ h => .inl h
    | cons g l ih =>
      intro st hl h
      cases ih _ (fun x hx => hl x (List.mem_cons_of_mem g hx)) h with
      | inr h => exact .inr h
      | inl h =>
        cases h with
        | inl h => exact .inl (.inl h)
        | inr h =>
          obtain ⟨servers, hshared, hs⟩ := h
          by_cases hfg : f = g
          · subst hfg
            simp only [State.setFile, Function.update_self] at hshared
            obtain ⟨old, hold, rfl⟩ := Option.map_eq_some_iff.mp hshared
            cases List.mem_append.mp hs with
            | inl hs => exact .inl (.inr ⟨old, hold, hs⟩)
            | inr hs => exact .inr ⟨List.mem_singleton.mp hs, hl f List.mem_cons_self⟩
          · exact .inl (.inr ⟨servers, by simpa [State.setFile, hfg] using hshared, hs⟩)
  cases hfold files _ (fun _ h => h) h with
  | inr h => exact .inr h
  | inl h =>
    cases h with
    | inr h => exact .inl (.inr h)
    | inl h =>
      by_cases hs : s' = s
      · subst hs
        simp only [State.setServer, Function.update_self, List.mem_append] at h
        exact h.elim (fun h => .inr ⟨rfl, h⟩) (fun h => .inl (.inl h))
      · exact .inl (.inl (by simpa [State.setServer, hs] using h))

theorem recorded_writeString {s s' : S} {sock : Sock} {m : Sent} {f : F} :
    Recorded (writeString st s sock m) s' f ↔ Recorded st s' f := by
  rw [writeString]
  split
  · rfl
  · refine or_congr ?_ Iff.rfl
    by_cases h : s' = s
    · subst h
      simp [State.setServer]
    · simp [State.setServer, h]

theorem written_writeString (st : State S F) (s s' : S) (sock : Sock) (m : Sent) :
    ((writeString st s sock m).server s').written =
      (st.server s').written ++ if s' = s ∧ sock.closed = false then [m] else [] := by
  rw [writeString]
  by_cases hc : sock.closed
  · simp [hc]
  · by_cases h : s' = s
    · subst h
      simp [State.setServer, hc]
    · simp [State.setServer, h, hc]

theorem Published.mono {s : S} {f : F} (h : Published md4 compress st s f)
    (hw : (st.server s).written ⊆ (st'.server s).written) : Published md4 compress st' s f := by
  obtain ⟨m, hm, hsent⟩ := h
  exact ⟨m, hw hm, hsent⟩

-- Every file to be sent has tags that can be written.
theorem writable_makeTaggedServer (md4 : F → Md4) (st : State S F) (newer : Bool) (sock : Sock)
    (files : List F) :
    Writable (makeTaggedServer md4 st newer sock files) := by
  intro r hr
  obtain ⟨f, -, rfl⟩ := List.mem_map.mp hr
  have htags : ∀ tag ∈ tagFile (st.file f), ∃ b, bufTag fileCommonTags tag = some b := by
    intro tag htag
    have hvalue : (∃ n, tag.value = .uint64 n) ∨ ∃ s, tag.value = .string s := by
      simp only [tagFile, List.mem_cons] at htag
      obtain rfl | rfl | rfl | htag := htag
      · exact .inr ⟨_, rfl⟩
      · exact .inl ⟨_, rfl⟩
      · exact .inl ⟨_, rfl⟩
      · refine .inr ?_
        revert htag
        fun_cases formatTags (st.file f).format <;> intro htag <;>
          simp only [kindTags, stringTag, List.mem_cons, List.not_mem_nil, or_false] at htag <;>
          obtain rfl | rfl := htag <;> exact ⟨_, rfl⟩
    obtain ⟨n, hn⟩ | ⟨s, hs⟩ := hvalue
    · exact ⟨_, by rw [bufTag, hn]⟩
    · exact ⟨_, by rw [bufTag, hs]⟩
  have hall : ∃ b, bufTags fileCommonTags (tagFile (st.file f)) = some b := by
    rw [bufTags, mapM_eq_some (g := tagBytes fileCommonTags) fun tag htag => by
      obtain ⟨b, hb⟩ := htags tag htag
      simp [tagBytes, hb]]
    exact ⟨_, rfl⟩
  obtain ⟨b, hb⟩ := hall
  cases newer <;> simp [record, bufFile, hb]

theorem publishTo_cases (md4 : F → Md4) (compress : Bytes → Bytes) (all : List F)
    (st : State S F) (s : S) :
    ∃ st', publishTo md4 compress all st s = some st' ∧
      (st' = st ∨ takesFiles (st.server s) = true ∧ filesToSend st s all ≠ [] ∧
        ((st.server s).sock = none ∧ st' = recordFiles st s (filesToSend st s all) ∨
          ∃ sock packet sent, (st.server s).sock = some sock ∧
            let m : Sent := ⟨makeTaggedServer md4 st (st.server s).hasZlib sock
              (filesToSend st s all), room st sock, packet⟩
            Exact compress m sent ∧
            (((shareText m.files).length : Int) < m.maxLen → sent = m.files) ∧
            st' = recordFiles (writeString st s sock m) s (filesToSend st s all))) := by
  rw [publishTo]
  by_cases ht : takesFiles (st.server s)
  · by_cases hf : filesToSend st s all = []
    · exact ⟨st, by simp [hf], .inl rfl⟩
    · cases hsock : (st.server s).sock with
      | none => exact ⟨_, by simp [ht, hf], .inr ⟨ht, hf, .inl ⟨rfl, rfl⟩⟩⟩
      | some sock =>
        obtain ⟨packet, sent, heq, hcarries, hprefix, hroom, hall⟩ :=
          serverSendShare_eq compress (room st sock)
            (writable_makeTaggedServer md4 st (st.server s).hasZlib sock
              (filesToSend st s all)) (st.server s).hasZlib
        exact ⟨_, by simp [ht, hf, heq], .inr ⟨ht, hf, .inr ⟨sock, packet, sent, rfl,
          ⟨hcarries, hprefix, hroom, getInt_shareText⟩, hall, rfl⟩⟩⟩
  · exact ⟨st, by simp [ht], .inl rfl⟩

-- Every message is exact.
def AllExact (compress : Bytes → Bytes) (st : State S F) : Prop :=
  ∀ s, ∀ m ∈ (st.server s).written, ∃ sent, Exact compress m sent

-- Every record was published.
def AllPublished (md4 : F → Md4) (compress : Bytes → Bytes) (st : State S F) : Prop :=
  ∀ s f, Recorded st s f → Published md4 compress st s f

theorem Shrinks.allExact (h : Shrinks st st') (hst : AllExact compress st) :
    AllExact compress st' := by
  intro s m hm
  rw [h.written] at hm
  exact hst s m hm

theorem Shrinks.allPublished (h : Shrinks st st') (hst : AllPublished md4 compress st) :
    AllPublished md4 compress st' := fun s f hr =>
  (hst s f (h.recorded s f hr)).mono fun m hm => by rwa [h.written]

theorem AllExact.publishTo (h : AllExact compress st) (md4 : F → Md4) (all : List F) (s : S) :
    ∃ st', publishTo md4 compress all st s = some st' ∧ AllExact compress st' := by
  obtain ⟨st', heq, hst'⟩ := publishTo_cases md4 compress all st s
  refine ⟨st', heq, ?_⟩
  obtain rfl | ⟨-, -, ⟨-, rfl⟩ | ⟨sock, packet, sent, -, hexact, -, rfl⟩⟩ := hst'
  · exact h
  · intro s' m hm
    rw [written_recordFiles] at hm
    exact h s' m hm
  · intro s' m hm
    rw [written_recordFiles, written_writeString, List.mem_append] at hm
    cases hm with
    | inl hm => exact h s' m hm
    | inr hm =>
      split at hm
      · rw [List.mem_singleton.mp hm]
        exact ⟨sent, hexact⟩
      · exact absurd hm List.not_mem_nil

-- Where the files fit, all of them are in the message.
theorem AllPublished.publishTo (h : AllPublished md4 compress st) {all : List F} {s : S}
    (hfits : Fits md4 all st s) :
    ∃ st', publishTo md4 compress all st s = some st' ∧ AllPublished md4 compress st' := by
  obtain ⟨st', heq, hst'⟩ := publishTo_cases md4 compress all st s
  refine ⟨st', heq, ?_⟩
  obtain rfl | ⟨ht, hf, hst'⟩ := hst'
  · exact h
  obtain ⟨sock, hsock, hopen, hroom⟩ := hfits ht hf
  obtain ⟨hnone, -⟩ | ⟨sock', packet, sent, hsock', hexact, hall, rfl⟩ := hst'
  · simp [hnone] at hsock
  obtain rfl : sock = sock' := Option.some_inj.mp (hsock.symm.trans hsock')
  obtain rfl := hall hroom
  intro s' f hr
  cases recorded_recordFiles hr with
  | inl hr =>
    refine (h s' f (recorded_writeString.mp hr)).mono fun m hm => ?_
    rw [written_recordFiles, written_writeString]
    exact List.mem_append_left _ hm
  | inr hr =>
    obtain ⟨rfl, hr⟩ := hr
    refine ⟨_, ?_, _, hexact, _, List.mem_map.mpr ⟨f, hr, rfl⟩, ?_⟩
    · rw [written_recordFiles, written_writeString]
      simp [hopen]
    · split <;> rfl

theorem AllExact.foldlM (h : AllExact compress st) (md4 : F → Md4) (all : List F)
    (servers : List S) :
    ∃ st', servers.foldlM (Publish.publishTo md4 compress all) st = some st' ∧
      AllExact compress st' := by
  induction servers generalizing st with
  | nil => exact ⟨st, rfl, h⟩
  | cons s servers ih =>
    obtain ⟨st1, heq, h1⟩ := h.publishTo md4 all s
    obtain ⟨st', heq', h'⟩ := ih h1
    exact ⟨st', by simp [heq, heq'], h'⟩

theorem AllPublished.foldlM (h : AllPublished md4 compress st) {all : List F} {servers : List S}
    (hfit : AllFit md4 compress all servers st) :
    ∃ st', servers.foldlM (Publish.publishTo md4 compress all) st = some st' ∧
      AllPublished md4 compress st' := by
  induction servers generalizing st with
  | nil => exact ⟨st, rfl, h⟩
  | cons s servers ih =>
    obtain ⟨st1, heq, h1⟩ := h.publishTo hfit.1
    obtain ⟨st', heq', h'⟩ := ih h1 (hfit.2 st1 heq)
    exact ⟨st', by simp [heq, heq'], h'⟩

theorem AllExact.next (h : AllExact compress st) {op : Op S F} (hop : Legal st op) :
    AllExact compress (next md4 compress op st) := by
  by_cases hpub : op = .sendNewShared
  · subst hpub
    obtain ⟨st', heq, h'⟩ := h.foldlM md4 (leastPublished st) (loggedInServers st)
    rwa [Publish.next, sendNewShared, heq]
  · exact (shrinks_next hop hpub).allExact h

theorem AllPublished.next (h : AllPublished md4 compress st) {op : Op S F}
    (hop : Fitting md4 compress st op) : AllPublished md4 compress (next md4 compress op st) := by
  by_cases hpub : op = .sendNewShared
  · subst hpub
    obtain ⟨st', heq, h'⟩ := h.foldlM hop.2
    rwa [Publish.next, sendNewShared, heq]
  · exact (shrinks_next hop.1 hpub).allPublished h

-- An older server and a newer one, and three files of which the last is a large one
def network : State Bool (Fin 3) where
  server newer :=
    { master := true
      hardLimit := none
      hasLargefiles := newer
      hasZlib := newer
      connected := true
      sock := some ⟨false, 0, .null⟩
      sentShared := []
      written := [] }
  file f := ⟨Bencode.ofString "a", if f = 2 then 5000000000 else 1, .avi, f = 0, some []⟩
  connectedServers := [false, true]
  filesByMd4 := [0, 1, 2]
  maxPublishedFiles := 200
  clientBufferSize := 500000
  donkeyPort := 4662

def md4Of (f : Fin 3) : Md4 := ⟨UInt8.ofNat f :: List.replicate 15 0, rfl⟩

-- What both servers know after the files were published, and the older one has gone
def published : State Bool (Fin 3) :=
  next md4Of id (.removeServer false) (next md4Of id .sendNewShared network)

-- One server that takes files, behind a write buffer with that many bytes, and one shared file.
def oneFile (remaining : Nat) : State Unit Unit where
  server _ :=
    { master := true
      hardLimit := none
      hasLargefiles := false
      hasZlib := false
      connected := true
      sock := some ⟨false, remaining, .null⟩
      sentShared := []
      written := [] }
  file _ := ⟨Bencode.ofString "a", 1, .unknown, true, some []⟩
  connectedServers := [()]
  filesByMd4 := [()]
  maxPublishedFiles := 200
  clientBufferSize := 500000
  donkeyPort := 4662

end Mldonkey.Donkey.Publish
