import Mldonkey.BitTorrent.Rate

-- The clients that BitTorrent uploads to, as bTChooser selects them.
namespace Mldonkey.BitTorrent.Chooser

inductive Connection
  | noConnection
  | waiting
  | connected
  deriving DecidableEq

-- A client of a torrent; `num` is its client_num. That a client is interested it
-- says over its connection, and a client whose connection closes is discarded.
structure Client where
  num : Nat
  sock : Connection
  interested : Bool
  uploadRate : Rate
  downloadedRate : Rate
  lastOptimist : Int
  interested_connected : interested = true → sock = .connected

namespace Client

-- new_client, for an address that the torrent does not know; `num` is a fresh one.
def new (t : Int) (num : Nat) : Client where
  num := num
  sock := .noConnection
  interested := false
  uploadRate := .newRate t
  downloadedRate := .newRate t
  lastOptimist := 0
  interested_connected := fun h => Bool.noConfusion h

-- connect_client
def connect (c : Client) : Client :=
  if h : c.sock = .noConnection then
    { c with
      sock := .waiting
      interested_connected := fun hi => by
        rw [c.interested_connected hi] at h
        cases h }
  else c

-- The connection is there, by the token or from the client itself.
def opened (c : Client) : Client :=
  { c with sock := .connected, interested_connected := fun _ => rfl }

-- Interested and NotInterested are read from the connection.
def receive (c : Client) (interested : Bool) : Client :=
  if h : c.sock = .connected then
    { c with interested := interested, interested_connected := fun _ => h }
  else c

-- start_upload
def startUpload (c : Client) (t : Int) : Client :=
  { c with
    downloadedRate := c.downloadedRate.updateNoChange t
    uploadRate := c.uploadRate.updateNoChange t
    lastOptimist := t }

-- A piece of the file has come from the client.
def received (c : Client) (t len : Int) : Except Rate.Exn Client := do
  return { c with downloadedRate := ← c.downloadedRate.update t len }

-- disconnect_client; a client that had a connection is removed.
def disconnect (c : Client) : Option Client :=
  match hsock : c.sock with
  | .noConnection => some c
  | .waiting => some
      { c with
        sock := .noConnection
        interested_connected := fun hi => by
          rw [c.interested_connected hi] at hsock
          cases hsock }
  | .connected => none

end Client

inductive FileState
  | downloading
  | shared
  | other
  deriving DecidableEq

-- A torrent; `left` is its size less what the swarmer has downloaded. A client
-- is put into file_clients when it is made, and only then.
structure Torrent where
  state : FileState
  left : Int
  priority : Int
  clients : List Client
  distinct : (clients.map Client.num).Nodup

namespace Torrent

variable {f : Torrent}

-- The torrent before it knows any client.
def new (state : FileState) (left priority : Int) : Torrent :=
  { state, left, priority, clients := [], distinct := List.nodup_nil }

-- new_client puts the client into file_clients.
def newClient (f : Torrent) (t : Int) (num : Nat) (hnum : num ∉ f.clients.map Client.num) :
    Torrent :=
  { f with
    clients := .new t num :: f.clients
    distinct := List.nodup_cons.mpr ⟨hnum, f.distinct⟩ }

-- A client changes while it stays in file_clients under its client_num.
def setClients (f : Torrent) (clients : List Client)
    (hnum : clients.map Client.num = f.clients.map Client.num) : Torrent :=
  { f with clients := clients, distinct := hnum ▸ f.distinct }

end Torrent

-- The options, in the ranges that their hooks keep them in.
structure UploadLimits where
  maxBtUploaders : Int
  maxUploadersPerTorrent : Int
  bt_pos : 1 ≤ maxBtUploaders
  torrent_pos : 1 ≤ maxUploadersPerTorrent

-- List2.cut, which fails on a negative number.
def cut {α : Type} (n : Int) (list : List α) : Option (List α × List α) :=
  if n < 0 then none else some (list.take n.toNat, list.drop n.toNat)

-- A list of i items at most, with all of orl and some of l.
def keepn {α : Type} (orl l : List α) (i : Int) : Option (List α × List α) :=
  if orl.length < i ∧ 0 < i then do
    let (keep, rest) ← cut (i - orl.length) l
    return (orl ++ keep, rest)
  else some (orl, l)

-- The clients that one torrent adds to the list. `rate` is what fun_comp compares,
-- the larger one first.
def torrentUploaders (limits : UploadLimits) (now : Int) (rate : Client → Int) (f : Torrent) :
    Option (List Client) := do
  let possibleUploaders := f.clients.reverse
  let filtl := possibleUploaders.filter fun c => c.interested && c.sock ≠ .noConnection
  let sortl := filtl.mergeSort fun a b => rate b ≤ rate a
  let (maxList, next) ← keepn [] sortl (limits.maxUploadersPerTorrent - 1)
  let (optim, notoptim) :=
    next.partition fun a => 0 < a.uploadRate.ratesince ∧ now < a.lastOptimist + 30
  let notoptim := notoptim.mergeSort fun a b => a.lastOptimist ≤ b.lastOptimist
  let (maxList, _) ← keepn maxList optim limits.maxUploadersPerTorrent
  let (toAdd, _) ← keepn maxList notoptim limits.maxUploadersPerTorrent
  return toAdd

def chooseNextUploaders (limits : UploadLimits) (now : Int) (files : List Torrent)
    (rate : Client → Int) : Option (List Client) :=
  files.foldlM (fun fullList f => do
    return fullList ++ (← torrentUploaders limits now rate f)) []

-- What is left to download first, and then the priority.
def sortTorrents (files : List Torrent) : List Torrent :=
  (files.mergeSort fun a b => a.left ≤ b.left).mergeSort fun a b => b.priority ≤ a.priority

def chooseUploaders (limits : UploadLimits) (now : Int) (currentFiles : List Torrent) :
    Option (List Client) := do
  let downloaders ← chooseNextUploaders limits now
    (sortTorrents (currentFiles.filter fun f => f.state = .downloading))
    fun c => c.downloadedRate.rate
  let uploaders ← chooseNextUploaders limits now
    (currentFiles.filter fun f => f.state = .shared) fun c => c.uploadRate.rate
  let nextUploaders := downloaders ++ uploaders
  if limits.maxBtUploaders < nextUploaders.length then
    let (keep, _) ← cut limits.maxBtUploaders nextUploaders
    return keep
  else return nextUploaders

open scoped List

-- A client that may be chosen.
def eligible (c : Client) : Bool := c.interested && c.sock ≠ .noConnection

-- What the list of one torrent is promised to be.
structure Chosen (limit : Int) (rate : Client → Int) (clients chosen : List Client) : Prop where
  length : chosen.length ≤ limit
  distinct : (chosen.map Client.num).Nodup
  mem : ∀ c ∈ chosen, c ∈ clients ∧ c.interested = true ∧ c.sock = .connected
  best : ∃ best, best <+: chosen ∧
    (best.length : Int) = min (limit - 1) (clients.filter eligible).length ∧
    ∀ c ∈ clients, eligible c = true → c ∉ best → ∀ b ∈ best, rate c ≤ rate b

variable {α : Type} {limits : UploadLimits} {now : Int} {rate : Client → Int} {f : Torrent}

theorem keepn_eq (orl l : List α) (i : Int) :
    keepn orl l i =
      some (orl ++ l.take (i - orl.length).toNat, l.drop (i - orl.length).toNat) := by
  rw [keepn]
  split
  · rw [cut, if_neg (by omega)]
    rfl
  · have hnone : (i - orl.length).toNat = 0 := by omega
    rw [hnone, List.take_zero, List.drop_zero, List.append_nil]

-- The list before a part of another one is added has that many places left.
theorem length_keepn {orl l : List α} {i : Int} (h : orl.length ≤ i) :
    ((orl ++ l.take (i - orl.length).toNat).length : Int) ≤ i := by
  rw [List.length_append, List.length_take]
  omega

theorem sorted_perm (clients : List Client) (le : Client → Client → Bool) :
    (((clients.reverse).filter eligible).mergeSort le).Perm (clients.filter eligible) :=
  (List.mergeSort_perm _ _).trans ((List.reverse_perm clients).filter _)

-- The best k of a sorted list are followed by others that are not better.
theorem take_best {l : List Client} {k : Nat} (hl : l.Pairwise fun a b => rate b ≤ rate a)
    {c b : Client} (hc : c ∈ l) (hcbest : c ∉ l.take k) (hb : b ∈ l.take k) : rate c ≤ rate b := by
  rw [← List.take_append_drop k l] at hl hc
  rcases List.mem_append.mp hc with hc | hc
  · exact absurd hc hcbest
  · exact (List.pairwise_append.mp hl).2.2 b hb c hc

-- The optimistic uploaders and the others come out of one list.
theorem subperm_parts {l optim notoptim : List Client} {p : Client → Bool}
    (hoptim : optim <+ l.filter p) (hnotoptim : notoptim <+~ l.filter fun a => !p a) :
    optim ++ notoptim <+~ l :=
  (hoptim.subperm.append hnotoptim).trans (List.filter_append_perm p l).subperm

-- The best clients, some that are optimistic uploaders, and some that are not.
theorem torrentUploaders_chosen (limits : UploadLimits) (now : Int) (rate : Client → Int)
    (f : Torrent) : ∃ chosen, torrentUploaders limits now rate f = some chosen ∧
      Chosen limits.maxUploadersPerTorrent rate f.clients chosen := by
  have hpos := limits.torrent_pos
  set i := limits.maxUploadersPerTorrent with hi
  set sortl := (f.clients.reverse.filter eligible).mergeSort fun a b => decide (rate b ≤ rate a)
    with hsortl
  have hperm := sorted_perm f.clients fun a b => decide (rate b ≤ rate a)
  rw [← hsortl] at hperm
  have hpair : sortl.Pairwise fun a b => rate b ≤ rate a := by
    have h := @List.pairwise_mergeSort Client (fun a b => decide (rate b ≤ rate a))
      (fun a b c hab hbc => by simp only [decide_eq_true_eq] at *; omega)
      (fun a b => by simp only [Bool.or_eq_true, decide_eq_true_eq]; omega)
      (f.clients.reverse.filter eligible)
    exact h.imp fun hab => of_decide_eq_true hab
  set k := (i - 1).toNat with hk
  set optimistic : Client → Bool := fun a =>
    decide (0 < a.uploadRate.ratesince ∧ now < a.lastOptimist + 30) with hoptimistic
  set optim := (sortl.drop k).filter optimistic with hoptim
  set notoptim := ((sortl.drop k).filter fun a => !optimistic a).mergeSort fun a b =>
    decide (a.lastOptimist ≤ b.lastOptimist) with hnotoptim
  set withOptim := sortl.take k ++ optim.take (i - (sortl.take k).length).toNat with hwith
  have hsub : withOptim ++ notoptim.take (i - withOptim.length).toNat <+~
      f.clients.filter eligible := by
    have hrest : optim.take (i - (sortl.take k).length).toNat ++
        notoptim.take (i - withOptim.length).toNat <+~ sortl.drop k :=
      subperm_parts (List.take_sublist _ _)
        ((List.take_sublist _ _).subperm.trans (List.mergeSort_perm _ _).subperm)
    have hall : sortl.take k ++ (optim.take (i - (sortl.take k).length).toNat ++
        notoptim.take (i - withOptim.length).toNat) <+~ sortl.take k ++ sortl.drop k :=
      (List.Subperm.refl _).append hrest
    rw [List.take_append_drop, ← List.append_assoc] at hall
    exact hall.trans hperm.subperm
  refine ⟨withOptim ++ notoptim.take (i - withOptim.length).toNat, ?_, ?_, ?_, ?_, ?_⟩
  · rw [torrentUploaders]
    simp only [keepn_eq, List.partition_eq_filter_filter, Option.bind_eq_bind, Option.bind_some,
      List.nil_append, List.length_nil, Nat.cast_zero, Int.sub_zero]
    rfl
  · have htake : ((sortl.take k).length : Int) ≤ i := by
      rw [List.length_take]
      omega
    exact length_keepn (length_keepn htake)
  · obtain ⟨l, hl, hlsub⟩ := hsub.trans List.filter_sublist.subperm
    exact (hl.map _).nodup_iff.mp (f.distinct.sublist (hlsub.map _))
  · intro c hc
    have hmem := List.mem_filter.mp (hsub.subset hc)
    have hinterested : c.interested = true := (Bool.and_eq_true_iff.mp hmem.2).1
    exact ⟨hmem.1, hinterested, c.interested_connected hinterested⟩
  · refine ⟨sortl.take k, ?_, ?_, fun c hc helig hbest b hb => ?_⟩
    · rw [hwith, List.append_assoc]
      exact List.prefix_append _ _
    · rw [List.length_take, hperm.length_eq]
      omega
    · have hmem : c ∈ sortl := hperm.mem_iff.mpr (List.mem_filter.mpr ⟨hc, helig⟩)
      exact take_best hpair hmem hbest hb

theorem chooseNextUploaders_chosen (limits : UploadLimits) (now : Int) (files : List Torrent)
    (rate : Client → Int) : ∃ lists : List (Torrent × List Client),
      lists.map Prod.fst = files ∧
      (∀ p ∈ lists, Chosen limits.maxUploadersPerTorrent rate p.1.clients p.2) ∧
      chooseNextUploaders limits now files rate = some (lists.flatMap Prod.snd) := by
  have hfold : ∀ fullList, ∃ lists : List (Torrent × List Client),
      lists.map Prod.fst = files ∧
      (∀ p ∈ lists, Chosen limits.maxUploadersPerTorrent rate p.1.clients p.2) ∧
      files.foldlM (fun fullList f => do
        return fullList ++ (← torrentUploaders limits now rate f)) fullList =
          some (fullList ++ lists.flatMap Prod.snd) := by
    induction files with
    | nil =>
        intro fullList
        exact ⟨[], rfl, fun p hp => absurd hp List.not_mem_nil, by simp⟩
    | cons f files ih =>
        intro fullList
        obtain ⟨chosen, heq, hchosen⟩ := torrentUploaders_chosen limits now rate f
        obtain ⟨lists, hfst, hall, hfold⟩ := ih (fullList ++ chosen)
        refine ⟨(f, chosen) :: lists, by rw [List.map_cons, hfst], ?_, ?_⟩
        · intro p hp
          rcases List.mem_cons.mp hp with rfl | hp
          · exact hchosen
          · exact hall p hp
        · rw [List.foldlM_cons, heq, List.flatMap_cons, ← List.append_assoc]
          exact hfold
  exact hfold []

-- Whatever the torrents and their clients are: each torrent adds at most its
-- number of distinct clients, the best of them by the rate of its state but for
-- one place, and the first of them all are kept.
theorem chooseUploaders_chosen (limits : UploadLimits) (now : Int) (currentFiles : List Torrent) :
    ∃ downloads shares : List (Torrent × List Client), ∃ chosen,
      (downloads.map Prod.fst).Perm (currentFiles.filter fun f => f.state = .downloading) ∧
      shares.map Prod.fst = currentFiles.filter (fun f => f.state = .shared) ∧
      (∀ p ∈ downloads, Chosen limits.maxUploadersPerTorrent (fun c => c.downloadedRate.rate)
        p.1.clients p.2) ∧
      (∀ p ∈ shares, Chosen limits.maxUploadersPerTorrent (fun c => c.uploadRate.rate)
        p.1.clients p.2) ∧
      chooseUploaders limits now currentFiles = some chosen ∧
      chosen = ((downloads ++ shares).flatMap Prod.snd).take limits.maxBtUploaders.toNat ∧
      chosen.length ≤ limits.maxBtUploaders := by
  have hpos := limits.bt_pos
  obtain ⟨downloads, hdownloads, hdchosen, hdeq⟩ := chooseNextUploaders_chosen limits now
    (sortTorrents (currentFiles.filter fun f => f.state = .downloading))
    fun c => c.downloadedRate.rate
  obtain ⟨shares, hshares, hschosen, hseq⟩ := chooseNextUploaders_chosen limits now
    (currentFiles.filter fun f => f.state = .shared) fun c => c.uploadRate.rate
  refine ⟨downloads, shares, _, ?_, hshares, hdchosen, hschosen, ?_, rfl, ?_⟩
  · rw [hdownloads]
    exact (List.mergeSort_perm _ _).trans (List.mergeSort_perm _ _)
  · rw [chooseUploaders, hdeq, hseq, List.flatMap_append]
    simp only [Option.bind_eq_bind, Option.bind_some]
    split
    · rw [cut, if_neg (by omega)]
      rfl
    · rw [List.take_of_length_le (by omega)]
      rfl
  · rw [List.length_take]
    omega

-- A client that is interested and has sent `len` bytes in the second in which it came.
def sender (num : Nat) (len : Int) : Client :=
  { (Client.new 900 num).connect.opened.receive true with downloadedRate := ⟨899, 900, len⟩ }

example : ((Client.new 900 2).connect.opened.receive true).received 900 500 = .ok (sender 2 500) :=
  rfl

-- Five clients: the first has had a slot for 20 seconds, and the last is not interested.
def fetching : Torrent :=
  (((((Torrent.new .downloading 4000 0).newClient 900 1 (by decide)).newClient 900 2
    (by decide)).newClient 900 3 (by decide)).newClient 900 4 (by decide)).newClient 900 5
    (by decide) |>.setClients
      [Client.new 900 5, sender 4 200, sender 3 300, sender 2 500, (sender 1 100).startUpload 980]
      rfl

def seeding : Torrent :=
  ((Torrent.new .shared 0 0).newClient 900 6 (by decide)).newClient 900 7 (by decide)
    |>.setClients [sender 7 0, sender 6 0] rfl

def fewUploaders : UploadLimits := ⟨4, 3, by decide, by decide⟩

-- The torrent that downloads adds its two best clients and the one that has the slot, and
-- the list ends in the middle of the other torrent.
theorem chooseUploaders_chosen_four :
    (∃ chosen, chooseUploaders fewUploaders 1000 [seeding, fetching] = some chosen ∧
      (chosen.length : Int) ≤ 4) ∧
    (chooseUploaders fewUploaders 1000 [seeding, fetching]).map (·.map Client.num) =
      some [2, 3, 1, 6] := by
  refine ⟨?_, ?_⟩
  · obtain ⟨_, _, chosen, _, _, _, _, heq, _, hlen⟩ :=
      chooseUploaders_chosen fewUploaders 1000 [seeding, fetching]
    exact ⟨chosen, heq, hlen⟩
  · simp [chooseUploaders, chooseNextUploaders, torrentUploaders, sortTorrents, keepn_eq, fetching,
      seeding, fewUploaders, sender, Torrent.new, Torrent.newClient, Torrent.setClients, Client.new,
      Client.connect, Client.opened, Client.receive, Client.startUpload, Rate.newRate,
      Rate.updateNoChange, List.mergeSort, List.MergeSort.Internal.splitInTwo, cut]

end Mldonkey.BitTorrent.Chooser
