import Mldonkey.Bencode.RoundTrip
import Mldonkey.Dht.Messages

-- The packets that carry queries and responses, from KRPC.encode and
-- KRPC.decode_exn.
namespace Mldonkey.Dht

open Bencode (Value ofString)
open Kademlia

-- KRPC.msg.
inductive Packet
  | query (name : Bytes) (args : Dict)
  | response (dict : Dict)
  | error (code : Int64) (text : Bytes)

inductive PacketExn
  | malformedPacket (message : String)
  | protocolError (txn : Bytes) (message : String)
  deriving DecidableEq, Repr

def Packet.fields : Packet → Dict
  | .query name args =>
      [(ofString "y", .string (ofString "q")), (ofString "q", .string name),
        (ofString "a", .dictionary args)]
  | .response dict => [(ofString "y", .string (ofString "r")), (ofString "r", .dictionary dict)]
  | .error code text =>
      [(ofString "y", .string (ofString "e")), (ofString "e", .list [.int code, .string text])]

-- `version` is self_version.
def Packet.encode (version txn : Bytes) (msg : Packet) : Bytes :=
  Bencode.encode true
    (.dictionary ((ofString "t", .string txn) :: (ofString "v", .string version) :: msg.fields))

def int : Value → Except Exn Int64
  | .int i => .ok i
  | _ => .error (.failure "int")

def dict : Value → Except Exn Dict
  | .dictionary l => .ok l
  | _ => .error (.failure "dict")

namespace Packet

def field (x : Value) (k : String) : Except Exn Value :=
  match x with
  | .dictionary l => get l k
  | _ => .error (.failure "decode get")

def decodeMsg (x : Value) : Except Exn Packet := do
  let y ← str (← field x "y")
  if y = ofString "q" then return .query (← str (← field x "q")) (← dict (← field x "a"))
  else if y = ofString "r" then return .response (← dict (← field x "r"))
  else if y = ofString "e" then
    match ← list (← field x "e") with
    | .int n :: .string s :: _ => return .error n s
    | _ => .error (.failure "decode e")
  else .error (.failure "type")

-- The transaction, the version if there is one, and the message.
def decode (ofFloat : Bytes → Option Int64) (s : Bytes) :
    Except PacketExn (Bytes × Option Bytes × Packet) :=
  match Bencode.decode ofFloat s with
  | .error _ => .error (.malformedPacket "decode")
  | .ok x =>
      match field x "t" >>= str with
      | .error _ => .error (.malformedPacket "txn")
      | .ok txn =>
          match decodeMsg x with
          | .error _ => .error (.protocolError txn "Invalid argument")
          | .ok msg => .ok (txn, (field x "v" >>= str).toOption, msg)

end Packet

-- Int64.to_int drops the highest bit.
def toInt (i : Int64) : Int := i.toInt.bmod (2 ^ 63)

def toText (s : Bytes) : String := String.ofList (s.map fun c => Char.ofNat c.toNat)

def parseArgs (name : Bytes) (args : Dict) : Except Exn Query :=
  if name = ofString "ping" then return .ping
  else if name = ofString "find_node" then do return .findNode (← getStr args "target")
  else if name = ofString "get_peers" then do return .getPeers (← getStr args "info_hash")
  else if name = ofString "announce_peer" then do
    let token ← getStr args "token"
    let port ← int (← get args "port")
    return .announce (← getStr args "info_hash") (toInt port) token
  else .error (.failure ("parse_query name=" ++ toText name))

def parseQuery (name : Bytes) (args : Dict) : Except Exn (RawId × Query) := do
  let p ← parseArgs name args
  return (← getStr args "id", p)

def makeQuery (id : RawId) : Query → Packet
  | .ping => .query (ofString "ping") [(ofString "id", .string id)]
  | .findNode t =>
      .query (ofString "find_node") [(ofString "target", .string t), (ofString "id", .string id)]
  | .getPeers h =>
      .query (ofString "get_peers") [(ofString "info_hash", .string h), (ofString "id", .string id)]
  | .announce h port token =>
      .query (ofString "announce_peer")
        [(ofString "info_hash", .string h), (ofString "port", .int (Int64.ofInt port)),
          (ofString "token", .string token), (ofString "id", .string id)]

def makePeer (addr : Addr) : Except Exn Bytes :=
  if 0xffff < addr.port then .error .assertFailure
  else if addr.port < 0 then .error .invalidArgument
  else
    let ip := addr.ip.toNat
    let port := addr.port.toNat
    .ok [.ofNat (ip / 2 ^ 24), .ofNat (ip / 2 ^ 16), .ofNat (ip / 2 ^ 8), .ofNat ip,
      .ofNat (port / 2 ^ 8), .ofNat port]

-- String.blit takes 20 bytes of the hash.
def makeNodes : List (RawId × Addr) → Except Exn Bytes
  | [] => .ok []
  | (id, addr) :: nodes =>
      if id.length < 20 then .error .invalidArgument
      else do
        let peer ← makePeer addr
        let rest ← makeNodes nodes
        return id.take 20 ++ peer ++ rest

def makeResponse (id : RawId) : Response → Except Exn Packet
  | .ack => return .response [(ofString "id", .string id)]
  | .nodes nodes => do
      let nodes ← makeNodes nodes
      return .response [(ofString "id", .string id), (ofString "nodes", .string nodes)]
  | .peers token peers nodes => do
      let peers ← peers.mapM makePeer
      let nodes ← makeNodes nodes
      return .response
        [(ofString "id", .string id), (ofString "token", .string token),
          (ofString "nodes", .string nodes), (ofString "values", .list (peers.map .string))]

section RoundTrip

lemma lookup_of_perm {l l' : Dict} (h : l.Perm l') (hl : (l.map Prod.fst).Nodup) (k : Bytes) :
    l.lookup k = l'.lookup k := by
  induction h with
  | nil => rfl
  | cons e _ ih =>
    rw [List.lookup_cons, List.lookup_cons, ih (List.nodup_cons.mp hl).2]
  | swap e f l =>
    rw [List.lookup_cons, List.lookup_cons, List.lookup_cons, List.lookup_cons]
    cases hf : k == f.1 with
    | false => rfl
    | true =>
      cases he : k == e.1 with
      | false => rfl
      | true =>
        have hfe : f.1 = e.1 := (eq_of_beq hf).symm.trans (eq_of_beq he)
        simp [hfe] at hl
  | trans h₁ _ ih₁ ih₂ =>
    rw [ih₁ hl]
    exact ih₂ ((h₁.map Prod.fst).nodup_iff.mp hl)

lemma lookup_sortKeysEntries (l : Dict) (k : Bytes) :
    (Bencode.sortKeysEntries l).lookup k = (l.lookup k).map Value.sortKeys := by
  induction l with
  | nil => rfl
  | cons e l ih =>
    rw [Bencode.sortKeysEntries, List.lookup_cons, List.lookup_cons, ih]
    cases k == e.1 <;> rfl

lemma map_fst_sortKeysEntries (l : Dict) :
    (Bencode.sortKeysEntries l).map Prod.fst = l.map Prod.fst := by
  induction l with
  | nil => rfl
  | cons e l ih => rw [Bencode.sortKeysEntries, List.map_cons, List.map_cons, ih]

def sorted (l : Dict) : Dict := Bencode.sortByKey (Bencode.sortKeysEntries l)

lemma get_sorted {l : Dict} (hl : (l.map Prod.fst).Nodup) (k : String) :
    get (sorted l) k = (get l k).map Value.sortKeys := by
  have hperm := Bencode.sortByKey_perm (Bencode.sortKeysEntries l)
  have hnodup : ((sorted l).map Prod.fst).Nodup := by
    rw [sorted, (hperm.map Prod.fst).nodup_iff, map_fst_sortKeysEntries]
    exact hl
  rw [get, sorted, lookup_of_perm hperm hnodup, lookup_sortKeysEntries, get]
  cases l.lookup (ofString k) <;> rfl

@[simp] lemma sortKeys_string (s : Bytes) : (Value.string s).sortKeys = .string s := by
  rw [Value.sortKeys]

@[simp] lemma sortKeys_int (i : Int64) : (Value.int i).sortKeys = .int i := by
  rw [Value.sortKeys]

@[simp] lemma sortKeys_dictionary (l : Dict) : (Value.dictionary l).sortKeys = .dictionary (sorted l) := by
  rw [Value.sortKeys, sorted]

namespace Packet

-- A packet as it is read: its dictionaries are sorted.
def sortKeys : Packet → Packet
  | .query name args => .query name (sorted args)
  | .response dict => .response (sorted dict)
  | .error code text => .error code text

def entries (version txn : Bytes) (msg : Packet) : Dict :=
  (ofString "t", .string txn) :: (ofString "v", .string version) :: msg.fields

lemma entries_nodup (version txn : Bytes) (msg : Packet) :
    ((msg.entries version txn).map Prod.fst).Nodup := by
  cases msg with
  | query name args =>
    show [ofString "t", ofString "v", ofString "y", ofString "q", ofString "a"].Nodup
    decide
  | response dict =>
    show [ofString "t", ofString "v", ofString "y", ofString "r"].Nodup
    decide
  | error code text =>
    show [ofString "t", ofString "v", ofString "y", ofString "e"].Nodup
    decide

lemma field_sorted (version txn : Bytes) (msg : Packet) (k : String) :
    field (.dictionary (sorted (msg.entries version txn))) k
      = (get (msg.entries version txn) k).map Value.sortKeys :=
  get_sorted (entries_nodup version txn msg) k

lemma decodeMsg_sorted (version txn : Bytes) (msg : Packet) :
    decodeMsg (.dictionary (sorted (msg.entries version txn))) = .ok msg.sortKeys := by
  have hfield := field_sorted version txn msg
  cases msg with
  | query name args =>
    have hy : get ((query name args).entries version txn) "y" = .ok (.string (ofString "q")) := rfl
    have hq : get ((query name args).entries version txn) "q" = .ok (.string name) := rfl
    have ha : get ((query name args).entries version txn) "a" = .ok (.dictionary args) := rfl
    simp [decodeMsg, hfield, hy, hq, ha, Except.map, str, dict, bind, Except.bind, pure, Except.pure, sortKeys]
  | response d =>
    have hy : get ((response d).entries version txn) "y" = .ok (.string (ofString "r")) := rfl
    have hr : get ((response d).entries version txn) "r" = .ok (.dictionary d) := rfl
    have hne : ofString "r" ≠ ofString "q" := by decide
    simp [decodeMsg, hfield, hy, hr, hne, Except.map, str, dict, bind, Except.bind, pure, Except.pure, sortKeys]
  | error code text =>
    have hy : get ((error code text).entries version txn) "y" = .ok (.string (ofString "e")) := rfl
    have he : get ((error code text).entries version txn) "e"
        = .ok (.list [.int code, .string text]) := rfl
    have hq : ofString "e" ≠ ofString "q" := by decide
    have hr : ofString "e" ≠ ofString "r" := by decide
    simp [decodeMsg, hfield, hy, he, hq, hr, Except.map, Value.sortKeys, Bencode.sortKeysList,
      str, list, bind, Except.bind, pure, Except.pure, sortKeys]

lemma decode_encode (ofFloat : Bytes → Option Int64) (version txn : Bytes) (msg : Packet) :
    decode ofFloat (msg.encode version txn) = .ok (txn, some version, msg.sortKeys) := by
  have hmsg := decodeMsg_sorted version txn msg
  have hfield := field_sorted version txn msg
  have ht : get (msg.entries version txn) "t" = .ok (.string txn) := by cases msg <;> rfl
  have hv : get (msg.entries version txn) "v" = .ok (.string version) := by cases msg <;> rfl
  have hdecode : Bencode.decode ofFloat (msg.encode version txn)
      = .ok (.dictionary (sorted (msg.entries version txn))) := by
    rw [← sortKeys_dictionary]
    exact Bencode.decode_encode_strict ofFloat _
  simp [decode, hdecode, hmsg, hfield, ht, hv, Except.map, str, bind, Except.bind,
    Except.toOption]

end Packet

end RoundTrip

section Queries

variable {id : RawId}

lemma get_sorted_of_ok {l : Dict} (hl : (l.map Prod.fst).Nodup) {k : String} {v : Value}
    (h : get l k = .ok v) : get (sorted l) k = .ok v.sortKeys := by
  rw [get_sorted hl, h]
  rfl

lemma getStr_sorted {l : Dict} (hl : (l.map Prod.fst).Nodup) {k : String} {s : Bytes}
    (h : get l k = .ok (.string s)) : getStr (sorted l) k = .ok s := by
  rw [getStr, get_sorted_of_ok hl h, sortKeys_string]
  rfl

lemma toInt_ofInt {i : ℤ} (hlo : -2 ^ 62 ≤ i) (hhi : i < 2 ^ 62) : toInt (Int64.ofInt i) = i := by
  have h64 : (Int64.ofInt i).toInt = i := Int64.toInt_ofInt_of_le (by omega) (by omega)
  rw [toInt, h64]
  exact Int.bmod_eq_of_le (by omega) (by omega)

-- A port that is an int.
def Query.Valid : Query → Prop
  | .announce _ port _ => -2 ^ 62 ≤ port ∧ port < 2 ^ 62
  | _ => True

lemma parseQuery_makeQuery (id : RawId) {q : Query} (hq : q.Valid) :
    ∃ name args, makeQuery id q = .query name args ∧
      parseQuery name (sorted args) = .ok (id, q) := by
  cases q with
  | ping =>
    refine ⟨_, _, rfl, ?_⟩
    have hid := @getStr_sorted [(ofString "id", .string id)] (by simp) "id" id rfl
    rw [parseQuery, hid]
    rfl
  | findNode t =>
    have hkeys : [ofString "target", ofString "id"].Nodup := by decide
    have hping : ofString "find_node" ≠ ofString "ping" := by decide
    refine ⟨_, _, rfl, ?_⟩
    have hargs := @getStr_sorted
      [(ofString "target", .string t), (ofString "id", .string id)] hkeys
    rw [parseQuery, parseArgs, if_neg hping, if_pos rfl, @hargs "id" id rfl, @hargs "target" t rfl]
    rfl
  | getPeers h =>
    have hkeys : [ofString "info_hash", ofString "id"].Nodup := by decide
    have hping : ofString "get_peers" ≠ ofString "ping" := by decide
    have hfind : ofString "get_peers" ≠ ofString "find_node" := by decide
    refine ⟨_, _, rfl, ?_⟩
    have hargs := @getStr_sorted
      [(ofString "info_hash", .string h), (ofString "id", .string id)] hkeys
    rw [parseQuery, parseArgs, if_neg hping, if_neg hfind, if_pos rfl,
      @hargs "id" id rfl, @hargs "info_hash" h rfl]
    rfl
  | announce h port token =>
    have hkeys : [ofString "info_hash", ofString "port", ofString "token", ofString "id"].Nodup := by
      decide
    have hping : ofString "announce_peer" ≠ ofString "ping" := by decide
    have hfind : ofString "announce_peer" ≠ ofString "find_node" := by decide
    have hgetPeers : ofString "announce_peer" ≠ ofString "get_peers" := by decide
    have hport := toInt_ofInt hq.1 hq.2
    have hargs := @getStr_sorted
      [(ofString "info_hash", .string h), (ofString "port", .int (Int64.ofInt port)),
        (ofString "token", .string token), (ofString "id", .string id)] hkeys
    have hget := @get_sorted_of_ok
      [(ofString "info_hash", .string h), (ofString "port", .int (Int64.ofInt port)),
        (ofString "token", .string token), (ofString "id", .string id)] hkeys "port"
        (.int (Int64.ofInt port)) rfl
    refine ⟨_, _, rfl, ?_⟩
    rw [parseQuery, parseArgs, if_neg hping, if_neg hfind, if_neg hgetPeers, if_pos rfl,
      @hargs "id" id rfl, @hargs "info_hash" h rfl, @hargs "token" token rfl, hget,
      sortKeys_int]
    simp [int, hport, bind, Except.bind, pure, Except.pure]

end Queries

section Responses

def inRange (addr : Addr) : Prop := 0 ≤ addr.port ∧ addr.port ≤ 65535

lemma makePeer_spec {addr : Addr} (h : inRange addr) :
    ∃ s, makePeer addr = .ok s ∧ s.length = 6 ∧ parsePeer s = .ok addr := by
  obtain ⟨hlo, hhi⟩ := h
  have hip := addr.ip.isLt
  refine ⟨_, by rw [makePeer, if_neg (by omega), if_neg (by omega)], rfl, ?_⟩
  obtain ⟨ip, port⟩ := addr
  simp only [parsePeer, List.map_cons, List.map_nil, UInt8.toNat_ofNat', Except.ok.injEq,
    Addr.mk.injEq] at hlo hhi hip ⊢
  constructor
  · apply BitVec.eq_of_toNat_eq
    rw [BitVec.toNat_ofNat]
    omega
  · omega

def nodeValid (node : RawId × Addr) : Prop := node.1.length = 20 ∧ inRange node.2

lemma makeNodes_spec {nodes : List (RawId × Addr)} (h : ∀ node ∈ nodes, nodeValid node) :
    ∃ s, makeNodes nodes = .ok s ∧ s.length = 26 * nodes.length ∧
      ∀ acc, parsePieces acc nodes.length s = .ok (nodes.reverse ++ acc) := by
  induction nodes with
  | nil => exact ⟨[], rfl, rfl, fun acc => rfl⟩
  | cons node nodes ih =>
    obtain ⟨id, addr⟩ := node
    obtain ⟨hid, haddr⟩ := h (id, addr) (by simp)
    obtain ⟨peer, hpeer, hlen, hparse⟩ := makePeer_spec haddr
    obtain ⟨rest, hrest, hrestlen, hpieces⟩ := ih fun node hn => h node (by simp [hn])
    have hid : id.length = 20 := hid
    refine ⟨id ++ peer ++ rest, ?_, ?_, fun acc => ?_⟩
    · rw [makeNodes, if_neg (by omega), hpeer, hrest, List.take_of_length_le hid.le]
      rfl
    · simp only [List.length_append, List.length_cons, hid, hlen, hrestlen]
      ring
    · have hdrop : (id ++ peer ++ rest).drop 26 = rest := by
        rw [List.drop_left' (by simp [hid, hlen])]
      have hpart : ((id ++ peer ++ rest).drop 20).take 6 = peer := by
        rw [List.append_assoc, List.drop_left' hid, List.take_left' hlen]
      have htake : (id ++ peer ++ rest).take 20 = id := by
        rw [List.append_assoc, List.take_left' hid]
      rw [List.length_cons, parsePieces, hdrop, hpart, htake, hparse]
      simp [bind, Except.bind, hpieces]

-- parse_nodes puts the nodes in front of those that it already has.
lemma parseNodes_makeNodes {nodes : List (RawId × Addr)} (h : ∀ node ∈ nodes, nodeValid node) :
    ∃ s, makeNodes nodes = .ok s ∧ parseNodes s = .ok nodes.reverse := by
  obtain ⟨s, hs, hlen, hpieces⟩ := makeNodes_spec h
  refine ⟨s, hs, ?_⟩
  have hdiv : s.length / 26 = nodes.length := by omega
  rw [parseNodes, if_pos (by omega), hdiv, hpieces, List.append_nil]

def parsePeerValue (x : Value) : Except Exn Addr := do parsePeer (← str x)

lemma mapM_makePeer {peers : List Addr} (h : ∀ addr ∈ peers, inRange addr) :
    ∃ l, peers.mapM makePeer = .ok l ∧ (l.map Value.string).mapM parsePeerValue = .ok peers := by
  induction peers with
  | nil => exact ⟨[], rfl, rfl⟩
  | cons addr peers ih =>
    obtain ⟨s, hs, -, hparse⟩ := makePeer_spec (h addr (by simp))
    obtain ⟨l, hl, hread⟩ := ih fun addr ha => h addr (by simp [ha])
    refine ⟨s :: l, ?_, ?_⟩
    · simp [List.mapM_cons, hs, hl, bind, Except.bind, pure, Except.pure]
    · have hv : parsePeerValue (.string s) = .ok addr := hparse
      rw [List.map_cons, List.mapM_cons, hv]
      simp [hread, bind, Except.bind, pure, Except.pure]

-- The same response with its nodes in any order.
def Response.SameNodes : Response → Response → Prop
  | .ack, .ack => True
  | .nodes l, .nodes l' => l.Perm l'
  | .peers token p n, .peers token' p' n' => token = token' ∧ p = p' ∧ n.Perm n'
  | _, _ => False

def Response.Valid : Response → Prop
  | .ack => True
  | .nodes l => ∀ node ∈ l, nodeValid node
  | .peers _ p n => (∀ addr ∈ p, inRange addr) ∧ ∀ node ∈ n, nodeValid node

lemma sortKeysList_string (l : List Bytes) :
    Bencode.sortKeysList (l.map Value.string) = l.map Value.string := by
  induction l with
  | nil => rw [List.map_nil, Bencode.sortKeysList]
  | cons s l ih => rw [List.map_cons, Bencode.sortKeysList, ih, sortKeys_string]

lemma parseBody_peers {args : Dict} {token nodes : Bytes} {l : List (RawId × Addr)}
    {values : List Value} {peers : List Addr} (h : RawId)
    (htoken : getStr args "token" = .ok token) (hnodes : getStr args "nodes" = .ok nodes)
    (hl : parseNodes nodes = .ok l) (hvalues : get args "values" = .ok (.list values))
    (hpeers : values.mapM parsePeerValue = .ok peers) :
    parseBody args (.getPeers h) = .ok (.peers token peers l) := by
  have hread : (values.mapM fun x => do parsePeer (← str x)) = .ok peers := hpeers
  simp only [bind, Except.bind] at hread
  simp only [parseBody, htoken, hnodes, hl, hvalues, list, hread, orNone, bind, Except.bind, pure,
    Except.pure]

lemma parseResponse_makeResponse (id : RawId) {q : Query} {r : Response}
    (hexp : q.expects r = true) (hr : r.Valid) :
    ∃ args r', makeResponse id r = .ok (.response args) ∧
      parseResponse q (sorted args) = .ok (id, r') ∧ r'.SameNodes r := by
  cases r with
  | ack =>
    have hid := @getStr_sorted [(ofString "id", .string id)] (by simp) "id" id rfl
    refine ⟨_, .ack, rfl, ?_, trivial⟩
    have hbody : parseBody (sorted [(ofString "id", .string id)]) q = .ok .ack := by
      cases q with
      | ping => rfl
      | announce h port token => rfl
      | findNode t => cases hexp
      | getPeers h => cases hexp
    rw [parseResponse, hbody, hid]
    rfl
  | nodes l =>
    obtain ⟨s, hs, hparse⟩ := parseNodes_makeNodes hr
    have hkeys : [ofString "id", ofString "nodes"].Nodup := by decide
    have hargs := @getStr_sorted [(ofString "id", .string id), (ofString "nodes", .string s)] hkeys
    refine ⟨_, .nodes l.reverse, by rw [makeResponse, hs]; rfl, ?_, l.reverse_perm⟩
    cases q with
    | findNode t =>
      rw [parseResponse, parseBody, @hargs "id" id rfl, @hargs "nodes" s rfl]
      simp [hparse, bind, Except.bind, pure, Except.pure]
    | ping => cases hexp
    | getPeers h => cases hexp
    | announce h port token => cases hexp
  | peers token peers nodes =>
    obtain ⟨s, hs, hparse⟩ := parseNodes_makeNodes hr.2
    obtain ⟨l, hl, hread⟩ := mapM_makePeer hr.1
    have hkeys : [ofString "id", ofString "token", ofString "nodes", ofString "values"].Nodup := by
      decide
    have hargs := @getStr_sorted
      [(ofString "id", .string id), (ofString "token", .string token),
        (ofString "nodes", .string s), (ofString "values", .list (l.map .string))] hkeys
    have hvalues := @get_sorted_of_ok
      [(ofString "id", .string id), (ofString "token", .string token),
        (ofString "nodes", .string s), (ofString "values", .list (l.map .string))] hkeys "values"
        (.list (l.map .string)) rfl
    refine ⟨_, .peers token peers nodes.reverse, by rw [makeResponse, hl, hs]; rfl, ?_,
      rfl, rfl, nodes.reverse_perm⟩
    cases q with
    | getPeers h =>
      rw [Value.sortKeys, sortKeysList_string] at hvalues
      rw [parseResponse, parseBody_peers h (@hargs "token" token rfl) (@hargs "nodes" s rfl)
        hparse hvalues hread, @hargs "id" id rfl]
      rfl
    | ping => cases hexp
    | findNode t => cases hexp
    | announce h port token => cases hexp

end Responses

-- What is sent is what is read, under the same transaction and for the same
-- node; the nodes of a response come in another order.
theorem dht_codec (ofFloat : Bytes → Option Int64) (version txn : Bytes) (id : RawId) :
    (∀ q : Query, q.Valid →
      ∃ name args, Packet.decode ofFloat ((makeQuery id q).encode version txn)
          = .ok (txn, some version, .query name args) ∧
        parseQuery name args = .ok (id, q)) ∧
    (∀ (q : Query) (r : Response), q.expects r = true → r.Valid →
      ∃ msg args r', makeResponse id r = .ok msg ∧
        Packet.decode ofFloat (msg.encode version txn) = .ok (txn, some version, .response args) ∧
        parseResponse q args = .ok (id, r') ∧ r'.SameNodes r) ∧
    ∀ code text, Packet.decode ofFloat ((Packet.error code text).encode version txn)
      = .ok (txn, some version, .error code text) := by
  refine ⟨fun q hq => ?_, fun q r hexp hr => ?_, fun code text => ?_⟩
  · obtain ⟨name, args, hmake, hparse⟩ := parseQuery_makeQuery id hq
    refine ⟨name, sorted args, ?_, hparse⟩
    rw [hmake]
    exact Packet.decode_encode ofFloat version txn (.query name args)
  · obtain ⟨args, r', hmake, hparse, hsame⟩ := parseResponse_makeResponse id hexp hr
    refine ⟨_, sorted args, r', hmake, ?_, hparse, hsame⟩
    exact Packet.decode_encode ofFloat version txn (.response args)
  · exact Packet.decode_encode ofFloat version txn (.error code text)

-- A node that asks for the peers of a torrent and gets one back.
theorem dht_codec_peers :
    (∃ msg args r', makeResponse (List.replicate 20 1)
        (.peers [7] [⟨0x7f000001, 6881⟩] [(List.replicate 20 2, ⟨0x0a000001, 65535⟩)]) = .ok msg ∧
      Packet.decode (fun _ => none) (msg.encode [0x4d] [0x61, 0x61])
        = .ok ([0x61, 0x61], some [0x4d], .response args) ∧
      parseResponse (.getPeers (List.replicate 20 3)) args = .ok (List.replicate 20 1, r') ∧
      r'.SameNodes
        (.peers [7] [⟨0x7f000001, 6881⟩] [(List.replicate 20 2, ⟨0x0a000001, 65535⟩)])) ∧
    ∃ name args, Packet.decode (fun _ => none)
        ((makeQuery (List.replicate 20 1) (.announce (List.replicate 20 3) 65535 [7])).encode [0x4d]
          [0x61, 0x61]) = .ok ([0x61, 0x61], some [0x4d], .query name args) ∧
      parseQuery name args
        = .ok (List.replicate 20 1, .announce (List.replicate 20 3) 65535 [7]) := by
  have h := dht_codec (fun _ => none) [0x4d] [0x61, 0x61] (List.replicate 20 1)
  constructor
  · apply h.2.1
    · rfl
    · simp [Response.Valid, nodeValid, inRange]
  · apply h.1
    simp [Query.Valid]

end Mldonkey.Dht
