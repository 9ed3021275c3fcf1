import Mldonkey.Bencode.Codec
import Mldonkey.Kademlia.Table

-- The queries of the DHT and the responses that answer them.
namespace Mldonkey.Dht

open Kademlia

abbrev Bytes := List UInt8

abbrev Dict := List (Bytes × Bencode.Value)

-- A hash as direct_of_string takes it from a packet: any string.
abbrev RawId := Bytes

inductive Query
  | ping
  | findNode (id : RawId)
  | getPeers (h : RawId)
  | announce (h : RawId) (port : Int) (token : Bytes)

inductive Response
  | ack
  | nodes (l : List (RawId × Addr))
  | peers (token : Bytes) (peers : List Addr) (nodes : List (RawId × Addr))

-- What the functions that read a packet raise.
inductive Exn
  | notFound
  | failure (message : String)
  | assertFailure
  | invalidArgument
  deriving DecidableEq, Repr

def get (dict : Dict) (k : String) : Except Exn Bencode.Value :=
  match dict.lookup (Bencode.ofString k) with
  | some v => .ok v
  | none => .error .notFound

def str : Bencode.Value → Except Exn Bytes
  | .string s => .ok s
  | _ => .error (.failure "str")

def list : Bencode.Value → Except Exn (List Bencode.Value)
  | .list l => .ok l
  | _ => .error (.failure "list")

def getStr (dict : Dict) (k : String) : Except Exn Bytes := do str (← get dict k)

def parsePeer (s : Bytes) : Except Exn Addr :=
  match s.map UInt8.toNat with
  | [c0, c1, c2, c3, c4, c5] =>
      .ok ⟨BitVec.ofNat 32 (((c0 * 256 + c1) * 256 + c2) * 256 + c3), (c4 * 256 + c5 : Nat)⟩
  | _ => .error (.failure "parse_peer")

-- The while loop over the pieces of 26 bytes; `fuel` is their number.
def parsePieces (nodes : List (RawId × Addr)) : Nat → Bytes → Except Exn (List (RawId × Addr))
  | 0, _ => .ok nodes
  | fuel + 1, s => do
      let addr ← parsePeer ((s.drop 20).take 6)
      parsePieces ((s.take 20, addr) :: nodes) fuel (s.drop 26)

def parseNodes (s : Bytes) : Except Exn (List (RawId × Addr)) :=
  if s.length % 26 = 0 then parsePieces [] (s.length / 26) s else .error .assertFailure

-- try .. with Not_found -> []
def orNone {α : Type} (x : Except Exn (List α)) : Except Exn (List α) :=
  match x with
  | .error .notFound => .ok []
  | x => x

def parseBody (dict : Dict) : Query → Except Exn Response
  | .ping => .ok .ack
  | .findNode _ => do
      let s ← getStr dict "nodes"
      return .nodes (← parseNodes s)
  | .getPeers _ => do
      let token ← getStr dict "token"
      let nodes ← orNone do parseNodes (← getStr dict "nodes")
      let peers ← orNone do
        (← list (← get dict "values")).mapM fun x => do parsePeer (← str x)
      return .peers token peers nodes
  | .announce _ _ _ => .ok .ack

def parseResponse (q : Query) (dict : Dict) : Except Exn (RawId × Response) := do
  let p ← parseBody dict q
  return (← getStr dict "id", p)

-- The response that ping, find_node, get_peers and announce each wait for.
def Query.expects : Query → Response → Bool
  | .ping, .ack | .findNode _, .nodes _ | .getPeers _, .peers _ _ _ | .announce _ _ _, .ack => true
  | _, _ => false

end Mldonkey.Dht
