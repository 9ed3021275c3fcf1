import Mldonkey.Dht.Messages
import Mldonkey.Lib.Hashtbl

-- Queries in flight: the answers, errors and timeouts that end them.
namespace Mldonkey.Dht

open Kademlia Runs

def dhtQueryTimeout : Int := 20

-- A query that was written: where it went, under which transaction and what it
-- asked for. Its number stands for its pair of continuations.
structure Sent where
  addr : Addr
  txn : String
  query : Query

-- An invocation of a continuation that the caller of ping, find_node, get_peers
-- or announce passed. `answered` is the one for an answer, with the sender and
-- the transaction of the response.
inductive Call
  | answered (n : Nat) (addr : Addr) (txn : String)
  | failed (n : Nat)
  deriving DecidableEq

def Call.number : Call → Nat
  | answered n _ _ => n
  | failed n => n

-- The table of KRPC.create maps an address and a transaction to the
-- continuations and the time when they expire.
structure Krpc where
  h : Assoc2 Addr String (Nat × Int)
  sent : List Sent
  calls : List Call
  now : Int

-- Arguments of a call of KRPC.write, with the transactions that the random
-- generator offers.
structure Write where
  addr : Addr
  query : Query
  draws : List String

inductive Msg
  | query
  | response (dict : Dict)
  | error (code : Int) (text : String)

namespace Krpc

def create (now : Int) : Krpc := { h := .create, sent := [], calls := [], now := now }

-- The loop draws until a transaction is free; when none of the draws is, it
-- goes on drawing and nothing is written.
def write (s : Krpc) (w : Write) : Krpc :=
  match w.draws.find? fun txn => !(Assoc2.findAll s.h w.addr).mem txn with
  | none => s
  | some txn =>
      { s with
        h := Assoc2.add s.h w.addr txn (s.sent.length, s.now + dhtQueryTimeout)
        sent := s.sent ++ [⟨w.addr, txn, w.query⟩] }

-- A continuation is called. `react` gives the queries that it writes in turn,
-- which may depend on all calls so far.
def call (react : List Call → List Write) (s : Krpc) (c : Call) : Krpc :=
  (react (c :: s.calls)).foldl write { s with calls := c :: s.calls }

-- The continuation that dht_query hands to KRPC.write: the response is parsed,
-- and what is not the expected one counts as an error.
def respond (react : List Call → List Write) (s : Krpc) (n : Nat) (q : Query) (addr : Addr)
    (txn : String) (dict : Dict) : Krpc :=
  match parseResponse q dict with
  | .error _ => s.call react (.failed n)
  | .ok (_, r) =>
      if q.expects r then s.call react (.answered n addr txn) else s.call react (.failed n)

def handle (react : List Call → List Write) (s : Krpc) (addr : Addr) (txn : String) :
    Msg → Krpc
  -- The answer to a query changes nothing here.
  | .query => s
  | .error _ _ =>
      match Assoc2.find s.h addr txn with
      | none => s
      | some (n, _) => { s with h := Assoc2.remove s.h addr txn }.call react (.failed n)
  | .response dict =>
      match Assoc2.find s.h addr txn with
      | none => s
      | some (n, _) =>
          match s.sent[n]? with
          | none => s
          | some q =>
              { s with h := Assoc2.remove s.h addr txn }.respond react n q.query addr txn dict

-- The queries that expired are removed and fail one after the other.
def failAll (react : List Call → List Write) (s : Krpc) :
    List (Addr × String × Nat × Int) → Krpc
  | [] => s
  | (addr, txn, n, _) :: bad =>
      failAll react ({ s with h := Assoc2.remove s.h addr txn }.call react (.failed n)) bad

def timeout (react : List Call → List Write) (s : Krpc) : Krpc :=
  s.failAll react ((Assoc2.toList s.h).filter fun p => p.2.2.2 < s.now).reverse

-- All queries fail while they are still in the table, which is then emptied.
def shutdown (react : List Call → List Write) (s : Krpc) : Krpc :=
  { (Assoc2.toList s.h).foldl (fun s p => s.call react (.failed p.2.2.1)) s with h := .create }

end Krpc

inductive KrpcOp
  | write (w : Write)
  | packet (addr : Addr) (txn : String) (msg : Msg)
  -- A packet that does not decode.
  | malformed
  | clock (now : Int)
  | timer
  | shutdown

def KrpcOp.next (react : List Call → List Write) : KrpcOp → Krpc → Krpc
  | write w, s => s.write w
  | packet addr txn msg, s => s.handle react addr txn msg
  | malformed, s => s
  | clock now, s => { s with now := now }
  | timer, s => s.timeout react
  | shutdown, s => s.shutdown react

-- The states that runs reach.
def KrpcReachable (react : List Call → List Write) : Krpc → Prop :=
  Reach (KrpcOp.next react) (fun s => ∃ now, s = .create now) fun _ _ => True

end Mldonkey.Dht
