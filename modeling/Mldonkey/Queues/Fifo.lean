import Mldonkey.Lib.Runs

-- The ring buffer of Fifo.
namespace Mldonkey.Queues

structure Fifo (α : Type) where
  empty : Bool
  inpos : Nat
  outpos : Nat
  array : List α
  size : Nat
  deriving DecidableEq, Repr

namespace Fifo

variable {α : Type}

-- i land size, where the int i may be negative.
def landSize (i : Int) (size : Nat) : Nat :=
  match i with
  | .ofNat n => n &&& size
  | .negSucc n => size - (n &&& size)

-- t.array.(i) <- e
def setAt (a : List α) (i : Nat) (e : α) : Option (List α) :=
  if i < a.length then some (a.set i e) else none

-- Array.blit
def blit (src : List α) (ofs : Nat) (dst : List α) (dofs len : Nat) : Option (List α) :=
  if ofs + len ≤ src.length ∧ dofs + len ≤ dst.length then
    some (dst.take dofs ++ ((src.drop ofs).take len ++ dst.drop (dofs + len)))
  else none

-- Array.make n t.array.(0)
def makeLike (a : List α) (n : Nat) : Option (List α) := a[0]?.map (List.replicate n)

-- `magic` is what the fresh cells hold.
def create (magic : α) : Fifo α := ⟨true, 0, 0, List.replicate 4 magic, 3⟩

def realloc (t : Fifo α) : Option (Fifo α) := do
  let len := t.array.length
  let tab ← makeLike t.array (2 * len)
  let start := len - t.inpos
  let tab ← blit t.array t.inpos tab 0 start
  let tab ← blit t.array 0 tab start (len - start)
  return { t with array := tab, outpos := 0, inpos := len, size := t.size * 2 + 1 }

def shrink (t : Fifo α) : Option (Fifo α) :=
  if 3 < t.size then do
    let len := t.array.length
    let tab ← makeLike t.array (len / 2)
    if t.outpos < t.inpos then
      let tab ← blit t.array t.outpos tab 0 (t.inpos - t.outpos)
      return { t with
        inpos := t.inpos - t.outpos, array := tab, outpos := 0, size := (t.size - 1) / 2 }
    else
      let ol := len - t.outpos
      let tab ← blit t.array t.outpos tab 0 ol
      let tab ← blit t.array 0 tab ol t.inpos
      return { t with inpos := ol + t.inpos, array := tab, outpos := 0, size := (t.size - 1) / 2 }
  else some t

-- The first line of put and of put_back_ele.
def grown (t : Fifo α) : Option (Fifo α) :=
  if t.inpos = t.outpos ∧ !t.empty then realloc t else some t

def put (t : Fifo α) (e : α) : Option (Fifo α) := do
  let t ← grown t
  let a ← setAt t.array t.inpos e
  return { t with array := a, inpos := landSize (t.inpos + 1 : Nat) t.size, empty := false }

def clear (t : Fifo α) : Option (Fifo α) := do
  let tab ← makeLike t.array 4
  return ⟨true, 0, 0, tab, 3⟩

def length (t : Fifo α) : Nat :=
  if t.empty then 0
  else if t.outpos < t.inpos then t.inpos - t.outpos
  else t.array.length + t.inpos - t.outpos

-- The element at outpos.
def takeOut (t : Fifo α) : Option (Fifo α × α) := do
  let e ← t.array[t.outpos]?
  let t := { t with outpos := landSize (t.outpos + 1 : Nat) t.size }
  if t.outpos = t.inpos then return (← clear t, e) else return (t, e)

-- For a queue that is not empty; take raises Empty on the others.
def taken (t : Fifo α) : Option (Fifo α × α) := do
  let t ← (if t.length < (t.size + 1) / 4 then shrink t else some t)
  takeOut t

def toList (t : Fifo α) : Option (List α) :=
  if t.empty then some []
  else if t.outpos < t.inpos then do
    let len := t.inpos - t.outpos
    let tab ← makeLike t.array len
    blit t.array t.outpos tab 0 len
  else do
    let s := t.array.length
    let len := s + t.inpos - t.outpos
    let tab ← makeLike t.array len
    let tab ← blit t.array t.outpos tab 0 (s - t.outpos)
    blit t.array 0 tab (s - t.outpos) t.inpos

def putBackEle (t : Fifo α) (e : α) : Option (Fifo α) := do
  let t ← grown t
  let outpos := landSize (t.outpos - 1) t.size
  let a ← setAt t.array outpos e
  return { t with outpos := outpos, array := a, empty := false }

def putBack : Fifo α → List α → Option (Fifo α)
  | t, [] => some t
  | t, ele :: tail => do
      let t ← putBack t tail
      putBackEle t ele

def reformat (t : Fifo α) : Option (Fifo α) :=
  if t.empty then some t
  else do
    let s := t.array.length
    let len := s + t.inpos - t.outpos
    let tab ← makeLike t.array s
    let tab ← blit t.array t.outpos tab 0 (s - t.outpos)
    let tab ← blit t.array 0 tab (s - t.outpos) t.inpos
    return { t with array := tab, inpos := len, outpos := 0 }

variable [DecidableEq α]

-- The function iter of remove, from i up to inpos; the first argument is their distance.
def removeIter (e : α) : Nat → Fifo α → Nat → Nat → Option (Fifo α)
  | 0, t, i, j =>
      if j < i then
        let t := { t with inpos := j }
        if t.inpos = t.outpos then clear t else some t
      else some t
  | n + 1, t, i, j => do
      let ee ← t.array[i]?
      if e = ee then removeIter e n t (i + 1) j
      else do
        let a ← (if j < i then setAt t.array j ee else some t.array)
        removeIter e n { t with array := a } (i + 1) (j + 1)

def remove (t : Fifo α) (e : α) : Option (Fifo α) :=
  if t.empty then some t
  else do
    let t ← (if t.inpos ≤ t.outpos then reformat t else some t)
    removeIter e (t.inpos - t.outpos) t t.outpos t.outpos

end Fifo

-- The operations, and what they answer.
inductive FifoOp (α : Type) where
  | put (e : α)
  | take
  | head
  | putBackEle (e : α)
  | putBack (list : List α)
  | remove (e : α)
  | clear
  | length
  | empty
  | toList
  deriving DecidableEq, Repr

inductive FifoAnswer (α : Type) where
  | unit
  | raisesEmpty
  | element (e : α)
  | number (n : Nat)
  | flag (b : Bool)
  | elements (l : List α)
  deriving DecidableEq, Repr

section Steps

variable {α : Type} [DecidableEq α]

-- None stands for an index out of bounds.
def Fifo.step (t : Fifo α) : FifoOp α → Option (Fifo α × FifoAnswer α)
  | .put e => (t.put e).map (·, .unit)
  | .take => if t.empty then some (t, .raisesEmpty) else t.taken.map fun out => (out.1, .element out.2)
  | .head =>
      if t.empty then some (t, .raisesEmpty) else t.array[t.outpos]?.map fun e => (t, .element e)
  | .putBackEle e => (t.putBackEle e).map (·, .unit)
  | .putBack list => (t.putBack list).map (·, .unit)
  | .remove e => (t.remove e).map (·, .unit)
  | .clear => t.clear.map (·, .unit)
  | .length => some (t, .number t.length)
  | .empty => some (t, .flag t.empty)
  | .toList => t.toList.map (t, .elements ·)

-- The queue as a list, where `del` is what remove makes of it.
def listStep (del : List α → α → List α) (l : List α) : FifoOp α → List α × FifoAnswer α
  | .put e => (l ++ [e], .unit)
  | .take =>
      match l with
      | [] => ([], .raisesEmpty)
      | e :: tail => (tail, .element e)
  | .head =>
      match l with
      | [] => ([], .raisesEmpty)
      | e :: tail => (e :: tail, .element e)
  | .putBackEle e => (e :: l, .unit)
  | .putBack list => (list ++ l, .unit)
  | .remove e => (del l e, .unit)
  | .clear => ([], .unit)
  | .length => (l, .number l.length)
  | .empty => (l, .flag l.isEmpty)
  | .toList => (l, .elements l)

end Steps

end Mldonkey.Queues
