import SelfLambda.RadixArray

/-! Persistent partitions of handles into classes. Handles are given out in sequence from zero, each as a class of its
own; classes merge by rank, and each keeps the descriptor of its representative. Nothing is compressed on the way to a
representative, so looking one up changes nothing. -/

namespace SelfLambda

namespace Partition

/-- A handle is the representative of its class, or hangs under another handle. -/
inductive Entry (α : Type) where
  | root (rank : Nat) (descriptor : α)
  | link (parent : Nat)
  deriving DecidableEq, Repr

structure Class (α : Type) where
  handle : Nat
  rank : Nat
  descriptor : α
  deriving DecidableEq, Repr

inductive Failure where
  | access (cause : RadixArray.AccessError)
  | unrooted
  deriving DecidableEq, Repr

def Failure.message : Failure → String
  | access cause => cause.message
  | unrooted => "links lead to no representative"

end Partition

structure Partition (α : Type) where
  entries : RadixArray (Partition.Entry α) 4 := {}

namespace Partition

variable {α : Type}

def size (p : Partition α) : Nat := p.entries.size

def fresh (p : Partition α) (descriptor : α) : Partition α × Nat :=
  (⟨p.entries.push (.root 0 descriptor)⟩, p.size)

def entry (p : Partition α) (handle : Nat) : Except Failure (Entry α) := (p.entries.get handle).mapError .access

def replace (p : Partition α) (handle : Nat) (entry : Entry α) : Except Failure (Partition α) :=
  ((p.entries.set handle entry).mapError .access).map .mk

def climb (p : Partition α) : Nat → Nat → Except Failure (Class α)
  | 0, _ => .error .unrooted
  | steps + 1, handle =>
    match p.entry handle with
    | .error failure => .error failure
    | .ok (.root rank descriptor) => .ok ⟨handle, rank, descriptor⟩
    | .ok (.link parent) => p.climb steps parent

/-- The class of a handle. No way up passes a handle twice, so it has at most as many entries as there are handles. -/
def find (p : Partition α) (handle : Nat) : Except Failure (Class α) := p.climb (p.size + 1) handle

/-- Merges two classes: the representative of lower rank goes under the other. Of equal ranks the first goes under the
second, whose rank grows by one. -/
def merge (p : Partition α) (first second : Nat) : Except Failure (Partition α) := do
  let a ← p.find first
  let b ← p.find second
  if a.handle = b.handle then return p
  else if a.rank < b.rank then p.replace a.handle (.link b.handle)
  else if b.rank < a.rank then p.replace b.handle (.link a.handle)
  else
    let linked ← p.replace a.handle (.link b.handle)
    linked.replace b.handle (.root (b.rank + 1) b.descriptor)

def mergeAll (p : Partition α) (pairs : List (Nat × Nat)) : Except Failure (Partition α) :=
  pairs.foldlM (fun p pair => p.merge pair.1 pair.2) p

def descriptor (p : Partition α) (handle : Nat) : Except Failure α := do return (← p.find handle).descriptor

def equivalent (p : Partition α) (first second : Nat) : Except Failure Bool := do
  return (← p.find first).handle == (← p.find second).handle

def classes (p : Partition α) : Except Failure (List (Class α)) := (List.range p.size).mapM p.find

end Partition

end SelfLambda
