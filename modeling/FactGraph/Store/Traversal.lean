import FactGraph.Store

/-!
# Traversal

The nodes that can be reached from a node by following facts from their subjects to their objects,
depth first. The facts that leave a node are followed in their order, so that the nodes come in an
order which depends on the stored facts alone.
-/

namespace FactGraph

/-- A traversal under way. -/
structure Traversal where
  /-- The nodes that were reached, in the order in which they were. -/
  reached : List Node := []
  /-- The nodes that were met, the start among them. -/
  met : List Node
  /-- The nodes whose facts have not been followed yet, the next one first. -/
  pending : List Node
deriving DecidableEq

namespace Traversal

/-- The traversal that begins at a node. -/
def start (n : Node) : Traversal := { met := [n], pending := [n] }

/-- Notes a node that a fact leads to, unless it was met before. -/
def meet (t : Traversal) (n : Node) : Traversal :=
  if t.met.contains n then t
  else { reached := t.reached ++ [n], met := n :: t.met, pending := n :: t.pending }

/-- The facts that leave a node, with any of some predicates; without predicates, all of them. -/
def edges (view : View) (predicates : List Text) (n : Node) : Except StoreError (List Fact) :=
  if predicates.isEmpty then view.find (.leaving n none)
  else do return (← predicates.mapM fun p => view.find (.leaving n (some p))).flatten

/-- Follows the facts of a node. -/
def follow (view : View) (predicates : List Text) (t : Traversal) (n : Node) :
    Except StoreError Traversal := do
  let found ← edges view predicates n
  return ((Fact.sort found).filterMap fun f => f.object.node?).foldl meet t

/-- Follows the facts of pending nodes, up to a number of nodes. -/
def run (view : View) (predicates : List Text) : Nat → Traversal → Except StoreError Traversal
  | 0, t => .ok t
  | count + 1, t =>
    match t.pending with
    | [] => .ok t
    | n :: rest => do
      run view predicates count (← follow view predicates { t with pending := rest } n)

end Traversal

/-- The nodes that are reached from a node by one or more facts with any of some predicates, or with
any predicate if none is given. The start is not among them. Every other node that is met is the
object of a fact, so no more nodes have to be followed than there are facts, and the start. -/
def Store.traverse (s : Store) (start : Node) (predicates : List Text) :
    Except StoreError (List Node) :=
  Traversal.reached <$> Traversal.run s.view predicates (s.view.extent + 1) (.start start)

end FactGraph
