import FactGraph.Search.Bindings

/-!
# Goals

A search works through goals. A goal to be solved is an atom for which a fact has to be found;
behind the conditions of a rule stands a goal that concludes its head from the facts found for them.

A goal carries the keys of the goals above it. The key of an atom is its text with the variables
numbered by their first use, so that atoms which differ only in the names of variables have one key.
-/

namespace FactGraph

/-- What a search has to do. -/
inductive Goal where
  /-- To find a fact that the atom becomes and that satisfies the guard. The goal stands at a depth
  below the one that the search began with, and `above` holds the keys of the goals above it. -/
  | solve (atom : Atom) (guard : Option Guard) (depth : Nat) (above : List Text)
  /-- To conclude the head of a rule from the facts found for its conditions, which satisfies the
  guard. -/
  | conclude (head : Atom) (guard : Option Guard) (rule : Text) (premises : Nat)
deriving DecidableEq

/-! ## Keys -/

/-- The byte that ends a term in a key. -/
def Atom.keySeparator : UInt8 := 0x1F

/-- The key of terms, given the variables that were met before. -/
def Term.keys : List Text → List Term → Text
  | _, [] => []
  | met, .var v :: rest =>
    let met := if met.contains v then met else met ++ [v]
    '?'.toUInt8 :: Text.ofNat (met.idxOf v) ++ Atom.keySeparator :: Term.keys met rest
  | met, t :: rest => t.toText ++ Atom.keySeparator :: Term.keys met rest

/-- The key of an atom. -/
def Atom.key (a : Atom) : Text := Term.keys [] a.terms

/-! ## Renaming -/

/-- A term with a suffix to its variable. -/
def Term.rename (suffix : Text) : Term → Term
  | .var v => .var (v ++ suffix)
  | t => t

/-- An atom with a suffix to its variables. -/
def Atom.rename (suffix : Text) (a : Atom) : Atom := a.map (Term.rename suffix)

/-- A condition with a suffix to its variables. -/
def Condition.rename (suffix : Text) (c : Condition) : Condition where
  atom := c.atom.rename suffix
  guard := c.guard.map fun g => { g with var := g.var ++ suffix }

end FactGraph
