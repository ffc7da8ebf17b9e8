/-!
# Counters

How much work reasoning over a store has done so far.
-/

namespace FactGraph

/-- Numbers about the reasoning over a store. -/
structure Counters where
  /-- How often forward chaining was begun. -/
  forwardRuns : Nat := 0
  /-- How many sweeps were begun. -/
  sweeps : Nat := 0
  /-- How many matches were acted on. -/
  firings : Nat := 0
  /-- How many facts the runs that came to an end derived. -/
  derived : Nat := 0
  /-- How often a proof was searched for. -/
  searches : Nat := 0
  /-- How many goals were expanded in searches. -/
  expansions : Nat := 0
deriving DecidableEq

end FactGraph
