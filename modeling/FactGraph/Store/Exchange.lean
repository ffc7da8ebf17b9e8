import FactGraph.NTriples.Reader
import FactGraph.NTriples.Writer
import FactGraph.Store

/-!
# Exchange of documents

A store is written as a document of all its facts and takes in the facts of documents. A document is
read to its end before its first fact is stored. Its blank node labels get nodes of their own, which
are drawn from a seed: different seeds and different labels give different nodes, short of a
collision of digests.
-/

namespace FactGraph

/-- The blank node that a label stands for in a document with a seed. -/
def Node.ofLabel (seed label : Text) : Node :=
  let bytes := (sha256 (Encoding.fieldBytes seed ++ label)).bytes
  .blank (UInt64.ofNat (Word.ofBigEndian (bytes.take 8)))
    (UInt64.ofNat (Word.ofBigEndian ((bytes.drop 8).take 8)))

namespace Store

/-- The document of all facts, and how many there are. -/
def exportDocument (s : Store) : Except StoreError (Nat × Text) := do
  let facts ← s.find .any
  return (facts.length, NTriples.document facts)

/-- Stores the facts of a document, and tells how many were new. -/
def importDocument (s : Store) (seed document : Text) : Store × Except StoreError Nat :=
  match NTriples.parse (Node.ofLabel seed) document with
  | .error e => (s, .error e)
  | .ok facts =>
    let (s, noted) := s.insertAll facts
    (s, noted.map fun ids => ids.countP Prod.snd)

end Store
end FactGraph
