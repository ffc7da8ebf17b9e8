import Mathlib
import FactGraph.NTriples.Reader
import FactGraph.Proofs.Store

/-!
# The facts of documents

Names in documents are not empty, labels are not taken for names, and literals are no nodes. So the
facts that are read from a document can be stored if their texts are within the limit
(`NTriples.storable_of_parse`).
-/

namespace FactGraph

namespace NTriples

variable {p p' : Place} {r : Reference} {o : Object} {s : Statement} {name : Text} {v : Value}

theorem ofLabel_ne (label : Text) : Place.ofLabel label ≠ .node (.named []) := by
  cases label with
  | nil => exact Reference.noConfusion
  | cons c digits =>
    rw [Place.ofLabel]
    split
    · next n h =>
      split at h
      · obtain ⟨bytes, -, h⟩ := Option.bind_eq_some_iff.1 h
        split at h <;> cases h
        simp
      · cases h
    · exact Reference.noConfusion

theorem ne_nil_of_iri (h : p.iri = .ok (name, p')) : name ≠ [] := by
  obtain ⟨q, -, h⟩ := bind_eq_ok.1 h
  split at h
  · cases h
  · obtain ⟨⟨read, q'⟩, -, h⟩ := bind_eq_ok.1 h
    dsimp only at h
    split at h
    · cases h
    · next hne =>
      cases h
      simpa using hne

theorem ne_of_blank (h : p.blank = .ok (r, p')) : r ≠ .node (.named []) := by
  obtain ⟨q, -, h⟩ := bind_eq_ok.1 h
  obtain ⟨q', -, h⟩ := bind_eq_ok.1 h
  dsimp only at h
  split at h
  · cases h
  · cases h
    exact ofLabel_ne _

theorem ne_of_subject (h : p.subject = .ok (r, p')) : r ≠ .node (.named []) := by
  rw [Place.subject] at h
  split at h
  · cases h
  · split at h
    · obtain ⟨⟨name, q⟩, hiri, h⟩ := bind_eq_ok.1 h
      cases h
      simpa using ne_nil_of_iri hiri
    · split at h
      · exact ne_of_blank h
      · cases h

/-- A literal is no node. -/
theorem node?_of_typedLiteral {literal type : Text} (h : typedLiteral literal type = .ok v) :
    v.node? = none := by
  have hinteger : ∀ v, integerLiteral literal = .ok v → v.node? = none := by
    intro v h
    rw [integerLiteral] at h
    split at h
    · cases h
    · split_ifs at h
      cases h
      rfl
  have hdouble : ∀ v, doubleLiteral literal = .ok v → v.node? = none := by
    intro v h
    rw [doubleLiteral] at h
    split_ifs at h <;> try (cases h; rfl)
    split at h
    · cases h
    · split_ifs at h
      cases h
      rfl
  have hboolean : ∀ v, booleanLiteral literal = .ok v → v.node? = none := by
    intro v h
    rw [booleanLiteral] at h
    split_ifs at h <;> cases h <;> rfl
  rw [typedLiteral] at h
  split_ifs at h
  · exact hinteger v h
  · exact hdouble v h
  · exact hboolean v h
  · cases h
    rfl

theorem node?_of_literalEnd {literal : Text} (h : p.literalEnd literal = .ok (v, p')) :
    v.node? = none := by
  rw [Place.literalEnd] at h
  split at h
  · cases h
    rfl
  · split_ifs at h
    · cases h
      rfl
    · obtain ⟨q₁, -, h⟩ := bind_eq_ok.1 h
      obtain ⟨q₂, -, h⟩ := bind_eq_ok.1 h
      obtain ⟨⟨type, q₃⟩, -, h⟩ := bind_eq_ok.1 h
      dsimp only at h
      split at h
      · next hliteral =>
        cases h
        exact node?_of_typedLiteral hliteral
      · cases h
    · cases h
      rfl

/-- Whatever nodes the labels stand for, the object of a statement is not the node of the empty
name. -/
theorem ne_of_object (h : p.object = .ok (o, p')) :
    match o with
    | .reference r => r ≠ .node (.named [])
    | .literal v => v.node? = none := by
  rw [Place.object] at h
  split at h
  · cases h
  · split_ifs at h
    · obtain ⟨⟨name, q⟩, hiri, h⟩ := bind_eq_ok.1 h
      cases h
      simpa using ne_nil_of_iri hiri
    · obtain ⟨⟨r, q⟩, hblank, h⟩ := bind_eq_ok.1 h
      cases h
      exact ne_of_blank hblank
    · obtain ⟨⟨literal, q⟩, -, h⟩ := bind_eq_ok.1 h
      obtain ⟨⟨v, q'⟩, hend, h⟩ := bind_eq_ok.1 h
      cases h
      exact node?_of_literalEnd hend
    · cases h

variable {labelled : Text → Node}

theorem Reference.toNode_ne (hlabelled : ∀ l, labelled l ≠ .named [])
    (h : r ≠ .node (.named [])) : r.toNode labelled ≠ .named [] := by
  cases r with
  | node n => simpa [Reference.toNode] using h
  | label l => exact hlabelled l

/-- A statement states a fact that can be stored, if its texts are within the limit. -/
theorem storable_of_statement (hlabelled : ∀ l, labelled l ≠ .named [])
    (h : p.statement = .ok s) (hlimit : (s.toFact labelled).WithinLimit) :
    Store.Storable (s.toFact labelled) := by
  obtain ⟨⟨subject, p₁⟩, hsubject, h⟩ := bind_eq_ok.1 h
  obtain ⟨⟨predicate, p₂⟩, hpredicate, h⟩ := bind_eq_ok.1 h
  obtain ⟨⟨object, p₃⟩, hobject, h⟩ := bind_eq_ok.1 h
  obtain ⟨p₄, -, h⟩ := bind_eq_ok.1 h
  dsimp only at h
  split at h
  · cases h
    refine ⟨hlimit, ne_nil_of_iri hpredicate, ?_, ?_⟩
    · exact Reference.toNode_ne hlabelled (ne_of_subject hsubject)
    · have hnamed := ne_of_object hobject
      cases object with
      | reference r => simpa [Statement.toFact] using Reference.toNode_ne hlabelled hnamed
      | literal v =>
        rintro rfl
        cases hnamed
  · cases h

theorem exists_statement_of_readLines {number : Nat} {lines : List Text} {read : List Statement}
    (h : readLines number lines = .ok read) : ∀ s ∈ read, ∃ p : Place, p.statement = .ok s := by
  induction lines generalizing number read with
  | nil =>
    cases h
    simp
  | cons line lines ih =>
    rw [readLines] at h
    split at h
    · cases h
    · exact ih h
    · next first hline =>
      obtain ⟨rest, hrest, rfl⟩ := map_eq_ok.1 h
      have hfirst : ∃ p : Place, p.statement = .ok first := by
        rw [readLine] at hline
        split at hline
        · cases hline
        · obtain ⟨s, hs, hsome⟩ := map_eq_ok.1 hline
          exact ⟨_, Option.some.inj hsome ▸ hs⟩
      exact List.forall_mem_cons.2 ⟨hfirst, ih hrest⟩

/-- The facts of a document can be stored, if their texts are within the limit. -/
theorem storable_of_parse (hlabelled : ∀ l, labelled l ≠ .named []) {document : Text}
    {facts : List Fact} (h : parse labelled document = .ok facts) {f : Fact} (hf : f ∈ facts)
    (hlimit : f.WithinLimit) : Store.Storable f := by
  obtain ⟨read, hread, h⟩ := bind_eq_ok.1 h
  cases h
  obtain ⟨s, hs, rfl⟩ := List.mem_map.1 hf
  obtain ⟨p, hp⟩ := exists_statement_of_readLines hread s hs
  exact storable_of_statement hlabelled hp hlimit

end NTriples

end FactGraph
