import FactGraph.Store.Exchange
import FactGraph.Proofs.Lines
import FactGraph.Proofs.Refinement

/-!
# Documents are stored as a whole or not at all

A document is read to its end before its first fact is stored. With a malformed line in it, nothing
is stored, whatever the store, and the error tells the number of the first such line. Otherwise the
facts that its lines state are stored, and those that were not stored before are counted once each
(`Store.importDocument_exact`).
-/

namespace FactGraph

open NTriples (Clause Malformed Tells)

namespace Store

variable {s : Store} {S : Finset Fact} {facts : List Fact} {seed document : Text}

/-- Storing the facts of a document adds them to the set, and counts those that are new. -/
theorem Represents.importDocument (h : s.Represents S)
    (hparse : NTriples.parse (Node.ofLabel seed) document = .ok facts)
    (inj : Set.InjOn Fact.digest {f | f ∈ S ∨ f ∈ facts}) (hfacts : ∀ f ∈ facts, Storable f) :
    s.importDocument seed document = ((s.insertAll facts).1, .ok (facts.toFinset \ S).card) ∧
      (s.insertAll facts).1.Represents (S ∪ facts.toFinset) := by
  obtain ⟨s', hinsert, hs'⟩ := h.exists_insertAll inj hfacts
  rw [hinsert]
  refine ⟨?_, hs'⟩
  simp only [Store.importDocument, hparse, hinsert, Except.map, Request.countP_noted]

/-- A document with a malformed line is refused by its reader and by every store, which stays as it
is, and the error tells the number of the first such line. From any other document a store takes all
facts that its lines state, if they can be stored, and tells how many of them it did not have. -/
theorem importDocument_exact (seed document : Text) :
    ((∃ line ∈ document.lines, Malformed line) → ∃ i line column fault,
      document.lines[i]? = some line ∧ Malformed line ∧
      (∀ j < i, ∀ l, document.lines[j]? = some l → ¬ Malformed l) ∧
      (∀ labelled, NTriples.parse labelled document =
        .error (.document (i + 1) column fault)) ∧
      (∀ s : Store, s.importDocument seed document =
        (s, .error (.document (i + 1) column fault))) ∧
      (StoreError.document (i + 1) column fault).kind = .serialization ∧
      ∃ rest, (StoreError.document (i + 1) column fault).message =
        "n-triples line " ++ Text.ofNat (i + 1) ++ ", column " ++ rest) ∧
    ((∀ line ∈ document.lines, ¬ Malformed line) → ∃ clauses,
      Tells document.lines clauses ∧
      (∀ labelled, NTriples.parse labelled document =
        .ok (clauses.map (Clause.fact labelled))) ∧
      ∀ (s : Store) (S : Finset Fact), s.Represents S →
        ∀ facts, facts = clauses.map (Clause.fact (Node.ofLabel seed)) →
        (∀ f ∈ facts, Storable f) → Set.InjOn Fact.digest {f | f ∈ S ∨ f ∈ facts} →
        ∃ s', s.importDocument seed document = (s', .ok (facts.toFinset \ S).card) ∧
          s'.Represents (S ∪ facts.toFinset)) := by
  constructor
  · intro h
    obtain ⟨i, line, hline, hbad, hfirst⟩ := NTriples.exists_first_malformed h
    obtain ⟨column, fault, -, hlines⟩ :=
      NTriples.readLines_of_malformed (n := 1) hline hbad hfirst
    rw [Nat.add_comm] at hlines
    have hparse (labelled : Text → Node) :
        NTriples.parse labelled document = .error (.document (i + 1) column fault) := by
      rw [NTriples.parse, NTriples.read, hlines]
      rfl
    refine ⟨i, line, column, fault, hline, hbad, hfirst, hparse, fun s => ?_, rfl,
      Text.ofNat column ++ ": " ++ fault.message, ?_⟩
    · rw [importDocument, hparse]
    · simp only [StoreError.message, List.append_assoc]
  · intro h
    obtain ⟨clauses, htells⟩ := NTriples.exists_tells.2 h
    refine ⟨clauses, htells, NTriples.parse_of_tells htells, ?_⟩
    rintro s S hs facts rfl hfacts inj
    exact ⟨_, hs.importDocument (NTriples.parse_of_tells htells _) inj hfacts⟩

/-- A literal that is cut off in the second line, and a document that has two facts, of which one is
stored already and the other is stated twice. -/
theorem importDocument_exact_cut :
    let f : Fact := ⟨.named "a", "p", .named "b"⟩
    let g : Fact := ⟨.named "a", "p", .string "c"⟩
    let s : Store := (insertAll { storage := .memory {} } [f]).1
    let cut : Text := "<a> <p> <b> .\n<a> <p> \"c"
    let whole : Text := "# three lines\n<a> <p> <b> .\n<a> <p> \"c\" .\n<a> <p> \"c\" .\n"
    s.Represents {f} ∧
      (∃ column fault, s.importDocument "seed" cut = (s, .error (.document 2 column fault))) ∧
      ∃ s', s.importDocument "seed" whole = (s', .ok 1) ∧ s'.Represents {f, g} := by
  intro f g s cut whole
  have hstorable : ∀ x ∈ [f, g], Storable x := by decide +kernel
  have hs : s.Represents {f} :=
    represents_insertAll_singleton ⟨rfl, rfl, rfl⟩ rfl (hstorable f List.mem_cons_self)
  refine ⟨hs, ?_, ?_⟩
  · have hlines : cut.lines = ["<a> <p> <b> .", "<a> <p> \"c"] := by decide +kernel
    have hfirst : ¬ Malformed "<a> <p> <b> ." := by decide +kernel
    obtain ⟨i, line, column, fault, hline, hbad, -, -, himport, -⟩ :=
      (importDocument_exact "seed" cut).1 (by decide +kernel)
    rw [hlines] at hline
    rcases i with _ | _ | i
    · cases hline
      exact absurd hbad hfirst
    · exact ⟨column, fault, himport s⟩
    · cases hline
  · obtain ⟨clauses, -, hparse, himport⟩ :=
      (importDocument_exact "seed" whole).2 (by decide +kernel)
    have hread : (NTriples.parse (Node.ofLabel "seed") whole).toOption = some [f, g, g] := by
      decide +kernel
    rw [hparse] at hread
    have hnodup : ([f, g].map Fact.digest).Nodup := by decide +kernel
    have inj : Set.InjOn Fact.digest {x | x ∈ ({f} : Finset Fact) ∨ x ∈ [f, g, g]} := by
      intro x hx y hy
      exact List.inj_on_of_nodup_map hnodup (by simpa using hx) (by simpa using hy)
    obtain ⟨s', hs', hrepresents⟩ := himport s {f} hs [f, g, g] (Option.some.inj hread).symm
      (fun x hx => hstorable x (by simpa using hx)) inj
    have hset : ({f} : Finset Fact) ∪ [f, g, g].toFinset = {f, g} := by decide +kernel
    have hcount : ([f, g, g].toFinset \ {f}).card = 1 := by decide +kernel
    rw [hset] at hrepresents
    rw [hcount] at hs'
    exact ⟨s', hs', hrepresents⟩

end Store

end FactGraph
