import FactGraph.Proofs.Document
import FactGraph.Proofs.Materialization
import FactGraph.Proofs.Ties
import FactGraph.Store.Exchange

/-!
# What the text of an export depends on

A document has its lines in the order of the facts, so that it should not matter in which order the
facts come. It does matter for twins, which tie although their lines differ: they stay in the order
in which they come (`NTriples.document_swap_ne`). All other lines are where they are in any document
of the same facts (`NTriples.Alike`), and two stores of the same facts export the same text if no
two of the facts are twins (`Store.exportDocument_determined`).
-/

namespace FactGraph

namespace NTriples

variable {f g : Fact} {facts facts' : List Fact}

/-! ## The lines of twins -/

theorem term_zero_ne (negative : Bool) :
    term (.float (.zero negative)) ≠ term (.float (.zero (!negative))) := by
  cases negative <;> decide +kernel

theorem line_ne_of_twins (h : f.Twins g) : line f ≠ line g := by
  obtain ⟨x, y, hx, hy, negative, rfl, rfl⟩ := h.object
  simpa [line, h.subject, h.predicate, hx, hy] using term_zero_ne negative

/-! ## Documents of the same facts -/

/-- Whether two documents have the same lines one by one, but for lines of twins. -/
def Alike (t t' : Text) : Prop :=
  List.Forall₂ (fun l l' => l = l' ∨ ∃ f g : Fact, f.Twins g ∧ l = line f ∧ l' = line g)
    (Text.lines t) (Text.lines t')

theorem lines_document (facts : List Fact) :
    Text.lines (document facts) = (Fact.sort facts).map line := lines_flatMap _

/-- The order in which facts come matters for lines of twins only. -/
theorem alike_document (h : facts'.Perm facts) : Alike (document facts') (document facts) := by
  rw [Alike, lines_document, lines_document, List.forall₂_map_left_iff, List.forall₂_map_right_iff]
  refine (Fact.forall₂_sort h).imp fun f g hfg => ?_
  rcases hfg with rfl | htwins
  · exact .inl rfl
  · exact .inr ⟨f, g, htwins, rfl, rfl⟩

/-- Of facts without twins there is one document only. -/
theorem document_congr (h : facts'.Perm facts) (hno : ∀ f ∈ facts, ∀ g ∈ facts, ¬ f.Twins g) :
    document facts' = document facts := by
  rw [document, document, Fact.sort_congr h hno]

/-- Twins that come in the opposite order are written in the opposite order. -/
theorem document_swap_ne (h : f.Twins g) (rest : List Fact) :
    document (f :: g :: rest) ≠ document (g :: f :: rest) := by
  intro heq
  have hlines := congrArg Text.lines heq
  obtain ⟨l₁, l₂, hfg, hgf⟩ := Fact.sort_swap (Fact.compare_eq_eq_iff.2 (.inr h)) rest
  rw [lines_document, lines_document, hfg, hgf, List.map_append, List.map_append] at hlines
  have hcons := List.append_cancel_left hlines
  exact line_ne_of_twins h (List.cons.inj hcons).1

/-- All orders of some facts give one document if and only if no two of the facts are twins. -/
theorem forall_perm_document_iff :
    (∀ facts', facts'.Perm facts → document facts' = document facts) ↔
      ∀ f ∈ facts, ∀ g ∈ facts, ¬ f.Twins g := by
  constructor
  · intro h f hf g hg htwins
    have hne : g ≠ f := fun heq => line_ne_of_twins htwins (congrArg line heq.symm)
    have hperm : facts.Perm (f :: g :: (facts.erase f).erase g) :=
      (List.perm_cons_erase hf).trans
        ((List.perm_cons_erase ((List.mem_erase_of_ne hne).2 hg)).cons f)
    have hfirst := h _ hperm.symm
    have hsecond := h _ ((List.Perm.swap f g _).trans hperm.symm)
    exact document_swap_ne htwins _ (hfirst.trans hsecond.symm)
  · exact fun hno facts' h => document_congr h hno

end NTriples

/-! ## Stores of the same facts -/

namespace Store

variable {s s' : Store}

theorem fact?_any : Query.any.fact? = none := rfl

/-- What a store holds is found by the query for anything. -/
theorem mem_find_any (hs : s.Coherent) {facts : List Fact} (h : s.find .any = .ok facts)
    (f : Fact) : f ∈ facts ↔ f ∈ s.content := by
  rw [hs.mem_find_iff (fun g hg => by cases fact?_any.symm.trans hg) h]
  simp [Query.accepts_of_isAny (show Query.any.isAny = true from rfl)]

theorem exportDocument_of_find {facts : List Fact} (h : s.find .any = .ok facts) :
    s.exportDocument = .ok (facts.length, NTriples.document facts) := by
  rw [exportDocument, h]
  rfl

/-- Two stores of the same facts export documents that are the same but for lines of twins. -/
theorem exists_exportDocument (hs : s.Coherent) (hs' : s'.Coherent) (ho : s.storage.isOpen = true)
    (ho' : s'.storage.isOpen = true) (hcontent : s'.content = s.content) :
    ∃ n text text', s.exportDocument = .ok (n, text) ∧ s'.exportDocument = .ok (n, text') ∧
      NTriples.Alike text' text ∧
      ((∀ f ∈ s.content, ∀ g ∈ s.content, ¬ f.Twins g) → text' = text) := by
  have hany : (Request.find .any).WithinLimit := by simp [Request.WithinLimit, Query.any]
  obtain ⟨facts, hfacts⟩ := exists_find hs.addressed ho hany
  obtain ⟨facts', hfacts'⟩ := exists_find hs'.addressed ho' hany
  have hperm : facts'.Perm facts := hs'.perm_find hs hcontent
    (fun g hg => by cases fact?_any.symm.trans hg) hfacts' hfacts
  have hexport' := exportDocument_of_find hfacts'
  rw [hperm.length_eq] at hexport'
  refine ⟨_, _, _, exportDocument_of_find hfacts, hexport', NTriples.alike_document hperm, ?_⟩
  intro hno
  refine NTriples.document_congr hperm fun f hf g hg => hno f ?_ g ?_
  · exact (mem_find_any hs hfacts f).1 hf
  · exact (mem_find_any hs hfacts g).1 hg

/-- The text of a document is that of the set of its facts if and only if no two of them are twins.
If there are twins, the number of facts and all lines but those of twins are the same in every order
of the facts, and so they are in the exports of all stores of these facts. -/
theorem exportDocument_determined (facts : List Fact) :
    ((∀ facts', facts'.Perm facts → NTriples.document facts' = NTriples.document facts) ↔
      ∀ f ∈ facts, ∀ g ∈ facts, ¬ f.Twins g) ∧
    (∀ facts', facts'.Perm facts → facts'.length = facts.length ∧
      NTriples.Alike (NTriples.document facts') (NTriples.document facts)) ∧
    ∀ s s' : Store, s.Coherent → s'.Coherent → s.storage.isOpen = true →
      s'.storage.isOpen = true → s.content = {f | f ∈ facts} → s'.content = {f | f ∈ facts} →
      ∃ n text text', s.exportDocument = .ok (n, text) ∧ s'.exportDocument = .ok (n, text') ∧
        NTriples.Alike text' text ∧
        ((∀ f ∈ facts, ∀ g ∈ facts, ¬ f.Twins g) → text' = text) := by
  refine ⟨NTriples.forall_perm_document_iff,
    fun facts' h => ⟨h.length_eq, NTriples.alike_document h⟩,
    fun s s' hs hs' ho ho' hcontent hcontent' => ?_⟩
  obtain ⟨n, text, text', htext, htext', halike, hsame⟩ :=
    exists_exportDocument hs hs' ho ho' (hcontent'.trans hcontent.symm)
  rw [hcontent] at hsame
  exact ⟨n, text, text', htext, htext', halike, hsame⟩

/-- Two stores of different kinds to which two facts came in opposite orders export one text. If the
facts are twins, two stores of one kind do not. -/
theorem exportDocument_determined_zeros :
    let f : Fact := ⟨.named "a", "p", .float (.zero false)⟩
    let g : Fact := ⟨.named "a", "p", .float (.zero true)⟩
    let h : Fact := ⟨.named "a", "q", .named "b"⟩
    let inMemory (facts : List Fact) : Store := (insertAll { storage := .memory {} } facts).1
    let inTable (facts : List Fact) : Store :=
      (insertAll { storage := .table { path := "facts.db" } } facts).1
    (∃ n text, (inMemory [f, h]).exportDocument = .ok (n, text) ∧
        (inTable [h, f]).exportDocument = .ok (n, text)) ∧
      (inMemory [f, g]).exportDocument ≠ (inMemory [g, f]).exportDocument ∧
      (∃ facts, facts.Perm [f, g] ∧ NTriples.document facts ≠ NTriples.document [f, g]) ∧
      NTriples.Alike (NTriples.document [g, f]) (NTriples.document [f, g]) := by
  intro f g h inMemory inTable
  have htwins : f.Twins g := ⟨rfl, rfl, _, _, rfl, rfl, false, rfl, rfl⟩
  have hfacts : ∀ x ∈ [f, h], Storable x := by decide +kernel
  have hnodup : ([f, h].map Fact.digest).Nodup := by decide +kernel
  have inj : Set.InjOn Fact.digest {x | x ∈ [f, h]} := fun x hx y hy =>
    List.inj_on_of_nodup_map hnodup hx hy
  have hswap : ∀ x, x ∈ [h, f] ↔ x ∈ [f, h] := fun x => (List.Perm.swap f h []).mem_iff
  have hs : (inMemory [f, h]).Represents [f, h].toFinset := represents_insertAll hfacts inj
  have hs' : (inTable [h, f]).Represents [h, f].toFinset :=
    represents_insertAll_over ⟨rfl, rfl, rfl⟩ rfl (fun x hx => hfacts x ((hswap x).1 hx))
      (inj.mono fun x hx => (hswap x).1 hx)
  have hcontent : (inMemory [f, h]).content = {x | x ∈ [f, h]} := by
    rw [hs.content_eq, List.coe_toFinset]
  have hcontent' : (inTable [h, f]).content = {x | x ∈ [f, h]} := by
    rw [hs'.content_eq, List.coe_toFinset]
    exact Set.ext hswap
  have hno : ∀ x ∈ [f, h], ∀ y ∈ [f, h], ¬ x.Twins y := by
    have hpredicate : ∀ x ∈ [f, h], ∀ y ∈ [f, h], x.predicate = y.predicate → x = y := by decide
    intro x hx y hy htwins
    obtain rfl := hpredicate x hx y hy htwins.predicate
    exact NTriples.line_ne_of_twins htwins rfl
  obtain ⟨n, text, text', htext, htext', -, hsame⟩ :=
    (exportDocument_determined [f, h]).2.2 _ _ hs.coherent hs'.coherent hs.writable.isOpen
      hs'.writable.isOpen hcontent hcontent'
  obtain ⟨hiff, halike, -⟩ := exportDocument_determined [f, g]
  have hfind : (inMemory [f, g]).find .any = .ok [g, f] := by decide +kernel
  have hfind' : (inMemory [g, f]).find .any = .ok [f, g] := by decide +kernel
  refine ⟨⟨n, text, htext, hsame hno ▸ htext'⟩, ?_, ?_, (halike _ (.swap f g [])).2⟩
  · rw [exportDocument_of_find hfind, exportDocument_of_find hfind']
    intro heq
    exact NTriples.document_swap_ne htwins [] (congrArg Prod.snd (Except.ok.inj heq)).symm
  · have hnot := mt hiff.1 fun hno => hno f (by simp) g (by simp) htwins
    simpa using hnot

end Store
end FactGraph
