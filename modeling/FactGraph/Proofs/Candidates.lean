import FactGraph.Proofs.Foresight
import FactGraph.Proofs.Progress
import FactGraph.Proofs.Recursion

/-!
# Candidates are checked as if they were stored

An overlay finds every stored fact and every candidate that a query accepts, once
(`Store.find_overlay`). What validation has against candidates therefore depends on the set of
stored facts and candidates only: it is the same whether the candidates are stored already or not,
in whatever order they come and however often (`Store.validate_as_stored`).

A store refuses a query with a field over the limit only if it gets to look for the field, and it
stops before if nothing fits the fields in front of it. So the constants of the rules have to be
within the limit where a validation over a store and one over the store with the candidates in it
are to succeed together.
-/

namespace FactGraph

/-- Whether two reports have the same findings, and the same verdict. -/
def Report.Agrees (r r' : Report) : Prop :=
  Same r.findings r'.findings ∧ r.isValid = r'.isValid

theorem Report.agrees_addAll {found found' : List Finding} (h : Same found found') :
    Agrees (addAll {} found) (addAll {} found') := by
  have hsame : Same (addAll {} found).findings (addAll {} found').findings := by
    rw [same_iff] at h ⊢
    intro x
    rw [mem_addAll, mem_addAll, h]
  refine ⟨hsame, ?_⟩
  rw [same_iff] at hsame
  rw [Bool.eq_iff_iff, isValid_iff, isValid_iff]
  simp only [hsame]

/-- The values in given facts and in the rules that check candidates. -/
def Rulebook.mentioned (rules : Rulebook) (A : Set Fact) : Set Value :=
  {x | (∃ f ∈ A, x ∈ f.values) ∨ ∃ r ∈ rules.checking, x ∈ r.mentioned}

/-- These values, and the names of the predicates that exclude each other. -/
def Schema.mentioned (schema : Schema) (rules : Rulebook) (A : Set Fact) : Set Value :=
  rules.mentioned A ∪ {x | ∃ pair ∈ schema.exclusive, x = .named pair.1 ∨ x = .named pair.2}

theorem Rulebook.subset_factsOver {rules : Rulebook} {A : Set Fact} :
    A ⊆ factsOver (rules.mentioned A) :=
  fun f hf _ hx => Or.inl ⟨f, hf, hx⟩

/-- A fact with an excluded predicate has values that are mentioned. -/
theorem Schema.mem_factsOver_of_excluded? {schema : Schema} {rules : Rulebook} {A : Set Fact}
    {f : Fact} (hf : f ∈ A) {pair : Text × Text} (hpair : pair ∈ schema.exclusive) {p : Text}
    (hp : excluded? f.predicate pair = some p) :
    ({ f with predicate := p } : Fact) ∈ factsOver (schema.mentioned rules A) := by
  have hvalue {x : Value} (hx : x ∈ f.values) : x ∈ schema.mentioned rules A :=
    Or.inl (Or.inl ⟨f, hf, hx⟩)
  rw [Fact.mem_factsOver]
  refine ⟨hvalue (by simp [Fact.values]), Or.inr ⟨pair, hpair, ?_⟩, hvalue (by simp [Fact.values])⟩
  rcases excluded?_eq_some hp with ⟨-, rfl⟩ | ⟨-, rfl⟩
  · exact Or.inr rfl
  · exact Or.inl rfl

namespace Store

variable {s s' : Store} {schema : Schema} {rules : Rulebook} {batch batch' extra extra' : List Fact}
  {f : Fact} {q : Query} {P : Prop} {V : Set Value}

/-! ## What an overlay finds -/

theorem nodup_foldl_append {facts : List Fact} (h : facts.Nodup) :
    (extra.foldl Overlay.append facts).Nodup := by
  induction extra generalizing facts with
  | nil => exact h
  | cons f extra ih =>
    refine ih ?_
    rw [Overlay.append]
    split
    · exact h
    · next hf =>
      have hnot : f ∉ facts := by simpa using hf
      rw [List.nodup_append]
      refine ⟨h, List.nodup_singleton f, ?_⟩
      rintro a ha b hb rfl
      exact hnot (List.mem_singleton.1 hb ▸ ha)

/-- An overlay finds every stored fact and every fact on top that a query accepts, once. -/
theorem find_overlay (hs : s.Coherent)
    (hasked : ∀ f, q.fact? = some f → ∀ g ∈ s.content, g.digest = f.digest → g = f) {l : List Fact}
    (h : (s.overlay extra).find q = .ok l) :
    l.Nodup ∧ ∀ f, f ∈ l ↔ f ∈ s.contentWith extra ∧ q.accepts f = true := by
  obtain ⟨stored, hstored, rfl⟩ := find_overlay_eq_ok.1 h
  refine ⟨nodup_foldl_append (hs.nodup_find hstored), fun f => ?_⟩
  constructor
  · intro hf
    rw [Overlay.mem_foldl_append, List.mem_filter] at hf
    rcases hf with hf | ⟨hf, haccepts⟩
    · obtain ⟨hmem, haccepts⟩ := of_mem_find hs.addressed hasked hstored hf
      exact ⟨Or.inl hmem, haccepts⟩
    · exact ⟨Or.inr hf, haccepts⟩
  · rintro ⟨hf, haccepts⟩
    exact (hs.exhaustive_overlay extra).mem_find q _ h f hf haccepts

/-- Whether a query is answered does not depend on what is on top. -/
theorem exists_find_overlay_iff :
    (∃ l, (s.overlay extra).find q = .ok l) ↔ ∃ l, s.find q = .ok l := by
  constructor
  · rintro ⟨l, hl⟩
    obtain ⟨stored, hstored, -⟩ := find_overlay_eq_ok.1 hl
    exact ⟨stored, hstored⟩
  · rintro ⟨stored, hstored⟩
    exact ⟨_, find_overlay_eq_ok.2 ⟨stored, hstored, rfl⟩⟩

theorem Coherent.answers_overlay (hs : s.Coherent) (ho : s.storage.isOpen = true)
    (hV : ∀ x ∈ V, x.WithinLimit) (extra : List Fact) : (s.overlay extra).Answers V :=
  fun q hq => exists_find_overlay_iff.2 (answers_view hs.addressed ho hV q hq)

/-! ## Overlays of the same facts -/

theorem Coherent.shows_overlay_over (hs : s.Coherent) (inj : Set.InjOn Fact.digest (factsOver V))
    (hV : s.contentWith extra ⊆ factsOver V) :
    (s.overlay extra).Shows (s.contentWith extra) (factsOver V) where
  toFaithful :=
    faithful_overlay hs.addressed inj (content_subset_contentWith.trans hV) extra
  toExhaustive := hs.exhaustive_overlay extra

/-- Whether a fact is contained depends on the set of facts only, if digests tell it apart. -/
theorem concur_contains (hs : s.Coherent) (hs' : s'.Coherent) (ho : s.storage.isOpen = true)
    (ho' : s'.storage.isOpen = true) (hcontent : s.contentWith extra = s'.contentWith extra')
    (inj : ∀ g ∈ s.contentWith extra, g.digest = f.digest → g = f) :
    Concur P Eq ((s.overlay extra).contains f) ((s'.overlay extra').contains f) where
  related := by
    intro b b' hb hb'
    obtain ⟨-, hmem, hof⟩ := of_contains_overlay hs hb
    obtain ⟨-, hmem', hof'⟩ := of_contains_overlay hs' hb'
    rw [← hcontent] at hmem' hof'
    have hiff : b = true ↔ f ∈ s.contentWith extra :=
      ⟨hof fun g hg => inj g (content_subset_contentWith hg), hmem⟩
    have hiff' : b' = true ↔ f ∈ s.contentWith extra :=
      ⟨hof' fun g hg => inj g (hcontent ▸ content_subset_contentWith hg), hmem'⟩
    rw [Bool.eq_iff_iff, hiff, hiff']
  together := by
    intro _
    constructor
    · rintro ⟨b, hb⟩
      exact exists_contains_overlay ho' (of_contains_overlay hs hb).1 extra'
    · rintro ⟨b, hb⟩
      exact exists_contains_overlay ho (of_contains_overlay hs' hb).1 extra

/-- Validation of the same candidates over the same facts finds the same, whichever of the facts are
stored, if queries are answered in the same cases. -/
theorem concur_validate (hs : s.Coherent) (hs' : s'.Coherent) (ho : s.storage.isOpen = true)
    (ho' : s'.storage.isOpen = true) (hcontent : s.contentWith batch = s'.contentWith batch')
    (hsame : Same batch batch') (hbatch : ∀ f ∈ batch, f.WithinLimit)
    (inj : Set.InjOn Fact.digest (factsOver (schema.mentioned rules (s.contentWith batch))))
    (together : P → ∀ q,
      (∀ x ∈ (Atom.ofQuery q).constants, x ∈ rules.mentioned (s.contentWith batch)) →
      ((∃ l, (s.overlay batch).find q = .ok l) ↔ ∃ l, (s'.overlay batch').find q = .ok l)) :
    Concur P Report.Agrees (s.validate schema rules batch) (s'.validate schema rules batch') := by
  have hover : s.contentWith batch ⊆ factsOver (rules.mentioned (s.contentWith batch)) :=
    Rulebook.subset_factsOver
  have hmentioned : factsOver (rules.mentioned (s.contentWith batch)) ⊆
      factsOver (schema.mentioned rules (s.contentWith batch)) :=
    factsOver_mono Set.subset_union_left
  have inj' := inj.mono hmentioned
  have hviews : (s.overlay batch).Concurs P (s.contentWith batch)
      (rules.mentioned (s.contentWith batch)) (s'.overlay batch') := by
    refine ⟨hs.shows_overlay_over inj' hover, ?_, hover, together⟩
    rw [hcontent] at inj' hover ⊢
    exact hs'.shows_overlay_over inj' hover
  have hbounds := hs.bounds_overlay ho batch
  have hbounds' := hs'.bounds_overlay ho' batch'
  rw [← hcontent] at hbounds'
  have hbatch' : ∀ f ∈ batch', f.WithinLimit := fun f hf => hbatch f ((same_iff.1 hsame f).2 hf)
  refine (Concur.mapM hsame fun f hf => ?_).bind
    fun _ _ _ _ hfound => .ok (Report.agrees_addAll hfound.flatten)
  have hmem : f ∈ s.contentWith batch := Or.inr hf
  refine Schema.concur_findings hviews hbounds hbounds' (fun r hr x hx => Or.inr ⟨r, hr, hx⟩)
    (hover hmem) (fun pair hpair p hp => ?_)
    (exists_checkTemporal hs ho schema hbatch (hbatch f hf))
    (exists_checkTemporal hs' ho' schema hbatch' (hbatch f hf))
  exact concur_contains hs hs' ho ho' hcontent fun g hg heq =>
    inj (hmentioned (hover hg)) (Schema.mem_factsOver_of_excluded? hmem hpair hp) heq

/-! ## Storing candidates -/

/-- Storable candidates can all be stored, and are stored afterwards. -/
theorem exists_insertAll (hs : s.Coherent) (hw : s.storage.Writable)
    (hbatch : ∀ f ∈ batch, Storable f) (inj : Set.InjOn Fact.digest (s.contentWith batch)) :
    ∃ s' noted, s.insertAll batch = (s', .ok noted) ∧ s'.Coherent ∧ s'.storage.Writable ∧
      s'.content = s.contentWith batch := by
  let S : Finset Fact := s.storage.finite_content.toFinset
  have hS : s.Represents S := ⟨hs, hw, fun f => by simp [S]⟩
  obtain ⟨s', hinsert, hs'⟩ :=
    hS.exists_insertAll (inj.mono fun f hf => hf.imp_left (hS.content f).2) hbatch
  refine ⟨s', _, hinsert, hs'.coherent, hs'.writable, Set.ext fun f => ?_⟩
  rw [hs'.content, Finset.mem_union, ← hS.content, List.mem_toFinset, mem_contentWith]

theorem withinLimit_mentioned (hbatch : ∀ f ∈ batch, f.WithinLimit)
    (hrules : ∀ r ∈ rules.checking, ∀ x ∈ r.mentioned, x.WithinLimit) :
    ∀ x ∈ rules.mentioned (s.contentWith batch), x.WithinLimit := by
  rintro x (⟨f, hf, hx⟩ | ⟨r, hr, hx⟩)
  · exact Fact.withinLimit_iff.1 (withinLimit_of_mem_contentWith hbatch hf) x hx
  · exact hrules r hr x hx

theorem exists_checkExclusive (ho : s.storage.isOpen = true) {f : Fact} (hf : f.WithinLimit)
    (hlimit : ∀ pair ∈ schema.exclusive, ∀ p, Schema.excluded? f.predicate pair = some p →
      p.length ≤ fieldLimit) (batch : List Fact) :
    ∃ found, schema.checkExclusive (s.overlay batch) f = .ok found := by
  refine exists_bind (mapM_of_forall_exists fun pair hpair => ?_) fun _ _ => ⟨_, rfl⟩
  cases hp : Schema.excluded? f.predicate pair with
  | none => exact ⟨_, Schema.checkPair_of_none hp⟩
  | some p =>
    obtain ⟨b, hb⟩ := exists_contains_overlay ho (hf.withPredicate (hlimit pair hpair p hp)) batch
    exact ⟨_, (Schema.checkPair_eq_ok hp).2 ⟨b, hb, rfl⟩⟩

/-- Candidates can be validated where nothing that is looked up is over the limit. -/
theorem exists_validate (hs : s.Coherent) (ho : s.storage.isOpen = true)
    (hbatch : ∀ f ∈ batch, f.WithinLimit)
    (hrules : ∀ r ∈ rules.checking, ∀ x ∈ r.mentioned, x.WithinLimit)
    (hexclusions : schema.ExclusionsWithinLimit {f | f ∈ batch})
    (inj : Set.InjOn Fact.digest (factsOver (rules.mentioned (s.contentWith batch)))) :
    ∃ report, s.validate schema rules batch = .ok report := by
  have hover : s.contentWith batch ⊆ factsOver (rules.mentioned (s.contentWith batch)) :=
    Rulebook.subset_factsOver
  have hlimit := withinLimit_mentioned (s := s) hbatch hrules
  refine exists_bind (mapM_of_forall_exists fun f hf => ?_) fun _ _ => ⟨_, rfl⟩
  obtain ⟨a, ha⟩ := exists_checkFunctional hs ho schema (hbatch f hf) batch
  obtain ⟨b, hb⟩ := exists_checkExclusive ho (hbatch f hf) (hexclusions f hf) batch
  obtain ⟨c, hc⟩ := exists_checkTemporal hs ho schema hbatch (hbatch f hf)
  obtain ⟨d, hd⟩ := rules.exists_findings (hs.shows_overlay_over inj hover)
    (hs.answers_overlay ho hlimit batch) hover (fun r hr x hx => Or.inr ⟨r, hr, hx⟩)
    (hover (Or.inr hf))
  exact ⟨_, Schema.findings_eq_ok.2 ⟨a, b, c, d, ha, hb, hc, hd, rfl⟩⟩

/-- Candidates are checked as if they were stored, and what is found against them does not depend on
how they are listed: an overlay finds every stored fact and every candidate that a query accepts,
once; where validation over the store and over the store with the candidates in it both return, they
agree; and both return if what is looked up for the rules and the exclusive predicates is within the
limit. -/
theorem validate_as_stored (hs : s.Coherent) (hw : s.storage.Writable)
    (hbatch : ∀ f ∈ batch, Storable f)
    (inj : Set.InjOn Fact.digest (factsOver (schema.mentioned rules (s.contentWith batch)))) :
    (∃ s' noted, s.insertAll batch = (s', .ok noted) ∧ s'.content = s.contentWith batch ∧
      Concur (∀ r ∈ rules.checking, ∀ x ∈ r.mentioned, x.WithinLimit) Report.Agrees
        (s.validate schema rules batch) (s'.validate schema rules batch)) ∧
    (∀ batch', Same batch batch' → Concur True Report.Agrees (s.validate schema rules batch)
      (s.validate schema rules batch')) ∧
    ((∀ r ∈ rules.checking, ∀ x ∈ r.mentioned, x.WithinLimit) →
      schema.ExclusionsWithinLimit {f | f ∈ batch} →
      ∃ report, s.validate schema rules batch = .ok report) ∧
    ∀ q, (∀ f, q.fact? = some f → ∀ g ∈ s.content, g.digest = f.digest → g = f) →
      ((Request.find q).WithinLimit → ∃ l, (s.overlay batch).find q = .ok l) ∧
      ∀ l, (s.overlay batch).find q = .ok l →
        l.Nodup ∧ ∀ f, f ∈ l ↔ f ∈ s.contentWith batch ∧ q.accepts f = true := by
  have ho := hw.isOpen
  have hwithin : ∀ f ∈ batch, f.WithinLimit := fun f hf => (hbatch f hf).withinLimit
  have hmentioned : s.contentWith batch ⊆
      factsOver (schema.mentioned rules (s.contentWith batch)) :=
    Rulebook.subset_factsOver.trans (factsOver_mono Set.subset_union_left)
  refine ⟨?_, fun batch' hsame => ?_, fun hrules hexclusions => ?_, fun q hasked => ⟨?_, ?_⟩⟩
  · obtain ⟨s', noted, hinsert, hs', hw', hcontent⟩ :=
      exists_insertAll hs hw hbatch (inj.mono hmentioned)
    have hunion : s.contentWith batch = s'.contentWith batch := by
      rw [contentWith, contentWith, hcontent, contentWith, Set.union_assoc, Set.union_self]
    refine ⟨s', noted, hinsert, hcontent, ?_⟩
    refine concur_validate hs hs' ho hw'.isOpen hunion (Matched.refl batch) hwithin inj ?_
    intro hrules q hq
    have hlimit := withinLimit_mentioned (s := s) hwithin hrules
    exact ⟨fun _ => hs'.answers_overlay hw'.isOpen hlimit batch q hq,
      fun _ => hs.answers_overlay ho hlimit batch q hq⟩
  · have hunion : s.contentWith batch = s.contentWith batch' := by
      ext f
      rw [mem_contentWith, mem_contentWith, same_iff.1 hsame]
    refine concur_validate hs hs ho ho hunion hsame hwithin inj fun _ q _ => ?_
    rw [exists_find_overlay_iff, exists_find_overlay_iff]
  · exact exists_validate hs ho hwithin hrules hexclusions
      (inj.mono (factsOver_mono Set.subset_union_left))
  · exact fun hq => exists_find_overlay_iff.2 (exists_find hs.addressed ho hq)
  · exact fun l hl => find_overlay hs hasked hl

/-- A candidate that a rule turns down, before and after it is stored. -/
theorem validate_as_stored_rejected :
    let f : Fact := ⟨.named "a", "p", .named "p"⟩
    let g : Fact := ⟨.named "p", "p", .named "a"⟩
    let back : Rule := {
      name := "back"
      kind := .constraint
      conditions := [{ atom := ⟨.var "x", .named "p", .var "y"⟩ },
        { atom := ⟨.var "y", .named "p", .var "x"⟩ }]
      actions := [.reject "there and back"] }
    let rules : Rulebook := { rules := [back] }
    let schema : Schema := { exclusive := [("p", "a")] }
    let s := (insertAll { storage := .memory {} } [f]).1
    ∃ s' noted report report', s.insertAll [g] = (s', .ok noted) ∧
      s.validate schema rules [g] = .ok report ∧ s'.validate schema rules [g] = .ok report' ∧
      report.Agrees report' ∧ report'.isValid = false := by
  intro f g back rules schema s
  have hs : s.Represents {f} :=
    represents_insertAll_singleton ⟨rfl, rfl, rfl⟩ rfl (by decide +kernel)
  have hbatch : ∀ x ∈ [g], Storable x := by decide +kernel
  have hcontent : s.contentWith [g] = {x | x ∈ [f, g]} := by
    ext x
    simp [mem_contentWith, hs.content]
  have hvalues : schema.mentioned rules (s.contentWith [g]) ⊆
      {x | x ∈ [.named "a", .named "p"]} := by
    have hfacts : ∀ y ∈ [f, g], ∀ x ∈ y.values, x ∈ [Value.named "a", .named "p"] := by decide
    have hrules : ∀ r ∈ rules.checking, ∀ x ∈ r.mentioned, x ∈ [Value.named "a", .named "p"] := by
      decide
    rintro x ((⟨y, hy, hx⟩ | ⟨r, hr, hx⟩) | ⟨pair, hpair, hx⟩)
    · rw [hcontent] at hy
      exact hfacts y hy x hx
    · exact hrules r hr x hx
    · rw [List.mem_singleton.1 hpair] at hx
      rcases hx with rfl | rfl
      · simp
      · simp
  have inj : Set.InjOn Fact.digest (factsOver {x | x ∈ [.named "a", .named "p"]}) :=
    injOn_digest_of_nodup (by decide +kernel)
  have hlimit : ∀ r ∈ rules.checking, ∀ x ∈ r.mentioned, x.WithinLimit := by
    show ∀ r ∈ rules.checking, ∀ x ∈ r.mentioned, ∀ t ∈ x.fields, t.length ≤ fieldLimit
    decide +kernel
  have hexclusions : schema.ExclusionsWithinLimit {x | x ∈ [g]} := by
    intro x hx pair hpair p hp
    rw [List.mem_singleton.1 hpair] at hp
    rcases Schema.excluded?_eq_some hp with ⟨-, rfl⟩ | ⟨-, rfl⟩
    · decide
    · decide
  obtain ⟨⟨s', noted, hinsert, -, hconcur⟩, -, hreturns, -⟩ :=
    validate_as_stored hs.coherent hs.writable hbatch (inj.mono (factsOver_mono hvalues))
  obtain ⟨report, hreport⟩ := hreturns hlimit hexclusions
  obtain ⟨report', hreport'⟩ := (hconcur.together hlimit).1 ⟨report, hreport⟩
  have hagrees := hconcur.related report report' hreport hreport'
  have hinvalid : (s.validate schema rules [g]).toOption.map Report.isValid = some false := by
    decide +kernel
  rw [hreport] at hinvalid
  exact ⟨s', noted, report, report', hinsert, hreport, hreport', hagrees,
    hagrees.2 ▸ Option.some.inj hinvalid⟩

end Store
end FactGraph
