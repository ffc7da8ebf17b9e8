import FactGraph.Proofs.Encoding
import FactGraph.Search

/-!
# Runs of a search

A branch leads to others by finding a fact for its next goal, by applying a rule to it, or by
concluding a head (`Search.Leads`). The search takes those of these steps that are not cut short
(`Search.Takes`), and what they keep holds of the branches on which it works (`Search.Visits`),
among them the one in which a proof is found (`Search.run_found`). A search that ends without a
proof, and on whose way nothing was cut short, has tried all steps: no branch of it could have come
to an end (`Search.run_none`).
-/

namespace FactGraph.Search

/-! ## Steps -/

/-- Whether a branch leads to another one by one step, bounds on the search aside. -/
inductive Leads (s : Search) : Branch → Branch → Prop
  /-- A stored fact is found for the next goal. -/
  | fact {b b' : Branch} {atom : Atom} {guard : Option Guard} (depth : Nat) (above : List Text)
      {q : Query} {l : List Fact} {f : Fact} :
      (atom.map b.bindings.resolve).query? [] = some q → s.view.find q = .ok l → f ∈ l →
      b.withFact atom guard f = some b' →
      Leads s { b with goals := .solve atom guard depth above :: b.goals } b'
  /-- A rule is applied to the next goal. -/
  | rule {b : Branch} {atom : Atom} (guard : Option Guard) (depth : Nat) (above : List Text)
      {a : Application} :
      a ∈ s.applicable b atom →
      Leads s { b with goals := .solve atom guard depth above :: b.goals }
        (withRule b guard depth ((atom.map b.bindings.resolve).key :: above) a)
  /-- A head is concluded. -/
  | conclude {b b' : Branch} {head : Atom} {guard : Option Guard} {rule : Text} {premises : Nat} :
      b.conclude head guard rule premises = .ok (some b') →
      Leads s { b with goals := .conclude head guard rule premises :: b.goals } b'

/-- Whether a branch leads to another one by one step that the search takes. -/
inductive Takes (s : Search) : Branch → Branch → Prop
  /-- A stored fact is found for the next goal, which does not stand above itself. -/
  | fact {b b' : Branch} {atom : Atom} {guard : Option Guard} (depth : Nat) {above : List Text}
      {q : Query} {l : List Fact} {f : Fact} :
      (atom.map b.bindings.resolve).key ∉ above →
      (atom.map b.bindings.resolve).query? [] = some q → s.view.find q = .ok l → f ∈ l →
      b.withFact atom guard f = some b' →
      Takes s { b with goals := .solve atom guard depth above :: b.goals } b'
  /-- A rule is applied to the next goal, which stands neither above itself nor too deep. -/
  | rule {b : Branch} {atom : Atom} (guard : Option Guard) {depth : Nat} {above : List Text}
      {a : Application} :
      (atom.map b.bindings.resolve).key ∉ above → depth < s.bound → a ∈ s.applicable b atom →
      Takes s { b with goals := .solve atom guard depth above :: b.goals }
        (withRule b guard depth ((atom.map b.bindings.resolve).key :: above) a)
  /-- A head is concluded. -/
  | conclude {b b' : Branch} {head : Atom} {guard : Option Guard} {rule : Text} {premises : Nat} :
      b.conclude head guard rule premises = .ok (some b') →
      Takes s { b with goals := .conclude head guard rule premises :: b.goals } b'

/-- Whether a search that has some branches left comes to work on a branch. -/
inductive Visits (s : Search) : List Branch → Branch → Prop
  /-- The first branch comes next. -/
  | first (b : Branch) (rest : List Branch) : Visits s (b :: rest) b
  /-- The first branch has come to its end without a fact. -/
  | skip {b b' : Branch} {rest : List Branch} :
      b.goals = [] → b.found = [] → Visits s rest b' → Visits s (b :: rest) b'
  /-- Others take the place of the first branch. -/
  | next {b b' : Branch} {g : Goal} {t t' : Tally} {parts rest : List Branch} :
      s.next t b g = (t', .ok parts) → Visits s (parts ++ rest) b' →
      Visits s ({ b with goals := g :: b.goals } :: rest) b'

/-- Whether the next step of a branch runs into an error. -/
inductive Fails (s : Search) : Branch → Prop
  /-- Facts cannot be looked up. -/
  | find {b : Branch} {atom : Atom} (guard : Option Guard) (depth : Nat) (above : List Text)
      {q : Query} {e : StoreError} :
      (atom.map b.bindings.resolve).query? [] = some q → s.view.find q = .error e →
      Fails s { b with goals := .solve atom guard depth above :: b.goals }
  /-- A premise has no digest. -/
  | conclude {b : Branch} {head : Atom} {guard : Option Guard} {rule : Text} {premises : Nat}
      {e : StoreError} :
      b.conclude head guard rule premises = .error e →
      Fails s { b with goals := .conclude head guard rule premises :: b.goals }

/-- Whether a branch leads by some steps to a proof or to an error. -/
inductive Finds (s : Search) : Branch → Prop
  /-- There is a proof. -/
  | found {b : Branch} : b.goals = [] → b.found ≠ [] → Finds s b
  /-- There is an error. -/
  | failed {b : Branch} : Fails s b → Finds s b
  /-- There is one more step. -/
  | step {b b' : Branch} : Leads s b b' → Finds s b' → Finds s b

variable {s : Search} {t t' : Tally} {b b' : Branch} {g : Goal} {parts : List Branch}

/-! ## What single steps do -/

theorem withFact_eq_some {atom : Atom} {guard : Option Guard} {f : Fact} :
    b.withFact atom guard f = some b' ↔ ∃ bindings, b.bindings.unifyAtoms? atom (.ofFact f) =
      some bindings ∧ bindings.satisfies guard = true ∧
        b' = { b with bindings, found := f :: b.found } := by
  simp only [Branch.withFact, bind, Option.bind_eq_some_iff]
  refine exists_congr fun bindings => and_congr_right fun _ => ?_
  split <;> simp [*, eq_comm]

theorem mem_applicable {atom : Atom} {a : Application} :
    a ∈ s.applicable b atom ↔ a.rule ∈ s.rules ∧ a.rule.enabled = true ∧
      (∃ head ∈ a.rule.heads, a.head = head.rename b.suffix) ∧
        b.bindings.unifyAtoms? atom a.head = some a.bindings := by
  simp only [applicable, List.mem_flatMap, List.mem_filter, List.mem_filterMap,
    Option.map_eq_some_iff]
  constructor
  · rintro ⟨rule, ⟨hrule, henabled⟩, head, hhead, bindings, hunify, rfl⟩
    exact ⟨hrule, henabled, ⟨head, hhead, rfl⟩, hunify⟩
  · obtain ⟨rule, head, bindings⟩ := a
    rintro ⟨hrule, henabled, ⟨head, hhead, rfl⟩, hunify⟩
    exact ⟨rule, ⟨hrule, henabled⟩, head, hhead, bindings, hunify, rfl⟩

/-- A head that is a fact which satisfies the guard is concluded as soon as the premises have
digests. -/
theorem conclude_eq {head : Atom} {guard : Option Guard} (rule : Text) {premises : Nat} {f : Fact}
    (hf : (head.map b.bindings.resolve).instantiate? [] = some f)
    (hguard : b.bindings.satisfies guard = true) (hlength : premises ≤ b.found.length) :
    b.conclude head guard rule premises =
      ((b.found.take premises).reverse.mapM Fact.id).map fun ids => some { b with
        found := f :: b.found.drop premises
        steps := Branch.addStep b.steps ⟨rule, ids, f⟩ } := by
  have hnot : (!b.bindings.satisfies guard || decide (b.found.length < premises)) = false := by
    simp [hguard, hlength]
  simp only [Branch.conclude, hf, hnot]
  rfl

theorem conclude_eq_ok {head : Atom} {guard : Option Guard} {rule : Text} {premises : Nat}
    (h : b.conclude head guard rule premises = .ok (some b')) :
    ∃ f, (head.map b.bindings.resolve).instantiate? [] = some f ∧
      b.bindings.satisfies guard = true ∧ b' = { b with
        found := f :: b.found.drop premises
        steps := Branch.addStep b.steps
          ⟨rule, (b.found.take premises).reverse.map Fact.digest, f⟩ } := by
  cases hf : (head.map b.bindings.resolve).instantiate? [] with
  | none => simp [Branch.conclude, hf] at h
  | some f =>
    by_cases hnot : (!b.bindings.satisfies guard || decide (b.found.length < premises)) = true
    · simp [Branch.conclude, hf, hnot] at h
    · simp only [Bool.or_eq_true, Bool.not_eq_true', decide_eq_true_eq, not_or, Bool.not_eq_false,
        Nat.not_lt] at hnot
      rw [conclude_eq rule hf hnot.1 hnot.2] at h
      cases hids : (b.found.take premises).reverse.mapM Fact.id with
      | error e => simp [hids, Except.map] at h
      | ok ids =>
        simp only [hids, Except.map, Except.ok.injEq, Option.some.injEq] at h
        exact ⟨f, rfl, hnot.1, by rw [← h, (mapM_id_eq_ok.1 hids).2]⟩

/-! ## Inversion of steps -/

theorem branch_inj {b₁ : Branch} {g₁ : Goal}
    (h : { b with goals := g :: b.goals } = { b₁ with goals := g₁ :: b₁.goals }) :
    b = b₁ ∧ g = g₁ := by
  obtain ⟨goals, bindings, found, steps, applied⟩ := b
  obtain ⟨goals₁, bindings₁, found₁, steps₁, applied₁⟩ := b₁
  simp only [Branch.mk.injEq, List.cons.injEq] at h
  obtain ⟨⟨rfl, rfl⟩, rfl, rfl, rfl, rfl⟩ := h
  exact ⟨rfl, rfl⟩

theorem leads_solve {atom : Atom} {guard : Option Guard} {depth : Nat} {above : List Text}
    (h : s.Leads { b with goals := .solve atom guard depth above :: b.goals } b') :
    (∃ q l f, (atom.map b.bindings.resolve).query? [] = some q ∧ s.view.find q = .ok l ∧ f ∈ l ∧
      b.withFact atom guard f = some b') ∨
    ∃ a ∈ s.applicable b atom,
      b' = withRule b guard depth ((atom.map b.bindings.resolve).key :: above) a := by
  generalize hB : { b with goals := Goal.solve atom guard depth above :: b.goals } = B at h
  cases h with
  | fact depth above hq hl hf hwith =>
    obtain ⟨rfl, hg⟩ := branch_inj hB
    cases hg
    exact Or.inl ⟨_, _, _, hq, hl, hf, hwith⟩
  | rule guard depth above ha =>
    obtain ⟨rfl, hg⟩ := branch_inj hB
    cases hg
    exact Or.inr ⟨_, ha, rfl⟩
  | conclude => cases (branch_inj hB).2

theorem leads_conclude {head : Atom} {guard : Option Guard} {rule : Text} {premises : Nat}
    (h : s.Leads { b with goals := .conclude head guard rule premises :: b.goals } b') :
    b.conclude head guard rule premises = .ok (some b') := by
  generalize hB : { b with goals := Goal.conclude head guard rule premises :: b.goals } = B at h
  cases h with
  | fact => cases (branch_inj hB).2
  | rule => cases (branch_inj hB).2
  | conclude hc =>
    obtain ⟨rfl, hg⟩ := branch_inj hB
    cases hg
    exact hc

theorem fails_solve {atom : Atom} {guard : Option Guard} {depth : Nat} {above : List Text}
    (h : s.Fails { b with goals := .solve atom guard depth above :: b.goals }) :
    ∃ q e, (atom.map b.bindings.resolve).query? [] = some q ∧ s.view.find q = .error e := by
  generalize hB : { b with goals := Goal.solve atom guard depth above :: b.goals } = B at h
  cases h with
  | find guard depth above hq he =>
    obtain ⟨rfl, hg⟩ := branch_inj hB
    cases hg
    exact ⟨_, _, hq, he⟩
  | conclude => cases (branch_inj hB).2

theorem fails_conclude {head : Atom} {guard : Option Guard} {rule : Text} {premises : Nat}
    (h : s.Fails { b with goals := .conclude head guard rule premises :: b.goals }) :
    ∃ e, b.conclude head guard rule premises = .error e := by
  generalize hB : { b with goals := Goal.conclude head guard rule premises :: b.goals } = B at h
  cases h with
  | find => cases (branch_inj hB).2
  | conclude he =>
    obtain ⟨rfl, hg⟩ := branch_inj hB
    cases hg
    exact ⟨_, he⟩

theorem mem_of_stored {atom : Atom} {guard : Option Guard}
    (h : s.stored b atom guard = .ok parts) : b' ∈ parts ↔
      ∃ q l f, (atom.map b.bindings.resolve).query? [] = some q ∧ s.view.find q = .ok l ∧ f ∈ l ∧
        b.withFact atom guard f = some b' := by
  rw [stored] at h
  split at h
  · next hq =>
    cases h
    simp [hq]
  · next q hq =>
    obtain ⟨l, hl, h⟩ := bind_eq_ok.1 h
    rw [← pure_eq_ok.1 h, List.mem_filterMap]
    constructor
    · rintro ⟨f, hf, hwith⟩
      exact ⟨q, l, f, hq, hl, (List.mergeSort_perm ..).mem_iff.1 hf, hwith⟩
    · rintro ⟨q', l', f, hq', hl', hf, hwith⟩
      cases hq.symm.trans hq'
      cases hl.symm.trans hl'
      exact ⟨f, (List.mergeSort_perm ..).mem_iff.2 hf, hwith⟩

theorem Takes.leads (h : s.Takes b b') : s.Leads b b' := by
  cases h with
  | fact depth _ hq hl hf hwith => exact .fact depth _ hq hl hf hwith
  | rule guard _ _ ha => exact .rule guard _ _ ha
  | conclude hc => exact .conclude hc

/-- What takes the place of a branch is where the search takes it. -/
theorem takes_of_mem_next (h : s.next t b g = (t', .ok parts)) (hb' : b' ∈ parts) :
    s.Takes { b with goals := g :: b.goals } b' := by
  cases g with
  | conclude head guard rule premises =>
    simp only [next, Prod.mk.injEq] at h
    cases hc : b.conclude head guard rule premises with
    | error e => simp [hc, Except.map] at h
    | ok r =>
      simp only [hc, Except.map, Except.ok.injEq] at h
      rw [← h.2, Option.mem_toList] at hb'
      exact .conclude (hb' ▸ hc)
  | solve atom guard depth above =>
    simp only [next] at h
    split at h
    · simp only [Prod.mk.injEq, Except.ok.injEq] at h
      rw [← h.2] at hb'
      cases hb'
    · next habove =>
      have hkey : (atom.map b.bindings.resolve).key ∉ above :=
        fun hmem => habove (List.contains_iff_mem.2 hmem)
      split at h
      · simp at h
      · next branches hstored =>
        have hfact (hb' : b' ∈ branches) :
            s.Takes { b with goals := .solve atom guard depth above :: b.goals } b' := by
          obtain ⟨q, l, f, hq, hl, hf, hwith⟩ := (mem_of_stored hstored).1 hb'
          exact .fact depth hkey hq hl hf hwith
        split at h <;> simp only [Prod.mk.injEq, Except.ok.injEq] at h <;> rw [← h.2] at hb'
        · exact hfact hb'
        · next hdepth =>
          rcases List.mem_append.1 hb' with hb' | hb'
          · exact hfact hb'
          · obtain ⟨a, ha, rfl⟩ := List.mem_map.1 hb'
            exact .rule guard hkey (Nat.lt_of_not_le hdepth) ha

/-- What every step that is taken keeps holds of the branches on which a search works. -/
theorem Visits.induct {P : Branch → Prop} (step : ∀ b b', s.Takes b b' → P b → P b')
    {branches : List Branch} (start : ∀ b ∈ branches, P b) (h : s.Visits branches b) : P b := by
  induction h with
  | first => exact start _ List.mem_cons_self
  | skip _ _ _ ih => exact ih fun b hb => start b (List.mem_cons_of_mem _ hb)
  | next hnext _ ih =>
    refine ih fun b hb => ?_
    rcases List.mem_append.1 hb with hb | hb
    · exact step _ _ (takes_of_mem_next hnext hb) (start _ List.mem_cons_self)
    · exact start b (List.mem_cons_of_mem _ hb)

/-- A proof is found in a branch on which the search works. -/
theorem visits_of_run {branches : s.Branches} {p : Proof}
    (h : s.run t branches = (t', .ok (some p))) :
    ∃ b, s.Visits branches b ∧ b.goals = [] ∧ (∃ rest, b.found = p.conclusion :: rest) ∧
      b.steps = p.steps := by
  fun_induction Search.run s t branches with
  | case1 => cases h
  | case2 =>
    cases h
    exact ⟨_, .first _ _, rfl, ⟨_, rfl⟩, rfl⟩
  | case3 t bindings steps applied rest ih =>
    obtain ⟨b, hb, hfound⟩ := ih h
    exact ⟨b, .skip rfl rfl hb, hfound⟩
  | case4 => cases h
  | case5 t g goals bindings found steps applied rest t₁ parts hnext ih =>
    obtain ⟨b, hb, hfound⟩ := ih h
    exact ⟨b, .next hnext hb, hfound⟩

/-- What every step that is taken keeps holds of the branch in which a proof is found. -/
theorem run_found {P : Branch → Prop} (step : ∀ b b', s.Takes b b' → P b → P b')
    {branches : s.Branches} (start : ∀ b ∈ branches, P b) {p : Proof}
    (h : s.run t branches = (t', .ok (some p))) :
    ∃ b, P b ∧ b.goals = [] ∧ (∃ rest, b.found = p.conclusion :: rest) ∧ b.steps = p.steps := by
  obtain ⟨b, hb, hfound⟩ := visits_of_run h
  exact ⟨b, hb.induct step start, hfound⟩

/-! ## Following a search -/

/-- What a search comes to if it ends within a number of steps. -/
def runFor (s : Search) :
    Nat → Tally → List Branch → Option (Tally × Except StoreError (Option Proof))
  | 0, _, _ => none
  | _ + 1, t, [] => some (t, .ok none)
  | _ + 1, t, { goals := [], found := f :: _, steps, .. } :: _ => some (t, .ok (some ⟨f, steps⟩))
  | n + 1, t, { goals := [], found := [], .. } :: rest => runFor s n t rest
  | n + 1, t, { goals := g :: goals, bindings, found, steps, applied } :: rest =>
    match s.next t { goals, bindings, found, steps, applied } g with
    | (t, .error e) => some (t, .error e)
    | (t, .ok parts) => runFor s n t (parts ++ rest)

theorem run_of_runFor {n : Nat} {branches : s.Branches}
    {r : Tally × Except StoreError (Option Proof)} (h : s.runFor n t branches = some r) :
    s.run t branches = r := by
  fun_induction runFor s n t branches with
  | case1 => cases h
  | case2 n t => rw [run, ← Option.some.inj h]
  | case3 => rw [run, ← Option.some.inj h]
  | case4 n t bindings steps applied rest ih => rw [run, ih h]
  | case5 n t g goals bindings found steps applied rest t₁ e hnext =>
    rw [run, ← Option.some.inj h]
    split
    · next heq =>
      rw [hnext, Prod.mk.injEq, Except.error.injEq] at heq
      rw [heq.1, heq.2]
    · next heq => simp [hnext] at heq
  | case6 n t g goals bindings found steps applied rest t₁ parts hnext ih =>
    rw [run, ← ih h]
    split
    · next heq => simp [hnext] at heq
    · next heq =>
      rw [hnext, Prod.mk.injEq, Except.ok.injEq] at heq
      rw [heq.1, heq.2]

/-! ## Searches that are not cut short -/

/-- A step that is not cut short leaves nothing out and runs into no error. -/
theorem next_of_uncut (h : s.next t b g = (t', .ok parts)) (hdepth : t'.depthCut = false)
    (hloop : t'.loopCut = false) : t.depthCut = false ∧ t.loopCut = false ∧
      (∀ b', s.Leads { b with goals := g :: b.goals } b' → b' ∈ parts) ∧
      ¬ s.Fails { b with goals := g :: b.goals } := by
  cases g with
  | conclude head guard rule premises =>
    simp only [next, Prod.mk.injEq] at h
    obtain ⟨rfl, h⟩ := h
    cases hc : b.conclude head guard rule premises with
    | error e => simp [hc, Except.map] at h
    | ok r =>
      simp only [hc, Except.map, Except.ok.injEq] at h
      refine ⟨hdepth, hloop, fun b' hleads => ?_, fun hfails => ?_⟩
      · have hb' := leads_conclude hleads
        rw [hc, Except.ok.injEq] at hb'
        rw [← h, hb', Option.mem_toList]
      · obtain ⟨e, he⟩ := fails_conclude hfails
        rw [hc] at he
        cases he
  | solve atom guard depth above =>
    simp only [next] at h
    split at h
    · cases h
      cases hloop
    · split at h
      · simp at h
      · next branches hstored =>
        have hfails : ¬ s.Fails { b with goals := .solve atom guard depth above :: b.goals } := by
          intro hfails
          obtain ⟨q, e, hq, he⟩ := fails_solve hfails
          simp only [stored, hq, he] at hstored
          cases hstored
        have hleads (happlications : ∀ a ∈ s.applicable b atom,
            withRule b guard depth ((atom.map b.bindings.resolve).key :: above) a ∈ parts)
            (hbranches : ∀ b' ∈ branches, b' ∈ parts) :
            ∀ b', s.Leads { b with goals := .solve atom guard depth above :: b.goals } b' →
              b' ∈ parts := by
          intro b' hleads
          rcases leads_solve hleads with hfact | ⟨a, ha, rfl⟩
          · exact hbranches b' ((mem_of_stored hstored).2 hfact)
          · exact happlications a ha
        split at h <;> simp only [Prod.mk.injEq, Except.ok.injEq] at h <;> obtain ⟨rfl, rfl⟩ := h
        · simp only [Bool.or_eq_false_iff, Bool.not_eq_false', List.isEmpty_iff] at hdepth
          refine ⟨hdepth.1, hloop, hleads (fun a ha => ?_) fun b' hb' => hb', hfails⟩
          rw [hdepth.2] at ha
          cases ha
        · exact ⟨hdepth, hloop, hleads (fun a ha => List.mem_append_right _
            (List.mem_map_of_mem ha)) fun b' hb' => List.mem_append_left _ hb', hfails⟩

/-- A search that ends without a proof and was not cut short has no branch that leads to a proof. -/
theorem run_none {branches : s.Branches} (h : s.run t branches = (t', .ok none))
    (hdepth : t'.depthCut = false) (hloop : t'.loopCut = false) :
    t.depthCut = false ∧ t.loopCut = false ∧ ∀ b ∈ branches, ¬ s.Finds b := by
  fun_induction Search.run s t branches with
  | case1 =>
    cases h
    exact ⟨hdepth, hloop, by simp⟩
  | case2 => cases h
  | case3 t bindings steps applied rest ih =>
    obtain ⟨hd, hl, hrest⟩ := ih h
    refine ⟨hd, hl, List.forall_mem_cons.2 ⟨fun hfinds => ?_, hrest⟩⟩
    cases hfinds with
    | found _ hfound => exact hfound rfl
    | failed hfails => cases hfails
    | step hleads => cases hleads
  | case4 => cases h
  | case5 t g goals bindings found steps applied rest t₁ parts hnext ih =>
    obtain ⟨hd, hl, hrest⟩ := ih h
    obtain ⟨hd, hl, hleads, hfails⟩ := next_of_uncut hnext hd hl
    refine ⟨hd, hl, List.forall_mem_cons.2 ⟨fun hfinds => ?_, fun b hb =>
      hrest b (List.mem_append_right _ hb)⟩⟩
    cases hfinds with
    | found hgoals => cases hgoals
    | failed h => exact hfails h
    | step hstep h => exact hrest _ (List.mem_append_left _ (hleads _ hstep)) h

end FactGraph.Search

/-! ## Proving -/

namespace FactGraph.Store

variable {s : Store} {c : Counters} {rules : Rulebook} {bound : Nat} {goal : Query} {p : Proof}

theorem prove_eq_ok (h : (s.prove c rules bound goal).2 = .ok p) :
    ∃ t, Search.run { view := s.view, rules := rules.rules, bound } {}
      [{ goals := [.solve (.ofQuery goal) none 0 []] }] = (t, .ok (some p)) := by
  simp only [prove] at h
  split at h
  · cases h
  · cases h
  · next q hrun =>
    rw [← Except.ok.inj h]
    exact ⟨_, Prod.ext rfl hrun⟩

/-- Where a precondition is missing, the search came to its end without being cut short. -/
theorem prove_eq_error {e : LogicError} (h : (s.prove c rules bound goal).2 = .error (.logic e))
    (he : e.kind = .missingPrecondition) :
    ∃ t, Search.run { view := s.view, rules := rules.rules, bound } {}
      [{ goals := [.solve (.ofQuery goal) none 0 []] }] = (t, .ok none) ∧
        t.depthCut = false ∧ t.loopCut = false := by
  simp only [prove] at h
  split at h
  · cases h
  · next hrun =>
    rw [Except.error.injEq, Failure.logic.injEq] at h
    refine ⟨_, Prod.ext rfl hrun, ?_⟩
    rw [Tally.failure] at h
    split at h
    · rw [← h] at he
      cases he
    · next hdepth =>
      split at h
      · rw [← h] at he
        cases he
      · next hloop => exact ⟨Bool.eq_false_iff.2 hdepth, Bool.eq_false_iff.2 hloop⟩
  · cases h

/-- What proving comes to if the search ends within a number of steps. -/
def proveFor (s : Store) (n : Nat) (rules : Rulebook) (bound : Nat) (goal : Query) :
    Option (Except Failure Proof) := do
  let (t, outcome) ← Search.runFor { view := s.view, rules := rules.rules, bound } n {}
    [{ goals := [.solve (.ofQuery goal) none 0 []] }]
  return match outcome with
    | .error e => .error (.store e)
    | .ok none => .error (.logic (t.failure bound goal))
    | .ok (some p) => .ok p

theorem prove_of_proveFor {n : Nat} {r : Except Failure Proof}
    (h : s.proveFor n rules bound goal = some r) (c : Counters) :
    (s.prove c rules bound goal).2 = r := by
  obtain ⟨⟨t, outcome⟩, hrun, hr⟩ := Option.bind_eq_some_iff.1 h
  simp only [prove, Search.run_of_runFor hrun]
  exact Option.some.inj hr

/-- A proof that is found in a number of steps, and what is tested on it. -/
theorem exists_of_proveFor {n : Nat} {test : Proof → Bool}
    (h : (s.proveFor n rules bound goal).any (fun r => r.toOption.any test) = true)
    (c : Counters) : ∃ p, (s.prove c rules bound goal).2 = .ok p ∧ test p = true := by
  obtain ⟨r, hr, htest⟩ := (Option.any_eq_true _ _).1 h
  obtain ⟨p, hp, htest⟩ := (Option.any_eq_true _ _).1 htest
  refine ⟨p, ?_, htest⟩
  rw [prove_of_proveFor hr]
  cases r with
  | error e => cases hp
  | ok q => exact congrArg Except.ok (Option.some.inj hp)

end FactGraph.Store
