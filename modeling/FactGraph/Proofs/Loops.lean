import FactGraph.Proofs.Completeness
import FactGraph.Proofs.Depth

/-!
# Derivations without loops

A search cuts off a goal that stands among the goals above it. So it finds its way to a fact if the
fact has a derivation in which no goal asks for what a goal above it asks for (`Unlooped`), provided
that keys tell goals apart: `Search.answers_of_unlooped` follows such a derivation as
`Search.solves_of_mem_consequences` follows any, but with the goals that are asked on the way.
-/

namespace FactGraph

open Bindings

/-! ## What is asked for -/

/-- What a condition of a rule asks for once facts were found for the conditions in front of it,
where the head of the rule is to be among what a goal asks for. -/
def Condition.asked (goal : Set (List Value)) (head : Atom) (solved : List (Condition × Fact))
    (c : Condition) : Set (List Value) :=
  {xs | ∃ σ, (∃ ys ∈ goal, List.Forall₂ (Term.StandsFor σ) head.terms ys) ∧
    (∀ e ∈ solved, e.1.atom.StandsFor σ e.2) ∧ List.Forall₂ (Term.StandsFor σ) c.atom.terms xs}

/-- Whether a fact is derived for a goal, given what the goals above it ask for, so that no goal on
the way asks for the same as one above it. -/
inductive Unlooped (rules : List Rule) (A : Set Fact) :
    List (Set (List Value)) → Set (List Value) → Fact → Prop
  /-- The fact is given. -/
  | given {above : List (Set (List Value))} {goal : Set (List Value)} {f : Fact} :
      goal ∉ above → f ∈ A → Unlooped rules A above goal f
  /-- A rule derives the fact from facts that are derived for its conditions. -/
  | derived {above : List (Set (List Value))} {goal : Set (List Value)} {f : Fact} {r : Rule}
      {head : Atom} {σ : Valuation} {premises : List Fact} :
      goal ∉ above → r ∈ rules → r.enabled = true → head ∈ r.heads → head.hasWildcard = false →
      head.StandsFor σ f → List.Forall₂ (Condition.HoldsOf σ) r.conditions premises →
      (∀ solved c g rest, r.conditions.zip premises = solved ++ (c, g) :: rest →
        Unlooped rules A (goal :: above) (c.asked goal head solved) g) →
      Unlooped rules A above goal f

/-! ## Terms that stand for values -/

theorem standsFor_congr {σ τ : Valuation} {ts : List Term} {xs : List Value}
    (h : List.Forall₂ (Term.StandsFor σ) ts xs) (hv : ∀ v, .var v ∈ ts → σ v = τ v) :
    List.Forall₂ (Term.StandsFor τ) ts xs := by
  induction h with
  | nil => exact .nil
  | @cons t x ts xs htx _ ih =>
    refine .cons (htx.congr ?_) (ih fun v hmem => hv v (List.mem_cons_of_mem _ hmem))
    rintro v rfl
    exact hv v (List.mem_cons_self ..)

theorem standsFor_rename {σ : Valuation} {suffix : Text} {a : Atom} {xs : List Value} :
    List.Forall₂ (Term.StandsFor σ) (a.rename suffix).terms xs ↔
      List.Forall₂ (Term.StandsFor fun v => σ (v ++ suffix)) a.terms xs := by
  rw [Atom.terms_rename, List.forall₂_map_left_iff]
  simp only [Term.standsFor_rename]

theorem Bindings.togetherIn_iff {σ : Valuation} {a a' : Atom} : TogetherIn σ a a' ↔
    ∃ xs, List.Forall₂ (Term.StandsFor σ) a.terms xs ∧
      List.Forall₂ (Term.StandsFor σ) a'.terms xs := by
  simp only [TogetherIn, Atom.terms, List.zip_cons_cons, List.zip_nil_right, List.forall_mem_cons,
    List.not_mem_nil, false_implies, implies_true, and_true]
  constructor
  · rintro ⟨⟨x, hx, hx'⟩, ⟨y, hy, hy'⟩, z, hz, hz'⟩
    exact ⟨[x, y, z], .cons hx (.cons hy (.cons hz .nil)), .cons hx' (.cons hy' (.cons hz' .nil))⟩
  · rintro ⟨xs, h, h'⟩
    cases h with
    | cons hx h =>
    cases h with
    | cons hy h =>
    cases h with
    | cons hz h =>
    cases h
    cases h' with
    | cons hx' h' =>
    cases h' with
    | cons hy' h' =>
    cases h' with
    | cons hz' h' => exact ⟨⟨_, hx, hx'⟩, ⟨_, hy, hy'⟩, _, hz, hz'⟩

namespace Search

variable {s : Search} {t t' : Tally} {b b' : Branch} {g : Goal} {parts : List Branch}
  {atom head : Atom} {guard : Option Guard} {depth : Nat} {keys : List Text}

/-! ## Searches as they are cut -/

/-- Whether a branch leads to a proof or to an error by steps that the search takes. -/
inductive Reaches (s : Search) : Branch → Prop
  /-- There is a proof. -/
  | found {b : Branch} : b.goals = [] → b.found ≠ [] → Reaches s b
  /-- There is an error. -/
  | failed {b : Branch} {g : Goal} {e : StoreError} : (s.next {} b g).2 = .error e →
      Reaches s { b with goals := g :: b.goals }
  /-- There is one more step. -/
  | step {b b' : Branch} {g : Goal} {parts : List Branch} : (s.next {} b g).2 = .ok parts →
      b' ∈ parts → Reaches s b' → Reaches s { b with goals := g :: b.goals }

theorem snd_next (s : Search) (t t' : Tally) (b : Branch) (g : Goal) :
    (s.next t b g).2 = (s.next t' b g).2 := by
  cases g with
  | conclude => rfl
  | solve atom guard depth above =>
    simp only [next]
    split
    · rfl
    · cases s.stored b atom guard with
      | error e => rfl
      | ok branches =>
        simp only
        split <;> rfl

/-- A search that ends without a proof and without an error has no branch that leads to one. -/
theorem not_reaches_of_run {branches : s.Branches} (h : s.run t branches = (t', .ok none)) :
    ∀ b ∈ branches, ¬ s.Reaches b := by
  fun_induction Search.run s t branches with
  | case1 => simp
  | case2 => cases h
  | case3 t bindings steps applied rest ih =>
    refine List.forall_mem_cons.2 ⟨fun hreaches => ?_, ih h⟩
    cases hreaches with
    | found _ hfound => exact hfound rfl
  | case4 => cases h
  | case5 t g goals bindings found steps applied rest t₁ parts hnext ih =>
    have hrest := ih h
    refine List.forall_mem_cons.2 ⟨fun hreaches => ?_, fun b hb =>
      hrest b (List.mem_append_right _ hb)⟩
    have hparts : (s.next {} { goals, bindings, found, steps, applied } g).2 = .ok parts := by
      rw [s.snd_next {} t, hnext]
    generalize hB : ({ goals := g :: goals, bindings, found, steps, applied } : Branch) = B
      at hreaches
    cases hreaches with
    | found hgoals =>
      rw [← hB] at hgoals
      cases hgoals
    | @failed b₁ g₁ e he =>
      obtain ⟨rfl, rfl⟩ := branch_inj (b := { goals, bindings, found, steps, applied }) hB
      rw [hparts] at he
      cases he
    | @step b₁ b' g₁ parts₁ hok hmem hreaches =>
      obtain ⟨rfl, rfl⟩ := branch_inj (b := { goals, bindings, found, steps, applied }) hB
      rw [hparts, Except.ok.injEq] at hok
      exact hrest b' (List.mem_append_left _ (hok ▸ hmem)) hreaches

/-- A goal that does not stand above itself nor too deep is worked on without being cut. -/
theorem reaches_of_leads (hkey : (atom.map b.bindings.resolve).key ∉ keys)
    (hdepth : depth < s.bound)
    (hleads : s.Leads { b with goals := .solve atom guard depth keys :: b.goals } b')
    (hb' : s.Reaches b') :
    s.Reaches { b with goals := .solve atom guard depth keys :: b.goals } := by
  have hcontains : ¬ keys.contains (atom.map b.bindings.resolve).key = true := fun h =>
    hkey (List.contains_iff_mem.1 h)
  cases hstored : s.stored b atom guard with
  | error e =>
    have hnext : (s.next {} b (.solve atom guard depth keys)).2 = .error e := by
      simp only [next, if_neg hcontains, hstored]
    exact .failed hnext
  | ok branches =>
    have hnext : (s.next {} b (.solve atom guard depth keys)).2 = .ok (branches ++
        (s.applicable b atom).map (withRule b guard depth
          ((atom.map b.bindings.resolve).key :: keys))) := by
      simp only [next, if_neg hcontains, hstored, if_neg (Nat.not_le_of_lt hdepth)]
    refine .step hnext ?_ hb'
    rcases leads_solve hleads with hfact | ⟨a, ha, rfl⟩
    · exact List.mem_append_left _ ((mem_of_stored hstored).2 hfact)
    · exact List.mem_append_right _ (List.mem_map_of_mem ha)

theorem reaches_conclude {name : Text} {count : Nat} {f : Fact}
    (hf : (head.map b.bindings.resolve).instantiate? [] = some f)
    (hguard : b.bindings.satisfies guard = true) (hcount : count ≤ b.found.length)
    (hnext : ∀ steps, s.Reaches { b with found := f :: b.found.drop count, steps }) :
    s.Reaches { b with goals := .conclude head guard name count :: b.goals } := by
  have hconclude := conclude_eq name hf hguard hcount
  cases hids : (b.found.take count).reverse.mapM Fact.id with
  | error e =>
    rw [hids] at hconclude
    have hfails : (s.next {} b (.conclude head guard name count)).2 = .error e := by
      simp only [next, hconclude]
      rfl
    exact .failed hfails
  | ok ids =>
    rw [hids] at hconclude
    have hok : (s.next {} b (.conclude head guard name count)).2 = .ok [{ b with
        found := f :: b.found.drop count
        steps := Branch.addStep b.steps ⟨name, ids, f⟩ }] := by
      simp only [next, hconclude]
      rfl
    exact .step hok (List.mem_singleton_self _) (hnext _)

end Search

/-! ## What is known once a goal was worked on -/

section Gains

variable {V : Set Value} {b b' b'' : Branch} {σ σ' σ'' : Valuation} {P Q : Valuation → Prop}
  {facts facts' : List Fact}

/-- Whether a branch extends another one by facts and knows what a property of valuations says, and
nothing else, about the variables that there were. -/
structure Branch.Gains (V : Set Value) (b : Branch) (σ : Valuation) (P : Valuation → Prop)
    (facts : List Fact) (b' : Branch) (σ' : Valuation) : Prop
    extends Branch.Extends b σ facts b' σ' where
  /-- The valuation is admitted. -/
  ready : b'.Ready σ'
  /-- Variables have the given values only. -/
  values : b'.bindings.Over V
  /-- The property is known. -/
  holds : ∀ τ, b'.bindings.Admits τ → P τ
  /-- Nothing else is known. -/
  complete : ∀ τ, b.bindings.Admits τ → P τ →
    ∃ υ, AgreeBefore b.applied τ υ ∧ b'.bindings.Admits υ

theorem Branch.Gains.refl (h : b.Ready σ) (hV : b.bindings.Over V) (hP : ∀ τ, P τ) :
    b.Gains V σ P [] b σ where
  goals := rfl
  found := rfl
  applied := Nat.le.refl
  admits := fun _ hτ => hτ
  agree := .refl _ σ
  ready := h
  values := hV
  holds := fun τ _ => hP τ
  complete := fun τ hτ _ => ⟨τ, .refl _ τ, hτ⟩

theorem Branch.Gains.trans (h : b.Gains V σ P facts b' σ') (h' : b'.Gains V σ' Q facts' b'' σ'')
    (hQ : ∀ τ υ, AgreeBefore b.applied τ υ → Q τ → Q υ) :
    b.Gains V σ (fun τ => P τ ∧ Q τ) (facts' ++ facts) b'' σ'' where
  toExtends := h.toExtends.trans h'.toExtends
  ready := h'.ready
  values := h'.values
  holds := fun τ hτ => ⟨h.holds τ (h'.admits τ hτ), h'.holds τ hτ⟩
  complete := by
    rintro τ hτ ⟨hP, hQτ⟩
    obtain ⟨υ, hagree, hυ⟩ := h.complete τ hτ hP
    obtain ⟨φ, hagree', hφ⟩ := h'.complete υ hυ (hQ τ υ hagree hQτ)
    exact ⟨φ, hagree.trans (hagree'.mono h.applied), hφ⟩

theorem Branch.Gains.congr (h : b.Gains V σ P facts b' σ') (hPQ : ∀ τ, P τ ↔ Q τ) :
    b.Gains V σ Q facts b' σ' where
  toExtends := h.toExtends
  ready := h.ready
  values := h.values
  holds := fun τ hτ => (hPQ τ).1 (h.holds τ hτ)
  complete := fun τ hτ hQ => h.complete τ hτ ((hPQ τ).2 hQ)

end Gains

namespace Search

variable {s : Search} {A : Set Fact} {V : Set Value} {b b' b₁ b₂ : Branch} {σ σ₁ : Valuation}
  {atom head : Atom} {guard : Option Guard} {depth n : Nat} {keys : List Text}
  {above : List (Set (List Value))} {goal : Set (List Value)} {f : Fact}

/-- Whether a key is that of an atom over values that asks for something. -/
def Marks (V : Set Value) (key : Text) (goal : Set (List Value)) : Prop :=
  ∃ a : Atom, (∀ x ∈ a.constants, x ∈ V) ∧ a.key = key ∧ a.instances = goal

/-- Whether the search finds its way to a fact from every goal that it fits and that asks for what
is given, below goals that ask for what is given, provided that it finds its way on from there. -/
def Answers (s : Search) (V : Set Value) (above : List (Set (List Value)))
    (goal : Set (List Value)) (f : Fact) : Prop :=
  ∀ (b : Branch) (σ : Valuation) (atom : Atom) (guard : Option Guard) (depth : Nat)
    (keys : List Text), b.Ready σ → b.bindings.Over V → (∀ x ∈ atom.constants, x ∈ V) →
    b.Fits σ atom guard f → (atom.map b.bindings.resolve).instances = goal →
    Placed (keysOver V) (.solve atom guard depth keys) → List.Forall₂ (Marks V) keys above →
    (∀ b' σ', b.Gains V σ (fun τ => atom.StandsFor τ f) [f] b' σ' → s.Reaches b') →
    s.Reaches { b with goals := .solve atom guard depth keys :: b.goals }

/-- Where texts tell values apart, a goal that asks for something new has a new key. -/
theorem key_not_mem (hV : Legible V) (hatom : ∀ x ∈ atom.constants, x ∈ V)
    (hmarks : List.Forall₂ (Marks V) keys above) (hnew : atom.instances ∉ above) :
    atom.key ∉ keys := by
  intro hmem
  induction hmarks with
  | nil => cases hmem
  | @cons key goal keys above hkey _ ih =>
    rw [List.mem_cons, not_or] at hnew
    rcases List.mem_cons.1 hmem with heq | hmem
    · obtain ⟨a, ha, rfl, rfl⟩ := hkey
      exact hnew.1 (hV.instances_eq_of_key_eq hatom ha heq)
    · exact ih hnew.2 hmem

/-! ## Given facts -/

theorem answers_of_mem (hover : s.Over A V) (hview : s.view.Exhaustive A) (hV : Legible V)
    (hbound : (keysOver V).ncard < s.bound) (hnew : goal ∉ above) (hf : f ∈ A) :
    s.Answers V above goal f := by
  intro b σ atom guard depth keys hready hvalues hatom hfits hgoal hplaced hmarks hnext
  have hconstants := hvalues.constants_resolve hatom
  have hkey := key_not_mem hV hconstants hmarks (hgoal ▸ hnew)
  have hdepth := hplaced.depth_le (finite_keysOver hover.finite)
  obtain ⟨q, hq, haccepts⟩ := hready.admits.exists_query? hready.wellFormed hfits.standsFor
  obtain ⟨l, hl⟩ := hover.find q (Atom.constants_mem_of_query? hconstants (by simp) hq)
  obtain ⟨bindings, hunify, hwith, hready', hadmits⟩ := exists_withFact hready hfits
  have hvalues' : bindings.Over V := hvalues.unifyAtoms? hatom
    (fun x hx => hover.facts hf x (mem_constants_ofFact.1 hx)) hunify
  have hleads := Leads.fact depth keys hq hl (hview.mem_find q l hl f hf haccepts) hwith
  refine reaches_of_leads hkey (by omega) hleads (hnext _ σ ?_)
  refine ⟨⟨rfl, rfl, Nat.le.refl, fun τ hτ => ((hadmits τ).1 hτ).1, .refl _ σ⟩, hready', hvalues',
    fun τ hτ => ((hadmits τ).1 hτ).2, fun τ hτ hstands => ?_⟩
  exact ⟨τ, .refl _ τ, (hadmits τ).2 ⟨hτ, hstands⟩⟩

/-! ## Conditions of rules -/

/-- What is known where facts were found for the first conditions of a rule. -/
def Solved (n : Nat) (solved : List (Condition × Fact)) (τ : Valuation) : Prop :=
  ∀ e ∈ solved, e.1.atom.StandsFor (fun v => τ (v ++ suffixOf n)) e.2

theorem Solved.congr {m : Nat} {solved : List (Condition × Fact)} {τ υ : Valuation} (hn : n < m)
    (hagree : AgreeBefore m τ υ) (h : Solved n solved τ) : Solved n solved υ := by
  intro e he
  exact (h e he).congr fun v _ => hagree _ ((older_renamed v n).mono hn)

/-- A condition asks for what the rule says, if the head is to be among what the goal asks for and
facts were found for the conditions in front of it. -/
theorem instances_condition {solved : List (Condition × Fact)} {facts : List Fact}
    (hn : n < b₁.applied)
    (hstart : ∀ ρ : Valuation, (∃ τ, b₁.bindings.Admits τ ∧ (fun v => τ (v ++ suffixOf n)) = ρ) ↔
      ∃ ys ∈ goal, List.Forall₂ (Term.StandsFor ρ) head.terms ys)
    (hgains : b₁.Gains V σ₁ (Solved n solved) facts b σ) (c : Condition) :
    ((c.rename (suffixOf n)).atom.map b.bindings.resolve).instances = c.asked goal head solved := by
  ext xs
  rw [mem_instances_resolve hgains.ready.wellFormed]
  constructor
  · rintro ⟨τ, hτ, hxs⟩
    exact ⟨_, (hstart _).1 ⟨τ, hgains.admits τ hτ, rfl⟩, hgains.holds τ hτ, standsFor_rename.1 hxs⟩
  · rintro ⟨ρ, hhead, hsolved, hxs⟩
    obtain ⟨τ, hτ, rfl⟩ := (hstart ρ).2 hhead
    obtain ⟨υ, hagree, hυ⟩ := hgains.complete τ hτ hsolved
    have hvalues : (fun v => υ (v ++ suffixOf n)) = fun v => τ (v ++ suffixOf n) :=
      funext fun v => (hagree _ ((older_renamed v n).mono hn)).symm
    exact ⟨υ, hυ, standsFor_rename.2 (hvalues ▸ hxs)⟩

/-- Facts are found for conditions one after the other, each below what was asked for before. -/
theorem reaches_conditions (solved rest : List (Condition × Fact)) (bound : List Text)
    (hn : n < b₁.applied)
    (hstart : ∀ ρ : Valuation, (∃ τ, b₁.bindings.Admits τ ∧ (fun v => τ (v ++ suffixOf n)) = ρ) ↔
      ∃ ys ∈ goal, List.Forall₂ (Term.StandsFor ρ) head.terms ys)
    (hplaced : ∀ atom guard, Placed (keysOver V) (.solve atom guard depth keys))
    (hmarks : List.Forall₂ (Marks V) keys above)
    (hanswers : ∀ before c g after, solved ++ rest = before ++ (c, g) :: after →
      s.Answers V above (c.asked goal head before) g)
    (hconstants : ∀ e ∈ rest, ∀ x ∈ e.1.atom.constants, x ∈ V)
    (hguards : Condition.GuardsBound bound (rest.map Prod.fst))
    (hfixed : ∀ v ∈ bound, b.bindings.Fixed (v ++ suffixOf n))
    (hholds : ∀ e ∈ rest, e.1.HoldsOf (fun v => σ (v ++ suffixOf n)) e.2)
    (hgains : b₁.Gains V σ₁ (Solved n solved) (solved.map Prod.snd).reverse b σ)
    (hnext : ∀ b₂ σ₂, b₁.Gains V σ₁ (Solved n (solved ++ rest))
        ((solved ++ rest).map Prod.snd).reverse b₂ σ₂ →
      (∀ v ∈ bound ++ Rule.boundVariables (rest.map Prod.fst),
        b₂.bindings.Fixed (v ++ suffixOf n)) → s.Reaches b₂) :
    s.Reaches { b with
      goals := conditionGoals (rest.map Prod.fst) (suffixOf n) depth keys ++ b.goals } := by
  -- What is known about the variables of the rule grows with the conditions that are solved.
  induction rest generalizing solved bound b σ with
  | nil =>
    refine hnext b σ ?_ ?_
    · rw [List.append_nil]
      exact hgains
    · simpa [Rule.boundVariables] using hfixed
  | cons e rest ih =>
    obtain ⟨c, g⟩ := e
    obtain ⟨hguard, hguards⟩ := hguards
    rw [List.forall_mem_cons] at hconstants hholds
    have hn' : n < b.applied := Nat.lt_of_lt_of_le hn hgains.applied
    have holder (v : Text) : Older b.applied (v ++ suffixOf n) := (older_renamed v n).mono hn'
    have hatom : ∀ x ∈ (c.rename (suffixOf n)).atom.constants, x ∈ V := by
      intro x hx
      rw [Condition.rename, Atom.constants_rename] at hx
      exact hconstants.1 x hx
    have hfits := fits_condition hn' hholds.1 hguard hfixed
    refine hanswers solved c g rest rfl
      { b with goals := conditionGoals (rest.map Prod.fst) (suffixOf n) depth keys ++ b.goals } σ
      _ _ depth keys ⟨hgains.ready.wellFormed, hgains.ready.older, hgains.ready.admits⟩ hgains.values
      hatom ⟨hfits.standsFor, hfits.older, hfits.guard⟩ (instances_condition hn hstart hgains c)
      (hplaced _ _) hmarks ?_
    intro b' σ' hnew
    -- The goals that are left aside, the branch has gained the fact.
    have hstep : b.Gains V σ (Solved n [(c, g)]) [g] { b' with goals := b.goals } σ' := by
      refine Branch.Gains.congr (P := fun τ => (c.rename (suffixOf n)).atom.StandsFor τ g)
        ⟨⟨rfl, hnew.found, hnew.applied, hnew.admits, hnew.agree⟩,
          ⟨hnew.ready.wellFormed, hnew.ready.older, hnew.ready.admits⟩, hnew.values, hnew.holds,
          hnew.complete⟩ fun τ => ?_
      simp [Solved, Condition.rename]
    have hvalues : (fun v => σ' (v ++ suffixOf n)) = fun v => σ (v ++ suffixOf n) :=
      funext fun v => (hnew.agree _ (holder v)).symm
    have hgains' := (hgains.trans hstep fun τ υ hagree h => h.congr hn hagree).congr
      (Q := Solved n (solved ++ [(c, g)])) fun τ => by simp [Solved, or_imp, forall_and]
    have hfixed' : ∀ v ∈ bound ++ c.atom.varNames, b'.bindings.Fixed (v ++ suffixOf n) := by
      intro v hv
      rcases List.mem_append.1 hv with hv | hv
      · exact (hfixed v hv).mono hnew.admits
      · exact fixed_of_standsFor hnew.holds
          (Atom.mem_terms_rename.2 ⟨v, Atom.mem_varNames.1 hv, rfl⟩)
    rw [Branch.eq_of_goals hnew.goals]
    refine ih (b := { b' with goals := b.goals }) (σ := σ') (solved ++ [(c, g)]) _ ?_
      hconstants.2 hguards hfixed' (hvalues ▸ hholds.2) ?_ ?_
    · rw [List.append_assoc]
      exact hanswers
    · simpa using hgains'
    · intro b₂ σ₂ hgains₂ hfixed₂
      rw [List.append_assoc] at hgains₂
      refine hnext b₂ σ₂ hgains₂ ?_
      simpa [Rule.boundVariables, or_assoc] using hfixed₂

/-! ## Derived facts -/

/-- What a goal asks for are the values that the head of a rule may have once it is unified with
the goal. -/
theorem admits_head_iff {bindings : Bindings} (hready : b.Ready σ)
    (holder : ∀ v, .var v ∈ atom.terms → Older b.applied v)
    (hunify : b.bindings.unifyAtoms? atom (head.rename (suffixOf b.applied)) = some bindings)
    (ρ : Valuation) :
    (∃ τ, bindings.Admits τ ∧ (fun v => τ (v ++ suffixOf b.applied)) = ρ) ↔
      ∃ xs ∈ (atom.map b.bindings.resolve).instances,
        List.Forall₂ (Term.StandsFor ρ) head.terms xs := by
  constructor
  · rintro ⟨τ, hτ, rfl⟩
    obtain ⟨hadmits, htogether⟩ := (admits_unifyAtoms? hready.wellFormed hunify).1 hτ
    obtain ⟨xs, hxs, hhead⟩ := togetherIn_iff.1 htogether
    exact ⟨xs, (mem_instances_resolve hready.wellFormed).2 ⟨τ, hadmits, hxs⟩,
      standsFor_rename.1 hhead⟩
  · rintro ⟨xs, hmem, hhead⟩
    obtain ⟨τ, hτ, hxs⟩ := (mem_instances_resolve hready.wellFormed).1 hmem
    -- The variables of the rule are new to the branch.
    obtain ⟨υ, hagree, hvalues⟩ := Valuation.exists_renamed τ ρ b.applied
    have hρ : (fun v => υ (v ++ suffixOf b.applied)) = ρ := funext hvalues
    refine ⟨υ, (admits_unifyAtoms? hready.wellFormed hunify).2 ⟨hready.older τ υ hagree hτ, ?_⟩, hρ⟩
    exact togetherIn_iff.2 ⟨xs, standsFor_congr hxs fun v hv => hagree v (holder v hv),
      standsFor_rename.2 (hρ ▸ hhead)⟩

/-- Once the premises of a rule were found and its head has become a fact, what is known in addition
is that the atom stands for the fact. -/
theorem gains_of_premises {b' : Branch} {υ σ' ρ : Valuation} {solved : List (Condition × Fact)}
    {facts : List Fact} (hready : b.Ready σ)
    (holder : ∀ v, .var v ∈ atom.terms → Older b.applied v)
    (hunify : b.bindings.unifyAtoms? atom (head.rename (suffixOf b.applied)) = some b₁.bindings)
    (happlied : b.applied ≤ b₁.applied) (hagree : AgreeBefore b.applied σ υ)
    (hwildcard : head.hasWildcard = false) (hf : head.StandsFor ρ f)
    (hsolved : ∀ τ : Valuation, (fun v => τ (v ++ suffixOf b.applied)) = ρ →
      Solved b.applied solved τ)
    (hgains : b₁.Gains V υ (Solved b.applied solved) facts b' σ')
    (hinstantiate : ((head.rename (suffixOf b.applied)).map b'.bindings.resolve).instantiate? [] =
      some f) (steps : List ProofStep) :
    b.Gains V σ (fun τ => atom.StandsFor τ f) [f]
      { b' with goals := b.goals, found := f :: b.found, steps } σ' where
  goals := rfl
  found := rfl
  applied := happlied.trans hgains.applied
  admits := fun τ hτ => ((admits_unifyAtoms? hready.wellFormed hunify).1 (hgains.admits τ hτ)).1
  agree := hagree.trans (hgains.agree.mono happlied)
  ready := ⟨hgains.ready.wellFormed, hgains.ready.older, hgains.ready.admits⟩
  values := hgains.values
  holds := fun τ hτ => by
    obtain ⟨-, htogether⟩ := (admits_unifyAtoms? hready.wellFormed hunify).1 (hgains.admits τ hτ)
    exact htogether.standsFor (hτ.standsFor_of_instantiate? hgains.ready.wellFormed hinstantiate)
      (by rw [Atom.hasWildcard_rename, hwildcard])
  complete := fun τ hτ hstands => by
    obtain ⟨φ, hagree', hvalues⟩ := Valuation.exists_renamed τ ρ b.applied
    have hρ : (fun v => φ (v ++ suffixOf b.applied)) = ρ := funext hvalues
    have hatom : atom.StandsFor φ f := hstands.congr fun v hv => hagree' v (holder v hv)
    have hφ : b₁.bindings.Admits φ := (admits_unifyAtoms? hready.wellFormed hunify).2
      ⟨hready.older τ φ hagree' hτ,
        togetherIn_of_standsFor hatom (Atom.standsFor_rename.2 (hρ ▸ hf))⟩
    obtain ⟨ψ, hagree'', hψ⟩ := hgains.complete φ hφ (hsolved φ hρ)
    exact ⟨ψ, hagree'.trans (hagree''.mono happlied), hψ⟩

/-- What a rule derives is found by applying the rule, if its premises are found below the goal. -/
theorem answers_of_derived {r : Rule} {ρ : Valuation} {premises : List Fact} (hover : s.Over A V)
    (hV : Legible V) (hbound : (keysOver V).ncard < s.bound) (hnew : goal ∉ above)
    (hr : r ∈ s.rules) (henabled : r.enabled = true) (hhead : head ∈ r.heads)
    (hwildcard : head.hasWildcard = false) (hf : head.StandsFor ρ f)
    (hmatch : List.Forall₂ (Condition.HoldsOf ρ) r.conditions premises)
    (hanswers : ∀ solved c g rest, r.conditions.zip premises = solved ++ (c, g) :: rest →
      s.Answers V (goal :: above) (c.asked goal head solved) g) :
    s.Answers V above goal f := by
  intro b σ atom guard depth keys hready hvalues hatom hfits hgoal hplaced hmarks hnext
  have hconstants := hvalues.constants_resolve hatom
  have hkey := key_not_mem hV hconstants hmarks (hgoal ▸ hnew)
  have hdepth := hplaced.depth_le (finite_keysOver hover.finite)
  obtain ⟨bindings, υ, hunify, happlicable, hready₁, hagree, hρ⟩ :=
    exists_application hr henabled hhead hf hready hfits
  have hhead' : (head.rename (suffixOf b.applied)).StandsFor υ f :=
    Atom.standsFor_rename.2 (hρ.symm ▸ hf)
  let b₁ : Branch := { b with
    goals := .conclude (head.rename (suffixOf b.applied)) guard r.name r.conditions.length ::
      b.goals
    bindings
    applied := b.applied + 1 }
  have hrule := hover.constants r hr
  simp only [Rule.constants, List.mem_append, List.mem_flatMap] at hrule
  have hvalues₁ : b₁.bindings.Over V :=
    hvalues.unifyAtoms? hatom (fun x hx => hrule x (Or.inr ⟨head, hhead, by simpa using hx⟩)) hunify
  have hfst : (r.conditions.zip premises).map Prod.fst = r.conditions :=
    List.map_fst_zip hmatch.length_eq.le
  have hsnd : (r.conditions.zip premises).map Prod.snd = premises :=
    List.map_snd_zip hmatch.length_eq.ge
  have hholds : ∀ e ∈ r.conditions.zip premises, e.1.HoldsOf ρ e.2 := fun e he =>
    List.forall₂_zip hmatch he
  have hstart := admits_head_iff hready hfits.older hunify
  rw [hgoal] at hstart
  have hplaced' := hplaced.below (Atom.key_mem_keysOver hconstants) hkey
  have hgains₁ : b₁.Gains V υ (Solved b.applied []) [] b₁ υ :=
    .refl (hready₁ _) hvalues₁ (by simp [Solved])
  have hreaches := reaches_conditions (s := s) [] (r.conditions.zip premises) []
    (Nat.lt_succ_self b.applied) hstart hplaced' (.cons ⟨_, hconstants, rfl, hgoal⟩ hmarks) hanswers
    (fun e he x hx => hrule x (Or.inl ⟨e.1, (List.of_mem_zip he).1, hx⟩))
    (hfst.symm ▸ (hover.sound r hr).guards) (by simp) (hρ.symm ▸ hholds) hgains₁ ?_
  · rw [hfst] at hreaches
    exact reaches_of_leads hkey (by omega) (.rule guard depth keys happlicable) hreaches
  intro b₂ σ₂ hgains hfixed
  rw [List.nil_append] at hgains
  rw [hfst] at hfixed
  -- All premises were found. What is known now makes the atom stand for the fact.
  have hinstantiate := instantiate?_head (hover.sound r hr) hhead hgains.ready
    (hhead'.congr fun v hv => hgains.agree v (Atom.older_rename hv)) hfixed
  have hgained := gains_of_premises hready hfits.older hunify (Nat.le_succ b.applied) hagree
    hwildcard hf (fun τ hτ e he => by rw [hτ]; exact (hholds e he).1) hgains hinstantiate
  have hsatisfies : b₂.bindings.satisfies guard = true :=
    hfits.satisfies hgains.ready (hgained []).admits (hgained []).agree (hgained []).holds
  have hfound : b₂.found = premises.reverse ++ b.found := by
    rw [hgains.found, hsnd]
  have hcount : premises.reverse.length = r.conditions.length := by
    rw [List.length_reverse, hmatch.length_eq]
  rw [Branch.eq_of_goals hgains.goals]
  refine reaches_conclude (b := { b₂ with goals := b.goals }) hinstantiate hsatisfies ?_
    fun steps => ?_
  · simp [hfound, hmatch.length_eq]
  · have hdrop : b₂.found.drop r.conditions.length = b.found := by
      rw [hfound, List.drop_left' hcount]
    simp only [hdrop]
    exact hnext _ σ₂ (hgained steps)

/-! ## Derivations without loops -/

theorem answers_of_unlooped (hover : s.Over A V) (hview : s.view.Exhaustive A) (hV : Legible V)
    (hbound : (keysOver V).ncard < s.bound) (h : Unlooped s.rules A above goal f) :
    s.Answers V above goal f := by
  -- Induction on the derivation: a premise is derived below the goals above it and the goal itself.
  induction h with
  | given hnew hf => exact answers_of_mem hover hview hV hbound hnew hf
  | derived hnew hr henabled hhead hwildcard hf hmatch _ ih =>
    exact answers_of_derived hover hV hbound hnew hr henabled hhead hwildcard hf hmatch ih

theorem reaches_of_unlooped (hover : s.Over A V) (hview : s.view.Exhaustive A) (hV : Legible V)
    (hbound : (keysOver V).ncard < s.bound) {query : Query}
    (hquery : ∀ x ∈ (Atom.ofQuery query).constants, x ∈ V) (haccepts : query.accepts f = true)
    (h : Unlooped s.rules A [] (Atom.ofQuery query).instances f) :
    s.Reaches { goals := [.solve (.ofQuery query) none 0 []] } := by
  have hanswers := answers_of_unlooped hover hview hV hbound h
  refine hanswers { goals := [] } (fun _ => default) (.ofQuery query) none 0 [] ?_ ?_ hquery ?_ ?_
    ?_ .nil ?_
  · exact ⟨wellFormed_empty, fun τ υ _ _ => admits_empty υ, admits_empty _⟩
  · simp [Bindings.Over]
  · exact ⟨Atom.standsFor_ofQuery.2 haccepts, fun v hv => absurd hv Atom.not_var_mem_ofQuery,
      by simp⟩
  · ext xs
    rw [mem_instances_resolve wellFormed_empty]
    constructor
    · rintro ⟨σ, -, hxs⟩
      exact ⟨σ, hxs⟩
    · rintro ⟨σ, hxs⟩
      exact ⟨σ, admits_empty σ, hxs⟩
  · simp [Placed]
  · intro b' σ' hgains
    exact .found hgains.goals (by simp [hgains.found])

end Search
end FactGraph
