import FactGraph.Proofs.Materialization
import FactGraph.Proofs.Statistics

/-!
# What the counters of an engine count

However an engine is used, every call of forward chaining is counted when it begins, and so is every
sweep; a call begins sweeps up to the first one that fails or leaves the stored facts as they are,
or as many as its bound allows (`Run.isLeast_toFixpoint`). A call records the facts that it adds to the
store, each once, whether it fails or not (`Run.Records`), but the engine takes their number over
only when the call returns. So the number of derived facts is that of the facts which the calls that
returned have added; what a call added that failed is not in it, though the store keeps it and the
error for a bound that was reached tells how much it is (`Engine.calls_counted`).
-/

namespace FactGraph

namespace Run

variable {rules : List Rule} {s : Store} {r q : Run} {P : Run → Prop}

/-! ## What a call keeps -/

/-- What is kept when a sweep begins and by the sweep is kept by a run. -/
theorem toFixpoint_induction
    (sweep : ∀ r, P r → P (sweep rules { r with sweeps := r.sweeps + 1 }).1)
    (bound left : Nat) (h : P r) : P (toFixpoint rules bound left r).1 := by
  induction left generalizing r with
  | zero => exact h
  | succ left ih =>
    have hnext := sweep r h
    rw [toFixpoint]
    split
    · next heq => rwa [heq] at hnext
    · next heq =>
      rw [heq] at hnext
      split
      · exact hnext
      · exact ih hnext

/-- Whether a run that began with a store has recorded what was added to the store since then. -/
structure Records (s : Store) (r : Run) : Prop where
  /-- The index describes what is stored, unless the storage is closed. -/
  coherent : r.store.storage.isOpen = true → r.store.Coherent
  /-- The stored facts are those of the store at first and the recorded ones. -/
  content : ∀ f, f ∈ r.store.content ↔ f ∈ s.content ∨ f ∈ r.derived
  /-- Nothing is recorded that was stored at first. -/
  new : ∀ f ∈ r.derived, f ∉ s.content
  /-- Nothing is recorded twice. -/
  nodup : r.derived.Nodup

namespace Records

theorem start (hs : s.storage.isOpen = true → s.Coherent) : Records s { store := s } :=
  ⟨hs, by simp, by simp, List.nodup_nil⟩

/-- What is counted does not matter. -/
theorem congr (h : Records s r) (hstore : q.store = r.store) (hderived : q.derived = r.derived) :
    Records s q :=
  ⟨hstore ▸ h.coherent, hstore ▸ hderived ▸ h.content, hderived ▸ h.new, hderived ▸ h.nodup⟩

theorem begin (h : Records s r) : Records s { r with sweeps := r.sweeps + 1 } :=
  h.congr rfl rfl

theorem derive (h : Records s r) (values : Substitution) (head : Atom) :
    Records s (derive values r head).1 := by
  rw [Run.derive]
  split
  · exact h
  · next f _ =>
    split
    · exact h
    · next store id hi =>
      -- What can be stored in shows that the storage is open.
      have hs : r.store.Coherent := by
        obtain ⟨-, -, -, -, hput⟩ := Store.insert_eq_ok hi
        obtain ⟨storage, hstorage, -⟩ := hput rfl
        exact h.coherent (Storage.put_eq_ok.1 hstorage).2.1
      obtain ⟨hs', hnew, hcontent⟩ := hs.of_insert hi
      have hnot : f ∉ r.store.content := fun hf => by simpa using hnew.2 ⟨f, hf, rfl⟩
      rw [h.content, not_or] at hnot
      refine ⟨fun _ => hs', fun g => ?_, fun g hg => ?_, ?_⟩
      · simp only [hcontent, h.content, true_and, List.mem_append, List.mem_singleton, or_assoc]
      · rcases List.mem_append.1 hg with hg | hg
        · exact h.new g hg
        · exact List.mem_singleton.1 hg ▸ hnot.1
      · exact h.nodup.append (List.nodup_singleton f) (by simpa using hnot.2)
    · next store id hi =>
      obtain ⟨-, -, -, hold, -⟩ := Store.insert_eq_ok hi
      exact h.congr (hold rfl) rfl

theorem sweep (h : Records s r) : Records s (sweep rules r).1 :=
  sweep_induction (fun values _ head hr => hr.derive values head)
    (fun _ _ hr => hr.congr rfl rfl) h

theorem toFixpoint (h : Records s r) (bound left : Nat) :
    Records s (toFixpoint rules bound left r).1 :=
  toFixpoint_induction (fun _ hr => hr.begin.sweep) bound left h

/-- As many facts were added as are recorded. -/
theorem ncard_eq (h : Records s r) :
    (r.store.content \ s.content).ncard = r.derived.length := by
  have hset : r.store.content \ s.content = (r.derived.toFinset : Set Fact) := by
    ext f
    rw [Set.mem_sdiff, h.content, List.coe_toFinset, Set.mem_ofPred_eq]
    constructor
    · exact fun hf => hf.1.resolve_left hf.2
    · exact fun hf => ⟨.inr hf, h.new f hf⟩
  rw [hset, Set.ncard_coe_finset, List.toFinset_card_of_nodup h.nodup]

/-- As long as nothing is recorded, the stored facts stay as they are. -/
theorem length_eq_iff (h : Records s r) (hq : Records s q) (hinitial : r.derived <+: q.derived) :
    q.derived.length = r.derived.length ↔ q.store.content = r.store.content := by
  constructor
  · intro hlength
    have heq := hinitial.eq_of_length hlength.symm
    ext f
    rw [h.content, hq.content, heq]
  · intro hcontent
    refine le_antisymm (hq.nodup.length_le_of_subset fun f hf => ?_) hinitial.length_le
    have hstored := (hq.content f).2 (.inr hf)
    rw [hcontent, h.content] at hstored
    exact hstored.resolve_left (hq.new f hf)

end Records

theorem derived_prefix_sweep (rules : List Rule) (r : Run) :
    r.derived <+: (sweep rules r).1.derived := by
  refine sweep_induction (P := fun q => r.derived <+: q.derived) (fun values q head hq => ?_)
    (fun _ _ hq => hq) (List.prefix_refl _)
  rw [derive]
  split
  · exact hq
  · split
    · exact hq
    · exact hq.trans (List.prefix_append _ _)
    · exact hq

/-! ## Sweeps -/

/-- Whether the sweep behind a number of others is the last one: it fails, or it leaves the stored
facts as they are. -/
def Ends (rules : List Rule) (s : Store) (k : Nat) : Prop :=
  let r := after rules k { store := s }
  let next := sweep rules { r with sweeps := r.sweeps + 1 }
  next.2 ≠ none ∨ next.1.store.content = r.store.content

/-- The numbers of sweeps behind which there is a reason to stop. -/
def stops (rules : List Rule) (s : Store) (bound : Nat) : Set Nat :=
  {n | n = bound ∨ ∃ k, n = k + 1 ∧ Ends rules s k}

theorem after_succ (rules : List Rule) (k : Nat) (r : Run) :
    after rules (k + 1) r =
      (sweep rules { after rules k r with sweeps := (after rules k r).sweeps + 1 }).1 := by
  induction k generalizing r with
  | zero => rfl
  | succ k ih => rw [after, ih, after]

theorem Records.after (h : Records s r) (rules : List Rule) (k : Nat) :
    Records s (after rules k r) := by
  induction k with
  | zero => exact h
  | succ k ih =>
    rw [after_succ]
    exact ih.begin.sweep

/-- A run tells the last sweep by the number of facts that it has recorded. -/
theorem ends_iff (hs : s.storage.isOpen = true → s.Coherent) {k : Nat} {next : Run}
    {failed : Option Failure}
    (h : sweep rules { after rules k { store := s } with
      sweeps := (after rules k { store := s }).sweeps + 1 } = (next, failed)) :
    next = after rules (k + 1) { store := s } ∧ (Ends rules s k ↔ failed ≠ none ∨
      next.derived.length = (after rules k { store := s }).derived.length) := by
  have hnext : next = after rules (k + 1) { store := s } := by rw [after_succ, h]
  have hinitial := derived_prefix_sweep rules { after rules k { store := s } with
    sweeps := (after rules k { store := s }).sweeps + 1 }
  have hrecords := (Records.start hs).after rules
  refine ⟨hnext, ?_⟩
  rw [h] at hinitial
  rw [(hrecords k).length_eq_iff (hnext ▸ hrecords (k + 1)) hinitial, Ends, h]

/-- Behind sweeps none of which was the last one, as many sweeps are begun in all as there are up to
the first reason to stop. -/
theorem isLeast_toFixpoint (hs : s.storage.isOpen = true → s.Coherent) {bound k left : Nat}
    (hleft : k + left = bound) (hgoes : ∀ j < k, ¬ Ends rules s j) :
    IsLeast (stops rules s bound)
      (toFixpoint rules bound left (after rules k { store := s })).1.sweeps := by
  have hlater (j : Nat) (hj : Ends rules s j) : k ≤ j := not_lt.1 fun hlt => hgoes j hlt hj
  have hsweeps (k : Nat) : (after rules k { store := s }).sweeps = k := by
    rw [sweeps_after, Nat.zero_add]
  induction left generalizing k with
  | zero =>
    rw [toFixpoint, hsweeps]
    refine ⟨.inl hleft, ?_⟩
    rintro n (rfl | ⟨j, rfl, hj⟩)
    · exact hleft.le
    · exact Nat.le_succ_of_le (hlater j hj)
  | succ left ih =>
    have hlast (hk : Ends rules s k) : IsLeast (stops rules s bound) (k + 1) := by
      refine ⟨.inr ⟨k, rfl, hk⟩, ?_⟩
      rintro n (rfl | ⟨j, rfl, hj⟩)
      · omega
      · exact Nat.succ_le_succ (hlater j hj)
    rw [toFixpoint]
    split
    · next next e heq =>
      obtain ⟨rfl, hends⟩ := ends_iff hs heq
      rw [hsweeps]
      exact hlast (hends.2 (.inl (Option.some_ne_none e)))
    · next next heq =>
      obtain ⟨rfl, hends⟩ := ends_iff hs heq
      split
      · next hlength =>
        rw [hsweeps]
        exact hlast (hends.2 (.inr (beq_iff_eq.1 hlength)))
      · next hlength =>
        have hgoes' (j : Nat) (hj : j < k + 1) : ¬ Ends rules s j := by
          rcases Nat.lt_succ_iff_lt_or_eq.1 hj with hj | rfl
          · exact hgoes j hj
          · rw [hends]
            simpa using hlength
        exact ih (by omega) hgoes' fun j hj => not_lt.1 fun hlt => hgoes' j hlt hj

/-- No sweep fails for the bound on the number of sweeps. -/
theorem sweep_ne_noFixpoint {e : Failure} (h : (sweep rules r).2 = some e) (bound n : Nat) :
    e ≠ .logic (.noFixpoint bound n) := by
  refine Attempt.forEach_failure (motive := (· ≠ .logic (.noFixpoint bound n))) ?_ h
  intro r rule e he
  rw [apply] at he
  split at he
  · split at he
    · cases he
      intro h
      cases h
    · refine Attempt.forEach_failure (motive := (· ≠ .logic (.noFixpoint bound n))) ?_ he
      intro r m e he
      refine Attempt.forEach_failure (motive := (· ≠ .logic (.noFixpoint bound n))) ?_ he
      intro r head e he
      rw [derive] at he
      split at he
      · cases he
      · split at he
        · cases he
          rw [insertFailure]
          split <;> rintro ⟨⟩
        · cases he
        · cases he
  · cases he

/-- The error for the bound on the number of sweeps names the bound and how many facts were
recorded. -/
theorem toFixpoint_noFixpoint {bound left b n : Nat}
    (h : toFixpoint rules bound left r = (q, some (.logic (.noFixpoint b n)))) :
    b = bound ∧ n = q.derived.length := by
  induction left generalizing r with
  | zero =>
    rw [toFixpoint] at h
    cases h
    exact ⟨rfl, rfl⟩
  | succ left ih =>
    rw [toFixpoint] at h
    split at h
    · next heq =>
      cases h
      exact absurd rfl (sweep_ne_noFixpoint (by rw [heq]) b n)
    · split at h
      · cases h
      · exact ih h

end Run

/-! ## Calls of an engine -/

namespace Engine

/-- What can happen to an engine and to the store that it works on. -/
inductive Event where
  /-- Forward chaining with at most a number of sweeps. -/
  | infer (rules : Rulebook) (bound : Nat)
  /-- A task within the bounds of the engine. -/
  | task (t : Task)
  /-- A step of the store alone. -/
  | step (st : Store.Step)

/-- The engine after an event. -/
def next (e : Engine) : Event → Engine
  | .infer rules bound =>
    let i := e.store.infer e.counters rules bound
    { e with store := i.store, counters := i.counters }
  | .task t => (e.perform t).1
  | .step st => { e with store := e.store.step st }

/-- The engine after events. -/
def after (e : Engine) (events : List Event) : Engine := events.foldl next e

/-- A call of forward chaining. -/
structure Call where
  /-- The store in front of the call. -/
  before : Store
  /-- The rules. -/
  rules : List Rule
  /-- How many sweeps may be begun. -/
  bound : Nat
  /-- The store that the call leaves. -/
  after : Store
  /-- What the call comes to. -/
  outcome : Except Failure (List Fact)

/-- The call that infers with rules. -/
def call (e : Engine) (rules : Rulebook) (bound : Nat) : Call :=
  let i := e.store.infer e.counters rules bound
  { before := e.store, rules := rules.rules, bound, after := i.store, outcome := i.outcome }

/-- The call that an event is, if it is one. -/
def call? (e : Engine) : Event → Option Call
  | .infer rules bound => some (e.call rules bound)
  | .task (.infer rules) => some (e.call rules e.sweeps)
  | _ => none

/-- The calls among events. -/
def calls (e : Engine) : List Event → List Call
  | [] => []
  | event :: events => (e.call? event).toList ++ (e.next event).calls events

namespace Call

/-- How many facts a call adds to the store. -/
noncomputable def added (x : Call) : Nat := (x.after.content \ x.before.content).ncard

/-- How many sweeps a call begins. -/
noncomputable def begun (x : Call) : Nat := sInf (Run.stops x.rules x.before x.bound)

/-- Whether a call returns. -/
def returned (x : Call) : Bool := x.outcome.isOk

/-- Whether a call says what it adds to the store. -/
structure Tells (x : Call) : Prop where
  /-- Nothing is taken out of the store. -/
  kept : x.before.content ⊆ x.after.content
  /-- If the call returns, it lists the facts that are new in the store, each once. -/
  result : ∀ l, x.outcome = .ok l →
    l.Nodup ∧ ∀ f, f ∈ l ↔ f ∈ x.after.content ∧ f ∉ x.before.content
  /-- If it ends at the bound on the sweeps, it says how many facts are new in the store. -/
  noFixpoint : ∀ bound n, x.outcome = .error (.logic (.noFixpoint bound n)) →
    bound = x.bound ∧ n = x.added

end Call

/-- Whether an engine has counted calls and no others on the way to another engine. -/
structure Counted (e : Engine) (calls : List Call) (e' : Engine) : Prop where
  /-- Every call is counted. -/
  forwardRuns : e'.counters.forwardRuns = e.counters.forwardRuns + calls.length
  /-- Every sweep is counted. -/
  sweeps : e'.counters.sweeps = e.counters.sweeps + (calls.map Call.begun).sum
  /-- The facts are counted that calls added which returned. -/
  derived : e'.counters.derived =
    e.counters.derived + ((calls.filter Call.returned).map Call.added).sum

variable {e e' e'' : Engine} {event : Event} {events : List Event} {rules : Rulebook} {bound : Nat}

theorem Counted.trans {calls calls' : List Call} (h : Counted e calls e')
    (h' : Counted e' calls' e'') : Counted e (calls ++ calls') e'' where
  forwardRuns := by rw [h'.forwardRuns, h.forwardRuns, List.length_append, Nat.add_assoc]
  sweeps := by rw [h'.sweeps, h.sweeps, List.map_append, List.sum_append, Nat.add_assoc]
  derived := by
    rw [h'.derived, h.derived, List.filter_append, List.map_append, List.sum_append, Nat.add_assoc]

theorem counted_nil (h : e'.counters.forwardRuns = e.counters.forwardRuns ∧
    e'.counters.sweeps = e.counters.sweeps ∧ e'.counters.derived = e.counters.derived) :
    Counted e [] e' :=
  ⟨h.1, h.2.1, h.2.2⟩

/-- A call of forward chaining is counted and tells what it adds. -/
theorem counted_call (he : e.store.storage.isOpen = true → e.store.Coherent) (rules : Rulebook)
    (bound : Nat) :
    let e' := e.next (.infer rules bound)
    (e'.store.storage.isOpen = true → e'.store.Coherent) ∧
      Counted e [e.call rules bound] e' ∧ (e.call rules bound).Tells := by
  have hrecords : Run.Records e.store
      (Run.toFixpoint rules.rules bound bound { store := e.store }).1 :=
    (Run.Records.start he).toFixpoint bound bound
  have hbegun : sInf (Run.stops rules.rules e.store bound) =
      (Run.toFixpoint rules.rules bound bound { store := e.store }).1.sweeps :=
    (Run.isLeast_toFixpoint he (Nat.zero_add bound) fun j hj => absurd hj j.not_lt_zero).csInf_eq
  obtain ⟨⟨r, failed⟩, hrun⟩ : ∃ a, Run.toFixpoint rules.rules bound bound
    { store := e.store } = a := ⟨_, rfl⟩
  rw [hrun] at hrecords hbegun
  have hkept : e.store.content ⊆ r.store.content := fun f hf => (hrecords.content f).2 (.inl hf)
  have hlist (f : Fact) : f ∈ r.derived ↔ f ∈ r.store.content ∧ f ∉ e.store.content := by
    rw [hrecords.content]
    exact ⟨fun hf => ⟨.inr hf, hrecords.new f hf⟩, fun hf => hf.1.resolve_left hf.2⟩
  cases failed with
  | none =>
    simp only [next, call, Store.infer, hrun]
    refine ⟨hrecords.coherent, ⟨rfl, ?_, ?_⟩, hkept, ?_, ?_⟩
    · simp [Call.begun, hbegun]
    · rw [List.filter_singleton, Call.returned]
      exact congrArg (e.counters.derived + ·) hrecords.ncard_eq.symm
    · rintro l ⟨⟩
      exact ⟨hrecords.nodup, hlist⟩
    · rintro b n ⟨⟩
  | some failure =>
    simp only [next, call, Store.infer, hrun]
    refine ⟨hrecords.coherent, ⟨rfl, ?_, ?_⟩, hkept, ?_, ?_⟩
    · simp [Call.begun, hbegun]
    · simp [Call.returned, Except.isOk, Except.toBool]
    · rintro l ⟨⟩
    · rintro b n ⟨⟩
      obtain ⟨rfl, rfl⟩ := Run.toFixpoint_noFixpoint hrun
      exact ⟨rfl, hrecords.ncard_eq.symm⟩

/-- A search for a proof is no call of forward chaining. -/
theorem counted_prove (e : Engine) (rules : Rulebook) (goal : Query) :
    (e.next (.task (.prove rules goal))).store = e.store ∧
      Counted e [] (e.next (.task (.prove rules goal))) := by
  rw [next, perform, Store.prove]
  rcases Search.run _ _ _ with ⟨t, outcome⟩
  exact ⟨rfl, counted_nil ⟨rfl, rfl, rfl⟩⟩

/-- What happens to an engine leaves the index of its store describing what is stored, unless the
storage is closed, and counts the call that it is. -/
theorem counted_next (he : e.store.storage.isOpen = true → e.store.Coherent)
    (hchange : ∀ c, event ≠ .step (.change c)) :
    let e' := e.next event
    (e'.store.storage.isOpen = true → e'.store.Coherent) ∧
      Counted e (e.call? event).toList e' ∧ ∀ x ∈ (e.call? event).toList, x.Tells := by
  have hcall (rules : Rulebook) (bound : Nat) := counted_call he rules bound
  have hnone {P : Call → Prop} : ∀ x ∈ (none : Option Call).toList, P x := by simp
  cases event with
  | infer rules bound =>
    obtain ⟨he', hcounted, htells⟩ := hcall rules bound
    exact ⟨he', hcounted, List.forall_mem_singleton.2 htells⟩
  | task t =>
    cases t with
    | infer rules =>
      obtain ⟨he', hcounted, htells⟩ := hcall rules e.sweeps
      exact ⟨he', hcounted, List.forall_mem_singleton.2 htells⟩
    | findDerived rules q =>
      rw [next, perform]
      exact ⟨he, counted_nil ⟨rfl, rfl, rfl⟩, hnone⟩
    | prove rules goal =>
      obtain ⟨hstore, hcounted⟩ := counted_prove e rules goal
      exact ⟨hstore ▸ he, hcounted, hnone⟩
  | step st =>
    refine ⟨fun hopen => ?_, counted_nil ⟨rfl, rfl, rfl⟩, hnone⟩
    have hstep : (e.store.step st).storage.isOpen = true := hopen
    cases hs : e.store.storage.isOpen with
    | false => simp [(Store.step_of_closed hs st).2] at hstep
    | true =>
      refine (he hs).step (fun c hc => hchange c (congrArg Event.step hc)) ?_
      rintro rfl
      rw [Store.step, Store.close, Storage.isOpen_close] at hstep
      cases hstep

/-- However an engine is used on a coherent store that is not changed behind its back, it counts the
calls of forward chaining, the sweeps that they begin, and the facts that those of them add which
return. Every call says what it adds, be it by its result or by the error for its bound. -/
theorem calls_counted (he : e.store.Coherent) (hchange : ∀ c, .step (.change c) ∉ events) :
    Counted e (e.calls events) (e.after events) ∧ ∀ x ∈ e.calls events, x.Tells := by
  have hall (e : Engine) (he : e.store.storage.isOpen = true → e.store.Coherent) :
      Counted e (e.calls events) (e.after events) ∧ ∀ x ∈ e.calls events, x.Tells := by
    induction events generalizing e with
    | nil =>
      rw [calls, after, List.foldl_nil]
      exact ⟨counted_nil ⟨rfl, rfl, rfl⟩, by simp⟩
    | cons event events ih =>
      rw [calls, after, List.foldl_cons, ← after]
      simp only [List.mem_cons, not_or] at hchange
      obtain ⟨he', hfirst, htells⟩ :=
        counted_next he fun c hc => (hchange c).1 hc.symm
      obtain ⟨hrest, hall⟩ := ih (fun c => (hchange c).2) (e.next event) he'
      refine ⟨hfirst.trans hrest, fun x hx => ?_⟩
      rcases List.mem_append.1 hx with hx | hx
      · exact htells x hx
      · exact hall x hx
  exact hall e fun _ => he

/-- A call is cut off by its bound, and the fact that it has added is not counted. -/
theorem calls_counted_cut :
    let f : Fact := ⟨.named "a", "p", .named "p"⟩
    let mirror : Rule := {
      name := "mirror"
      conditions := [{ atom := ⟨.var "x", .var "p", .var "y"⟩ }]
      actions := [.derive ⟨.var "y", .var "p", .var "x"⟩] }
    let rules : Rulebook := { rules := [mirror] }
    let e : Engine := { store := { storage := .memory {} }, sweeps := 5, depth := 5 }
    let events : List Event :=
      [.step (.request (.insert f)), .infer rules 1, .task (.infer rules)]
    ((e.after events).counters.forwardRuns = 2 ∧ (e.after events).counters.sweeps = 2 ∧
      (e.after events).counters.derived = 0) ∧
      ((e.calls events).map Call.begun).sum = 2 ∧
      ∃ x ∈ e.calls events, x.outcome = .error (.logic (.noFixpoint 1 1)) ∧ x.added = 1 := by
  intro f mirror rules e events
  have he : e.store.Coherent := (Store.coherent_of_items_eq_nil rfl).1
  have hchange : ∀ c, .step (.change c) ∉ events := by
    intro c
    simp [events]
  have hcounters : (e.after events).counters.forwardRuns = 2 ∧
      (e.after events).counters.sweeps = 2 ∧ (e.after events).counters.derived = 0 := by
    decide +kernel
  have houtcome : ((e.next (.step (.request (.insert f)))).call rules 1).outcome =
      .error (.logic (.noFixpoint 1 1)) := by decide +kernel
  obtain ⟨hcounted, htells⟩ := calls_counted he hchange
  have hsweeps := hcounted.sweeps
  rw [hcounters.2.1] at hsweeps
  have hmem : (e.next (.step (.request (.insert f)))).call rules 1 ∈ e.calls events :=
    List.mem_cons_self
  exact ⟨hcounters, by simpa [e] using hsweeps.symm, _, hmem, houtcome,
    ((htells _ hmem).noFixpoint 1 1 houtcome).2.symm⟩

end Engine
end FactGraph
