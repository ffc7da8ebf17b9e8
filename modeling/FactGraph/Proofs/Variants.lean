import FactGraph.Proofs.Keys
import FactGraph.Proofs.Search

/-!
# Goals that recur

The key of an atom is the text of the atom with its variables renamed to the numbers of their first
uses (`Atom.key_eq_flatMap`). So atoms that differ only in the names of variables have one key, and
where names end with their texts no other atoms have (`Atom.key_eq_iff`). A search cuts a goal that
has the key of a goal above it, and nothing else (`Search.cuts_iff`): with such names, it cuts
a goal that recurs on its path.
-/

namespace FactGraph

/-! ## Other names for variables -/

/-- A term with another name for its variable. -/
def Term.relabel (f : Text → Text) : Term → Term
  | .var v => .var (f v)
  | t => t

namespace Atom

variable {a a' a'' : Atom} {f g : Text → Text} {v : Text}

/-- An atom with other names for its variables. -/
def relabel (f : Text → Text) (a : Atom) : Atom := a.map (Term.relabel f)

/-- The variables of an atom. -/
def vars (a : Atom) : Set Text := {v | .var v ∈ a.terms}

/-- Whether an atom becomes another one by a bijective renaming of its variables. -/
def Variant (a a' : Atom) : Prop := ∃ f, Set.BijOn f a.vars a'.vars ∧ a' = a.relabel f

theorem terms_relabel (f : Text → Text) (a : Atom) :
    (a.relabel f).terms = a.terms.map (Term.relabel f) := rfl

theorem eq_of_terms_eq (h : a.terms = a'.terms) : a = a' := by
  obtain ⟨s, p, o⟩ := a
  obtain ⟨s', p', o'⟩ := a'
  simpa [terms] using h

theorem relabel_congr (h : ∀ v ∈ a.vars, f v = g v) : a.relabel f = a.relabel g := by
  refine eq_of_terms_eq ?_
  rw [terms_relabel, terms_relabel]
  refine List.map_congr_left fun t ht => ?_
  cases t with
  | any => rfl
  | constant x => rfl
  | var v => exact congrArg Term.var (h v ht)

theorem relabel_relabel (f g : Text → Text) (a : Atom) :
    (a.relabel f).relabel g = a.relabel (g ∘ f) := by
  refine eq_of_terms_eq ?_
  rw [terms_relabel, terms_relabel, terms_relabel, List.map_map]
  refine List.map_congr_left fun t _ => ?_
  cases t <;> rfl

theorem relabel_id (h : ∀ v ∈ a.vars, f v = v) : a.relabel f = a := by
  refine (relabel_congr (g := id) h).trans (eq_of_terms_eq ?_)
  rw [terms_relabel]
  refine (List.map_congr_left fun t _ => ?_).trans (List.map_id _)
  cases t <;> rfl

theorem vars_relabel (f : Text → Text) (a : Atom) : (a.relabel f).vars = f '' a.vars := by
  ext v
  rw [vars, Set.mem_ofPred_eq, terms_relabel, List.mem_map]
  constructor
  · rintro ⟨t, ht, heq⟩
    cases t with
    | any => cases heq
    | constant x => cases heq
    | var w => exact ⟨w, ht, Term.var.inj heq⟩
  · rintro ⟨w, hw, rfl⟩
    exact ⟨_, hw, rfl⟩

theorem variant_relabel (h : Set.InjOn f a.vars) : a.Variant (a.relabel f) :=
  ⟨f, vars_relabel f a ▸ h.bijOn_image, rfl⟩

namespace Variant

theorem trans (h : a.Variant a') (h' : a'.Variant a'') : a.Variant a'' := by
  obtain ⟨f, hf, rfl⟩ := h
  obtain ⟨g, hg, rfl⟩ := h'
  exact ⟨g ∘ f, hg.comp hf, relabel_relabel f g a⟩

theorem symm (h : a.Variant a') : a'.Variant a := by
  obtain ⟨f, hf, rfl⟩ := h
  have hinverse := hf.invOn_invFunOn
  refine ⟨_, hf.symm hinverse.symm, ?_⟩
  rw [relabel_relabel]
  exact (relabel_id fun v hv => hinverse.1 hv).symm

end Variant

/-! ## Numbers of variables -/

/-- The variables of an atom in the order of their first uses. -/
def met (a : Atom) : List Text := a.terms.foldl Term.meet []

/-- The number of a variable. -/
def number (a : Atom) (v : Text) : Text := Text.ofNat (a.met.idxOf v)

/-- The atom whose variables are renamed to their numbers. -/
def numbered (a : Atom) : Atom := a.relabel a.number

end Atom

namespace Term

variable {met : List Text} {ts : List Term} {v : Text} {f : Text → Text}

theorem mem_meet {t : Term} : v ∈ t.meet met ↔ v ∈ met ∨ t = .var v := by
  cases t with
  | any => simp [meet]
  | constant x => simp [meet]
  | var w =>
    rcases idxOf_meet w met with ⟨hw, hmeet, -⟩ | ⟨-, hmeet, -⟩ <;> rw [hmeet]
    · refine ⟨.inl, fun h => h.elim id fun heq => ?_⟩
      rwa [← Term.var.inj heq]
    · simp [eq_comm]

theorem mem_foldl_meet : v ∈ ts.foldl meet met ↔ v ∈ met ∨ .var v ∈ ts := by
  induction ts generalizing met with
  | nil => simp
  | cons t ts ih => rw [List.foldl_cons, ih, mem_meet, List.mem_cons, or_assoc, eq_comm (a := t)]

/-- What was met keeps its number. -/
theorem idxOf_foldl_meet (hv : v ∈ met) : (ts.foldl meet met).idxOf v = met.idxOf v := by
  induction ts generalizing met with
  | nil => rfl
  | cons t ts ih =>
    rw [List.foldl_cons, ih (mem_meet.2 (.inl hv))]
    cases t with
    | any => rfl
    | constant x => rfl
    | var w =>
      rcases idxOf_meet w met with ⟨-, hmeet, -⟩ | ⟨-, hmeet, -⟩ <;> rw [hmeet]
      exact List.idxOf_append_of_mem hv

/-- The key of terms is their text once the variables are renamed to their numbers. -/
theorem keys_eq_flatMap (met : List Text) (ts : List Term) :
    keys met ts = ts.flatMap fun t =>
      (t.relabel fun v => Text.ofNat ((ts.foldl meet met).idxOf v)).toText ++
        [Atom.keySeparator] := by
  induction ts generalizing met with
  | nil => rfl
  | cons t ts ih =>
    have hpart : t.keyPart met =
        (t.relabel fun v => Text.ofNat (((t :: ts).foldl meet met).idxOf v)).toText := by
      cases t with
      | any => rfl
      | constant x => rfl
      | var v =>
        rw [List.foldl_cons, relabel, idxOf_foldl_meet (mem_meet.2 (.inr rfl))]
        rfl
    rw [keys_cons, hpart, ih, List.flatMap_cons, List.append_assoc]
    rfl

/-- Variables that get other names are met in the same order. -/
theorem foldl_meet_map (h : Set.InjOn f {v | v ∈ met ∨ .var v ∈ ts}) :
    (ts.map (relabel f)).foldl meet (met.map f) = (ts.foldl meet met).map f := by
  induction ts generalizing met with
  | nil => rfl
  | cons t ts ih =>
    have hmeet : (t.relabel f).meet (met.map f) = (t.meet met).map f := by
      cases t with
      | any => rfl
      | constant x => rfl
      | var v =>
        have hmem : f v ∈ met.map f ↔ v ∈ met := by
          refine ⟨fun hv => ?_, List.mem_map_of_mem⟩
          obtain ⟨w, hw, heq⟩ := List.mem_map.1 hv
          rwa [← h (.inl hw) (.inr List.mem_cons_self) heq]
        simp only [relabel, meet, List.contains_iff_mem, hmem]
        split <;> simp
    rw [List.map_cons, List.foldl_cons, List.foldl_cons, hmeet]
    refine ih (h.mono fun v hv => ?_)
    rcases hv with hv | hv
    · exact (mem_meet.1 hv).imp id fun heq => List.mem_cons.2 (.inl heq.symm)
    · exact .inr (List.mem_cons_of_mem _ hv)

end Term

/-- A list whose members get other names has them in the same places. -/
theorem idxOf_map_of_injOn {l : List Text} {f : Text → Text} {v : Text}
    (h : Set.InjOn f {v | v ∈ l}) (hv : v ∈ l) : (l.map f).idxOf (f v) = l.idxOf v := by
  induction l with
  | nil => cases hv
  | cons w l ih =>
    rw [List.map_cons, List.idxOf_cons, List.idxOf_cons]
    by_cases heq : w = v
    · simp [heq]
    · have hne : f w ≠ f v := fun hf => heq (h List.mem_cons_self hv hf)
      have hl := ih (h.mono fun u hu => List.mem_cons_of_mem _ hu)
        ((List.mem_cons.1 hv).resolve_left (Ne.symm heq))
      rw [beq_false_of_ne hne, beq_false_of_ne heq, hl]

namespace Atom

variable {a a' : Atom} {f : Text → Text} {v : Text}

theorem mem_met : v ∈ a.met ↔ v ∈ a.vars := by
  rw [met, Term.mem_foldl_meet]
  simp [vars]

theorem injOn_number (a : Atom) : Set.InjOn a.number a.vars := fun _ hv _ _ heq =>
  (List.idxOf_inj (mem_met.2 hv)).1 (Text.ofNat_injective heq)

theorem key_eq_flatMap (a : Atom) :
    a.key = a.numbered.terms.flatMap fun t => t.toText ++ [keySeparator] := by
  rw [key, Term.keys_eq_flatMap, numbered, terms_relabel, List.flatMap_map]
  rfl

theorem numbered_relabel (h : Set.InjOn f a.vars) : (a.relabel f).numbered = a.numbered := by
  have hinj : Set.InjOn f {v | v ∈ ([] : List Text) ∨ .var v ∈ a.terms} :=
    h.mono fun v hv => hv.resolve_left List.not_mem_nil
  have hmet : (a.relabel f).met = a.met.map f := Term.foldl_meet_map hinj
  rw [numbered, relabel_relabel]
  refine relabel_congr fun v hv => ?_
  have hplace := idxOf_map_of_injOn (h.mono fun v hv => mem_met.1 hv) (mem_met.2 hv)
  rw [Function.comp_apply, number, number, hmet, hplace]

/-- An atom is known by its numbered form up to the names of its variables. -/
theorem variant_iff : a.Variant a' ↔ a.numbered = a'.numbered := by
  constructor
  · rintro ⟨f, hf, rfl⟩
    exact (numbered_relabel hf.injOn).symm
  · intro h
    have ha : a.Variant a.numbered := variant_relabel a.injOn_number
    have ha' : a'.Variant a'.numbered := variant_relabel a'.injOn_number
    rw [h] at ha
    exact ha.trans ha'.symm

end Atom

/-! ## Keys -/

/-- Whether the text of a term can be told from what stands behind it in a key. -/
def Term.Closed : Term → Prop
  | .any => True
  | .var v => Atom.keySeparator ∉ v
  | .constant x => x.Closed

theorem Term.toText_any : Term.any.toText = ['*'.toUInt8] := Term.keyPart_any []

/-- The texts of terms can be told from what stands behind the byte that ends them. -/
theorem Term.detaches_text :
    Encoding.Detaches (fun t : Term => t.toText ++ [Atom.keySeparator]) {t | t.Closed} := by
  have hconstant (x : Value) {c : UInt8} {rest s s' : Text}
      (hc : c = '?'.toUInt8 ∨ c = '*'.toUInt8) : x.toText ++ s ≠ c :: rest ++ s' := by
    obtain ⟨d, text, htext, -, hvariable, hwildcard⟩ := x.exists_cons_toText
    intro heq
    rw [htext, List.cons_append, List.cons_append, List.cons.injEq] at heq
    rw [heq.1] at hvariable hwildcard
    exact hc.elim hvariable hwildcard
  intro t ht t' ht' s s' h
  simp only [List.append_assoc, List.singleton_append] at h
  match t, t' with
  | .any, .any => exact ⟨rfl, (List.cons.inj (List.append_cancel_left h)).2⟩
  | .var v, .var w =>
    obtain ⟨rfl, hrest⟩ := append_separator_inj ht ht' (List.cons.inj h).2
    exact ⟨rfl, hrest⟩
  | .constant x, .constant y =>
    obtain ⟨rfl, hrest⟩ := Value.detaches_text x ht y ht' s s' <| by
      rw [List.append_assoc, List.append_assoc]
      exact h
    exact ⟨rfl, hrest⟩
  | .any, .var w =>
    rw [toText_any] at h
    exact absurd (List.cons.inj h).1 (by decide)
  | .var v, .any =>
    rw [toText_any] at h
    exact absurd (List.cons.inj h).1 (by decide)
  | .constant x, .any =>
    rw [toText_any] at h
    exact absurd h (hconstant x (.inr rfl))
  | .any, .constant x =>
    rw [toText_any] at h
    exact absurd h.symm (hconstant x (.inr rfl))
  | .constant x, .var v => exact absurd h (hconstant x (.inl rfl))
  | .var v, .constant x => exact absurd h.symm (hconstant x (.inl rfl))

namespace Atom

variable {a a' : Atom}

/-- Whether no name in an atom has an angle bracket with the byte behind it that ends terms in
keys. -/
def Closed (a : Atom) : Prop := ∀ x ∈ a.constants, x.Closed

instance : DecidablePred Closed := fun a => inferInstanceAs (Decidable (∀ x ∈ a.constants, _))

theorem Closed.numbered (h : a.Closed) : ∀ t ∈ a.numbered.terms, t.Closed := by
  intro t ht
  rw [Atom.numbered, terms_relabel] at ht
  obtain ⟨t, hmem, rfl⟩ := List.mem_map.1 ht
  cases t with
  | any => trivial
  | constant x => exact h x (Term.mem_constants.2 hmem)
  | var v => exact Text.not_mem_ofNat (by decide) _

/-- Atoms that differ only in the names of variables have one key. -/
theorem Variant.key_eq (h : a.Variant a') : a.key = a'.key := by
  rw [key_eq_flatMap, key_eq_flatMap, variant_iff.1 h]

/-- Where names end with their texts, atoms with one key differ only in the names of variables. -/
theorem Closed.key_eq_iff (ha : a.Closed) (ha' : a'.Closed) : a.key = a'.key ↔ a.Variant a' := by
  refine ⟨fun h => variant_iff.2 ?_, Variant.key_eq⟩
  rw [key_eq_flatMap, key_eq_flatMap] at h
  refine eq_of_terms_eq (Term.detaches_text.flatMap ha.numbered ha'.numbered rfl (s := []) (t := [])
    ?_).1
  rw [List.append_nil, List.append_nil]
  exact h

end Atom

/-! ## Goals above -/

namespace Search

variable {s : Search} {top g : Goal} {b b' : Branch} {path : List Atom} {atom : Atom}
  {guard : Option Guard} {depth : Nat} {above : List Text}

/-- Whether a goal of a branch stands below goals that asked for some atoms, the latest one first.
A goal stays where it stands while another one is worked on, and the conditions of a rule stand
below the goal to which the rule is applied. -/
inductive Below (s : Search) (top : Goal) : Branch → Goal → List Atom → Prop
  /-- Nothing is above the first goal. -/
  | top : Below s top { goals := [top] } top []
  /-- The next goal is worked on, and others stay. -/
  | stays {b b' : Branch} {g g' : Goal} {path : List Atom} :
      s.Takes { b with goals := g' :: b.goals } b' → g ∈ b.goals →
      Below s top { b with goals := g' :: b.goals } g path → Below s top b' g path
  /-- A rule is applied to the next goal, and its conditions become goals below that goal. -/
  | condition {b : Branch} {atom : Atom} {guard : Option Guard} {depth : Nat} {above : List Text}
      {a : Application} {g : Goal} {path : List Atom} :
      s.Takes { b with goals := .solve atom guard depth above :: b.goals }
        (withRule b guard depth ((atom.map b.bindings.resolve).key :: above) a) →
      g ∈ conditionGoals a.rule.conditions b.suffix (depth + 1)
        ((atom.map b.bindings.resolve).key :: above) →
      Below s top { b with goals := .solve atom guard depth above :: b.goals }
        (.solve atom guard depth above) path →
      Below s top (withRule b guard depth ((atom.map b.bindings.resolve).key :: above) a) g
        (atom.map b.bindings.resolve :: path)

/-- A goal carries the keys of what the goals above it asked for. -/
theorem Below.above_eq {first : Atom} (h : s.Below (.solve first none 0 []) b g path)
    (hg : g = .solve atom guard depth above) : above = path.map Atom.key := by
  induction h generalizing atom guard depth above with
  | top =>
    cases hg
    rfl
  | stays _ _ _ ih => exact ih hg
  | condition _ hmem _ ih =>
    obtain ⟨c, -, rfl⟩ := List.mem_map.1 hmem
    cases hg
    rw [List.map_cons, ← ih rfl]

/-- Every goal to be solved stands below goals that asked for something. -/
theorem Visits.exists_below (h : s.Visits [{ goals := [top] }] b)
    (hg : .solve atom guard depth above ∈ b.goals) :
    ∃ path, s.Below top b (.solve atom guard depth above) path := by
  refine h.induct (P := fun b => ∀ atom guard depth above, .solve atom guard depth above ∈ b.goals →
    ∃ path, s.Below top b (.solve atom guard depth above) path) ?_ ?_ _ _ _ _ hg
  · intro b b' htakes ih atom guard depth above hg
    have hstays {c : Branch} {g' : Goal} (hb : b = { c with goals := g' :: c.goals })
        (hmem : .solve atom guard depth above ∈ c.goals) :
        ∃ path, s.Below top b' (.solve atom guard depth above) path := by
      subst hb
      obtain ⟨path, hpath⟩ := ih _ _ _ _ (List.mem_cons_of_mem _ hmem)
      exact ⟨path, .stays htakes hmem hpath⟩
    cases htakes with
    | fact depth hkey hq hl hf hwith =>
      rw [goals_withFact hwith] at hg
      exact hstays rfl hg
    | rule guard' hkey hdepth ha =>
      rcases List.mem_append.1 hg with hg | hg
      · obtain ⟨path, hpath⟩ := ih _ _ _ _ List.mem_cons_self
        exact ⟨_, .condition (.rule guard' hkey hdepth ha) hg hpath⟩
      · rcases List.mem_cons.1 hg with hg | hg
        · cases hg
        · exact hstays rfl hg
    | conclude hc =>
      rw [goals_conclude hc] at hg
      exact hstays rfl hg
  · intro b hb atom guard depth above hg
    obtain rfl := List.mem_singleton.1 hb
    rw [List.mem_singleton.1 hg]
    exact ⟨[], .top⟩

/-! ## Cuts -/

/-- Whether a branch is given up because its next goal stands above itself. -/
def Cuts (s : Search) (b : Branch) (g : Goal) : Prop :=
  ∀ t, s.next t b g = ({ t with loopCut := true }, .ok [])

/-- A branch is given up where the goal has the key of a goal above it. -/
theorem cuts_iff : s.Cuts b (.solve atom guard depth above) ↔
    (atom.map b.bindings.resolve).key ∈ above := by
  constructor
  · intro h
    by_contra hkey
    -- A goal that is worked on is counted.
    have hcount : (s.next {} b (.solve atom guard depth above)).1.expansions = 1 := by
      simp only [next, List.contains_iff_mem, hkey, if_false]
      split
      · rfl
      · split <;> rfl
    rw [h {}] at hcount
    cases hcount
  · intro hkey t
    simp only [next, List.contains_iff_mem, hkey, if_true]

/-- Atoms that differ only in the names of variables have one key; no others have, unless a name in
them has an angle bracket with the byte behind it that ends terms in keys. In a search for a proof,
every goal stands below goals that asked for something, and a branch is given up as looping where
what its next goal asks for is, up to the names of variables, what one of these asked for; nowhere
else, unless there is such a name in what they ask for. -/
theorem cuts_recurring (a a' : Atom) (s : Search) (goal : Query) (b : Branch) (atom : Atom)
    (guard : Option Guard) (depth : Nat) (above : List Text) :
    let top : Goal := .solve (.ofQuery goal) none 0 []
    let g : Goal := .solve atom guard depth above
    let asking : Atom := atom.map b.bindings.resolve
    (a.Variant a' → a.key = a'.key) ∧
    (a.Closed → a'.Closed → a.key = a'.key → a.Variant a') ∧
    (s.Visits [{ goals := [top] }] { b with goals := g :: b.goals } →
      (∃ path, s.Below top { b with goals := g :: b.goals } g path) ∧
      ∀ path, s.Below top { b with goals := g :: b.goals } g path →
        ((∃ asked ∈ path, asking.Variant asked) → s.Cuts b g) ∧
        (asking.Closed → (∀ asked ∈ path, asked.Closed) → s.Cuts b g →
          ∃ asked ∈ path, asking.Variant asked)) := by
  intro top g asking
  refine ⟨Atom.Variant.key_eq, fun ha ha' => (ha.key_eq_iff ha').1, fun hvisits => ?_⟩
  refine ⟨hvisits.exists_below List.mem_cons_self, fun path hpath => ?_⟩
  have habove : s.Cuts b g ↔ asking.key ∈ path.map Atom.key := by
    rw [cuts_iff, hpath.above_eq rfl]
  rw [habove]
  constructor
  · rintro ⟨asked, hasked, hvariant⟩
    exact List.mem_map.2 ⟨asked, hasked, hvariant.key_eq.symm⟩
  · intro hasking hclosed hkey
    obtain ⟨asked, hasked, heq⟩ := List.mem_map.1 hkey
    exact ⟨asked, hasked, (hasking.key_eq_iff (hclosed asked hasked)).1 heq.symm⟩

/-- Two atoms with other names for their variables have one key, and so have two atoms with names
that run into each other. A rule that asks for what it derives is applied to a goal, and the branch
is given up. -/
theorem cuts_recurring_again :
    let a : Atom := ⟨.var "x", .named "p", .var "y"⟩
    let a' : Atom := ⟨.var "y", .named "p", .var "x"⟩
    let early : Atom := ⟨.named "a>\x1f<b", .named "c", .named "d"⟩
    let late : Atom := ⟨.named "a", .named "b", .named "c>\x1f<d"⟩
    let again : Rule := {
      name := "again"
      conditions := [{ atom := a }]
      actions := [.derive a] }
    let view : View := {
      find := fun _ => .ok []
      get := fun _ => .ok none
      contains := fun _ => .ok false
      extent := 1 }
    let goal : Query := ⟨some (.named "a"), some "p", some (.named "b")⟩
    let s : Search := { view, rules := [again], bound := 1 }
    let top : Goal := .solve (.ofQuery goal) none 0 []
    (a.key = a'.key ∧ a.Closed ∧ a'.Closed ∧ a.Variant a') ∧
      (early.key = late.key ∧ ¬ early.Variant late) ∧
      ∃ b atom guard depth above path,
        let g : Goal := .solve atom guard depth above
        let asking : Atom := atom.map b.bindings.resolve
        s.Visits [{ goals := [top] }] { b with goals := g :: b.goals } ∧
          s.Below top { b with goals := g :: b.goals } g path ∧ asking.Closed ∧
          (∀ asked ∈ path, asked.Closed) ∧ s.Cuts b g ∧ ∃ asked ∈ path, asking.Variant asked := by
  intro a a' early late again view goal s top
  let first : Branch := { goals := [] }
  let asked : Atom := (Atom.ofQuery goal).map first.bindings.resolve
  let x : Text := ("x" : Text) ++ suffixOf 0
  let y : Text := ("y" : Text) ++ suffixOf 0
  let b : Branch := withRule first none 0 [asked.key] {
    rule := again
    head := a.rename (suffixOf 0)
    bindings := { values := [(y, .named "b"), (x, .named "a")] } }
  let rest : Branch := { b with goals := b.goals.tail }
  let atom : Atom := a.rename (suffixOf 0)
  obtain ⟨hsame, hdiffer, hcuts⟩ := cuts_recurring a a' s goal rest atom none 1 [asked.key]
  -- The atoms over two variables.
  have hswap : a.Variant a' := Atom.variant_iff.2 (by decide +kernel)
  have hkey : a.key = a'.key := hsame hswap
  have hclosed : a.Closed ∧ a'.Closed := by decide +kernel
  refine ⟨⟨hkey, hclosed.1, hclosed.2, hdiffer hclosed.1 hclosed.2 hkey⟩,
    ⟨by decide +kernel, mt Atom.variant_iff.1 (by decide +kernel)⟩, ?_⟩
  -- The condition of the rule stands below the goal, which asked for the same.
  have hnext : s.next {} first top = ({ expansions := 1 }, .ok [b]) := by decide +kernel
  have hvisits : s.Visits [{ goals := [top] }] b := .next hnext (.first b [])
  have htakes : s.Takes { goals := [top] } b := takes_of_mem_next hnext List.mem_cons_self
  have hbelow : s.Below top b (.solve atom none 1 [asked.key]) [asked] :=
    .condition (b := first) htakes List.mem_cons_self .top
  have hasking : (atom.map rest.bindings.resolve).Closed := by decide +kernel
  have hasked : ∀ asked' ∈ [asked], asked'.Closed := by decide +kernel
  have hcut : s.Cuts rest (.solve atom none 1 [asked.key]) := cuts_iff.2 (by decide +kernel)
  obtain ⟨-, hpath⟩ := hcuts hvisits
  exact ⟨rest, atom, none, 1, [asked.key], [asked], hvisits, hbelow, hasking, hasked, hcut,
    (hpath [asked] hbelow).2 hasking hasked hcut⟩

end Search

end FactGraph
