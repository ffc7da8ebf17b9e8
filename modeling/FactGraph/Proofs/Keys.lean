import Mathlib.Data.Set.Finite.Lattice
import Mathlib.Data.Set.Finite.List
import FactGraph.Proofs.Renaming
import FactGraph.Proofs.Resolution
import FactGraph.Proofs.Spelling

/-!
# Keys of goals

What a goal asks for are the values for which its atom stands under some valuation
(`Atom.instances`). Over finitely many values there are finitely many keys (`finite_keysOver`), and
where texts tell these values apart, atoms with one key ask for the same (`instances_eq_of_key_eq`).
-/

namespace FactGraph

/-! ## What atoms ask for -/

/-- The values for which the terms of an atom stand under some valuation. -/
def Atom.instances (a : Atom) : Set (List Value) :=
  {xs | ∃ σ, List.Forall₂ (Term.StandsFor σ) a.terms xs}

/-- What an atom asks for under bindings are the values for which it stands under a valuation that
they admit. -/
theorem Bindings.mem_instances_resolve {b : Bindings} (hb : b.WellFormed) {a : Atom}
    {xs : List Value} : xs ∈ (a.map b.resolve).instances ↔
      ∃ σ, b.Admits σ ∧ List.Forall₂ (Term.StandsFor σ) a.terms xs := by
  have hterms : (a.map b.resolve).terms = a.terms.map b.resolve := rfl
  rw [Atom.instances, Set.mem_ofPred_eq, hterms]
  constructor
  · rintro ⟨ρ, h⟩
    -- Variables without a value get the one that the valuation gives to their root.
    obtain ⟨σ, hσ, hroot⟩ := hb.exists_admits ρ
    refine ⟨σ, hσ, (List.forall₂_map_left_iff.1 h).imp fun t x htx => ?_⟩
    rw [← hσ.standsFor_resolve hb]
    cases t with
    | any => trivial
    | constant c => exact htx
    | var v =>
      cases hl : b.values.lookup (b.root v) with
      | some y =>
        simp only [resolve, hl] at htx ⊢
        exact htx
      | none =>
        simp only [resolve, hl] at htx ⊢
        exact (hσ.root hb v).trans ((hroot v hl).trans htx)
  · rintro ⟨σ, hσ, h⟩
    exact ⟨σ, List.forall₂_map_left_iff.2
      (h.imp fun t x htx => (hσ.standsFor_resolve hb t x).2 htx)⟩

/-! ## Keys over values -/

variable {V : Set Value}

/-- The part of a key that stands for one term. -/
def Term.keyPart (met : List Text) : Term → Text
  | .var v => '?'.toUInt8 :: Text.ofNat ((if met.contains v then met else met ++ [v]).idxOf v)
  | t => t.toText

/-- The variables that were met once a term was seen. -/
def Term.meet (met : List Text) : Term → List Text
  | .var v => if met.contains v then met else met ++ [v]
  | _ => met

theorem Term.keys_cons (met : List Text) (t : Term) (rest : List Term) :
    Term.keys met (t :: rest) =
      t.keyPart met ++ Atom.keySeparator :: Term.keys (t.meet met) rest := by
  cases t <;> rfl

theorem Term.length_meet_le (met : List Text) (t : Term) : (t.meet met).length ≤ met.length + 1 := by
  cases t with
  | any => exact Nat.le_succ _
  | constant c => exact Nat.le_succ _
  | var v =>
    rw [meet]
    split
    · exact Nat.le_succ _
    · simp

/-- The parts of the keys of atoms over values. -/
def keyParts (V : Set Value) : Set Text :=
  insert (Term.any.toText) (Value.toText '' V ∪ (fun n => '?'.toUInt8 :: Text.ofNat n) '' {n | n < 3})

/-- The keys of atoms over values. -/
def keysOver (V : Set Value) : Set Text :=
  {key | ∃ p ∈ keyParts V, ∃ q ∈ keyParts V, ∃ r ∈ keyParts V,
    key = p ++ Atom.keySeparator :: (q ++ Atom.keySeparator :: (r ++ [Atom.keySeparator]))}

theorem finite_keysOver (h : V.Finite) : (keysOver V).Finite := by
  have hparts : (keyParts V).Finite :=
    ((h.image _).union ((Set.finite_lt_nat 3).image _)).insert _
  refine ((hparts.prod (hparts.prod hparts)).image fun e => e.1 ++ Atom.keySeparator ::
    (e.2.1 ++ Atom.keySeparator :: (e.2.2 ++ [Atom.keySeparator]))).subset ?_
  rintro key ⟨p, hp, q, hq, r, hr, rfl⟩
  exact ⟨(p, q, r), ⟨hp, hq, hr⟩, rfl⟩

theorem Term.keyPart_mem {met : List Text} (hmet : met.length < 3) {t : Term}
    (ht : Bindings.TermOver V t) : t.keyPart met ∈ keyParts V := by
  cases t with
  | any => exact Or.inl rfl
  | constant c => exact Or.inr (Or.inl ⟨c, ht c rfl, rfl⟩)
  | var v =>
    refine Or.inr (Or.inr ⟨_, ?_, rfl⟩)
    show _ < 3
    split
    · next hv => exact (List.idxOf_lt_length_of_mem (List.contains_iff_mem.1 hv)).trans hmet
    · have := List.idxOf_lt_length_of_mem (List.mem_append_right met (List.mem_singleton_self v))
      rw [List.length_append, List.length_singleton] at this
      omega

theorem Atom.key_eq (a : Atom) : a.key = a.subject.keyPart [] ++ keySeparator ::
    (a.predicate.keyPart (a.subject.meet []) ++ keySeparator ::
      (a.object.keyPart (a.predicate.meet (a.subject.meet [])) ++ [keySeparator])) := by
  simp only [key, terms, Term.keys_cons, Term.keys]

theorem Atom.key_mem_keysOver {a : Atom} (ha : ∀ x ∈ a.constants, x ∈ V) : a.key ∈ keysOver V := by
  have hterm {t : Term} (ht : t ∈ a.terms) : Bindings.TermOver V t :=
    Bindings.termOver_of_constants ha ht
  have hsubject : (a.subject.meet []).length ≤ 1 := Term.length_meet_le [] a.subject
  have hpredicate := Term.length_meet_le (a.subject.meet []) a.predicate
  exact ⟨_, Term.keyPart_mem (by simp) (hterm (by simp [Atom.terms])), _,
    Term.keyPart_mem (by omega) (hterm (by simp [Atom.terms])), _,
    Term.keyPart_mem (by omega) (hterm (by simp [Atom.terms])), a.key_eq⟩

/-! ## Atoms with one key -/

/-- Whether the texts of values tell the values apart within a key. -/
structure Legible (V : Set Value) : Prop where
  /-- Different values have different texts. -/
  injOn : Set.InjOn Value.toText V
  /-- No text has the byte that ends terms in keys. -/
  separator : ∀ x ∈ V, Atom.keySeparator ∉ x.toText

theorem Legible.separator_not_mem (h : Legible V) (met : List Text) {t : Term}
    (ht : Bindings.TermOver V t) : Atom.keySeparator ∉ t.keyPart met := by
  cases t with
  | any =>
    have : Text.ofString "*" = ['*'.toUInt8] := by decide +kernel
    rw [Term.keyPart, Term.toText, this]
    · decide
    · simp
  | constant c => exact h.separator c (ht c rfl)
  | var v =>
    rw [Term.keyPart, List.mem_cons, not_or]
    exact ⟨by decide, Text.not_mem_ofNat (by decide) _⟩

theorem Term.keyPart_any (met : List Text) : Term.any.keyPart met = ['*'.toUInt8] := by
  have : Text.ofString "*" = ['*'.toUInt8] := by decide +kernel
  exact this

theorem Value.toText_ne_keyPart (x : Value) (met : List Text) {t : Term}
    (ht : ∀ c, t ≠ .constant c) : x.toText ≠ t.keyPart met := by
  obtain ⟨c, rest, htext, -, hvariable, hwildcard⟩ := x.exists_cons_toText
  intro heq
  rw [htext] at heq
  cases t with
  | any =>
    rw [Term.keyPart_any] at heq
    exact hwildcard (List.cons.inj heq).1
  | constant c => exact ht c rfl
  | var v => exact hvariable (List.cons.inj heq).1

variable {σ τ : Valuation} {met met' : List Text} {x : Value} {xs : List Value} {v w : Text}

theorem idxOf_meet (v : Text) (met : List Text) :
    (v ∈ met ∧ Term.meet met (.var v) = met ∧ met.idxOf v < met.length ∨
      v ∉ met ∧ Term.meet met (.var v) = met ++ [v] ∧ (met ++ [v]).idxOf v = met.length) := by
  by_cases hv : v ∈ met
  · refine Or.inl ⟨hv, ?_, List.idxOf_lt_length_of_mem hv⟩
    rw [Term.meet, if_pos (List.contains_iff_mem.2 hv)]
  · refine Or.inr ⟨hv, ?_, ?_⟩
    · rw [Term.meet, if_neg (fun h => hv (List.contains_iff_mem.1 h))]
    · rw [List.idxOf_append_of_notMem hv]
      simp

/-- Variables with one number have one value if the variables that were met before have. -/
theorem value_of_idxOf_eq (hmet : met.map σ = met'.map τ) (hv : v ∈ met) (hw : w ∈ met')
    (heq : met.idxOf v = met'.idxOf w) : σ v = τ w := by
  have hvalue : (met.map σ)[met.idxOf v]? = some (σ v) := by
    rw [List.getElem?_map, List.getElem?_idxOf hv, Option.map_some]
  have hvalue' : (met'.map τ)[met'.idxOf w]? = some (τ w) := by
    rw [List.getElem?_map, List.getElem?_idxOf hw, Option.map_some]
  rw [hmet, heq, hvalue', Option.some.injEq] at hvalue
  exact hvalue.symm

/-- Terms with one part of a key stand for the same values, once the second variable has the value
of the first. -/
theorem Legible.standsFor_of_keyPart_eq (h : Legible V) {t t' : Term}
    (ht : Bindings.TermOver V t) (ht' : Bindings.TermOver V t')
    (heq : t.keyPart met = t'.keyPart met') (hmet : met.map σ = met'.map τ)
    (hx : t.StandsFor σ x) : ∃ τ', (∀ w ∈ met', τ' w = τ w) ∧
      (t.meet met).map σ = (t'.meet met').map τ' ∧
        ∀ υ, (∀ w ∈ t'.meet met', υ w = τ' w) → t'.StandsFor υ x := by
  have hlength : met.length = met'.length := by
    simpa only [List.length_map] using congrArg List.length hmet
  cases t with
  | any =>
    cases t' with
    | any => exact ⟨τ, fun w _ => rfl, hmet, fun υ _ => trivial⟩
    | constant c => exact absurd heq.symm (c.toText_ne_keyPart met (by simp))
    | var w =>
      rw [Term.keyPart_any] at heq
      exact absurd (List.cons.inj heq).1 (by decide)
  | constant c =>
    cases t' with
    | any => exact absurd heq (c.toText_ne_keyPart met' (by simp))
    | constant c' =>
      have hc : c = c' := h.injOn (ht c rfl) (ht' c' rfl) heq
      exact ⟨τ, fun w _ => rfl, hmet, fun υ _ => hc ▸ hx⟩
    | var w => exact absurd heq (c.toText_ne_keyPart met' (by simp))
  | var v =>
    cases t' with
    | any =>
      rw [Term.keyPart_any] at heq
      exact absurd (List.cons.inj heq).1 (by decide)
    | constant c => exact absurd heq.symm (c.toText_ne_keyPart met (by simp))
    | var w =>
      have hnumber : (Term.meet met (.var v)).idxOf v = (Term.meet met' (.var w)).idxOf w :=
        Text.ofNat_injective (List.cons.inj heq).2
      rcases idxOf_meet v met with ⟨hv, hmeet, hlt⟩ | ⟨hv, hmeet, hnew⟩ <;>
        rcases idxOf_meet w met' with ⟨hw, hmeet', hlt'⟩ | ⟨hw, hmeet', hnew'⟩ <;>
        rw [hmeet, hmeet'] at hnumber ⊢
      · refine ⟨τ, fun w _ => rfl, hmet, fun υ hυ => ?_⟩
        exact (hυ w hw).trans ((value_of_idxOf_eq hmet hv hw hnumber).symm.trans hx)
      · omega
      · omega
      · refine ⟨Function.update τ w (σ v), fun u hu => ?_, ?_, fun υ hυ => ?_⟩
        · exact Function.update_of_ne (ne_of_mem_of_not_mem hu hw) ..
        · have hsame : met'.map (Function.update τ w (σ v)) = met'.map τ :=
            List.map_congr_left fun u hu => Function.update_of_ne (ne_of_mem_of_not_mem hu hw) ..
          simp only [List.map_append, List.map_singleton, Function.update_self, hsame, hmet]
        · rw [Term.StandsFor, hυ w (by simp), Function.update_self]
          exact hx

theorem Legible.standsFor_of_keys_eq (h : Legible V) {ts ts' : List Term}
    (hts : ∀ t ∈ ts, Bindings.TermOver V t) (hts' : ∀ t ∈ ts', Bindings.TermOver V t)
    (hlength : ts.length = ts'.length) (heq : Term.keys met ts = Term.keys met' ts')
    (hmet : met.map σ = met'.map τ) (hxs : List.Forall₂ (Term.StandsFor σ) ts xs) :
    ∃ τ', (∀ w ∈ met', τ' w = τ w) ∧ List.Forall₂ (Term.StandsFor τ') ts' xs := by
  induction ts generalizing ts' met met' τ xs with
  | nil =>
    cases hxs
    rw [List.length_eq_zero_iff.1 hlength.symm]
    exact ⟨τ, fun w _ => rfl, .nil⟩
  | cons t ts ih =>
    cases ts' with
    | nil => cases hlength
    | cons t' ts' =>
      obtain ⟨ht, hts⟩ := List.forall_mem_cons.1 hts
      obtain ⟨ht', hts'⟩ := List.forall_mem_cons.1 hts'
      cases hxs with
      | @cons _ x _ xs hx hxs =>
        rw [Term.keys_cons, Term.keys_cons] at heq
        obtain ⟨hpart, hrest⟩ := append_separator_inj (h.separator_not_mem met ht)
          (h.separator_not_mem met' ht') heq
        obtain ⟨τ₁, hτ₁, hmet₁, hstands⟩ := h.standsFor_of_keyPart_eq ht ht' hpart hmet hx
        obtain ⟨τ', hτ', hall⟩ := ih hts hts' (Nat.succ.inj hlength) hrest hmet₁ hxs
        refine ⟨τ', fun w hw => ?_, .cons (hstands τ' hτ') hall⟩
        have hkept : w ∈ t'.meet met' := by
          cases t' with
          | any => exact hw
          | constant c => exact hw
          | var v =>
            rcases idxOf_meet v met' with ⟨-, hmeet, -⟩ | ⟨-, hmeet, -⟩ <;> rw [hmeet]
            · exact hw
            · exact List.mem_append_left _ hw
        exact (hτ' w hkept).trans (hτ₁ w hw)

/-- Where texts tell values apart, atoms with one key ask for the same. -/
theorem Legible.instances_eq_of_key_eq (h : Legible V) {a a' : Atom}
    (ha : ∀ x ∈ a.constants, x ∈ V) (ha' : ∀ x ∈ a'.constants, x ∈ V) (heq : a.key = a'.key) :
    a.instances = a'.instances := by
  have hterms {a : Atom} (ha : ∀ x ∈ a.constants, x ∈ V) : ∀ t ∈ a.terms, Bindings.TermOver V t :=
    fun t ht => Bindings.termOver_of_constants ha ht
  have hsub {a a' : Atom} (ha : ∀ x ∈ a.constants, x ∈ V) (ha' : ∀ x ∈ a'.constants, x ∈ V)
      (heq : a.key = a'.key) : a.instances ⊆ a'.instances := by
    rintro xs ⟨σ, hxs⟩
    have hkeys : Term.keys [] a.terms = Term.keys [] a'.terms := heq
    obtain ⟨τ, -, hτ⟩ := h.standsFor_of_keys_eq (τ := σ) (hterms ha) (hterms ha') rfl hkeys rfl hxs
    exact ⟨τ, hτ⟩
  exact Set.Subset.antisymm (hsub ha ha' heq) (hsub ha' ha heq.symm)

end FactGraph
