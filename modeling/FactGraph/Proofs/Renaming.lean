import FactGraph.Proofs.Consequence
import FactGraph.Proofs.Numeral
import FactGraph.Search

/-!
# Renamed variables

When a rule is applied, its variables get a suffix with the number of the application. The number
can be read back from a name (`suffix_inj`), so that a variable with the suffix of an application
occurs in nothing that is older (`Older`): a valuation can be changed on it without touching what is
known about other variables (`Valuation.exists_renamed`).
-/

namespace FactGraph

/-! ## Suffixes -/

/-- The suffix of the variables of an application of a rule. -/
def suffixOf (n : Nat) : Text := '#'.toUInt8 :: Text.ofNat n

/-- Names with different suffixes are different, and the suffix tells the number. -/
theorem suffix_inj {v w : Text} {m n : Nat} (h : v ++ suffixOf m = w ++ suffixOf n) :
    v = w ∧ m = n := by
  have hsplit (v : Text) (n : Nat) :
      (v ++ suffixOf n).reverse.takeWhile (· != '#'.toUInt8) = (Text.ofNat n).reverse := by
    have hdigits : ∀ b ∈ (Text.ofNat n).reverse, (b != '#'.toUInt8) = true := by
      intro b hb
      rw [bne_iff_ne]
      rintro rfl
      exact Text.not_mem_ofNat (by decide) n (List.mem_reverse.1 hb)
    rw [suffixOf, List.reverse_append, List.reverse_cons, List.append_assoc,
      List.takeWhile_append_of_pos hdigits]
    simp
  have hn : m = n := by
    refine Text.ofNat_injective (List.reverse_injective ?_)
    rw [← hsplit v, ← hsplit w, h]
  rw [hn] at h
  exact ⟨List.append_cancel_right h, hn⟩

/-- Whether a variable is older than an application: it has not the suffix of this one or of a later
one. -/
def Older (n : Nat) (v : Text) : Prop := ∀ w k, v = w ++ suffixOf k → k < n

theorem Older.mono {m n : Nat} {v : Text} (h : Older m v) (hmn : m ≤ n) : Older n v :=
  fun w k hv => Nat.lt_of_lt_of_le (h w k hv) hmn

theorem older_renamed (v : Text) (n : Nat) : Older (n + 1) (v ++ suffixOf n) := by
  intro w k h
  rw [(suffix_inj h).2]
  exact Nat.lt_succ_self k

/-- Two valuations agree on the variables that are older than an application. -/
def AgreeBefore (n : Nat) (σ τ : Valuation) : Prop := ∀ v, Older n v → σ v = τ v

namespace AgreeBefore

variable {m n : Nat} {σ τ υ : Valuation}

theorem refl (n : Nat) (σ : Valuation) : AgreeBefore n σ σ := fun _ _ => rfl

theorem trans (h : AgreeBefore n σ τ) (h' : AgreeBefore n τ υ) : AgreeBefore n σ υ :=
  fun v hv => (h v hv).trans (h' v hv)

theorem mono (h : AgreeBefore n σ τ) (hmn : m ≤ n) : AgreeBefore m σ τ :=
  fun v hv => h v (hv.mono hmn)

end AgreeBefore

/-- The variables of a rule can be given any values under the names that they have in an
application, without touching older variables. -/
theorem Valuation.exists_renamed (σ τ : Valuation) (n : Nat) :
    ∃ υ : Valuation, AgreeBefore n σ υ ∧ ∀ v, υ (v ++ suffixOf n) = τ v := by
  classical
  refine ⟨fun x => if h : ∃ v, x = v ++ suffixOf n then τ h.choose else σ x, ?_, ?_⟩
  · intro x hx
    have hnot : ¬ ∃ v, x = v ++ suffixOf n := by
      rintro ⟨v, hv⟩
      exact Nat.lt_irrefl n (hx v n hv)
    simp only [dif_neg hnot]
  · intro v
    have h : ∃ w, v ++ suffixOf n = w ++ suffixOf n := ⟨v, rfl⟩
    simp only [dif_pos h]
    rw [← (suffix_inj h.choose_spec).1]

/-! ## Renamed atoms -/

variable {σ : Valuation} {n : Nat} {suffix : Text}

@[simp] theorem Term.standsFor_rename {t : Term} {x : Value} :
    (t.rename suffix).StandsFor σ x ↔ t.StandsFor (fun v => σ (v ++ suffix)) x := by
  cases t <;> rfl

@[simp] theorem Atom.terms_rename (a : Atom) :
    (a.rename suffix).terms = a.terms.map (Term.rename suffix) := rfl

/-- A renamed atom stands for the facts for which the atom stands under the values of the new
names. -/
@[simp] theorem Atom.standsFor_rename {a : Atom} {f : Fact} :
    (a.rename suffix).StandsFor σ f ↔ a.StandsFor (fun v => σ (v ++ suffix)) f := by
  simp [Atom.standsFor_iff, Atom.rename, Atom.map]

@[simp] theorem Atom.constants_rename (a : Atom) : (a.rename suffix).constants = a.constants := by
  simp only [Atom.constants, Atom.terms_rename, List.filterMap_map]
  congr
  funext t
  cases t <;> rfl

@[simp] theorem Atom.hasWildcard_rename (a : Atom) :
    (a.rename suffix).hasWildcard = a.hasWildcard := by
  simp only [Atom.hasWildcard, Atom.terms_rename, List.any_map]
  congr
  funext t
  cases t <;> rfl

theorem Atom.mem_terms_rename {a : Atom} {v : Text} :
    .var v ∈ (a.rename suffix).terms ↔ ∃ w, .var w ∈ a.terms ∧ v = w ++ suffix := by
  rw [Atom.terms_rename, List.mem_map]
  constructor
  · rintro ⟨t, ht, heq⟩
    cases t with
    | any => cases heq
    | constant c => cases heq
    | var w => exact ⟨w, ht, (Term.var.inj heq).symm⟩
  · rintro ⟨w, hw, rfl⟩
    exact ⟨.var w, hw, rfl⟩

theorem Atom.older_rename {a : Atom} {v : Text} (h : .var v ∈ (a.rename (suffixOf n)).terms) :
    Older (n + 1) v := by
  obtain ⟨w, -, rfl⟩ := Atom.mem_terms_rename.1 h
  exact older_renamed w n

theorem Condition.holdsOf_rename {c : Condition} {f : Fact} :
    (c.rename suffix).HoldsOf σ f ↔ c.HoldsOf (fun v => σ (v ++ suffix)) f := by
  simp only [Condition.HoldsOf, Condition.rename, Atom.standsFor_rename, Option.mem_def,
    Option.map_eq_some_iff]
  refine and_congr_right fun _ => ⟨fun h g hg => ?_, fun h g hg => ?_⟩
  · exact h _ ⟨g, hg, rfl⟩
  · obtain ⟨g', hg', rfl⟩ := hg
    exact h g' hg'

end FactGraph
