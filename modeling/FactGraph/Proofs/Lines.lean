import FactGraph.Proofs.Recognition

/-!
# Lines of documents

A line is silent, or it says something, or it is malformed. The reader passes over the silent lines
and takes those that say something (`readLine_eq_none`, `readLine_eq_some`), so that it reads a
document without malformed lines to its end (`parse_of_tells`) and stops at the first malformed line
of any other one (`readLines_of_malformed`).
-/

namespace FactGraph.NTriples

/-- The reader passes over exactly the lines that are empty or comments. -/
theorem readLine_eq_none {line : Text} : readLine line = .ok none ↔ Silent line := by
  rw [readLine]
  constructor
  · intro h
    split at h
    · next hcloses =>
      obtain ⟨gap, hline, hgap⟩ := Place.exists_gap ⟨0, line⟩
      exact ⟨gap, _, hline, hgap, Place.closes_iff.1 hcloses⟩
    · obtain ⟨s, -, h⟩ := map_eq_ok.1 h
      cases h
  · rintro ⟨gap, t, rfl, hgap, hcloses⟩
    rw [Place.skip_append hgap hcloses.plain]
    exact if_pos (Place.closes_iff.2 hcloses)

/-- The reader takes exactly the lines that say something. -/
theorem readLine_eq_some {line : Text} {s : Statement} :
    readLine line = .ok (some s) ↔ ∃ c, States line c ∧ s = c.statement := by
  rw [readLine]
  constructor
  · intro h
    split at h
    · cases h
    · obtain ⟨s', hs, h⟩ := map_eq_ok.1 h
      cases h
      obtain ⟨gap, hline, hgap⟩ := Place.exists_gap ⟨0, line⟩
      obtain ⟨c, hc, rfl⟩ := Place.statement_eq_ok.1 hs
      exact ⟨c, ⟨gap, _, hline, hgap, hc⟩, rfl⟩
  · rintro ⟨c, ⟨gap, t, rfl, hgap, hc⟩, rfl⟩
    rw [Place.skip_append hgap hc.plain, if_neg (mt Place.closes_iff.1 hc.not_closes)]
    exact map_eq_ok.2 ⟨_, Place.statement_eq_ok.2 ⟨c, hc, rfl⟩, rfl⟩

theorem exists_readLine_eq_error {line : Text} :
    (∃ e, readLine line = .error e) ↔ Malformed line := by
  rw [Malformed, ← readLine_eq_none]
  constructor
  · rintro ⟨e, he⟩
    refine ⟨by simp [he], ?_⟩
    rintro ⟨c, hc⟩
    have hs := readLine_eq_some.2 ⟨c, hc, rfl⟩
    rw [he] at hs
    cases hs
  · rintro ⟨hnone, hsome⟩
    cases h : readLine line with
    | error e => exact ⟨e, rfl⟩
    | ok o =>
      cases o with
      | none => exact absurd h hnone
      | some s =>
        obtain ⟨c, hc, -⟩ := readLine_eq_some.1 h
        exact absurd ⟨c, hc⟩ hsome

instance : DecidablePred Malformed := fun line =>
  decidable_of_iff ((readLine line).toOption.isNone = true) <| by
    rw [← exists_readLine_eq_error]
    cases readLine line <;> simp [Except.toOption]

theorem Silent.not_states {line : Text} (h : Silent line) {c : Clause} : ¬ States line c := by
  intro hc
  have hs := readLine_eq_some.2 ⟨c, hc, rfl⟩
  rw [readLine_eq_none.2 h] at hs
  cases hs

/-! ## Documents -/

variable {lines : List Text}

/-- The statements of lines are what the lines say. -/
theorem readLines_eq_ok {n : Nat} {statements : List Statement} :
    readLines n lines = .ok statements ↔
      ∃ clauses, Tells lines clauses ∧ statements = clauses.map Clause.statement := by
  constructor
  · intro h
    induction lines generalizing n statements with
    | nil =>
      cases h
      exact ⟨[], .nil, rfl⟩
    | cons line lines ih =>
      rw [readLines] at h
      split at h
      · cases h
      · next hline =>
        obtain ⟨clauses, htells, rfl⟩ := ih h
        exact ⟨clauses, .silent (readLine_eq_none.1 hline) htells, rfl⟩
      · next s hline =>
        obtain ⟨rest, hrest, rfl⟩ := map_eq_ok.1 h
        obtain ⟨clauses, htells, rfl⟩ := ih hrest
        obtain ⟨c, hc, rfl⟩ := readLine_eq_some.1 hline
        exact ⟨c :: clauses, .states hc htells, rfl⟩
  · rintro ⟨clauses, htells, rfl⟩
    induction htells generalizing n with
    | nil => rfl
    | silent hline _ ih =>
      rw [readLines, readLine_eq_none.2 hline]
      exact ih
    | states hline _ ih =>
      rw [readLines, readLine_eq_some.2 ⟨_, hline, rfl⟩]
      exact map_eq_ok.2 ⟨_, ih, rfl⟩

theorem Tells.unique {clauses clauses' : List Clause} (h : Tells lines clauses)
    (h' : Tells lines clauses') : clauses = clauses' := by
  induction h generalizing clauses' with
  | nil =>
    cases h'
    rfl
  | silent hline _ ih =>
    cases h' with
    | silent _ h' => exact ih h'
    | states hc' _ => exact absurd hc' hline.not_states
  | states hc _ ih =>
    cases h' with
    | silent hline' _ => exact absurd hc hline'.not_states
    | states hc' h' => rw [hc.unique hc', ih h']

/-- Lines can be told unless one of them is malformed. -/
theorem exists_tells : (∃ clauses, Tells lines clauses) ↔ ∀ line ∈ lines, ¬ Malformed line := by
  constructor
  · rintro ⟨clauses, h⟩
    induction h with
    | nil => simp
    | silent hline _ ih => exact List.forall_mem_cons.2 ⟨fun hbad => hbad.1 hline, ih⟩
    | states hline _ ih => exact List.forall_mem_cons.2 ⟨fun hbad => hbad.2 ⟨_, hline⟩, ih⟩
  · intro h
    induction lines with
    | nil => exact ⟨[], .nil⟩
    | cons line lines ih =>
      rw [List.forall_mem_cons] at h
      obtain ⟨clauses, hclauses⟩ := ih h.2
      by_cases hsilent : Silent line
      · exact ⟨clauses, .silent hsilent hclauses⟩
      · obtain ⟨c, hc⟩ := not_not.1 fun hnone => h.1 ⟨hsilent, hnone⟩
        exact ⟨c :: clauses, .states hc hclauses⟩

/-- Of the malformed lines of a document, if there are any, one is the first. -/
theorem exists_first_malformed (h : ∃ line ∈ lines, Malformed line) :
    ∃ (i : Nat) (line : Text), lines[i]? = some line ∧ Malformed line ∧
      ∀ j < i, ∀ l, lines[j]? = some l → ¬ Malformed l := by
  classical
  have hsome : ∃ (i : Nat) (line : Text), lines[i]? = some line ∧ Malformed line := by
    obtain ⟨line, hline, hbad⟩ := h
    obtain ⟨i, hi⟩ := List.mem_iff_getElem?.1 hline
    exact ⟨i, line, hi, hbad⟩
  obtain ⟨line, hline, hbad⟩ := Nat.find_spec hsome
  exact ⟨Nat.find hsome, line, hline, hbad,
    fun j hj l hl hmalformed => Nat.find_min hsome hj ⟨l, hl, hmalformed⟩⟩

/-- Reading stops at the first malformed line, and the error tells its number. -/
theorem readLines_of_malformed {n i : Nat} {line : Text} (hline : lines[i]? = some line)
    (hbad : Malformed line) (hfirst : ∀ j < i, ∀ l, lines[j]? = some l → ¬ Malformed l) :
    ∃ column fault, readLine line = .error ⟨column, fault⟩ ∧
      readLines n lines = .error (.document (n + i) column fault) := by
  induction lines generalizing n i with
  | nil => cases hline
  | cons l lines ih =>
    cases i with
    | zero =>
      cases hline
      obtain ⟨⟨column, fault⟩, he⟩ := exists_readLine_eq_error.2 hbad
      exact ⟨column, fault, he, by rw [readLines, he]; rfl⟩
    | succ i =>
      have hl : ¬ Malformed l := hfirst 0 (Nat.succ_pos i) l rfl
      obtain ⟨column, fault, he, hrest⟩ := ih (n := n + 1) hline fun j hj l' hl' =>
        hfirst (j + 1) (Nat.succ_lt_succ hj) l' hl'
      refine ⟨column, fault, he, ?_⟩
      rw [Nat.add_right_comm, Nat.add_assoc] at hrest
      cases h : readLine l with
      | error e => exact absurd (exists_readLine_eq_error.1 ⟨e, h⟩) hl
      | ok o =>
        cases o with
        | none => simpa only [readLines, h] using hrest
        | some s => simp only [readLines, h, hrest]; rfl

/-- The facts of a document are what its lines say. -/
theorem parse_of_tells {document : Text} {clauses : List Clause}
    (h : Tells document.lines clauses) (labelled : Text → Node) :
    parse labelled document = .ok (clauses.map (Clause.fact labelled)) := by
  have hread : read document = .ok (clauses.map Clause.statement) :=
    readLines_eq_ok.2 ⟨clauses, h, rfl⟩
  rw [parse, hread]
  simp only [bind, Except.bind, pure, Except.pure, List.map_map]
  rfl

end FactGraph.NTriples
