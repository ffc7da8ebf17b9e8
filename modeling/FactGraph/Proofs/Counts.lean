import FactGraph.Cli
import FactGraph.Proofs.Numeral
import FactGraph.Proofs.Outcome

/-!
# Counts on the command line

The value of an option that counts is read as C reads an unsigned integer: behind white space, with
a sign of either kind in front of the digits (`Numeral.Denotes`). Only a minus sign at the very
front is turned away before that. So every numeral without a minus sign is taken at its value if 64
bits hold it; one with a minus sign is refused where nothing stands in front of the sign, and counts
down from `2 ^ 64` where white space does (`Numeral.count?_eq_some`).

Words are read from the left, so that what the words in front have come to does not depend on the
words behind, unless an option in front still waits for its value (`Cli.Options.read_append`). It
follows what a run makes of the value of such an option (`Cli.run_count`).
-/

namespace FactGraph

namespace Numeral

open Text

/-- A text denotes the integer that its digits and its sign make; white space may stand in front. -/
inductive Denotes : Bool → Text → Nat → Prop
  /-- There is no sign. -/
  | plain {blanks digits : Text} (hblanks : ∀ c ∈ blanks, isSpace c = true) (hne : digits ≠ [])
      (hdigits : ∀ c ∈ digits, isDigit c = true) :
      Denotes false (blanks ++ digits) (decimalValue digits)
  /-- There is a plus sign. -/
  | plus {blanks digits : Text} (hblanks : ∀ c ∈ blanks, isSpace c = true) (hne : digits ≠ [])
      (hdigits : ∀ c ∈ digits, isDigit c = true) :
      Denotes false (blanks ++ '+'.toUInt8 :: digits) (decimalValue digits)
  /-- There is a minus sign. -/
  | minus {blanks digits : Text} (hblanks : ∀ c ∈ blanks, isSpace c = true) (hne : digits ≠ [])
      (hdigits : ∀ c ∈ digits, isDigit c = true) :
      Denotes true (blanks ++ '-'.toUInt8 :: digits) (decimalValue digits)

variable {t digits : Text} {negative : Bool} {n : Nat}

theorem splitSign_digits (hdigits : ∀ c ∈ digits, isDigit c = true) :
    splitSign digits = (false, digits) := by
  cases digits with
  | nil => rfl
  | cons c digits =>
    obtain ⟨-, hminus, hplus⟩ := plain_of_isDigit c (hdigits c List.mem_cons_self)
    simp [splitSign, hminus, hplus]

theorem splitSign_eq (h : splitSign t = (negative, digits)) :
    (negative = false ∧ (t = digits ∨ t = '+'.toUInt8 :: digits)) ∨
      (negative = true ∧ t = '-'.toUInt8 :: digits) := by
  revert h
  fun_cases splitSign t <;> simp_all

/-- A text is read to its end as an integer if nothing but digits is behind its white space and its
sign. -/
theorem signed?_eq_some_length : signed? t = some ⟨(negative, n), t.length⟩ ↔
    ∃ digits, splitSign (t.dropWhile isSpace) = (negative, digits) ∧ digits ≠ [] ∧
      (∀ c ∈ digits, isDigit c = true) ∧ decimalValue digits = n := by
  rw [signed?]
  obtain ⟨sign, rest, hsplit⟩ : ∃ sign rest, splitSign (t.dropWhile isSpace) = (sign, rest) :=
    ⟨_, _, rfl⟩
  rw [hsplit]
  dsimp only
  constructor
  · intro h
    split at h
    · cases h
    · next hne =>
      simp only [Option.some.injEq, Reading.mk.injEq, Prod.mk.injEq] at h
      obtain ⟨⟨rfl, rfl⟩, hused⟩ := h
      have hlength : rest.length ≤ t.length := by
        have hle := (List.dropWhile_suffix isSpace (l := t)).length_le
        rcases splitSign_eq hsplit with ⟨-, heq | heq⟩ | ⟨-, heq⟩
        · rwa [heq] at hle
        · rw [heq] at hle
          exact (Nat.le_succ _).trans hle
        · rw [heq] at hle
          exact (Nat.le_succ _).trans hle
      -- Nothing is left behind the digits, as what is left was not counted.
      have hall : rest.takeWhile isDigit = rest := by
        have hinitial := List.takeWhile_prefix isDigit (l := rest)
        refine hinitial.eq_of_length (le_antisymm hinitial.length_le ?_)
        have hnonempty : rest ≠ [] := by
          rintro rfl
          exact hne rfl
        have hpos := List.length_pos_iff.2 hnonempty
        rw [List.length_drop] at hused
        omega
      rw [hall] at hne
      exact ⟨rest, rfl, by simpa using hne, List.takeWhile_eq_self_iff.1 hall, by rw [hall]⟩
  · rintro ⟨digits, heq, hne, hdigits, rfl⟩
    obtain ⟨rfl, rfl⟩ := Prod.mk.inj heq
    have hall : rest.takeWhile isDigit = rest := List.takeWhile_eq_self_iff.2 hdigits
    simp [hall, hne]

/-- A text is read to its end as an integer if and only if it denotes it. -/
theorem denotes_iff : Denotes negative t n ↔ signed? t = some ⟨(negative, n), t.length⟩ := by
  rw [signed?_eq_some_length]
  constructor
  · have hspace (c : UInt8) (hc : isDigit c = true) : isSpace c = false :=
      (plain_of_isDigit c hc).1
    rintro (⟨hblanks, hne, hdigits⟩ | ⟨hblanks, hne, hdigits⟩ | ⟨hblanks, hne, hdigits⟩) <;>
      refine ⟨_, ?_, hne, hdigits, rfl⟩
    · rw [dropWhile_append hblanks fun c hc => hspace c (hdigits c (List.mem_of_mem_head? hc)),
        splitSign_digits hdigits]
    · rw [dropWhile_append hblanks (by simp; decide)]
      rfl
    · rw [dropWhile_append hblanks (by simp; decide)]
      rfl
  · rintro ⟨digits, hsplit, hne, hdigits, rfl⟩
    have hblanks (c : UInt8) (hc : c ∈ t.takeWhile isSpace) : isSpace c = true :=
      List.mem_takeWhile_imp hc
    rw [← List.takeWhile_append_dropWhile (p := isSpace) (l := t)]
    rcases splitSign_eq hsplit with ⟨rfl, heq | heq⟩ | ⟨rfl, heq⟩ <;> rw [heq]
    · exact .plain hblanks hne hdigits
    · exact .plus hblanks hne hdigits
    · exact .minus hblanks hne hdigits

/-- A text with a minus sign at its very front denotes no number without one. -/
theorem Denotes.head?_ne (h : Denotes false t n) : t.head? ≠ some '-'.toUInt8 := by
  rw [denotes_iff, signed?_eq_some_length] at h
  obtain ⟨digits, hsplit, -⟩ := h
  intro hhead
  obtain ⟨rest, rfl⟩ := List.head?_eq_some_iff.1 hhead
  have hspace : isSpace '-'.toUInt8 = false := rfl
  rw [List.dropWhile_cons_of_neg (by simp [hspace])] at hsplit
  cases hsplit

/-- A text is read as a count if and only if it denotes a number without a minus sign that 64 bits
hold, which is the count then, or such a number with a minus sign that does not stand at its very
front, which is counted down from `2 ^ 64`. -/
theorem count?_eq_some {m : UInt64} : count? t = some m ↔ Denotes false t m.toNat ∨
    ∃ n, Denotes true t n ∧ n < 2 ^ 64 ∧ t.head? ≠ some '-'.toUInt8 ∧ m = 0 - UInt64.ofNat n := by
  rw [count?]
  by_cases hhead : t.head? = some '-'.toUInt8
  · simp only [hhead, beq_self_eq_true, if_true, ne_eq, not_true, false_and, and_false,
      exists_false, or_false, reduceCtorEq, false_iff]
    exact fun h => h.head?_ne hhead
  · rw [if_neg (by simpa using hhead)]
    simp only [denotes_iff]
    cases hsigned : signed? t with
    | none => simp
    | some r =>
      obtain ⟨⟨negative, n⟩, used⟩ := r
      simp only [Option.some.injEq, Reading.mk.injEq, Prod.mk.injEq]
      by_cases hread : used = t.length ∧ n < 2 ^ 64
      · obtain ⟨rfl, hn⟩ := hread
        have hvalue : UInt64.ofNat n = m ↔ n = m.toNat :=
          ⟨fun h => h ▸ (UInt64.toNat_ofNat_of_lt hn).symm, fun h => h ▸ UInt64.ofNat_toNat⟩
        rw [if_neg (by simpa [UInt64.size] using hn)]
        cases negative with
        | false => simp [hvalue]
        | true => simpa [hhead, eq_comm] using fun _ => hn
      · have hlt := m.toNat_lt
        rw [if_pos (by simp [UInt64.size]; omega)]
        simp only [reduceCtorEq, false_iff, not_or, not_exists]
        constructor
        · rintro ⟨⟨-, hm⟩, hused⟩
          exact hread ⟨hused, hm ▸ hlt⟩
        · rintro k ⟨⟨⟨-, hk⟩, hused⟩, hlt, -⟩
          exact hread ⟨hused, hk ▸ hlt⟩

end Numeral

namespace Cli

open Numeral

/-- An option whose value is a count. -/
inductive CountOption where
  /-- How many sweeps forward chaining makes at most. -/
  | sweeps
  /-- How deep a search goes. -/
  | depth
  /-- How many facts are shown at most. -/
  | limit
  /-- How many facts are left out in front. -/
  | offset

namespace CountOption

/-- The word for the option. -/
def word : CountOption → Text
  | sweeps => "--max-iterations"
  | depth => "--max-depth"
  | limit => "--limit"
  | offset => "--offset"

/-- What a count does to the options. -/
def set : CountOption → Options → UInt64 → Options
  | sweeps, o, n => { o with sweeps := some n }
  | depth, o, n => { o with depth := some n }
  | limit, o, n => { o with limit := n }
  | offset, o, n => { o with offset := n }

theorem setter?_word (k : CountOption) :
    Options.setter? k.word = some (Options.counting k.word k.set) := by
  cases k <;> rfl

end CountOption

namespace Options

variable {o o' : Options} {w : Text} {before rest : List Text}

/-- An option that needs a value is none of the words that stand alone. -/
theorem word_of_setter? (h : setter? w ≠ none) (o : Options) :
    o.word w = .error (.unknown w) := by
  have hor {c : Bool} {set : Setter} {others : Option Setter}
      (h : (if c then some set else others) ≠ none) : c = true ∨ others ≠ none := by
    cases c with
    | false => exact .inr h
    | true => exact .inl rfl
  rw [setter?] at h
  iterate 12
    rcases hor h with heq | h
    · rw [beq_iff_eq.1 heq]
      rfl
  exact absurd rfl h

/-- If words are read to their end, no option among them waits for its value, and reading goes on
with the options that they have come to. -/
theorem read_append (h : read o before = .ok o') : read o (before ++ rest) = read o' rest := by
  fun_induction read o before with
  | case1 o =>
    cases h
    rfl
  | case2 o w =>
    have hnone : setter? w = none := by
      by_contra hsome
      rw [word_of_setter? hsome] at h
      cases h
    cases rest with
    | nil => exact h
    | cons value rest =>
      rw [List.singleton_append, read, hnone]
      dsimp only
      rw [h]
      rfl
  | case3 o w value more set hset ih =>
    obtain ⟨next, hnext, h⟩ := bind_eq_ok.1 h
    rw [List.cons_append, List.cons_append, read, hset]
    dsimp only
    rw [hnext]
    exact ih next h
  | case4 o w value more hset ih =>
    obtain ⟨next, hnext, h⟩ := bind_eq_ok.1 h
    rw [List.cons_append, List.cons_append, read, hset]
    dsimp only
    rw [hnext]
    exact ih next h

theorem read_count (k : CountOption) (o : Options) (value : Text) (after : List Text) :
    read o (k.word :: value :: after) =
      counting k.word k.set o value >>= fun o => read o after := by
  rw [read, k.setter?_word]

end Options

/-- An option that counts takes a value without a minus sign if and only if it denotes a number
that 64 bits hold, and the number is what is set. With a minus sign it is turned away at the front
of the value only: behind white space the number is taken too, counted down from `2 ^ 64`. With any
other value the run does nothing but say that it expects an integer that is not negative. -/
theorem run_count (k : CountOption) {o : Options} {args before after : List Text} {value : Text}
    (hargs : args.map Text.untilNul = before ++ k.word :: value :: after)
    (hbefore : Options.read {} before = .ok o) (e : Environment) (d : Disk) :
    (∀ m : UInt64, Denotes false value m.toNat →
      Options.read {} (args.map Text.untilNul) = Options.read (k.set o m) after) ∧
    (∀ n < 2 ^ 64, Denotes true value n → value.head? ≠ some '-'.toUInt8 →
      Options.read {} (args.map Text.untilNul) =
        Options.read (k.set o (0 - UInt64.ofNat n)) after) ∧
    ((∀ m : UInt64, ¬ Denotes false value m.toNat) →
      (∀ n < 2 ^ 64, Denotes true value n → value.head? = some '-'.toUInt8) →
      run e args d =
        (d, .refuse (k.word ++ " expects a non-negative integer, got '" ++ value ++ "'\n"))) := by
  have hread : Options.read {} (args.map Text.untilNul) =
      Options.counting k.word k.set o value >>= fun o => Options.read o after := by
    rw [hargs, Options.read_append hbefore, Options.read_count]
  have haccepted {m : UInt64} (hm : count? value = some m) :
      Options.read {} (args.map Text.untilNul) = Options.read (k.set o m) after := by
    rw [hread, Options.counting, hm]
    rfl
  refine ⟨fun m hm => haccepted (count?_eq_some.2 (.inl hm)),
    fun n hn hminus hhead => haccepted (count?_eq_some.2 (.inr ⟨n, hminus, hn, hhead, rfl⟩)),
    fun hplain hminus => ?_⟩
  have hnone : count? value = none := by
    by_contra hsome
    obtain ⟨m, hm⟩ := Option.ne_none_iff_exists'.1 hsome
    rcases count?_eq_some.1 hm with hm | ⟨n, hdenotes, hn, hhead, -⟩
    · exact hplain m hm
    · exact hhead (hminus n hn hdenotes)
  rw [run, hread, Options.counting, hnone]
  rfl

/-- A minus sign is turned away at the front of a value, and not behind a blank. -/
theorem run_count_minus :
    let e : Environment := { program := "nyaya", home := none, time := 0, seed := [] }
    Options.read {} ["find", "--limit", " -5"] =
        .ok { command := "find", limit := 18446744073709551611 } ∧
      run e ["find", "--limit", "-5"] {} =
        ({}, .refuse "--limit expects a non-negative integer, got '-5'\n") := by
  intro e
  have hfind : Options.read {} ["find"] = .ok { command := "find" } := rfl
  constructor
  · have hdenotes : Denotes true " -5" 5 := denotes_iff.2 (signed?_eq_some_length.2
      ⟨"5", by decide +kernel, by decide +kernel, by decide +kernel, by decide +kernel⟩)
    have hargs : (["find", "--limit", " -5"] : List Text).map Text.untilNul =
        [("find" : Text)] ++ CountOption.limit.word :: (" -5" : Text) :: [] := by decide +kernel
    obtain ⟨-, htaken, -⟩ := run_count .limit hargs hfind e {}
    exact htaken 5 (by decide) hdenotes (by decide +kernel)
  · have hargs : (["find", "--limit", "-5"] : List Text).map Text.untilNul =
        [("find" : Text)] ++ CountOption.limit.word :: ("-5" : Text) :: [] := by decide +kernel
    obtain ⟨-, -, hrefused⟩ := run_count .limit hargs hfind e {}
    exact hrefused (fun m hm => hm.head?_ne (by decide +kernel)) fun n _ _ => by decide +kernel

end Cli
end FactGraph
