import FactGraph.Proofs.Grammar
import FactGraph.Proofs.Outcome

/-!
# Readers and the form of lines

A reader takes exactly the beginnings of a text that stand for something, and leaves what follows
them (`Place.Recognizes`). This holds of names, labels, literals and objects, and so of the
statement of a line (`Place.statement_eq_ok`). As a reader finds one thing only, a text begins with
one thing only, and a line says one thing only (`States.unique`).
-/

namespace FactGraph.NTriples

open Place (separates endsLabel escaped? ofLabel)

variable {α : Type} {c close : UInt8} {t u w rest : Text} {letter? : UInt8 → Option UInt8}

namespace Place

variable {p q : Place}

/-- Whether a reader takes exactly the beginnings that stand for something, and leaves the rest. -/
def Recognizes (read : Place → Except LineError (α × Place)) (R : Text → α → Text → Prop) : Prop :=
  ∀ p a rest, (∃ position, read p = .ok (a, ⟨position, rest⟩)) ↔ R p.rest a rest

namespace Recognizes

variable {read : Place → Except LineError (α × Place)} {R : Text → α → Text → Prop} {a b : α}

theorem of_eq_ok (h : Recognizes read R) (hp : read p = .ok (a, q)) : R p.rest a q.rest :=
  (h p a q.rest).1 ⟨q.position, hp⟩

theorem exists_eq_ok (h : Recognizes read R) (position : Nat) (hR : R t a rest) :
    ∃ position', read ⟨position, t⟩ = .ok (a, ⟨position', rest⟩) :=
  (h ⟨position, t⟩ a rest).2 hR

/-- What a text begins with is known by the reader, and so is the rest. -/
theorem unique (h : Recognizes read R) (ha : R t a rest) (hb : R t b u) : a = b ∧ rest = u := by
  obtain ⟨i, hi⟩ := h.exists_eq_ok 0 ha
  obtain ⟨j, hj⟩ := h.exists_eq_ok 0 hb
  rw [hi] at hj
  simp only [Except.ok.injEq, Prod.mk.injEq, Place.mk.injEq] at hj
  exact ⟨hj.1, hj.2.2⟩

end Recognizes

@[simp] theorem advance_append (position : Nat) (t rest : Text) :
    advance ⟨position, t ++ rest⟩ t.length = ⟨position + t.length, rest⟩ := by
  simp [advance]

@[simp] theorem expect_cons {position : Nat} :
    expect ⟨position, c :: rest⟩ c = .ok ⟨position + 1, rest⟩ := by
  simp [expect, advance]

theorem expect_eq_ok : p.expect c = .ok q ↔ p.rest = c :: q.rest ∧ q.position = p.position + 1 := by
  obtain ⟨position, rest⟩ := p
  obtain ⟨position', rest'⟩ := q
  rw [expect]
  cases rest with
  | nil => simp [fail]
  | cons d rest =>
    by_cases h : d = c
    · simp [h, advance, and_comm, eq_comm]
    · simp [h, fail]

/-! ## Escapes -/

theorem digits_eq_ok {count n m : Nat} : digits count n p = .ok (m, q) ↔
    ∃ d, p.rest = d ++ q.rest ∧ d.length = count ∧ (∀ c ∈ d, Numeral.isHexDigit c = true) ∧
      m = n * 16 ^ count + Numeral.hexValue d ∧ q.position = p.position + count := by
  obtain ⟨position, rest⟩ := p
  obtain ⟨position', rest'⟩ := q
  induction count generalizing n position rest with
  | zero =>
    simp only [digits, List.length_eq_zero_iff, Except.ok.injEq, Prod.mk.injEq, Place.mk.injEq]
    constructor
    · rintro ⟨rfl, rfl, rfl⟩
      exact ⟨[], by simp⟩
    · rintro ⟨d, hrest, rfl, -, hm, hposition⟩
      rw [Numeral.hexValue_nil] at hm
      exact ⟨by omega, by omega, hrest⟩
  | succ count ih =>
    cases rest with
    | nil =>
      simp only [digits, List.head?_nil, Option.bind_none, fail, reduceCtorEq, false_iff]
      rintro ⟨d, hrest, hlength, -⟩
      have hd : d = [] := (List.append_eq_nil_iff.1 hrest.symm).1
      rw [hd] at hlength
      cases hlength
    | cons c rest =>
      cases hc : Text.hexValue? c with
      | none =>
        simp only [digits, List.head?_cons, Option.bind_some, hc, fail, reduceCtorEq, false_iff]
        rintro ⟨d, hrest, hlength, hdigits, -⟩
        obtain ⟨c', d, rfl⟩ := List.exists_cons_of_length_eq_add_one hlength
        obtain ⟨rfl, -⟩ := List.cons.inj hrest
        simpa [Numeral.isHexDigit, hc] using hdigits c List.mem_cons_self
      | some v =>
        have hstep : digits (count + 1) n ⟨position, c :: rest⟩ =
            digits count (16 * n + v.toNat) ⟨position + 1, rest⟩ := by
          simp [digits, hc, advance]
        rw [hstep, ih]
        constructor
        · rintro ⟨d, hrest, hlength, hdigits, hm, hposition⟩
          refine ⟨c :: d, by rw [List.cons_append, ← hrest], by rw [List.length_cons, hlength], ?_,
            ?_, by dsimp only at hposition ⊢; omega⟩
          · exact List.forall_mem_cons.2 ⟨by simp [Numeral.isHexDigit, hc], hdigits⟩
          · rw [hm, Numeral.hexValue_cons hc, hlength]
            ring
        · rintro ⟨d, hrest, hlength, hdigits, hm, hposition⟩
          obtain ⟨c', d, rfl⟩ := List.exists_cons_of_length_eq_add_one hlength
          obtain ⟨rfl, htail⟩ := List.cons.inj hrest
          rw [List.length_cons, Nat.add_right_cancel_iff] at hlength
          refine ⟨d, htail, hlength, fun b hb => hdigits b (List.mem_cons_of_mem c hb), ?_,
            by dsimp only at hposition ⊢; omega⟩
          rw [hm, Numeral.hexValue_cons hc, hlength]
          ring

/-- A numeric escape is read as its character, behind the letter that tells how many digits it
has. -/
theorem character_eq_ok {count : Nat} {bytes : Text} : character count p = .ok (bytes, q) ↔
    ∃ d, p.rest = d ++ q.rest ∧ d.length = count ∧ Numbers d bytes ∧
      q.position = p.position + count := by
  rw [character]
  split
  · next hshort =>
    simp only [fail, reduceCtorEq, false_iff]
    rintro ⟨d, hrest, rfl, -⟩
    simp [hrest] at hshort
  · rw [bind_eq_ok]
    constructor
    · rintro ⟨⟨n, p'⟩, hdigits, h⟩
      dsimp only at h
      split at h
      · next hvalid =>
        simp only [pure_eq_ok, Prod.mk.injEq] at h
        obtain ⟨rfl, rfl⟩ := h
        obtain ⟨d, hrest, hlength, hd, hn, hposition⟩ := digits_eq_ok.1 hdigits
        rw [Nat.zero_mul, Nat.zero_add] at hn
        subst hn
        exact ⟨d, hrest, hlength, ⟨hd, hvalid, rfl⟩, hposition⟩
      · cases h
    · rintro ⟨d, hrest, hlength, ⟨hd, hvalid, rfl⟩, hposition⟩
      have hread : digits count 0 p = .ok (Numeral.hexValue d, q) :=
        digits_eq_ok.2 ⟨d, hrest, hlength, hd, by simp, hposition⟩
      refine ⟨(Numeral.hexValue d, q), hread, ?_⟩
      simp [hvalid]

/-- An escape is read by its number, unless its letter announces none. -/
theorem escape_eq_ok {β : Type} {e : UInt8} {next : Text × Place → Except LineError β} {b : β}
    {failed : Place} {fault : SyntaxFault} :
    (if ¬ e = 'u'.toUInt8 ∧ ¬ e = 'U'.toUInt8 then failed.fail fault
      else character (if e = 'u'.toUInt8 then 4 else 8) p >>= next) = .ok b ↔
    ∃ d bytes rest, p.rest = d ++ rest ∧ Escape e d bytes ∧
      next (bytes, ⟨p.position + d.length, rest⟩) = .ok b := by
  by_cases he : e = 'u'.toUInt8 ∨ e = 'U'.toUInt8
  · have hcount (d : Text) : d.length = (if e = 'u'.toUInt8 then 4 else 8) ↔
        e = 'u'.toUInt8 ∧ d.length = 4 ∨ e = 'U'.toUInt8 ∧ d.length = 8 := by
      have hne : 'U'.toUInt8 ≠ 'u'.toUInt8 := by decide
      rcases he with rfl | rfl <;> simp [hne, hne.symm]
    rw [if_neg (not_and_or.2 (by simpa using he)), bind_eq_ok]
    constructor
    · rintro ⟨⟨bytes, q⟩, hbytes, hnext⟩
      obtain ⟨d, hrest, hlength, hnumbers, hposition⟩ := character_eq_ok.1 hbytes
      refine ⟨d, bytes, q.rest, hrest, ⟨(hcount d).1 hlength, hnumbers⟩, ?_⟩
      rwa [hlength, ← hposition]
    · rintro ⟨d, bytes, rest, hrest, ⟨hlength, hnumbers⟩, hnext⟩
      have hlength := (hcount d).2 hlength
      exact ⟨_, character_eq_ok.2 ⟨d, hrest, hlength, hnumbers, by rw [hlength]⟩, hnext⟩
  · have hnone (d bytes : Text) : ¬ Escape e d bytes := fun h => he h.mark
    rw [not_or] at he
    simp [he, hnone, fail]

/-! ## Texts between delimiters -/

/-- Whether a reader of texts with delimiters goes on by one byte, letter or escape at a time. -/
structure Scans (body : Nat → Text → Place → Except LineError (Text × Place)) (close : UInt8)
    (letter? : UInt8 → Option UInt8) : Prop where
  /-- It does not end without fuel. -/
  zero : ∀ read p r, body 0 read p ≠ .ok r
  /-- It ends at the byte that closes the text, or takes the next part of the wording. -/
  succ : ∀ fuel read p r, body (fuel + 1) read p = .ok r ↔
    (∃ rest, p.rest = close :: rest ∧ r = (read.reverse, ⟨p.position + 1, rest⟩)) ∨
    (∃ c rest, p.rest = c :: rest ∧ c ≠ close ∧ c ≠ '\\'.toUInt8 ∧
      body fuel (c :: read) ⟨p.position + 1, rest⟩ = .ok r) ∨
    (∃ e b rest, p.rest = '\\'.toUInt8 :: e :: rest ∧ letter? e = some b ∧
      body fuel (b :: read) ⟨p.position + 2, rest⟩ = .ok r) ∨
    ∃ e d bytes rest, p.rest = '\\'.toUInt8 :: e :: (d ++ rest) ∧ Escape e d bytes ∧
      body fuel (bytes.reverse ++ read) ⟨p.position + 2 + d.length, rest⟩ = .ok r

namespace Scans

variable {body : Nat → Text → Place → Except LineError (Text × Place)}

theorem wording (h : Scans body close letter?) {fuel : Nat} {read : Text}
    (hbody : body fuel read p = .ok (t, q)) : ∃ w u, p.rest = w ++ close :: q.rest ∧
      Wording close letter? w u ∧ t = read.reverse ++ u := by
  induction fuel generalizing read p with
  | zero => exact absurd hbody (h.zero read p _)
  | succ fuel ih =>
    rcases (h.succ fuel read p _).1 hbody with ⟨rest, hrest, heq⟩ |
      ⟨c, rest, hrest, hclose, hmark, hbody⟩ | ⟨e, b, rest, hrest, hletter, hbody⟩ |
      ⟨e, d, bytes, rest, hrest, hescape, hbody⟩
    · simp only [Prod.mk.injEq] at heq
      obtain ⟨rfl, rfl⟩ := heq
      exact ⟨[], [], hrest, .nil, by simp⟩
    · obtain ⟨w, u, hw, hwording, ht⟩ := ih hbody
      exact ⟨c :: w, c :: u, by simp [hrest, ← hw], .byte hclose hmark hwording, by simp [ht]⟩
    · obtain ⟨w, u, hw, hwording, ht⟩ := ih hbody
      exact ⟨_, _, by simp [hrest, ← hw], .letter hletter hwording, by simp [ht]⟩
    · obtain ⟨w, u, hw, hwording, ht⟩ := ih hbody
      exact ⟨_, _, by simp [hrest, ← hw], .escape hescape hwording, by simp [ht]⟩

/-- A wording is read to its end, if there is fuel for every byte of it. -/
theorem exists_eq_ok (h : Scans body close letter?) (hw : Wording close letter? w u) {fuel : Nat}
    (hfuel : w.length < fuel) (read : Text) (position : Nat) (rest : Text) : ∃ position',
      body fuel read ⟨position, w ++ close :: rest⟩ =
        .ok (read.reverse ++ u, ⟨position', rest⟩) := by
  induction hw generalizing fuel read position with
  | nil =>
    obtain ⟨fuel, rfl⟩ := Nat.exists_eq_succ_of_ne_zero (Nat.ne_of_gt hfuel)
    exact ⟨position + 1, (h.succ ..).2 (.inl ⟨rest, rfl, by simp⟩)⟩
  | @byte c w u hclose hmark _ ih =>
    obtain ⟨fuel, rfl⟩ := Nat.exists_eq_succ_of_ne_zero (Nat.ne_zero_of_lt hfuel)
    rw [List.length_cons] at hfuel
    obtain ⟨position', hih⟩ := ih (Nat.lt_of_succ_lt_succ hfuel) (c :: read) (position + 1)
    refine ⟨position', (h.succ ..).2 (.inr (.inl ⟨c, _, rfl, hclose, hmark, ?_⟩))⟩
    simpa using hih
  | @letter e b w u hletter _ ih =>
    obtain ⟨fuel, rfl⟩ := Nat.exists_eq_succ_of_ne_zero (Nat.ne_zero_of_lt hfuel)
    rw [List.length_cons, List.length_cons] at hfuel
    have hshorter : w.length < fuel := by omega
    obtain ⟨position', hih⟩ := ih hshorter (b :: read) (position + 2)
    refine ⟨position', (h.succ ..).2 (.inr (.inr (.inl ⟨e, b, _, rfl, hletter, ?_⟩)))⟩
    simpa using hih
  | @escape e d bytes w u hescape _ ih =>
    obtain ⟨fuel, rfl⟩ := Nat.exists_eq_succ_of_ne_zero (Nat.ne_zero_of_lt hfuel)
    rw [List.length_cons, List.length_cons, List.length_append] at hfuel
    have hshorter : w.length < fuel := by omega
    obtain ⟨position', hih⟩ := ih hshorter (bytes.reverse ++ read) (position + 2 + d.length)
    refine ⟨position', (h.succ ..).2 (.inr (.inr (.inr ⟨e, d, bytes, w ++ close :: rest,
      by simp, hescape, ?_⟩)))⟩
    simpa using hih

end Scans

theorem scans_iriBody : Scans iriBody '>'.toUInt8 fun _ => none where
  zero _ _ _ := nofun
  succ := by
    rintro fuel read ⟨position, rest⟩ r
    have hbytes : '\\'.toUInt8 ≠ '>'.toUInt8 := by decide
    rw [iriBody]
    cases rest with
    | nil => simp [fail]
    | cons c rest =>
      by_cases hclose : c = '>'.toUInt8
      · simp [hclose, hbytes.symm, advance, eq_comm]
      · by_cases hmark : c = '\\'.toUInt8
        · cases rest with
          | nil => simp [hmark, hbytes, fail]
          | cons e rest =>
            by_cases hopen : e = '>'.toUInt8
            · have hnone (d bytes : Text) : ¬ Escape e d bytes := fun h => by
                rcases h.mark with he | he <;> rw [hopen] at he <;> exact absurd he (by decide)
              simp [hmark, hbytes, hopen, hopen ▸ hnone, fail]
            · simp [hmark, hbytes, hopen, advance, escape_eq_ok]
        · simp [hclose, hmark, advance]

theorem scans_quotedBody : Scans quotedBody '"'.toUInt8 escaped? where
  zero _ _ _ := nofun
  succ := by
    rintro fuel read ⟨position, rest⟩ r
    have hbytes : '\\'.toUInt8 ≠ '"'.toUInt8 := by decide
    rw [quotedBody]
    cases rest with
    | nil => simp [fail]
    | cons c rest =>
      by_cases hclose : c = '"'.toUInt8
      · simp [hclose, hbytes.symm, advance, eq_comm]
      · by_cases hmark : c = '\\'.toUInt8
        · cases rest with
          | nil => simp [hmark, hbytes, fail]
          | cons e rest =>
            cases hletter : escaped? e with
            | none => simp [hmark, hbytes, hletter, advance, escape_eq_ok]
            | some b =>
              have hnone (d bytes : Text) : ¬ Escape e d bytes := fun h => by
                rcases h.mark with rfl | rfl <;> cases hletter
              simp [hmark, hbytes, hletter, hnone, advance]
        · simp [hclose, hmark, advance]

theorem recognizes_iri : Recognizes iri Named := by
  rintro ⟨position, t⟩ name rest
  constructor
  · rintro ⟨position', h⟩
    obtain ⟨q, hq, h⟩ := bind_eq_ok.1 h
    split at h
    · cases h
    · obtain ⟨⟨name', q'⟩, hbody, h⟩ := bind_eq_ok.1 h
      dsimp only at h
      split at h
      · cases h
      · next hne =>
        cases h
        obtain ⟨w, u, hrest, hwording, rfl⟩ := Scans.wording scans_iriBody hbody
        refine ⟨w, ?_, by simpa using hne, hwording⟩
        rw [(expect_eq_ok.1 hq).1, hrest]
  · rintro ⟨w, hrest, hne, hwording⟩
    dsimp only at hrest
    subst hrest
    have hfuel : w.length < (w ++ '>'.toUInt8 :: rest).length + 1 := by
      rw [List.length_append]
      omega
    obtain ⟨position', hbody⟩ :=
      Scans.exists_eq_ok scans_iriBody hwording hfuel [] (position + 1) rest
    refine ⟨position', ?_⟩
    have hcloses : (w ++ '>'.toUInt8 :: rest).contains '>'.toUInt8 = true := by simp
    have hnonempty : name.isEmpty = false := by simpa using hne
    rw [List.reverse_nil, List.nil_append] at hbody
    simp only [iri, expect_cons, hcloses, hbody, hnonempty, bind, Except.bind, pure, Except.pure,
      Bool.not_true, Bool.false_eq_true, if_false]

theorem recognizes_blank :
    Recognizes blank fun t r rest => ∃ l, Labelled t l rest ∧ r = ofLabel l := by
  rintro ⟨position, t⟩ r rest
  constructor
  · rintro ⟨position', h⟩
    obtain ⟨q, hq, h⟩ := bind_eq_ok.1 h
    obtain ⟨q', hq', h⟩ := bind_eq_ok.1 h
    obtain ⟨u, hu, hdrop, hlabel, hrest⟩ :=
      Text.exists_eq_takeWhile_append (fun c => !endsLabel c) q'.rest
    dsimp only at h
    split at h
    · cases h
    · next hne =>
      simp only [pure_eq_ok, Prod.mk.injEq, advance, hdrop, Place.mk.injEq] at h
      obtain ⟨rfl, -, rfl⟩ := h
      refine ⟨_, ⟨?_, by simpa using hne, fun c hc => by simpa using hlabel c hc,
        fun c hc => by simpa using hrest c hc⟩, rfl⟩
      rw [(expect_eq_ok.1 hq).1, (expect_eq_ok.1 hq').1, ← hu]
  · rintro ⟨l, h, rfl⟩
    have htake := h.takeWhile_eq
    obtain ⟨hlabel, hne, -⟩ := h
    dsimp only at hlabel
    subst hlabel
    have hnonempty : l.isEmpty = false := by simpa using hne
    refine ⟨position + 2 + l.length, ?_⟩
    simp [blank, htake, hnonempty, bind, Except.bind, pure, Except.pure]

/-- The first byte tells how a node is mentioned. -/
theorem recognizes_subject :
    Recognizes subject fun t r rest => ∃ m, Mentions t m rest ∧ r = m.reference := by
  rintro ⟨position, t⟩ r rest
  constructor
  · rintro ⟨position', h⟩
    rw [subject] at h
    split at h
    · cases h
    · split at h
      · obtain ⟨⟨name, q⟩, hname, h⟩ := bind_eq_ok.1 h
        cases h
        exact ⟨.name name, .name (Recognizes.of_eq_ok recognizes_iri hname), rfl⟩
      · split at h
        · obtain ⟨l, hl, rfl⟩ := Recognizes.of_eq_ok recognizes_blank h
          exact ⟨.label l, .label hl, rfl⟩
        · cases h
  · rintro ⟨m, hm, rfl⟩
    cases hm with
    | name hname =>
      obtain ⟨position', h⟩ := Recognizes.exists_eq_ok recognizes_iri position hname
      obtain ⟨u, rfl⟩ := List.head?_eq_some_iff.1 hname.head
      exact ⟨position', by simp [subject, h, bind, Except.bind, pure, Except.pure,
        Mention.reference]⟩
    | label hlabel =>
      obtain ⟨position', h⟩ := Recognizes.exists_eq_ok recognizes_blank position ⟨_, hlabel, rfl⟩
      obtain ⟨u, rfl⟩ := List.head?_eq_some_iff.1 hlabel.head
      have hfirst : '_'.toUInt8 ≠ '<'.toUInt8 := by decide
      exact ⟨position', by simpa [subject, hfirst, Mention.reference] using h⟩

/-- What can be read as a subject is read as an object too. -/
theorem object_of_subject {p' : Place} {r : Reference} (h : subject p = .ok (r, p')) :
    object p = .ok (.reference r, p') := by
  obtain ⟨position, rest⟩ := p
  cases rest with
  | nil => cases h
  | cons c rest =>
    simp only [subject, object] at h ⊢
    by_cases hname : (c == '<'.toUInt8) = true
    · rw [if_pos hname] at h ⊢
      obtain ⟨⟨name, q⟩, hiri, hq⟩ := bind_eq_ok.1 h
      cases hq
      rw [hiri]
      rfl
    · rw [if_neg hname] at h ⊢
      by_cases hblank : (c == '_'.toUInt8) = true
      · rw [if_pos hblank] at h ⊢
        rw [h]
        rfl
      · rw [if_neg hblank] at h
        cases h

theorem recognizes_literalEnd (literal : Text) :
    Recognizes (fun p => p.literalEnd literal) (Completes literal) := by
  rintro ⟨position, t⟩ v rest
  constructor
  · rintro ⟨position', h⟩
    dsimp only at h ⊢
    rw [literalEnd] at h
    split at h
    · next hnil =>
      cases h
      exact .plain (by simp [show t = [] from hnil])
    · next c u hu =>
      obtain rfl : t = c :: u := hu
      split at h
      · next hat =>
        rw [beq_iff_eq] at hat
        subst hat
        rw [List.takeWhile_cons_of_pos (by decide)] at h
        obtain ⟨rest', hsplit, hdrop, htag, hrest⟩ :=
          Text.exists_eq_takeWhile_append (fun c => c != ' '.toUInt8 && c != '\t'.toUInt8) u
        simp only [advance, List.length_cons, List.drop_succ_cons, hdrop, Except.ok.injEq,
          Prod.mk.injEq, Place.mk.injEq] at h
        obtain ⟨rfl, -, rfl⟩ := h
        rw [hsplit]
        exact .tagged (fun c hc => by simpa using htag c hc) fun c hc => by
          simpa [or_iff_not_imp_left] using hrest c hc
      · next hat =>
        split at h
        · next hcaret =>
          obtain ⟨q₁, h₁, h⟩ := bind_eq_ok.1 h
          obtain ⟨q₂, h₂, h⟩ := bind_eq_ok.1 h
          obtain ⟨⟨type, q₃⟩, htype, h⟩ := bind_eq_ok.1 h
          dsimp only at h
          split at h
          · next v' hv =>
            cases h
            have hnamed := Recognizes.of_eq_ok recognizes_iri htype
            have hmarks : c :: u = '^'.toUInt8 :: '^'.toUInt8 :: q₂.rest := by
              rw [← (expect_eq_ok.1 h₂).1, ← (expect_eq_ok.1 h₁).1]
            rw [hmarks]
            exact .typed hnamed (typedLiteral_eq_ok.1 hv)
          · cases h
        · next hcaret =>
          cases h
          exact .plain fun d hd => by
            cases hd
            exact ⟨by simpa using hat, by simpa using hcaret⟩
  · intro h
    cases h with
    | plain hrest =>
      refine ⟨position, ?_⟩
      cases t with
      | nil => rfl
      | cons c t =>
        obtain ⟨hat, hcaret⟩ := hrest c rfl
        simp [literalEnd, hat, hcaret]
    | @tagged tag rest htag hrest =>
      have htake : (tag ++ rest).takeWhile
          (fun c => c != ' '.toUInt8 && c != '\t'.toUInt8) = tag :=
        Text.takeWhile_append (fun c hc => by simp [htag c hc]) fun c hc => by
          rcases hrest c hc with rfl | rfl <;> decide
      have htagged : ('@'.toUInt8 :: (tag ++ rest)).takeWhile
          (fun c => c != ' '.toUInt8 && c != '\t'.toUInt8) = '@'.toUInt8 :: tag := by
        rw [List.takeWhile_cons_of_pos (by decide), htake]
      refine ⟨position + (tag.length + 1), ?_⟩
      simp only [literalEnd, beq_self_eq_true, if_true, htagged, advance, List.length_cons,
        List.drop_succ_cons, List.drop_left]
    | @typed t type rest v htype hv =>
      obtain ⟨position', h⟩ := Recognizes.exists_eq_ok recognizes_iri (position + 2) htype
      have hmark : '^'.toUInt8 ≠ '@'.toUInt8 := by decide
      refine ⟨position', ?_⟩
      simp [literalEnd, hmark, h, typedLiteral_eq_ok.2 hv, bind, Except.bind, pure, Except.pure]

theorem recognizes_object :
    Recognizes object fun t o rest => ∃ x, Phrases t x rest ∧ o = x.object := by
  rintro ⟨position, t⟩ o rest
  constructor
  · rintro ⟨position', h⟩
    dsimp only
    rw [object] at h
    split at h
    · cases h
    · split_ifs at h
      · obtain ⟨⟨name, q⟩, hname, h⟩ := bind_eq_ok.1 h
        cases h
        exact ⟨_, .mention (.name (Recognizes.of_eq_ok recognizes_iri hname)), rfl⟩
      · obtain ⟨⟨r, q⟩, hr, h⟩ := bind_eq_ok.1 h
        cases h
        obtain ⟨l, hl, rfl⟩ := Recognizes.of_eq_ok recognizes_blank hr
        exact ⟨_, .mention (.label hl), rfl⟩
      · obtain ⟨⟨literal, q⟩, hquoted, h⟩ := bind_eq_ok.1 h
        obtain ⟨⟨v, q'⟩, hv, h⟩ := bind_eq_ok.1 h
        cases h
        obtain ⟨q₀, hopen, hbody⟩ := bind_eq_ok.1 hquoted
        obtain ⟨w, u, hrest, hwording, hu⟩ := Scans.wording scans_quotedBody hbody
        rw [List.reverse_nil, List.nil_append] at hu
        subst hu
        refine ⟨_, .literal ?_ hwording ((recognizes_literalEnd literal).of_eq_ok hv), rfl⟩
        rw [← hrest]
        exact (expect_eq_ok.1 hopen).1
      · cases h
  · rintro ⟨x, hx, rfl⟩
    have hquote : '"'.toUInt8 ≠ '<'.toUInt8 ∧ '"'.toUInt8 ≠ '_'.toUInt8 := by decide
    cases hx with
    | mention hm =>
      obtain ⟨position', h⟩ := Recognizes.exists_eq_ok recognizes_subject position ⟨_, hm, rfl⟩
      exact ⟨position', object_of_subject h⟩
    | @literal w literal u rest v ht hwording hcompletes =>
      dsimp only at ht
      subst ht
      have hfuel : w.length < (w ++ '"'.toUInt8 :: u).length + 1 := by
        rw [List.length_append]
        omega
      obtain ⟨position₁, hbody⟩ :=
        Scans.exists_eq_ok scans_quotedBody hwording hfuel [] (position + 1) u
      obtain ⟨position₂, hend⟩ := (recognizes_literalEnd literal).exists_eq_ok position₁ hcompletes
      rw [List.reverse_nil, List.nil_append] at hbody
      refine ⟨position₂, ?_⟩
      simp only [object, quoted, expect_cons, hbody, hend, bind, Except.bind, pure, Except.pure,
        Phrase.object, beq_eq_false_iff_ne.2 hquote.1, beq_eq_false_iff_ne.2 hquote.2,
        beq_self_eq_true, Bool.false_eq_true, if_false, if_true]

/-! ## Lines -/

/-- The bytes between the parts of a line are passed over. -/
theorem skip_append {gap u : Text} (hgap : Gap gap) (hu : ∀ c ∈ u.head?, separates c = false)
    (position : Nat) : skip ⟨position, gap ++ u⟩ = ⟨position + gap.length, u⟩ := by
  simp only [skip, advance, Text.takeWhile_append hgap hu, List.drop_left]

theorem exists_gap (p : Place) : ∃ gap, p.rest = gap ++ p.skip.rest ∧ Gap gap := by
  obtain ⟨rest, hrest, hdrop, hgap, -⟩ := Text.exists_eq_takeWhile_append separates p.rest
  exact ⟨_, by rw [skip, advance, hdrop, ← hrest], hgap⟩

theorem closes_iff : (t.isEmpty || t.head? == some '#'.toUInt8) = true ↔ Closes t := by
  simp [Closes]

/-- A statement is read exactly from a sentence. -/
theorem statement_eq_ok {s : Statement} :
    p.statement = .ok s ↔ ∃ c, Sentence p.rest c ∧ s = c.statement := by
  constructor
  · intro h
    obtain ⟨⟨r, p₁⟩, hr, h⟩ := bind_eq_ok.1 h
    obtain ⟨⟨name, p₂⟩, hname, h⟩ := bind_eq_ok.1 h
    obtain ⟨⟨o, p₃⟩, ho, h⟩ := bind_eq_ok.1 h
    obtain ⟨p₄, hpoint, h⟩ := bind_eq_ok.1 h
    obtain ⟨m, hm, rfl⟩ := Recognizes.of_eq_ok recognizes_subject hr
    have hnamed := Recognizes.of_eq_ok recognizes_iri hname
    obtain ⟨x, hx, rfl⟩ := Recognizes.of_eq_ok recognizes_object ho
    dsimp only at h
    split at h
    · next hcloses =>
      cases h
      obtain ⟨gap₁, h₁, hgap₁⟩ := exists_gap p₁
      obtain ⟨gap₂, h₂, hgap₂⟩ := exists_gap p₂
      obtain ⟨gap₃, h₃, hgap₃⟩ := exists_gap p₃
      obtain ⟨gap₄, h₄, hgap₄⟩ := exists_gap p₄
      rw [(expect_eq_ok.1 hpoint).1, h₄] at h₃
      rw [h₁] at hm
      rw [h₂] at hnamed
      rw [h₃] at hx
      exact ⟨⟨m, name, x⟩, .intro hm hgap₁ hnamed hgap₂ hx hgap₃ hgap₄ (closes_iff.1 hcloses), rfl⟩
    · cases h
  · rintro ⟨c, hc, rfl⟩
    cases hc with
    | @intro gap₁ gap₂ gap₃ gap₄ t₁ t₂ rest hm hgap₁ hnamed hgap₂ hx hgap₃ hgap₄ hcloses =>
      obtain ⟨i₁, h₁⟩ := Recognizes.exists_eq_ok recognizes_subject p.position ⟨_, hm, rfl⟩
      obtain ⟨i₂, h₂⟩ := Recognizes.exists_eq_ok recognizes_iri (i₁ + gap₁.length) hnamed
      obtain ⟨i₃, h₃⟩ := Recognizes.exists_eq_ok recognizes_object (i₂ + gap₂.length) ⟨_, hx, rfl⟩
      have hpoint : expect (skip ⟨i₃, gap₃ ++ '.'.toUInt8 :: (gap₄ ++ rest)⟩) '.'.toUInt8 =
          .ok ⟨i₃ + gap₃.length + 1, gap₄ ++ rest⟩ := by
        rw [skip_append hgap₃ fun c hc => by cases hc; rfl]
        exact expect_eq_ok.2 ⟨rfl, rfl⟩
      refine bind_eq_ok.2 ⟨_, h₁, ?_⟩
      refine bind_eq_ok.2 ⟨_, (congrArg iri (skip_append hgap₁ hnamed.plain i₁)).trans h₂, ?_⟩
      refine bind_eq_ok.2 ⟨_, (congrArg object (skip_append hgap₂ hx.plain i₂)).trans h₃, ?_⟩
      refine bind_eq_ok.2 ⟨_, hpoint, ?_⟩
      dsimp only
      rw [skip_append hgap₄ hcloses.plain]
      exact if_pos (closes_iff.2 hcloses)

end Place

/-! ## What a text begins with -/

theorem Mentions.unique {m m' : Mention} {rest' : Text} (h : Mentions t m rest)
    (h' : Mentions t m' rest') : m = m' ∧ rest = rest' := by
  have hne : '<'.toUInt8 ≠ '_'.toUInt8 := by decide
  cases h with
  | name h =>
    cases h' with
    | name h' =>
      obtain ⟨rfl, hrest⟩ := Place.Recognizes.unique Place.recognizes_iri h h'
      exact ⟨rfl, hrest⟩
    | label h' => exact absurd (Option.some.inj (h.head.symm.trans h'.head)) hne
  | label h =>
    cases h' with
    | name h' => exact absurd (Option.some.inj (h'.head.symm.trans h.head)) hne
    | label h' =>
      obtain ⟨rfl, hrest⟩ := h.unique h'
      exact ⟨rfl, hrest⟩

theorem Mentions.not_quoted {m : Mention} (h : Mentions t m rest) :
    t.head? ≠ some '"'.toUInt8 := by
  rcases h.head with hhead | hhead <;> rw [hhead] <;> decide

theorem Phrases.unique {x x' : Phrase} {rest' : Text} (h : Phrases t x rest)
    (h' : Phrases t x' rest') : x = x' ∧ rest = rest' := by
  obtain ⟨hobject, hrest⟩ :=
    Place.Recognizes.unique Place.recognizes_object ⟨x, h, rfl⟩ ⟨x', h', rfl⟩
  refine ⟨?_, hrest⟩
  cases h with
  | mention h =>
    cases h' with
    | mention h' => rw [(h.unique h').1]
    | literal ht => exact absurd (by rw [ht]; rfl) h.not_quoted
  | literal ht =>
    cases h' with
    | mention h' => exact absurd (by rw [ht]; rfl) h'.not_quoted
    | literal => rw [Object.literal.inj hobject]

theorem Sentence.unique {c c' : Clause} (h : Sentence t c) (h' : Sentence t c') : c = c' := by
  obtain ⟨hm, hgap₁, hn, hgap₂, hx, -⟩ := h
  obtain ⟨hm', hgap₁', hn', hgap₂', hx', -⟩ := h'
  obtain ⟨hsubject, hrest⟩ := hm.unique hm'
  obtain rfl := hgap₁.unique hgap₁' hn.plain hn'.plain hrest
  obtain ⟨hpredicate, hrest⟩ := Place.Recognizes.unique Place.recognizes_iri hn hn'
  obtain rfl := hgap₂.unique hgap₂' hx.plain hx'.plain hrest
  obtain ⟨hobject, -⟩ := hx.unique hx'
  cases c
  cases c'
  rw [Clause.mk.injEq]
  exact ⟨hsubject, hpredicate, hobject⟩

/-- A line does not say two things. -/
theorem States.unique {line : Text} {c c' : Clause} (h : States line c) (h' : States line c') :
    c = c' := by
  obtain ⟨gap, t, rfl, hgap, hc⟩ := h
  obtain ⟨gap', t', heq, hgap', hc'⟩ := h'
  obtain rfl := hgap.unique hgap' hc.plain hc'.plain heq
  exact hc.unique hc'

end FactGraph.NTriples
