import Mathlib.Tactic
import ObjectMachine.Proofs.Number.Literals

/-! Integers that are written and read again stay the same.

Digits are written in lower case and read in either, the sign stands in front of the radix mark, and the
letter `e` is a digit after a mark.  All that has to be shown is that what is written is in the grammar of
integer literals; as it holds no white space, trimming leaves it alone, and the reader finds the integer
that the grammar gives it. -/

namespace ObjectMachine.Literal

variable {radix n : Nat} {cs : List Char} {vs : List Nat}

/-! ### White space -/

theorem isBlank_eq_false_of_isDigit {c : Char} (h : isDigit radix c = true) : isBlank c = false := by
  obtain ⟨d, hd⟩ := Option.isSome_iff_exists.mp h
  obtain ⟨-, hcases⟩ := digit?_cases hd
  rw [← Bool.not_eq_true]
  intro hblank
  simp only [isBlank, Bool.or_eq_true, Bool.and_eq_true, decide_eq_true_eq, beq_iff_eq] at hblank
  omega

theorem Group.not_blank (hr : radix ≤ 16) (h : Group radix cs vs) : ∀ c ∈ cs, isBlank c = false := by
  have hdigit : ∀ {c d}, Stands radix c d → isBlank c = false := fun hd =>
    isBlank_eq_false_of_isDigit ((isDigit_iff hr).mpr ⟨_, hd⟩)
  induction h with
  | one h => simpa using hdigit h
  | next h _ ih => simpa using ⟨hdigit h, ih⟩
  | apart h _ ih => simpa using ⟨hdigit h, by decide, ih⟩

/-- The text of a magnitude holds no white space. -/
theorem Magnitude.not_blank (h : Magnitude cs n) : ∀ c ∈ cs, isBlank c = false := by
  cases h with
  | decimal h => exact h.not_blank (by decide)
  | @marked radix mark rest vs hmark h =>
    have hmarks : ∀ r ∈ radixMarks, isBlank r.2 = false := by decide
    have hrest := h.not_blank (radixMarks_le hmark).1
    simpa using ⟨by decide, hmarks (radix, mark) hmark, hrest⟩

theorem IntegerText.not_blank {k : Int} (h : IntegerText cs k) : ∀ c ∈ cs, isBlank c = false := by
  cases h with
  | plain h => exact h.not_blank
  | plus h => simpa using ⟨by decide, h.not_blank⟩
  | minus h => simpa using ⟨by decide, h.not_blank⟩

/-- Trimming leaves a text without white space alone. -/
theorem trim_of_not_blank (h : ∀ c ∈ cs, isBlank c = false) : trim cs = cs := by
  have hdrop : ∀ {l : List Char}, (∀ c ∈ l, isBlank c = false) → l.dropWhile isBlank = l := by
    intro l hl
    cases l with
    | nil => rfl
    | cons c rest => rw [List.dropWhile_cons_of_neg (by simp [hl c List.mem_cons_self])]
  rw [trim, hdrop h, hdrop (fun c hc => h c (List.mem_reverse.mp hc)), List.reverse_reverse]

/-! ### Written integers -/

/-- Written digits are a group. -/
theorem group_digitChar (hr : radix ≤ 16) : ∀ {vs : List Nat}, vs ≠ [] → (∀ d ∈ vs, d < radix) →
    Group radix (vs.map Nat.digitChar) vs
  | [], h, _ => absurd rfl h
  | [d], _, h => .one ⟨h d List.mem_cons_self, Or.inl rfl⟩
  | d :: d' :: vs, _, h => .next ⟨h d List.mem_cons_self, Or.inl rfl⟩
      (group_digitChar hr (List.cons_ne_nil d' vs) fun v hv => h v (List.mem_cons_of_mem d hv))

theorem group_digits (htwo : 2 ≤ radix) (hr : radix ≤ 16) (n : Nat) :
    Group radix (Digits.ofNat radix n).toList (Digits.digits radix n) := by
  obtain ⟨hne, hlt, -⟩ := Digits.digits_spec htwo n
  rw [Digits.ofNat, String.toList_ofList]
  exact group_digitChar hr hne hlt

theorem magnitude_decimal (n : Nat) : Magnitude (Digits.ofNat 10 n).toList n := by
  have h : Magnitude (Digits.ofNat 10 n).toList _ := .decimal (group_digits (by decide) (by decide) n)
  rwa [(Digits.digits_spec (by decide) n).2.2] at h

theorem magnitude_hex (n : Nat) : Magnitude ('0' :: 'x' :: (Digits.ofNat 16 n).toList) n := by
  have h : Magnitude ('0' :: 'x' :: (Digits.ofNat 16 n).toList) _ :=
    .marked (by decide) (group_digits (by decide) (by decide) n)
  rwa [(Digits.digits_spec (by decide) n).2.2] at h

/-- Decimal text is in the grammar. -/
theorem integerText_ofInt (n : Int) : IntegerText (Digits.ofInt n).toList n := by
  cases n with
  | ofNat n => exact .plain (magnitude_decimal n)
  | negSucc n =>
    rw [Digits.ofInt, String.toList_append]
    exact .minus (magnitude_decimal (n + 1))

/-- Hexadecimal text is in the grammar. -/
theorem integerText_hex (n : Int) : IntegerText (hex n).toList n := by
  cases n with
  | ofNat n =>
    rw [hex, String.toList_append]
    exact .plain (magnitude_hex n)
  | negSucc n =>
    rw [hex, String.toList_append]
    exact .minus (magnitude_hex (n + 1))

theorem read?_of_integerText {text : String} {k : Int} (h : IntegerText text.toList k) :
    read? text = some (.integer k) := by
  rw [read?_eq_integer_iff, trim_of_not_blank h.not_blank]
  exact h

/-- Texts that are read as different integers differ. -/
theorem ne_of_integerText {text text' : String} {k k' : Int} (h : IntegerText text.toList k)
    (h' : IntegerText text'.toList k') (hne : k ≠ k') : text ≠ text' := by
  rintro rfl
  exact hne (Numeral.integer.inj (Option.some.inj
    ((read?_of_integerText h).symm.trans (read?_of_integerText h'))))

end ObjectMachine.Literal

namespace ObjectMachine

open Effect Machine

/-- Asked for its text, an integer of either class makes its decimal text. -/
theorem exists_integer_text (calls : Calls) {m : Machine} (hm : m.Intact) (hroom : m.Spacious) {x : Value}
    {n : Int} (hx : m.integer? x = some n) : ∃ p, (integerMethods x).find? "to_s" = some p ∧
      ∃ v m', p.perform calls x [] m = .ok v m' ∧ m'.heap.read Facet.text v = .ok (Digits.ofInt n) := by
  have hstore : ∃ v m', newText (Digits.ofInt n) m = .ok v m' ∧
      m'.heap.read Facet.text v = .ok (Digits.ofInt n) := by
    obtain ⟨v, m', o, halloc, ho, -, hb⟩ :=
      exists_alloc hm.sound hroom.size_lt (m.classValue .string) (.text (Digits.ofInt n))
    exact ⟨v, m', halloc, Heap.read_eq_ok_iff.mpr ⟨o, ho, by rw [hb]; rfl⟩⟩
  obtain ⟨v, m', htext, hread⟩ := hstore
  rcases integer?_cases hx with ⟨hfix, -, -⟩ | ⟨hnot, -, hbig⟩
  · refine ⟨.fixnumText, ?_, v, m', ?_, hread⟩
    · rw [integerMethods, isFixnum_of_fixnum? hfix]
      decide
    · simp only [Primitive.perform, expectFixnum, hfix]
      exact htext
  · refine ⟨.bignumText, ?_, v, m', ?_, hread⟩
    · rw [integerMethods, hnot]
      decide
    · simp only [Primitive.perform]
      exact (bind_of_ok (read_of_ok hbig)).trans htext

/-- Every integer, a fixnum or a bignum of any size, makes its decimal text when it is asked for it, and
parsing that text or the hexadecimal text of the integer returns the integer on every machine: a fixnum if
it lies in the range of fixnums, else a bignum.  Different integers have different texts. -/
theorem integers_round_trip (calls : Calls) (m : Machine) (hm : m.Intact) (hroom : m.Spacious) (x : Value)
    (n : Int) (hx : m.integer? x = some n) :
    (∃ p, (integerMethods x).find? "to_s" = some p ∧ ∃ v m', p.perform calls x [] m = .ok v m' ∧
      m'.heap.read Facet.text v = .ok (Digits.ofInt n)) ∧
    (∀ m' : Machine, m'.Intact → m'.Spacious →
      m'.Parses (Digits.ofInt n) (.stored n) ∧ m'.Parses (Literal.hex n) (.stored n)) ∧
    ∀ k, k ≠ n → Digits.ofInt k ≠ Digits.ofInt n ∧ Literal.hex k ≠ Literal.hex n := by
  refine ⟨exists_integer_text calls hm hroom hx, fun m' hm' hroom' => ⟨?_, ?_⟩, fun k hk => ⟨?_, ?_⟩⟩
  · exact parses_of_integer hm' hroom' (Literal.read?_of_integerText (Literal.integerText_ofInt n))
  · exact parses_of_integer hm' hroom' (Literal.read?_of_integerText (Literal.integerText_hex n))
  · exact Literal.ne_of_integerText (Literal.integerText_ofInt k) (Literal.integerText_ofInt n) hk
  · exact Literal.ne_of_integerText (Literal.integerText_hex k) (Literal.integerText_hex n) hk

/-- A negative number whose hexadecimal digits look like an exponent. -/
theorem integers_round_trip_exponent :
    let m : Machine := { heap := { settings := {} } }
    m.Parses "-30" (.stored (-30)) ∧ m.Parses "-0x1e" (.stored (-30)) := by
  intro m
  have hm : m.Intact := intact_fresh {}
  have hroom : m.Spacious := by unfold Spacious; decide
  have hdecimal : Digits.ofInt (-30) = "-30" := by decide
  have hhex : Literal.hex (-30) = "-0x1e" := by decide
  rw [← hdecimal, ← hhex]
  exact (integers_round_trip .exhausted m hm hroom (.ofInt (-30)) (-30) (by decide)).2.1 m hm hroom

end ObjectMachine
