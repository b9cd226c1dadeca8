import Mathlib.Tactic
import ObjectMachine.Number.Literal
import ObjectMachine.Proofs.Machine.BuiltinKeys
import ObjectMachine.Proofs.Number.Digits
import ObjectMachine.Proofs.Number.Failure

/-! Integer literals are read exactly.

The reader makes separate passes over the text: it takes off a sign, looks for a radix mark, checks the
underscores, drops them, and only then looks at the digits.  The grammar is written down on its own, one
constructor for each way to go on, and the passes together accept what it derives, with the value that
the digits spell. -/

namespace ObjectMachine.Literal

/-! ### The grammar -/

/-- A digit of a radix: one of `0` to `9`, then of `a` to `f`, in either case. -/
def Stands (radix : Nat) (c : Char) (d : Nat) : Prop :=
  d < radix ∧ (c = d.digitChar ∨ c = d.digitChar.toUpper)

/-- Digits of a radix with single underscores between them, and what the digits stand for. -/
inductive Group (radix : Nat) : List Char → List Nat → Prop where
  | one {c : Char} {d : Nat} (h : Stands radix c d) : Group radix [c] [d]
  | next {c : Char} {d : Nat} {cs : List Char} {ds : List Nat} (h : Stands radix c d)
      (rest : Group radix cs ds) : Group radix (c :: cs) (d :: ds)
  | apart {c : Char} {d : Nat} {cs : List Char} {ds : List Nat} (h : Stands radix c d)
      (rest : Group radix cs ds) : Group radix (c :: '_' :: cs) (d :: ds)

/-- The characters that follow a zero to announce a radix. -/
def radixMarks : List (Nat × Char) := [(16, 'x'), (16, 'X'), (8, 'o'), (8, 'O'), (2, 'b'), (2, 'B')]

/-- A group of decimal digits, or a radix mark and a group of digits of the radix. -/
inductive Magnitude : List Char → Nat → Prop where
  | decimal {cs : List Char} {ds : List Nat} (h : Group 10 cs ds) :
      Magnitude cs (Nat.ofDigits 10 ds.reverse)
  | marked {radix : Nat} {mark : Char} {cs : List Char} {ds : List Nat}
      (hmark : (radix, mark) ∈ radixMarks) (h : Group radix cs ds) :
      Magnitude ('0' :: mark :: cs) (Nat.ofDigits radix ds.reverse)

/-- The text of an integer: a magnitude with at most one sign. -/
inductive IntegerText : List Char → Int → Prop where
  | plain {cs : List Char} {n : Nat} (h : Magnitude cs n) : IntegerText cs n
  | plus {cs : List Char} {n : Nat} (h : Magnitude cs n) : IntegerText ('+' :: cs) n
  | minus {cs : List Char} {n : Nat} (h : Magnitude cs n) : IntegerText ('-' :: cs) (-n)

/-! ### Digits -/

variable {radix d n : Nat} {c : Char} {cs ds : List Char} {vs : List Nat}

theorem digit?_digitChar (hd : d < radix) (hr : radix ≤ 16) : digit? radix d.digitChar = some d := by
  have hlt : d < 16 := by omega
  interval_cases d <;> exact if_pos hd

theorem digit?_toUpper (hd : d < radix) (hr : radix ≤ 16) :
    digit? radix d.digitChar.toUpper = some d := by
  have hlt : d < 16 := by omega
  interval_cases d <;> exact if_pos hd

/-- What a digit stands for, by the ranges of characters. -/
theorem digit?_cases (h : digit? radix c = some d) : d < radix ∧
    (48 ≤ c.toNat ∧ c.toNat ≤ 57 ∧ d = c.toNat - 48 ∨
      97 ≤ c.toNat ∧ c.toNat ≤ 122 ∧ d = c.toNat - 87 ∨
      65 ≤ c.toNat ∧ c.toNat ≤ 90 ∧ d = c.toNat - 55) := by
  have hrange : ∀ {low high : Char}, low ≤ c ∧ c ≤ high ↔ low.toNat ≤ c.toNat ∧ c.toNat ≤ high.toNat :=
    Iff.rfl
  simp only [digit?, hrange, Char.reduceToNat, Option.ite_none_right_eq_some, Option.some.injEq] at h
  split_ifs at h <;> omega

theorem stands_of_digit? (hr : radix ≤ 16) (h : digit? radix c = some d) : Stands radix c d := by
  obtain ⟨hd, hcases⟩ := digit?_cases h
  refine ⟨hd, ?_⟩
  obtain ⟨k, hk⟩ : ∃ k, k = c.toNat := ⟨_, rfl⟩
  obtain rfl : c = Char.ofNat k := by rw [hk, Char.ofNat_toNat]
  rw [← hk] at hcases
  have hlt : d < 16 := by omega
  rcases hcases with ⟨hlow, hhigh, rfl⟩ | ⟨hlow, hhigh, rfl⟩ | ⟨hlow, hhigh, rfl⟩
  · interval_cases k <;> exact Or.inl rfl
  · have hletter : k ≤ 102 := by omega
    interval_cases k <;> exact Or.inl rfl
  · have hletter : k ≤ 70 := by omega
    interval_cases k <;> exact Or.inr rfl

theorem digit?_eq_some_iff (hr : radix ≤ 16) : digit? radix c = some d ↔ Stands radix c d := by
  refine ⟨stands_of_digit? hr, fun ⟨hd, hc⟩ => ?_⟩
  rcases hc with rfl | rfl
  · exact digit?_digitChar hd hr
  · exact digit?_toUpper hd hr

theorem isDigit_iff (hr : radix ≤ 16) : isDigit radix c = true ↔ ∃ d, Stands radix c d := by
  simp only [isDigit, Option.isSome_iff_exists, digit?_eq_some_iff hr]

/-- Neither signs nor points nor underscores are digits. -/
theorem ne_of_isDigit (h : isDigit radix c = true) : c ≠ '_' ∧ c ≠ '+' ∧ c ≠ '-' ∧ c ≠ '.' := by
  obtain ⟨d, hd⟩ := Option.isSome_iff_exists.mp h
  obtain ⟨-, hcases⟩ := digit?_cases hd
  refine ⟨?_, ?_, ?_, ?_⟩ <;>
  · rintro rfl
    simp only [Char.reduceToNat] at hcases
    omega

/-- The characters of a list are digits that stand for these numbers. -/
abbrev Spell (radix : Nat) (cs : List Char) (vs : List Nat) : Prop := List.Forall₂ (Stands radix) cs vs

theorem all_isDigit_iff (hr : radix ≤ 16) :
    cs.all (isDigit radix) = true ↔ ∃ vs, Spell radix cs vs := by
  induction cs with
  | nil => exact iff_of_true rfl ⟨[], .nil⟩
  | cons c cs ih =>
    rw [List.all_cons, Bool.and_eq_true, isDigit_iff hr, ih]
    constructor
    · rintro ⟨⟨d, hd⟩, vs, hvs⟩
      exact ⟨d :: vs, .cons hd hvs⟩
    · rintro ⟨_, _ | ⟨hd, hvs⟩⟩
      exact ⟨⟨_, hd⟩, _, hvs⟩

theorem Spell.positional_eq (hr : radix ≤ 16) (h : Spell radix cs vs) :
    positional radix cs = Nat.ofDigits radix vs.reverse := by
  have hmap : cs.map (fun c => (digit? radix c).getD 0) = vs := by
    induction h with
    | nil => rfl
    | cons hd _ ih => rw [List.map_cons, ih, (digit?_eq_some_iff hr).mpr hd, Option.getD_some]
  rw [positional, hmap, Digits.value_eq]

/-! ### Groups of digits -/

theorem separated_cons (hc : c ≠ '_') (before : Bool) :
    separated radix before (c :: cs) = separated radix (isDigit radix c) cs := by
  rw [separated]
  exact hc

/-- A group begins with a digit. -/
theorem Group.exists_cons (hr : radix ≤ 16) (h : Group radix cs vs) :
    ∃ c rest, cs = c :: rest ∧ isDigit radix c = true := by
  cases h with
  | one h => exact ⟨_, _, rfl, (isDigit_iff hr).mpr ⟨_, h⟩⟩
  | next h _ => exact ⟨_, _, rfl, (isDigit_iff hr).mpr ⟨_, h⟩⟩
  | apart h _ => exact ⟨_, _, rfl, (isDigit_iff hr).mpr ⟨_, h⟩⟩

/-- The underscores of a group are where they may be, and the other characters are its digits. -/
theorem Group.separated (hr : radix ≤ 16) (h : Group radix cs vs) :
    (∀ before, separated radix before cs = true) ∧ Spell radix (cs.filter (· != '_')) vs := by
  have hdigit : ∀ {c d}, Stands radix c d → isDigit radix c = true ∧ c ≠ '_' := fun hd =>
    have h := (isDigit_iff hr).mpr ⟨_, hd⟩
    ⟨h, (ne_of_isDigit h).1⟩
  induction h with
  | one h =>
    obtain ⟨-, hne⟩ := hdigit h
    refine ⟨fun before => by rw [separated_cons hne]; rfl, ?_⟩
    rw [List.filter_cons_of_pos (by simpa using hne)]
    exact .cons h .nil
  | next h _ ih =>
    obtain ⟨-, hne⟩ := hdigit h
    refine ⟨fun before => by rw [separated_cons hne, ih.1], ?_⟩
    rw [List.filter_cons_of_pos (by simpa using hne)]
    exact .cons h ih.2
  | apart h rest ih =>
    obtain ⟨hc, hne⟩ := hdigit h
    obtain ⟨c', rest', rfl, hc'⟩ := rest.exists_cons hr
    refine ⟨fun before => ?_, ?_⟩
    · rw [separated_cons hne, Literal.separated, hc, ih.1, List.head?_cons, Option.any_some, hc']
      rfl
    · rw [List.filter_cons_of_pos (by simpa using hne), List.filter_cons_of_neg (by simp)]
      exact .cons h ih.2

/-- Digits whose underscores are where they may be form a group. -/
theorem group_of_separated (hr : radix ≤ 16) : ∀ {cs : List Char} {vs : List Nat}, cs ≠ [] →
    separated radix false cs = true → Spell radix (cs.filter (· != '_')) vs → Group radix cs vs
  | [], _, hne, _, _ => absurd rfl hne
  | c :: rest, vs, _, hsep, hspell => by
    have hc : c ≠ '_' := by
      rintro rfl
      rw [separated] at hsep
      cases hsep
    rw [List.filter_cons_of_pos (by simpa using hc)] at hspell
    obtain _ | @⟨_, d, _, vs, hd, hspell⟩ := hspell
    have hdigit := (isDigit_iff hr).mpr ⟨d, hd⟩
    rw [separated_cons hc, hdigit] at hsep
    match rest with
    | [] =>
      cases hspell
      exact .one hd
    | c' :: rest' =>
      by_cases hunder : c' = '_'
      · subst hunder
        rw [separated, Bool.true_and, Bool.and_eq_true] at hsep
        rw [List.filter_cons_of_neg (by simp)] at hspell
        have hrest : rest' ≠ [] := by
          rintro rfl
          exact Bool.noConfusion hsep.1
        exact .apart hd (group_of_separated hr hrest hsep.2 hspell)
      · rw [separated_cons hunder, ← separated_cons hunder false] at hsep
        exact .next hd (group_of_separated hr (List.cons_ne_nil _ _) hsep hspell)

theorem stripSeparators_eq_some_iff : stripSeparators radix cs = some ds ↔
    cs ≠ [] ∧ separated radix false cs = true ∧ cs.filter (· != '_') = ds := by
  simp [stripSeparators, and_assoc]

/-- Dropping the underscores and then reading the digits accepts groups. -/
theorem group_iff (hr : radix ≤ 16) : Group radix cs vs ↔
    ∃ ds, stripSeparators radix cs = some ds ∧ Spell radix ds vs := by
  constructor
  · intro h
    obtain ⟨c, rest, hcs, -⟩ := h.exists_cons hr
    exact ⟨_, stripSeparators_eq_some_iff.mpr ⟨hcs ▸ List.cons_ne_nil _ _, (h.separated hr).1 false, rfl⟩,
      (h.separated hr).2⟩
  · rintro ⟨ds, hds, hspell⟩
    obtain ⟨hne, hsep, rfl⟩ := stripSeparators_eq_some_iff.mp hds
    exact group_of_separated hr hne hsep hspell

/-! ### Bodies -/

theorem radixMarks_le (h : (radix, c) ∈ radixMarks) : radix ≤ 16 ∧ radix ≠ 10 := by
  have hall : ∀ r ∈ radixMarks, r.1 ≤ 16 ∧ r.1 ≠ 10 := by decide
  exact hall _ h

/-- No radix mark stands in a decimal number. -/
theorem not_decimal_of_radixMarks (h : (radix, c) ∈ radixMarks) :
    c ≠ '_' ∧ isDigit 10 c = false ∧ isFloatChar c = false := by
  have hall : ∀ r ∈ radixMarks, r.2 ≠ '_' ∧ isDigit 10 r.2 = false ∧ isFloatChar r.2 = false := by decide
  exact hall _ h

theorem splitRadix_marked (h : (radix, c) ∈ radixMarks) : splitRadix ('0' :: c :: cs) = (radix, cs) := by
  simp only [radixMarks, List.mem_cons, Prod.mk.injEq, List.not_mem_nil, or_false] at h
  rcases h with ⟨rfl, rfl⟩ | ⟨rfl, rfl⟩ | ⟨rfl, rfl⟩ | ⟨rfl, rfl⟩ | ⟨rfl, rfl⟩ | ⟨rfl, rfl⟩ <;> rfl

/-- A body has a radix mark or is decimal. -/
theorem splitRadix_cases (cs : List Char) :
    (∃ radix mark rest, (radix, mark) ∈ radixMarks ∧ cs = '0' :: mark :: rest) ∨
      splitRadix cs = (10, cs) := by
  unfold splitRadix
  split
  · next c rest =>
    by_cases h : ∃ radix, (radix, c) ∈ radixMarks
    · obtain ⟨radix, h⟩ := h
      exact Or.inl ⟨radix, c, rest, h, rfl⟩
    · simp only [radixMarks, List.mem_cons, Prod.mk.injEq, List.not_mem_nil, or_false] at h
      refine Or.inr ?_
      grind
  · exact Or.inr rfl

/-- A group of decimal digits has no radix mark. -/
theorem Group.splitRadix_eq (h : Group 10 cs vs) : splitRadix cs = (10, cs) := by
  rcases splitRadix_cases cs with ⟨radix, mark, rest, hmark, rfl⟩ | hsplit
  · obtain ⟨hunder, hnot, -⟩ := not_decimal_of_radixMarks hmark
    cases h with
    | next _ hrest =>
      obtain ⟨c, _, heq, hc⟩ := hrest.exists_cons (by decide)
      obtain ⟨rfl, -⟩ := List.cons.inj heq
      rw [hnot] at hc
      cases hc
    | apart => exact absurd rfl hunder
  · exact hsplit

theorem isFloatMark_eq_false (h : isDigit 10 c = true) : isFloatMark c = false := by
  obtain ⟨d, hd⟩ := Option.isSome_iff_exists.mp h
  obtain ⟨hlt, hcases⟩ := digit?_cases hd
  by_contra hmark
  simp only [isFloatMark, Bool.not_eq_false, Bool.or_eq_true, beq_iff_eq] at hmark
  rcases hmark with (rfl | rfl) | rfl <;>
  · simp only [Char.reduceToNat] at hcases
    omega

/-- After the radix mark come the digits of an integer, or there is no integer. -/
theorem readBody_eq_integer_iff {marked : List Char} (hsplit : splitRadix cs = (radix, marked))
    (negative : Bool) (k : Int) : readBody negative cs = some (.integer k) ↔
      ∃ ds, stripSeparators radix marked = some ds ∧ ds.all (isDigit radix) = true ∧
        k = if negative then -(positional radix ds : Int) else positional radix ds := by
  unfold readBody
  rw [hsplit]
  dsimp only
  cases stripSeparators radix marked with
  | none => simp
  | some ds =>
    simp only [Option.some.injEq, exists_eq_left']
    by_cases hfloat : (radix == 10 && ds.any isFloatMark) = true
    · -- a float mark is no decimal digit
      rw [if_pos hfloat]
      obtain ⟨hten, hany⟩ := Bool.and_eq_true_iff.mp hfloat
      obtain rfl := beq_iff_eq.mp hten
      obtain ⟨c, hc, hmark⟩ := List.any_eq_true.mp hany
      refine iff_of_false (fun h => ?_) fun h => ?_
      · split at h
        · obtain ⟨_, _, h⟩ := Option.map_eq_some_iff.mp h
          cases h
        · cases h
      · rw [isFloatMark_eq_false (List.all_eq_true.mp h.1 c hc)] at hmark
        cases hmark
    · rw [if_neg hfloat]
      by_cases hall : ds.all (isDigit radix) = true
      · rw [if_pos hall]
        simp [hall, eq_comm]
      · rw [if_neg hall]
        exact iff_of_false nofun fun h => hall h.1

/-- The integers that bodies stand for are those of the grammar. -/
theorem readBody_integer_iff (negative : Bool) (k : Int) : readBody negative cs = some (.integer k) ↔
    ∃ n : Nat, Magnitude cs n ∧ k = if negative then -(n : Int) else n := by
  constructor
  · intro h
    rcases splitRadix_cases cs with ⟨radix, mark, rest, hmark, rfl⟩ | hsplit
    · obtain ⟨hr, -⟩ := radixMarks_le hmark
      obtain ⟨ds, hds, hall, rfl⟩ := (readBody_eq_integer_iff (splitRadix_marked hmark) negative k).mp h
      obtain ⟨vs, hvs⟩ := (all_isDigit_iff hr).mp hall
      exact ⟨_, .marked hmark ((group_iff hr).mpr ⟨ds, hds, hvs⟩), by rw [hvs.positional_eq hr]⟩
    · have hr : 10 ≤ 16 := by decide
      obtain ⟨ds, hds, hall, rfl⟩ := (readBody_eq_integer_iff hsplit negative k).mp h
      obtain ⟨vs, hvs⟩ := (all_isDigit_iff hr).mp hall
      exact ⟨_, .decimal ((group_iff hr).mpr ⟨ds, hds, hvs⟩), by rw [hvs.positional_eq hr]⟩
  · rintro ⟨n, h, rfl⟩
    cases h with
    | decimal h =>
      have hr : 10 ≤ 16 := by decide
      obtain ⟨ds, hds, hvs⟩ := (group_iff hr).mp h
      rw [readBody_eq_integer_iff h.splitRadix_eq]
      exact ⟨ds, hds, (all_isDigit_iff hr).mpr ⟨_, hvs⟩, by rw [hvs.positional_eq hr]⟩
    | marked hmark h =>
      obtain ⟨hr, -⟩ := radixMarks_le hmark
      obtain ⟨ds, hds, hvs⟩ := (group_iff hr).mp h
      rw [readBody_eq_integer_iff (splitRadix_marked hmark)]
      exact ⟨ds, hds, (all_isDigit_iff hr).mpr ⟨_, hvs⟩, by rw [hvs.positional_eq hr]⟩

/-! ### Texts -/

/-- A magnitude begins with a digit. -/
theorem Magnitude.exists_cons (h : Magnitude cs n) : ∃ c rest, cs = c :: rest ∧ c ≠ '+' ∧ c ≠ '-' := by
  cases h with
  | decimal h =>
    obtain ⟨c, rest, rfl, hc⟩ := h.exists_cons (by decide)
    exact ⟨c, rest, rfl, (ne_of_isDigit hc).2.1, (ne_of_isDigit hc).2.2.1⟩
  | marked _ _ => exact ⟨_, _, rfl, by decide, by decide⟩

theorem read?_minus {text : String} (h : trim text.toList = '-' :: cs) :
    read? text = readBody true cs := by
  rw [read?, h]
  rfl

theorem read?_plus {text : String} (h : trim text.toList = '+' :: cs) :
    read? text = readBody false cs := by
  rw [read?, h]
  rfl

theorem read?_unsigned {text : String} (h : trim text.toList = c :: cs) (hplus : c ≠ '+')
    (hminus : c ≠ '-') : read? text = readBody false (c :: cs) := by
  rw [read?, h]
  split
  · next heq => cases heq
  · next heq => exact absurd (List.cons.inj heq).1 hminus
  · next heq => exact absurd (List.cons.inj heq).1 hplus
  · rfl

/-- A text has no characters besides white space, one sign in front of its body, or none. -/
theorem read?_cases (text : String) :
    (trim text.toList = [] ∧ read? text = none) ∨
      (∃ body, trim text.toList = '-' :: body ∧ read? text = readBody true body) ∨
      (∃ body, trim text.toList = '+' :: body ∧ read? text = readBody false body) ∨
      ∃ c rest, trim text.toList = c :: rest ∧ c ≠ '+' ∧ c ≠ '-' ∧
        read? text = readBody false (c :: rest) := by
  cases h : trim text.toList with
  | nil => exact Or.inl ⟨rfl, by rw [read?, h]⟩
  | cons c rest =>
    by_cases hminus : c = '-'
    · subst hminus
      exact Or.inr (Or.inl ⟨rest, rfl, read?_minus h⟩)
    by_cases hplus : c = '+'
    · subst hplus
      exact Or.inr (Or.inr (Or.inl ⟨rest, rfl, read?_plus h⟩))
    · exact Or.inr (Or.inr (Or.inr ⟨c, rest, rfl, hplus, hminus, read?_unsigned h hplus hminus⟩))

/-- The integers that texts stand for are those of the grammar. -/
theorem read?_eq_integer_iff (text : String) (k : Int) :
    read? text = some (.integer k) ↔ IntegerText (trim text.toList) k := by
  constructor
  · intro h
    rcases read?_cases text with ⟨-, hread⟩ | ⟨body, htrim, hread⟩ | ⟨body, htrim, hread⟩ |
      ⟨c, rest, htrim, -, -, hread⟩
    · rw [hread] at h
      cases h
    · obtain ⟨n, hn, rfl⟩ := (readBody_integer_iff true k).mp (hread.symm.trans h)
      exact htrim ▸ .minus hn
    · obtain ⟨n, hn, rfl⟩ := (readBody_integer_iff false k).mp (hread.symm.trans h)
      exact htrim ▸ .plus hn
    · obtain ⟨n, hn, rfl⟩ := (readBody_integer_iff false k).mp (hread.symm.trans h)
      exact htrim ▸ .plain hn
  · intro h
    generalize htrim : trim text.toList = cs at h
    cases h with
    | minus h => exact (read?_minus htrim).trans ((readBody_integer_iff true _).mpr ⟨_, h, rfl⟩)
    | plus h => exact (read?_plus htrim).trans ((readBody_integer_iff false _).mpr ⟨_, h, rfl⟩)
    | plain h =>
      obtain ⟨c, rest, rfl, hplus, hminus⟩ := h.exists_cons
      exact (read?_unsigned htrim hplus hminus).trans ((readBody_integer_iff false _).mpr ⟨_, h, rfl⟩)

/-- Reading never gives a numeral that is a fixnum already. -/
theorem readBody_ne_fixnum (negative : Bool) (cs : List Char) (k : Int) :
    readBody negative cs ≠ some (.fixnum k) := by
  intro h
  unfold readBody at h
  dsimp only at h
  split at h
  · cases h
  · split at h
    · split at h
      · obtain ⟨_, _, h⟩ := Option.map_eq_some_iff.mp h
        cases h
      · cases h
    · split at h <;> cases h

theorem read?_ne_fixnum (text : String) (k : Int) : read? text ≠ some (.fixnum k) := by
  intro h
  rcases read?_cases text with ⟨-, hread⟩ | ⟨_, -, hread⟩ | ⟨_, -, hread⟩ | ⟨_, _, -, -, -, hread⟩
  · cases hread.symm.trans h
  all_goals exact readBody_ne_fixnum _ _ k (hread.symm.trans h)

/-! ### White space -/

/-- What is left of characters when white space is taken off at both ends. -/
structure Trimmed (cs core : List Char) : Prop where
  around : ∃ front back, cs = front ++ core ++ back ∧ (∀ c ∈ front, isBlank c = true) ∧
    ∀ c ∈ back, isBlank c = true
  head : ∀ c, core.head? = some c → isBlank c = false
  last : ∀ c, core.getLast? = some c → isBlank c = false

theorem trimmed_trim (cs : List Char) : Trimmed cs (trim cs) := by
  have hblank : ∀ {l : List Char}, ∀ c ∈ l.takeWhile isBlank, isBlank c = true :=
    fun c hc => List.all_eq_true.mp List.all_takeWhile c hc
  have hhead : ∀ {l : List Char} {c : Char}, (l.dropWhile isBlank).head? = some c → isBlank c = false := by
    intro l c hc
    have hnot := List.head?_dropWhile_not isBlank l
    rwa [hc] at hnot
  let rest := cs.dropWhile isBlank
  let back := (rest.reverse.takeWhile isBlank).reverse
  have hrest : trim cs ++ back = rest := by
    rw [trim, ← List.reverse_append, List.takeWhile_append_dropWhile, List.reverse_reverse]
  refine ⟨⟨cs.takeWhile isBlank, back, ?_, hblank, fun c hc => hblank c (List.mem_reverse.mp hc)⟩,
    fun c hc => ?_, fun c hc => ?_⟩
  · rw [List.append_assoc, hrest, List.takeWhile_append_dropWhile]
  · refine hhead (l := cs) ?_
    change rest.head? = some c
    rw [← hrest, List.head?_append, hc, Option.some_or]
  · rw [trim, List.getLast?_reverse] at hc
    exact hhead hc

/-! ### Bytes -/

/-- A byte below 128 at the front of the encoding of a character is that character. -/
theorem toNat_of_head?_utf8EncodeChar {b : UInt8} (hb : b.toNat < 128)
    (h : (String.utf8EncodeChar c).head? = some b) : c.toNat = b.toNat := by
  unfold String.utf8EncodeChar at h
  dsimp only at h
  split_ifs at h with hascii
  all_goals
    rw [List.head?_cons] at h
    rw [← Option.some.inj h, UInt8.toNat_ofNat'] at hb ⊢
  · change c.val.toNat = _
    omega
  all_goals omega

/-- Between the texts of two lists of characters a text can be cut. -/
theorem isValid_rawEndPos (front rest : List Char) :
    String.Pos.Raw.IsValid (String.ofList (front ++ rest)) (String.ofList front).rawEndPos :=
  String.Pos.Raw.isValid_iff_exists_append.mpr ⟨_, _, String.ofList_append, rfl⟩

/-- Where a byte in front is that of a sign, the text can be cut after one byte. -/
theorem isValid_sign {text : String} {b : UInt8} (h : text.toByteArray.data[0]? = some b)
    (hb : b = 43 ∨ b = 45) : String.Pos.Raw.IsValid text ⟨1⟩ := by
  have htext : text = String.ofList text.toList := String.ofList_toList.symm
  rw [htext] at h ⊢
  cases hcs : text.toList with
  | nil =>
    rw [hcs] at h
    cases h
  | cons c rest =>
    have hfirst : (String.utf8EncodeChar c).head? = some b := by
      rw [hcs, String.toByteArray_ofList, List.utf8Encode_cons, List.utf8Encode_singleton,
        ByteArray.data_append, List.data_toByteArray, Array.getElem?_append_left] at h
      · rwa [List.getElem?_toArray, ← List.head?_eq_getElem?] at h
      · rw [List.size_toArray, String.length_utf8EncodeChar]
        exact Char.utf8Size_pos c
    have hchar : c = '+' ∨ c = '-' := by
      have hnat := toNat_of_head?_utf8EncodeChar (by rcases hb with rfl | rfl <;> decide) hfirst
      rw [← Char.ofNat_toNat c, hnat]
      rcases hb with rfl | rfl
      · exact Or.inl rfl
      · exact Or.inr rfl
    have hsize : (String.ofList [c]).rawEndPos = ⟨1⟩ := by
      rcases hchar with rfl | rfl <;> rfl
    exact hsize ▸ isValid_rawEndPos [c] rest

/-- Where there is a radix mark, the text can be cut after two bytes. -/
theorem isValid_mark (h : (radix, c) ∈ radixMarks) :
    String.Pos.Raw.IsValid (String.ofList ('0' :: c :: cs)) ⟨2⟩ := by
  have hsize : ∀ r ∈ radixMarks, (String.ofList ['0', r.2]).rawEndPos = ⟨2⟩ := by decide
  exact hsize _ h ▸ isValid_rawEndPos ['0', c] cs

end ObjectMachine.Literal

namespace ObjectMachine

/-! ### Numbers from texts -/

/-- The number that an integer is stored as: a fixnum in the range of fixnums, else a bignum. -/
def Number.stored (n : Int) : Number := if -2 ^ 62 ≤ n ∧ n < 2 ^ 62 then .fixed n else .big n

/-- Parsing a text succeeds and gives a number. -/
def Machine.Parses (m : Machine) (text : String) (x : Number) : Prop :=
  ∃ v m', Effect.parseNumber text m = .ok v m' ∧ m'.number? v = some x

namespace Machine

variable {m : Machine} {v : Value} {o : Object} {text : String} {n : Int} {x : Number}

theorem number?_of_bignum (ho : m.heap.get? v = some o) (hb : o.body = .bignum n) :
    m.number? v = some (.big n) := by
  simp [number?, fixnum?_of_get? ho, Heap.read?, ho, hb, Facet.float, Facet.bignum]

theorem number?_of_float {y : Binary64} (ho : m.heap.get? v = some o) (hb : o.body = .float y) :
    m.number? v = some (.float y) := by
  simp [number?, fixnum?_of_get? ho, Heap.read?, ho, hb, Facet.float]

theorem parses_of_integer (hm : m.Intact) (hroom : m.Spacious)
    (h : Literal.read? text = some (.integer n)) : m.Parses text (.stored n) := by
  have hparse : Effect.parseNumber text = Effect.newInteger n := by
    rw [Effect.parseNumber, h]
    rfl
  rw [Parses, hparse, Number.stored, Effect.newInteger, Value.ofInt?]
  by_cases hn : -2 ^ 62 ≤ n ∧ n < 2 ^ 62
  · rw [if_pos (Value.fitsFixnum_iff.mpr hn), if_pos hn]
    exact ⟨_, m, rfl, by rw [number?, Value.fixnum?_ofInt hn]⟩
  · rw [if_neg (mt Value.fitsFixnum_iff.mp hn), if_neg hn]
    obtain ⟨v, m', o, halloc, ho, -, hb⟩ :=
      Effect.exists_alloc hm.sound hroom.size_lt (m.classValue .bignum) (.bignum n)
    exact ⟨v, m', halloc, number?_of_bignum ho hb⟩

theorem parses_of_float (hm : m.Intact) (hroom : m.Spacious) {y : Binary64}
    (h : Literal.read? text = some (.float y)) : m.Parses text (.float y) := by
  have hparse : Effect.parseNumber text = Effect.newFloat y := by
    rw [Effect.parseNumber, h]
    rfl
  rw [Parses, hparse]
  obtain ⟨v, m', o, halloc, ho, -, hb⟩ :=
    Effect.exists_alloc hm.sound hroom.size_lt (m.classValue .float) (.float y)
  exact ⟨v, m', halloc, number?_of_float ho hb⟩

theorem throws_of_no_literal (hm : m.Intact) (hroom : m.Spacious) (h : Literal.read? text = none) :
    (Effect.parseNumber text).Throws m .valueError s!"invalid literal for number: '{text}'" := by
  have hparse : Effect.parseNumber text =
      Effect.raiseError .valueError s!"invalid literal for number: '{text}'" := by
    rw [Effect.parseNumber, h]
  rw [hparse]
  exact Effect.exists_raised hm hroom _ _

theorem Parses.unique {y : Number} (h : m.Parses text x) (h' : m.Parses text y) : x = y := by
  obtain ⟨v, m₁, hparse, hx⟩ := h
  obtain ⟨w, m₂, hparse', hy⟩ := h'
  obtain ⟨rfl, rfl⟩ := EStateM.Result.ok.inj (hparse.symm.trans hparse')
  exact Option.some.inj (hx.symm.trans hy)

theorem Parses.not_throws {kind : ErrorKind} {message : String} (h : m.Parses text x) :
    ¬ (Effect.parseNumber text).Throws m kind message := by
  obtain ⟨v, m₁, hparse, -⟩ := h
  rintro ⟨exc, m₂, hthrow, -⟩
  cases hparse.symm.trans hthrow

/-- A literal is an integer or a double, and parsing ends accordingly. -/
theorem parse_cases (hm : m.Intact) (hroom : m.Spacious) (text : String) :
    (∃ n, Literal.read? text = some (.integer n) ∧ m.Parses text (.stored n)) ∨
      (∃ y, Literal.read? text = some (.float y) ∧ m.Parses text (.float y)) ∨
      Literal.read? text = none ∧
        (Effect.parseNumber text).Throws m .valueError s!"invalid literal for number: '{text}'" := by
  cases h : Literal.read? text with
  | none => exact Or.inr (Or.inr ⟨rfl, throws_of_no_literal hm hroom h⟩)
  | some r =>
    cases r with
    | integer n => exact Or.inl ⟨n, rfl, parses_of_integer hm hroom h⟩
    | float y => exact Or.inr (Or.inl ⟨y, rfl, parses_of_float hm hroom h⟩)
    | fixnum n => exact absurd h (Literal.read?_ne_fixnum text n)

/-- What a text is parsed as is what its literal is stored as. -/
theorem parses_iff (hm : m.Intact) (hroom : m.Spacious) : m.Parses text x ↔
    (∃ n, Literal.read? text = some (.integer n) ∧ x = .stored n) ∨
      ∃ y, Literal.read? text = some (.float y) ∧ x = .float y := by
  constructor
  · intro h
    rcases parse_cases hm hroom text with ⟨n, hread, hn⟩ | ⟨y, hread, hy⟩ | ⟨-, hthrows⟩
    · exact Or.inl ⟨n, hread, h.unique hn⟩
    · exact Or.inr ⟨y, hread, h.unique hy⟩
    · exact absurd hthrows h.not_throws
  · rintro (⟨n, hread, rfl⟩ | ⟨y, hread, rfl⟩)
    · exact parses_of_integer hm hroom hread
    · exact parses_of_float hm hroom hread

theorem stored_eq_fixed_iff {k : Int} :
    Number.fixed k = .stored n ↔ n = k ∧ -2 ^ 62 ≤ k ∧ k < 2 ^ 62 := by
  unfold Number.stored
  split <;> simp <;> omega

theorem stored_eq_big_iff {k : Int} :
    Number.big k = .stored n ↔ n = k ∧ ¬ (-2 ^ 62 ≤ k ∧ k < 2 ^ 62) := by
  unfold Number.stored
  split <;> simp <;> omega

/-- Parsing a text returns an integer exactly if the text, trimmed of white space, is an optional sign
and a group of decimal digits, or of digits of a radix after its mark, and then it is the signed number
that the digits spell: a fixnum if it lies in the range of fixnums, else a bignum.  Every other text is a
double or raises a ValueError with the text in its message.  White space is taken off at both ends, and
where the text is then cut, after a byte that is a sign and after the two of a radix mark, no character
is cut apart. -/
theorem integer_literals_exact (m : Machine) (hm : m.Intact) (hroom : m.Spacious) (text : String) :
    (∀ n, m.Parses text (.fixed n) ↔
      Literal.IntegerText (Literal.trim text.toList) n ∧ -2 ^ 62 ≤ n ∧ n < 2 ^ 62) ∧
    (∀ n, m.Parses text (.big n) ↔
      Literal.IntegerText (Literal.trim text.toList) n ∧ ¬ (-2 ^ 62 ≤ n ∧ n < 2 ^ 62)) ∧
    ((∃ x, m.Parses text x) ∨
      (Effect.parseNumber text).Throws m .valueError s!"invalid literal for number: '{text}'") ∧
    Literal.Trimmed text.toList (Literal.trim text.toList) ∧
    (∀ (trimmed : String) (b : UInt8), trimmed.toByteArray.data[0]? = some b → b = 43 ∨ b = 45 →
      String.Pos.Raw.IsValid trimmed ⟨1⟩) ∧
    ∀ body : List Char, (Literal.splitRadix body).1 ≠ 10 →
      String.Pos.Raw.IsValid (String.ofList body) ⟨2⟩ := by
  refine ⟨fun n => ?_, fun n => ?_, ?_, Literal.trimmed_trim _, fun _ _ => Literal.isValid_sign,
    fun body hbody => ?_⟩
  · rw [parses_iff hm hroom, ← Literal.read?_eq_integer_iff]
    simp [stored_eq_fixed_iff]
  · rw [parses_iff hm hroom, ← Literal.read?_eq_integer_iff]
    simp [stored_eq_big_iff]
  · rcases parse_cases hm hroom text with ⟨n, -, hn⟩ | ⟨y, -, hy⟩ | ⟨-, hthrows⟩
    · exact Or.inl ⟨_, hn⟩
    · exact Or.inl ⟨_, hy⟩
    · exact Or.inr hthrows
  · rcases Literal.splitRadix_cases body with ⟨radix, mark, rest, hmark, rfl⟩ | hsplit
    · exact Literal.isValid_mark hmark
    · exact absurd (congrArg Prod.fst hsplit) hbody

/-- A literal with everything that may be in one, and the least integer that is no fixnum. -/
theorem integer_literals_exact_marked :
    let m : Machine := { heap := { settings := {} } }
    m.Parses " -0xF_f " (.fixed (-255)) ∧ m.Parses "4611686018427387904" (.big (2 ^ 62)) := by
  intro m
  have hm : m.Intact := intact_fresh {}
  have hroom : m.Spacious := by unfold Spacious; decide
  have hsmall : Literal.IntegerText (Literal.trim " -0xF_f ".toList) (-255) :=
    (Literal.read?_eq_integer_iff _ _).mp (by decide)
  have hlarge : Literal.IntegerText (Literal.trim "4611686018427387904".toList) (2 ^ 62) :=
    (Literal.read?_eq_integer_iff _ _).mp (by decide)
  exact ⟨((integer_literals_exact m hm hroom " -0xF_f ").1 (-255)).mpr ⟨hsmall, by decide⟩,
    ((integer_literals_exact m hm hroom "4611686018427387904").2.1 (2 ^ 62)).mpr ⟨hlarge, by decide⟩⟩

end Machine

end ObjectMachine
