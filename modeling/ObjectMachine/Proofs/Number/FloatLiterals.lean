import Mathlib.Tactic
import ObjectMachine.Proofs.Number.Literals

/-! Literals of doubles.

The reader takes off a sign, checks and drops the underscores, looks whether only characters of doubles
are left, and hands them to a reader of decimal numbers that takes a sign of its own.  So what is read as
a double is a decimal number with up to two signs: the grammar has the signs as a layer, and the reader
accepts two such layers where one is meant. -/

namespace ObjectMachine.Literal

open Binary64

/-! ### The grammar -/

/-- Decimal digits with single underscores between them, or nothing. -/
def Figures (cs : List Char) (vs : List Nat) : Prop := cs = [] ∧ vs = [] ∨ Group 10 cs vs

/-- The exponent part: nothing at all, or a mark, an optional sign and digits.  The exponent counts up to
a bound. -/
inductive Exponent (figures : List Char → List Nat → Prop) : List Char → Int → Prop where
  | none : Exponent figures [] 0
  | plain {mark : Char} {cs : List Char} {vs : List Nat} (hmark : mark = 'e' ∨ mark = 'E')
      (h : figures cs vs) (hne : vs ≠ []) : Exponent figures (mark :: cs) (exponentValue vs)
  | plus {mark : Char} {cs : List Char} {vs : List Nat} (hmark : mark = 'e' ∨ mark = 'E')
      (h : figures cs vs) (hne : vs ≠ []) : Exponent figures (mark :: '+' :: cs) (exponentValue vs)
  | minus {mark : Char} {cs : List Char} {vs : List Nat} (hmark : mark = 'e' ∨ mark = 'E')
      (h : figures cs vs) (hne : vs ≠ []) : Exponent figures (mark :: '-' :: cs) (-exponentValue vs)

/-- A decimal number without a sign and the double nearest to it: digits with a point, at least one of
them on one of its sides, and perhaps an exponent, or digits with an exponent. -/
inductive Decimal (figures : List Char → List Nat → Prop) : List Char → Binary64 → Prop where
  | point {whole fraction rest : List Char} {ws fs : List Nat} {e : Int} (hwhole : figures whole ws)
      (hfraction : figures fraction fs) (hne : ws ++ fs ≠ []) (hrest : Exponent figures rest e) :
      Decimal figures (whole ++ '.' :: (fraction ++ rest)) (ofDecimal (ws ++ fs) (e - fs.length))
  | exponent {whole rest : List Char} {ws : List Nat} {e : Int} (hwhole : figures whole ws)
      (hne : ws ≠ []) (hrest : Exponent figures rest e) (hmark : rest ≠ []) :
      Decimal figures (whole ++ rest) (ofDecimal ws e)

/-- At most one sign in front of what has none. -/
inductive Signed (unsigned : List Char → Binary64 → Prop) : List Char → Binary64 → Prop where
  | plain {cs : List Char} {x : Binary64} (h : unsigned cs x) : Signed unsigned cs x
  | plus {cs : List Char} {x : Binary64} (h : unsigned cs x) : Signed unsigned ('+' :: cs) x
  | minus {cs : List Char} {x : Binary64} (h : unsigned cs x) : Signed unsigned ('-' :: cs) x.negate

/-! ### Digits -/

variable {c : Char} {cs ds whole fraction rest : List Char} {vs ws fs : List Nat} {e : Int}
  {x : Binary64}

theorem isDigit_ten (c : Char) : c.isDigit = isDigit 10 c := by
  have hrange : c.isDigit = true ↔ 48 ≤ c.toNat ∧ c.toNat ≤ 57 := by
    rw [Char.isDigit, Bool.and_eq_true, decide_eq_true_eq, decide_eq_true_eq]
    exact Iff.rfl
  rw [Bool.eq_iff_iff, hrange]
  constructor
  · intro h
    have hc : '0' ≤ c ∧ c ≤ '9' := h
    rw [isDigit, digit?, if_pos hc]
    simp only [Char.reduceToNat]
    rw [if_pos (by omega)]
    rfl
  · intro h
    obtain ⟨d, hd⟩ := Option.isSome_iff_exists.mp h
    obtain ⟨hlt, hcases⟩ := digit?_cases hd
    omega

theorem Spell.all (h : Spell 10 cs vs) : cs.all (isDigit 10) = true :=
  (all_isDigit_iff (by decide)).mpr ⟨vs, h⟩

theorem Spell.head?_ne (h : Spell 10 cs vs) : cs.head? ≠ some '-' ∧ cs.head? ≠ some '+' := by
  cases h with
  | nil => exact ⟨nofun, nofun⟩
  | cons hd _ =>
    obtain ⟨-, hplus, hminus, -⟩ := ne_of_isDigit ((isDigit_iff (by decide)).mpr ⟨_, hd⟩)
    simpa using ⟨hminus, hplus⟩

theorem Spell.digitValues_eq (h : Spell 10 cs vs) : digitValues cs = vs := by
  induction h with
  | nil => rfl
  | @cons c d cs vs hd _ ih =>
    have hc := (digit?_eq_some_iff (by decide)).mpr hd
    obtain ⟨hlt, hcases⟩ := digit?_cases hc
    have hvalue : c.toNat - '0'.toNat = d := by
      simp only [Char.reduceToNat]
      omega
    rw [digitValues, List.map_cons, hvalue]
    exact congrArg (d :: ·) ih

/-- Digits are split off in front of something else. -/
theorem spanDigits_append (hw : Spell 10 whole ws) (hrest : ∀ c ∈ rest.head?, isDigit 10 c = false) :
    spanDigits (whole ++ rest) = (whole, rest) := by
  have hall : ∀ c ∈ whole, c.isDigit = true := fun c hc =>
    (isDigit_ten c).trans (List.all_eq_true.mp hw.all c hc)
  have htake : rest.takeWhile Char.isDigit = [] ∧ rest.dropWhile Char.isDigit = rest := by
    cases rest with
    | nil => exact ⟨rfl, rfl⟩
    | cons c rest =>
      have hc : ¬ c.isDigit = true := by
        rw [isDigit_ten, hrest c rfl]
        exact Bool.false_ne_true
      exact ⟨List.takeWhile_cons_of_neg hc, List.dropWhile_cons_of_neg hc⟩
  rw [spanDigits, List.span_eq_takeWhile_dropWhile, List.takeWhile_append_of_pos hall,
    List.dropWhile_append_of_pos hall, htake.1, htake.2, List.append_nil]

/-- Every list begins with digits that may be split off. -/
theorem exists_spell (cs : List Char) : ∃ whole ws rest, cs = whole ++ rest ∧ Spell 10 whole ws ∧
    ∀ c ∈ rest.head?, isDigit 10 c = false := by
  have hall : (cs.takeWhile Char.isDigit).all (isDigit 10) = true :=
    List.all_eq_true.mpr fun c hc => isDigit_ten c ▸ List.all_eq_true.mp List.all_takeWhile c hc
  obtain ⟨ws, hws⟩ := (all_isDigit_iff (by decide)).mp hall
  refine ⟨_, ws, cs.dropWhile Char.isDigit, List.takeWhile_append_dropWhile.symm, hws, fun c hc => ?_⟩
  have hnot := List.head?_dropWhile_not Char.isDigit cs
  rw [Option.mem_def.mp hc] at hnot
  rwa [← isDigit_ten]

/-! ### Reading decimal numbers -/

/-- The exponent that digits after a sign stand for. -/
def exponentAfter (negative : Bool) (ds : List Char) : Option Int :=
  if ds.isEmpty || !ds.all Char.isDigit then none
  else
    let e : Int := exponentValue (digitValues ds)
    some (if negative then -e else e)

theorem exponentAfter_eq_some_iff (negative : Bool) : exponentAfter negative ds = some e ↔
    ∃ vs, Spell 10 ds vs ∧ vs ≠ [] ∧
      e = if negative then -(exponentValue vs : Int) else exponentValue vs := by
  have hall : ds.all Char.isDigit = ds.all (isDigit 10) := congrArg _ (funext isDigit_ten)
  unfold exponentAfter
  rw [hall]
  constructor
  · intro h
    split at h
    · cases h
    · next hdigits =>
      rw [Bool.or_eq_true, not_or, Bool.not_eq_true', Bool.not_eq_false, List.isEmpty_iff] at hdigits
      obtain ⟨vs, hvs⟩ := (all_isDigit_iff (by decide)).mp hdigits.2
      refine ⟨vs, hvs, fun hnil => hdigits.1 ?_, ?_⟩
      · subst hnil
        cases hvs
        rfl
      · rw [← hvs.digitValues_eq]
        exact (Option.some.inj h).symm
  · rintro ⟨vs, hvs, hne, rfl⟩
    have hdigits : ¬ (ds.isEmpty || !ds.all (isDigit 10)) = true := by
      rw [hvs.all, Bool.not_true, Bool.or_false, List.isEmpty_iff]
      rintro rfl
      cases hvs
      exact hne rfl
    rw [if_neg hdigits, hvs.digitValues_eq]

theorem readExponent_minus (hmark : c = 'e' ∨ c = 'E') (ds : List Char) :
    readExponent (c :: '-' :: ds) = exponentAfter true ds := by
  rw [readExponent, if_pos (by simpa using hmark)]
  rfl

theorem readExponent_plus (hmark : c = 'e' ∨ c = 'E') (ds : List Char) :
    readExponent (c :: '+' :: ds) = exponentAfter false ds := by
  rw [readExponent, if_pos (by simpa using hmark)]
  rfl

theorem readExponent_plain (hmark : c = 'e' ∨ c = 'E')
    (hsign : ds.head? ≠ some '-' ∧ ds.head? ≠ some '+') :
    readExponent (c :: ds) = exponentAfter false ds := by
  rw [readExponent, if_pos (by simpa using hmark)]
  · rfl
  · rintro rest rfl
    exact hsign.1 rfl
  · rintro rest rfl
    exact hsign.2 rfl

/-- The exponent parts that are read are those of the grammar. -/
theorem readExponent_iff : readExponent rest = some e ↔ Exponent (Spell 10) rest e := by
  constructor
  · intro h
    cases rest with
    | nil =>
      obtain rfl := Option.some.inj h
      exact .none
    | cons c cs =>
      have hmark : c = 'e' ∨ c = 'E' := by
        unfold readExponent at h
        dsimp only at h
        split at h
        · next hc => simpa using hc
        · cases h
      by_cases hminus : ∃ ds, cs = '-' :: ds
      · obtain ⟨ds, rfl⟩ := hminus
        rw [readExponent_minus hmark] at h
        obtain ⟨vs, hvs, hne, rfl⟩ := (exponentAfter_eq_some_iff true).mp h
        exact .minus hmark hvs hne
      by_cases hplus : ∃ ds, cs = '+' :: ds
      · obtain ⟨ds, rfl⟩ := hplus
        rw [readExponent_plus hmark] at h
        obtain ⟨vs, hvs, hne, rfl⟩ := (exponentAfter_eq_some_iff false).mp h
        exact .plus hmark hvs hne
      · rw [readExponent_plain hmark ⟨fun hs => hminus (List.head?_eq_some_iff.mp hs),
          fun hs => hplus (List.head?_eq_some_iff.mp hs)⟩] at h
        obtain ⟨vs, hvs, hne, rfl⟩ := (exponentAfter_eq_some_iff false).mp h
        exact .plain hmark hvs hne
  · intro h
    cases h with
    | none => rfl
    | plain hmark hvs hne =>
      rw [readExponent_plain hmark hvs.head?_ne]
      exact (exponentAfter_eq_some_iff false).mpr ⟨_, hvs, hne, rfl⟩
    | plus hmark hvs hne =>
      rw [readExponent_plus hmark]
      exact (exponentAfter_eq_some_iff false).mpr ⟨_, hvs, hne, rfl⟩
    | minus hmark hvs hne =>
      rw [readExponent_minus hmark]
      exact (exponentAfter_eq_some_iff true).mpr ⟨_, hvs, hne, rfl⟩

/-- The digits after a point, none if there is no point, and what follows them. -/
def afterPoint : List Char → List Char × List Char
  | '.' :: rest => spanDigits rest
  | rest => ([], rest)

/-- What is read, by the parts of the text. -/
theorem readUnsigned_eq {tail : List Char} (hwhole : Spell 10 whole ws)
    (hfraction : Spell 10 fraction fs) (hspan : spanDigits cs = (whole, tail))
    (hpoint : afterPoint tail = (fraction, rest)) :
    readUnsigned cs = if ws ++ fs = [] then none
      else (readExponent rest).map fun e => ofDecimal (ws ++ fs) (e - fs.length) := by
  have hspell : Spell 10 (whole ++ fraction) (ws ++ fs) := List.rel_append hwhole hfraction
  have hempty : (whole.isEmpty && fraction.isEmpty) = true ↔ ws ++ fs = [] := by
    rw [Bool.and_eq_true, List.isEmpty_iff, List.isEmpty_iff, ← List.append_eq_nil_iff,
      ← List.length_eq_zero_iff, ← List.length_eq_zero_iff, hspell.length_eq]
  have hparts : readUnsigned cs = if ((spanDigits cs).1.isEmpty &&
      (afterPoint (spanDigits cs).2).1.isEmpty) = true then none
      else (readExponent (afterPoint (spanDigits cs).2).2).map fun e =>
        ofDecimal (digitValues ((spanDigits cs).1 ++ (afterPoint (spanDigits cs).2).1))
          (e - (afterPoint (spanDigits cs).2).1.length) := rfl
  rw [hparts, hspan, hpoint]
  simp only [hempty, hspell.digitValues_eq, hfraction.length_eq]

theorem readUnsigned_point (hwhole : Spell 10 whole ws) (hfraction : Spell 10 fraction fs)
    (hrest : ∀ c ∈ rest.head?, isDigit 10 c = false) :
    readUnsigned (whole ++ '.' :: (fraction ++ rest)) =
      if ws ++ fs = [] then none
      else (readExponent rest).map fun e => ofDecimal (ws ++ fs) (e - fs.length) :=
  readUnsigned_eq hwhole hfraction (spanDigits_append hwhole (by rintro c ⟨⟩; decide))
    (spanDigits_append hfraction hrest)

theorem readUnsigned_whole (hwhole : Spell 10 whole ws) (hrest : ∀ c ∈ rest.head?, isDigit 10 c = false)
    (hpoint : rest.head? ≠ some '.') : readUnsigned (whole ++ rest) =
      if ws = [] then none else (readExponent rest).map fun e => ofDecimal ws e := by
  have hnone : afterPoint rest = ([], rest) := by
    unfold afterPoint
    split
    · exact absurd rfl hpoint
    · rfl
  rw [readUnsigned_eq hwhole .nil (spanDigits_append hwhole hrest) hnone]
  simp

/-- An exponent part begins with its mark, if there is one. -/
theorem Exponent.head {figures : List Char → List Nat → Prop} (h : Exponent figures rest e) :
    ∀ c ∈ rest.head?, c = 'e' ∨ c = 'E' := by
  cases h with
  | none => rintro _ ⟨⟩
  | plain hmark => rintro _ ⟨⟩; exact hmark
  | plus hmark => rintro _ ⟨⟩; exact hmark
  | minus hmark => rintro _ ⟨⟩; exact hmark

theorem Exponent.not_isDigit {figures : List Char → List Nat → Prop} (h : Exponent figures rest e) :
    ∀ c ∈ rest.head?, isDigit 10 c = false := fun c hc => by
  rcases h.head c hc with rfl | rfl
  · decide
  · decide

/-- What is read and marked as a double is a decimal number of the grammar. -/
theorem readUnsigned_iff :
    readUnsigned ds = some x ∧ ds.any isFloatMark = true ↔ Decimal (Spell 10) ds x := by
  constructor
  · rintro ⟨hread, hmark⟩
    obtain ⟨whole, ws, tail, rfl, hw, htail⟩ := exists_spell ds
    by_cases hpoint : tail.head? = some '.'
    · obtain ⟨tail, rfl⟩ := List.head?_eq_some_iff.mp hpoint
      obtain ⟨fraction, fs, rest, rfl, hf, hrest⟩ := exists_spell tail
      rw [readUnsigned_point hw hf hrest, Option.ite_none_left_eq_some] at hread
      obtain ⟨hne, hread⟩ := hread
      obtain ⟨e, he, rfl⟩ := Option.map_eq_some_iff.mp hread
      exact .point hw hf hne (readExponent_iff.mp he)
    · rw [readUnsigned_whole hw htail hpoint, Option.ite_none_left_eq_some] at hread
      obtain ⟨hne, hread⟩ := hread
      obtain ⟨e, he, rfl⟩ := Option.map_eq_some_iff.mp hread
      refine .exponent hw hne (readExponent_iff.mp he) ?_
      rintro rfl
      -- digits alone have no mark of doubles
      rw [List.append_nil] at hmark
      obtain ⟨c, hc, hmark⟩ := List.any_eq_true.mp hmark
      rw [isFloatMark_eq_false (List.all_eq_true.mp hw.all c hc)] at hmark
      cases hmark
  · intro h
    cases h with
    | point hw hf hne hrest =>
      refine ⟨?_, by simp [isFloatMark]⟩
      rw [readUnsigned_point hw hf hrest.not_isDigit, if_neg hne, readExponent_iff.mpr hrest,
        Option.map_some]
    | @exponent whole rest ws e hw hne hrest hmark =>
      obtain ⟨c, tail, rfl⟩ := List.exists_cons_of_ne_nil hmark
      have hc : c = 'e' ∨ c = 'E' := hrest.head c rfl
      refine ⟨?_, ?_⟩
      · rw [readUnsigned_whole hw hrest.not_isDigit (by rcases hc with rfl | rfl <;> simp), if_neg hne,
          readExponent_iff.mpr hrest, Option.map_some]
      · refine List.any_eq_true.mpr ⟨c, List.mem_append_right _ List.mem_cons_self, ?_⟩
        rcases hc with rfl | rfl
        · decide
        · decide

/-! ### Underscores -/

/-- Underscores, each between two digits, are dropped and leave these characters. -/
def Strips (cs ds : List Char) : Prop := separated 10 false cs = true ∧ cs.filter (· != '_') = ds

/-- A character is neither a digit nor an underscore; it cuts a text in two that have underscores of
their own. -/
def Cuts (c : Char) : Prop := c ≠ '_' ∧ isDigit 10 c = false

theorem cuts_point : Cuts '.' := by unfold Cuts; decide

theorem cuts_plus : Cuts '+' := by unfold Cuts; decide

theorem cuts_minus : Cuts '-' := by unfold Cuts; decide

theorem cuts_mark (hmark : c = 'e' ∨ c = 'E') : Cuts c := by
  unfold Cuts
  rcases hmark with rfl | rfl
  · decide
  · decide

theorem Cuts.separated_cons (h : Cuts c) (before : Bool) (cs : List Char) :
    separated 10 before (c :: cs) = separated 10 false cs := by
  rw [Literal.separated_cons h.1, h.2]

theorem Cuts.filter_cons (h : Cuts c) (cs : List Char) :
    (c :: cs).filter (· != '_') = c :: cs.filter (· != '_') :=
  List.filter_cons_of_pos (by simpa using h.1)

theorem Cuts.separated_append (h : Cuts c) (cs : List Char) : ∀ (ds : List Char) (before : Bool),
    separated 10 before (ds ++ c :: cs) = (separated 10 before ds && separated 10 false cs)
  | [], before => by rw [List.nil_append, h.separated_cons, separated, Bool.true_and]
  | d :: ds, before => by
    rw [List.cons_append]
    by_cases hd : d = '_'
    · subst hd
      have hhead : (ds ++ c :: cs).head?.any (isDigit 10) = ds.head?.any (isDigit 10) := by
        cases ds with
        | nil => simp [h.2]
        | cons => rfl
      rw [separated, separated, h.separated_append cs ds, hhead, Bool.and_assoc (before && _)]
    · rw [Literal.separated_cons hd, Literal.separated_cons hd, h.separated_append cs ds]

theorem strips_nil_iff : Strips cs [] ↔ cs = [] := by
  constructor
  · rintro ⟨hsep, hfilter⟩
    cases cs with
    | nil => rfl
    | cons c cs =>
      have hc : c = '_' := by simpa using List.filter_eq_nil_iff.mp hfilter c List.mem_cons_self
      rw [hc, separated] at hsep
      cases hsep
  · rintro rfl
    exact ⟨rfl, rfl⟩

theorem Cuts.strips_cons_iff (h : Cuts c) :
    Strips cs (c :: ds) ↔ ∃ tail, cs = c :: tail ∧ Strips tail ds := by
  constructor
  · rintro ⟨hsep, hfilter⟩
    obtain ⟨front, tail, rfl, hfront, -, rfl⟩ := List.filter_eq_cons_iff.mp hfilter
    rw [h.separated_append, Bool.and_eq_true] at hsep
    obtain rfl := strips_nil_iff.mp ⟨hsep.1, List.filter_eq_nil_iff.mpr hfront⟩
    exact ⟨tail, rfl, hsep.2, rfl⟩
  · rintro ⟨tail, rfl, hsep, rfl⟩
    exact ⟨(h.separated_cons _ _).trans hsep, h.filter_cons tail⟩

theorem Cuts.strips_cons (h : Cuts c) (hstrips : Strips cs ds) : Strips (c :: cs) (c :: ds) :=
  h.strips_cons_iff.mpr ⟨cs, rfl, hstrips⟩

/-- Underscores are dropped on either side of a character that cuts. -/
theorem strips_append_iff (hcuts : ∀ c ∈ rest.head?, Cuts c) :
    Strips cs (ds ++ rest) ↔ ∃ front tail, cs = front ++ tail ∧ Strips front ds ∧ Strips tail rest := by
  cases rest with
  | nil =>
    simp only [List.append_nil, strips_nil_iff]
    constructor
    · exact fun h => ⟨cs, [], cs.append_nil.symm, h, rfl⟩
    · rintro ⟨front, tail, rfl, h, rfl⟩
      rwa [List.append_nil]
  | cons c rest =>
    have hc : Cuts c := hcuts c rfl
    constructor
    · rintro ⟨hsep, hfilter⟩
      obtain ⟨front, tail, rfl, rfl, htail⟩ := List.filter_eq_append_iff.mp hfilter
      obtain ⟨gap, tail, rfl, hgap, -, rfl⟩ := List.filter_eq_cons_iff.mp htail
      rw [← List.append_assoc, hc.separated_append, Bool.and_eq_true] at hsep
      refine ⟨front ++ gap, c :: tail, (List.append_assoc ..).symm, ⟨hsep.1, ?_⟩,
        hc.strips_cons ⟨hsep.2, rfl⟩⟩
      rw [List.filter_append, List.filter_eq_nil_iff.mpr hgap, List.append_nil]
    · rintro ⟨front, tail, rfl, ⟨hsep, rfl⟩, htail⟩
      obtain ⟨tail, rfl, hsep', rfl⟩ := hc.strips_cons_iff.mp htail
      refine ⟨by rw [hc.separated_append, hsep, hsep', Bool.true_and], ?_⟩
      rw [List.filter_append, hc.filter_cons]

theorem figures_iff : Figures cs vs ↔ ∃ ds, Strips cs ds ∧ Spell 10 ds vs := by
  constructor
  · rintro (⟨rfl, rfl⟩ | h)
    · exact ⟨[], strips_nil_iff.mpr rfl, .nil⟩
    · obtain ⟨hsep, hspell⟩ := h.separated (by decide)
      exact ⟨_, ⟨hsep false, rfl⟩, hspell⟩
  · rintro ⟨ds, ⟨hsep, rfl⟩, hspell⟩
    by_cases hne : cs = []
    · subst hne
      cases hspell
      exact Or.inl ⟨rfl, rfl⟩
    · exact Or.inr (group_of_separated (by decide) hne hsep hspell)

theorem exponent_iff : Exponent Figures cs e ↔ ∃ ds, Strips cs ds ∧ Exponent (Spell 10) ds e := by
  constructor
  · intro h
    cases h with
    | none => exact ⟨[], strips_nil_iff.mpr rfl, .none⟩
    | plain hmark h hne =>
      obtain ⟨ds, hstrips, hspell⟩ := figures_iff.mp h
      exact ⟨_, (cuts_mark hmark).strips_cons hstrips, .plain hmark hspell hne⟩
    | plus hmark h hne =>
      obtain ⟨ds, hstrips, hspell⟩ := figures_iff.mp h
      exact ⟨_, (cuts_mark hmark).strips_cons (cuts_plus.strips_cons hstrips), .plus hmark hspell hne⟩
    | minus hmark h hne =>
      obtain ⟨ds, hstrips, hspell⟩ := figures_iff.mp h
      exact ⟨_, (cuts_mark hmark).strips_cons (cuts_minus.strips_cons hstrips), .minus hmark hspell hne⟩
  · rintro ⟨ds, hstrips, h⟩
    cases h with
    | none =>
      obtain rfl := strips_nil_iff.mp hstrips
      exact .none
    | plain hmark h hne =>
      obtain ⟨tail, rfl, htail⟩ := (cuts_mark hmark).strips_cons_iff.mp hstrips
      exact .plain hmark (figures_iff.mpr ⟨_, htail, h⟩) hne
    | plus hmark h hne =>
      obtain ⟨tail, rfl, htail⟩ := (cuts_mark hmark).strips_cons_iff.mp hstrips
      obtain ⟨digits, rfl, hdigits⟩ := cuts_plus.strips_cons_iff.mp htail
      exact .plus hmark (figures_iff.mpr ⟨_, hdigits, h⟩) hne
    | minus hmark h hne =>
      obtain ⟨tail, rfl, htail⟩ := (cuts_mark hmark).strips_cons_iff.mp hstrips
      obtain ⟨digits, rfl, hdigits⟩ := cuts_minus.strips_cons_iff.mp htail
      exact .minus hmark (figures_iff.mpr ⟨_, hdigits, h⟩) hne

/-- A decimal number with underscores is one without, once they were dropped. -/
theorem decimal_iff : Decimal Figures cs x ↔ ∃ ds, Strips cs ds ∧ Decimal (Spell 10) ds x := by
  have hmarks : ∀ {rest : List Char} {e : Int}, Exponent (Spell 10) rest e → ∀ c ∈ rest.head?, Cuts c :=
    fun h c hc => cuts_mark (h.head c hc)
  have hpoint : ∀ {tail : List Char}, ∀ c ∈ ('.' :: tail).head?, Cuts c := by
    rintro tail _ ⟨⟩
    exact cuts_point
  constructor
  · intro h
    cases h with
    | point hwhole hfraction hne hrest =>
      obtain ⟨_, hw, hws⟩ := figures_iff.mp hwhole
      obtain ⟨_, hf, hfs⟩ := figures_iff.mp hfraction
      obtain ⟨_, hr, he⟩ := exponent_iff.mp hrest
      have htail := cuts_point.strips_cons ((strips_append_iff (hmarks he)).mpr ⟨_, _, rfl, hf, hr⟩)
      exact ⟨_, (strips_append_iff hpoint).mpr ⟨_, _, rfl, hw, htail⟩, .point hws hfs hne he⟩
    | exponent hwhole hne hrest hmark =>
      obtain ⟨_, hw, hws⟩ := figures_iff.mp hwhole
      obtain ⟨_, hr, he⟩ := exponent_iff.mp hrest
      refine ⟨_, (strips_append_iff (hmarks he)).mpr ⟨_, _, rfl, hw, hr⟩, .exponent hws hne he ?_⟩
      rintro rfl
      exact hmark (strips_nil_iff.mp hr)
  · rintro ⟨ds, hstrips, h⟩
    cases h with
    | point hws hfs hne he =>
      obtain ⟨whole, tail, rfl, hw, htail⟩ := (strips_append_iff hpoint).mp hstrips
      obtain ⟨after, rfl, hafter⟩ := cuts_point.strips_cons_iff.mp htail
      obtain ⟨fraction, rest, rfl, hf, hr⟩ := (strips_append_iff (hmarks he)).mp hafter
      exact .point (figures_iff.mpr ⟨_, hw, hws⟩) (figures_iff.mpr ⟨_, hf, hfs⟩) hne
        (exponent_iff.mpr ⟨_, hr, he⟩)
    | exponent hws hne he hmark =>
      obtain ⟨whole, rest, rfl, hw, hr⟩ := (strips_append_iff (hmarks he)).mp hstrips
      refine .exponent (figures_iff.mpr ⟨_, hw, hws⟩) hne (exponent_iff.mpr ⟨_, hr, he⟩) ?_
      rintro rfl
      exact hmark hr.2.symm

theorem signed_iff :
    Signed (Decimal Figures) cs x ↔ ∃ ds, Strips cs ds ∧ Signed (Decimal (Spell 10)) ds x := by
  constructor
  · intro h
    cases h with
    | plain h =>
      obtain ⟨ds, hstrips, h⟩ := decimal_iff.mp h
      exact ⟨ds, hstrips, .plain h⟩
    | plus h =>
      obtain ⟨ds, hstrips, h⟩ := decimal_iff.mp h
      exact ⟨_, cuts_plus.strips_cons hstrips, .plus h⟩
    | minus h =>
      obtain ⟨ds, hstrips, h⟩ := decimal_iff.mp h
      exact ⟨_, cuts_minus.strips_cons hstrips, .minus h⟩
  · rintro ⟨ds, hstrips, h⟩
    cases h with
    | plain h => exact .plain (decimal_iff.mpr ⟨ds, hstrips, h⟩)
    | plus h =>
      obtain ⟨tail, rfl, htail⟩ := cuts_plus.strips_cons_iff.mp hstrips
      exact .plus (decimal_iff.mpr ⟨_, htail, h⟩)
    | minus h =>
      obtain ⟨tail, rfl, htail⟩ := cuts_minus.strips_cons_iff.mp hstrips
      exact .minus (decimal_iff.mpr ⟨_, htail, h⟩)

/-! ### Bodies -/

/-- A decimal number begins with a digit or its point. -/
theorem Decimal.exists_cons (h : Decimal (Spell 10) ds x) :
    ∃ c tail, ds = c :: tail ∧ (isDigit 10 c = true ∨ c = '.') := by
  have hdigit : ∀ {c : Char} {cs : List Char} {vs : List Nat}, Spell 10 (c :: cs) vs →
      isDigit 10 c = true := fun h => List.all_eq_true.mp h.all _ List.mem_cons_self
  cases h with
  | @point whole fraction rest ws fs e hw hf hne hrest =>
    cases whole with
    | nil => exact ⟨_, _, rfl, Or.inr rfl⟩
    | cons c whole => exact ⟨_, _, rfl, Or.inl (hdigit hw)⟩
  | @exponent whole rest ws e hw hne hrest hmark =>
    cases whole with
    | nil =>
      cases hw
      exact absurd rfl hne
    | cons c whole => exact ⟨_, _, rfl, Or.inl (hdigit hw)⟩

/-- A decimal number has no sign in front. -/
theorem Decimal.head?_ne (h : Decimal (Spell 10) ds x) : ds.head? ≠ some '-' ∧ ds.head? ≠ some '+' := by
  obtain ⟨c, tail, rfl, hc⟩ := h.exists_cons
  rcases hc with hc | rfl
  · obtain ⟨-, hplus, hminus, -⟩ := ne_of_isDigit hc
    simpa using ⟨hminus, hplus⟩
  · simp

theorem read_unsigned (h : ds.head? ≠ some '-' ∧ ds.head? ≠ some '+') :
    Binary64.read ds = readUnsigned ds := by
  unfold Binary64.read
  split
  · exact absurd rfl h.1
  · exact absurd rfl h.2
  · rfl

/-- The reader of numbers accepts a sign. -/
theorem read_iff :
    Binary64.read ds = some x ∧ ds.any isFloatMark = true ↔ Signed (Decimal (Spell 10)) ds x := by
  constructor
  · rintro ⟨hread, hmark⟩
    by_cases hminus : ds.head? = some '-'
    · obtain ⟨tail, rfl⟩ := List.head?_eq_some_iff.mp hminus
      obtain ⟨y, hy, rfl⟩ := Option.map_eq_some_iff.mp hread
      exact .minus (readUnsigned_iff.mp ⟨hy, hmark⟩)
    by_cases hplus : ds.head? = some '+'
    · obtain ⟨tail, rfl⟩ := List.head?_eq_some_iff.mp hplus
      exact .plus (readUnsigned_iff.mp ⟨hread, hmark⟩)
    · exact .plain (readUnsigned_iff.mp ⟨read_unsigned ⟨hminus, hplus⟩ ▸ hread, hmark⟩)
  · intro h
    cases h with
    | plain h =>
      obtain ⟨hread, hmark⟩ := readUnsigned_iff.mpr h
      exact ⟨(read_unsigned h.head?_ne).trans hread, hmark⟩
    | plus h => exact readUnsigned_iff.mpr h
    | minus h =>
      obtain ⟨hread, hmark⟩ := readUnsigned_iff.mpr h
      exact ⟨Option.map_eq_some_iff.mpr ⟨_, hread, rfl⟩, hmark⟩

theorem Spell.all_isFloatChar (h : Spell 10 cs vs) : cs.all isFloatChar = true :=
  List.all_eq_true.mpr fun c hc => by
    rw [isFloatChar, isDigit_ten, List.all_eq_true.mp h.all c hc]
    rfl

theorem Exponent.all_isFloatChar (h : Exponent (Spell 10) rest e) : rest.all isFloatChar = true := by
  have hchar : ∀ {c : Char}, c = 'e' ∨ c = 'E' → isFloatChar c = true := by
    rintro c (rfl | rfl)
    · decide
    · decide
  cases h with
  | none => rfl
  | plain hmark h => rw [List.all_cons, hchar hmark, h.all_isFloatChar, Bool.and_self]
  | plus hmark h => rw [List.all_cons, List.all_cons, hchar hmark, h.all_isFloatChar]; decide
  | minus hmark h => rw [List.all_cons, List.all_cons, hchar hmark, h.all_isFloatChar]; decide

theorem Decimal.all_isFloatChar (h : Decimal (Spell 10) ds x) : ds.all isFloatChar = true := by
  cases h with
  | point hw hf _ hrest =>
    rw [List.all_append, List.all_cons, List.all_append, hw.all_isFloatChar, hf.all_isFloatChar,
      hrest.all_isFloatChar]
    decide
  | exponent hw _ hrest _ =>
    rw [List.all_append, hw.all_isFloatChar, hrest.all_isFloatChar]
    rfl

theorem Signed.all_isFloatChar (h : Signed (Decimal (Spell 10)) ds x) : ds.all isFloatChar = true := by
  cases h with
  | plain h => exact h.all_isFloatChar
  | plus h => rw [List.all_cons, h.all_isFloatChar]; decide
  | minus h => rw [List.all_cons, h.all_isFloatChar]; decide

/-- What is a decimal number after its underscores were dropped has no radix mark. -/
theorem splitRadix_of_strips (hstrips : Strips cs ds) (hall : ds.all isFloatChar = true) :
    splitRadix cs = (10, cs) := by
  rcases splitRadix_cases cs with ⟨radix, mark, rest, hmark, rfl⟩ | hsplit
  · obtain ⟨hne, -, hnot⟩ := not_decimal_of_radixMarks hmark
    have hmem : mark ∈ ds := by
      rw [← hstrips.2, List.mem_filter]
      exact ⟨List.mem_cons_of_mem _ List.mem_cons_self, by simpa using hne⟩
    rw [List.all_eq_true.mp hall mark hmem] at hnot
    cases hnot
  · exact hsplit

/-- Without a radix mark, what is left of a body without underscores is read as a double. -/
theorem readBody_eq_float_iff (hsplit : splitRadix cs = (10, cs)) (negative : Bool) :
    readBody negative cs = some (.float x) ↔ ∃ ds, stripSeparators 10 cs = some ds ∧
      ds.all isFloatChar = true ∧ ds.any isFloatMark = true ∧
        ∃ y, Binary64.read ds = some y ∧ x = if negative then y.negate else y := by
  unfold readBody
  rw [hsplit]
  dsimp only
  cases stripSeparators 10 cs with
  | none => simp
  | some ds =>
    simp only [Option.some.injEq, exists_eq_left']
    by_cases hmark : ds.any isFloatMark = true
    · rw [if_pos (by rw [hmark]; rfl)]
      by_cases hall : ds.all isFloatChar = true
      · rw [if_pos hall, Option.map_eq_some_iff]
        constructor
        · rintro ⟨y, hy, hx⟩
          exact ⟨hall, hmark, y, hy, (Numeral.float.inj hx).symm⟩
        · rintro ⟨-, -, y, hy, rfl⟩
          exact ⟨y, hy, rfl⟩
      · rw [if_neg hall]
        exact iff_of_false (by rintro ⟨⟩) fun h => hall h.1
    · rw [if_neg fun h => hmark (Bool.and_eq_true_iff.mp h).2]
      refine iff_of_false (fun h => ?_) fun h => hmark h.2.1
      split at h <;> cases h

/-- A radix mark makes integers only. -/
theorem readBody_marked_ne_float {radix : Nat} (hmark : (radix, c) ∈ radixMarks) (negative : Bool) :
    readBody negative ('0' :: c :: cs) ≠ some (.float x) := by
  obtain ⟨-, hten⟩ := radixMarks_le hmark
  unfold readBody
  rw [splitRadix_marked hmark]
  dsimp only
  cases stripSeparators radix cs with
  | none => simp
  | some ds =>
    simp only [beq_eq_false_iff_ne.mpr hten, Bool.false_and, Bool.false_eq_true, if_false]
    split <;> simp

/-- The doubles that bodies stand for are those of the grammar, with a sign in front or without. -/
theorem readBody_float_iff (negative : Bool) : readBody negative cs = some (.float x) ↔
    ∃ y, Signed (Decimal Figures) cs y ∧ x = if negative then y.negate else y := by
  constructor
  · intro h
    rcases splitRadix_cases cs with ⟨radix, mark, rest, hmark, rfl⟩ | hsplit
    · exact absurd h (readBody_marked_ne_float hmark negative)
    · obtain ⟨ds, hds, -, hmark, y, hread, hx⟩ := (readBody_eq_float_iff hsplit negative).mp h
      obtain ⟨-, hstrips⟩ := stripSeparators_eq_some_iff.mp hds
      exact ⟨y, signed_iff.mpr ⟨ds, hstrips, read_iff.mp ⟨hread, hmark⟩⟩, hx⟩
  · rintro ⟨y, h, hx⟩
    obtain ⟨ds, hstrips, h⟩ := signed_iff.mp h
    obtain ⟨hread, hmark⟩ := read_iff.mpr h
    have hne : cs ≠ [] := by
      rintro rfl
      obtain rfl : [] = ds := hstrips.2
      cases hmark
    exact (readBody_eq_float_iff (splitRadix_of_strips hstrips h.all_isFloatChar) negative).mpr
      ⟨ds, stripSeparators_eq_some_iff.mpr ⟨hne, hstrips⟩, h.all_isFloatChar, hmark, y, hread, hx⟩

/-! ### Signs -/

/-- A decimal number with underscores has no sign in front either. -/
theorem Decimal.exists_cons_of_figures (h : Decimal Figures cs x) :
    ∃ c tail, cs = c :: tail ∧ c ≠ '+' ∧ c ≠ '-' := by
  obtain ⟨ds, hstrips, h⟩ := decimal_iff.mp h
  obtain ⟨hminus, hplus⟩ := h.head?_ne
  cases cs with
  | nil =>
    obtain rfl : [] = ds := hstrips.2
    obtain ⟨_, _, hds, -⟩ := h.exists_cons
    cases hds
  | cons c tail =>
    refine ⟨c, tail, rfl, ?_, ?_⟩
    · rintro rfl
      rw [← hstrips.2, cuts_plus.filter_cons] at hplus
      exact hplus rfl
    · rintro rfl
      rw [← hstrips.2, cuts_minus.filter_cons] at hminus
      exact hminus rfl

/-- The doubles that texts stand for are those of the grammar, with up to two signs in front. -/
theorem read?_eq_float_iff (text : String) (x : Binary64) :
    read? text = some (.float x) ↔ Signed (Signed (Decimal Figures)) (trim text.toList) x := by
  constructor
  · intro h
    rcases read?_cases text with ⟨-, hread⟩ | ⟨body, htrim, hread⟩ | ⟨body, htrim, hread⟩ |
      ⟨c, rest, htrim, -, -, hread⟩
    · rw [hread] at h
      cases h
    · obtain ⟨y, hy, rfl⟩ := (readBody_float_iff true).mp (hread.symm.trans h)
      exact htrim ▸ .minus hy
    · obtain ⟨y, hy, rfl⟩ := (readBody_float_iff false).mp (hread.symm.trans h)
      exact htrim ▸ .plus hy
    · obtain ⟨y, hy, rfl⟩ := (readBody_float_iff false).mp (hread.symm.trans h)
      exact htrim ▸ .plain hy
  · intro h
    generalize htrim : trim text.toList = cs at h
    have hminus : ∀ {body : List Char} {y : Binary64}, cs = '-' :: body →
        Signed (Decimal Figures) body y → read? text = some (.float y.negate) := fun hcs hy =>
      (read?_minus (htrim.trans hcs)).trans ((readBody_float_iff true).mpr ⟨_, hy, rfl⟩)
    have hplus : ∀ {body : List Char} {y : Binary64}, cs = '+' :: body →
        Signed (Decimal Figures) body y → read? text = some (.float y) := fun hcs hy =>
      (read?_plus (htrim.trans hcs)).trans ((readBody_float_iff false).mpr ⟨_, hy, rfl⟩)
    cases h with
    | minus h => exact hminus rfl h
    | plus h => exact hplus rfl h
    | plain h =>
      cases h with
      | minus h => exact hminus rfl (.plain h)
      | plus h => exact hplus rfl (.plain h)
      | plain h =>
        obtain ⟨c, tail, rfl, hne, hne'⟩ := h.exists_cons_of_figures
        exact (read?_unsigned htrim hne hne').trans ((readBody_float_iff false).mpr ⟨_, .plain h, rfl⟩)

/-- Two signs stand in front of a decimal number. -/
def SignedTwice (cs : List Char) : Prop :=
  ∃ sign ∈ ['+', '-'], ∃ sign' ∈ ['+', '-'], ∃ tail y, cs = sign :: sign' :: tail ∧ Decimal Figures tail y

/-- A sign in front of a number with at most one is the only one, unless the text is signed twice. -/
theorem decimal_of_signed {sign : Char} (hsign : sign ∈ ['+', '-']) (h : ¬ SignedTwice (sign :: cs))
    (hx : Signed (Decimal Figures) cs x) : Decimal Figures cs x := by
  cases hx with
  | plain hx => exact hx
  | plus hx => exact absurd ⟨sign, hsign, '+', by simp, _, _, rfl, hx⟩ h
  | minus hx => exact absurd ⟨sign, hsign, '-', by simp, _, _, rfl, hx⟩ h

theorem signed_signed_iff (h : ¬ SignedTwice cs) :
    Signed (Signed (Decimal Figures)) cs x ↔ Signed (Decimal Figures) cs x := by
  constructor
  · intro hx
    cases hx with
    | plain hx => exact hx
    | plus hx => exact .plus (decimal_of_signed (by simp) h hx)
    | minus hx => exact .minus (decimal_of_signed (by simp) h hx)
  · exact .plain

/-- Some number is read with two signs in front of it. -/
theorem SignedTwice.exists_signed (h : SignedTwice cs) : ∃ y, Signed (Signed (Decimal Figures)) cs y := by
  obtain ⟨sign, hsign, sign', hsign', tail, y, rfl, hy⟩ := h
  obtain ⟨z, hz⟩ : ∃ z, Signed (Decimal Figures) (sign' :: tail) z := by
    rcases List.mem_pair.mp hsign' with rfl | rfl
    · exact ⟨_, .plus hy⟩
    · exact ⟨_, .minus hy⟩
  rcases List.mem_pair.mp hsign with rfl | rfl
  · exact ⟨_, .plus hz⟩
  · exact ⟨_, .minus hz⟩

/-- It has more than one sign, so it is none of the numbers that are meant. -/
theorem SignedTwice.not_signed (h : SignedTwice cs) (x : Binary64) : ¬ Signed (Decimal Figures) cs x := by
  obtain ⟨sign, hsign, sign', hsign', tail, -, rfl, -⟩ := h
  have hnot : ∀ {c : Char} {cs : List Char} {y : Binary64}, c ∈ ['+', '-'] →
      ¬ Decimal Figures (c :: cs) y := fun hc hy => by
    obtain ⟨c, _, heq, hplus, hminus⟩ := hy.exists_cons_of_figures
    obtain ⟨rfl, -⟩ := List.cons.inj heq
    rcases List.mem_pair.mp hc with rfl | rfl
    · exact hplus rfl
    · exact hminus rfl
  intro hx
  cases hx with
  | plain hx => exact hnot hsign hx
  | plus hx => exact hnot hsign' hx
  | minus hx => exact hnot hsign' hx

end ObjectMachine.Literal

namespace ObjectMachine.Machine

open Literal

variable {m : Machine} {text : String} {x : Binary64}

theorem parses_float_iff (hm : m.Intact) (hroom : m.Spacious) :
    m.Parses text (.float x) ↔ Signed (Signed (Decimal Figures)) (trim text.toList) x := by
  have hstored : ∀ n, Number.float x ≠ .stored n := fun n => by
    unfold Number.stored
    split <;> simp
  rw [parses_iff hm hroom, ← read?_eq_float_iff]
  simp [hstored]

/-- A literal of a double has at most one sign, except that two are taken.  Parsing a text returns a
double exactly if the text, trimmed of white space, is a decimal number with a point or an exponent, digits
beside the point and in the exponent, underscores between two digits, and up to two signs in front; it is
the double that is read without signs and underscores, negated once for each minus sign.  That these are
the numbers with at most one sign holds exactly if the text is not such a number with two, and then what is
neither such a number nor an integer raises a ValueError with the text in its message. -/
theorem float_literals_take_two_signs (m : Machine) (hm : m.Intact) (hroom : m.Spacious) (text : String) :
    (∀ x, m.Parses text (.float x) ↔ Signed (Signed (Decimal Figures)) (trim text.toList) x) ∧
    ((∀ x, m.Parses text (.float x) ↔ Signed (Decimal Figures) (trim text.toList) x) ↔
      ¬ SignedTwice (trim text.toList)) ∧
    ((∀ n, ¬ IntegerText (trim text.toList) n) →
      (∀ x, ¬ Signed (Decimal Figures) (trim text.toList) x) →
      ((Effect.parseNumber text).Throws m .valueError s!"invalid literal for number: '{text}'" ↔
        ¬ SignedTwice (trim text.toList))) ∧
    ∀ cs x, Decimal Figures cs x → Binary64.readUnsigned (cs.filter (· != '_')) = some x := by
  refine ⟨fun x => parses_float_iff hm hroom, ⟨fun hmeant htwice => ?_, fun hsigns x => ?_⟩,
    fun hinteger hfloat => ⟨fun hthrows htwice => ?_, fun hsigns => ?_⟩, fun cs x h => ?_⟩
  · obtain ⟨y, hy⟩ := htwice.exists_signed
    exact htwice.not_signed y ((hmeant y).mp ((parses_float_iff hm hroom).mpr hy))
  · rw [parses_float_iff hm hroom, signed_signed_iff hsigns]
  · obtain ⟨y, hy⟩ := htwice.exists_signed
    exact ((parses_float_iff hm hroom).mpr hy).not_throws hthrows
  · rcases parse_cases hm hroom text with ⟨n, hread, -⟩ | ⟨y, -, hparses⟩ | ⟨-, hthrows⟩
    · exact absurd ((read?_eq_integer_iff text n).mp hread) (hinteger n)
    · exact absurd ((signed_signed_iff hsigns).mp ((parses_float_iff hm hroom).mp hparses)) (hfloat y)
    · exact hthrows
  · obtain ⟨ds, ⟨-, rfl⟩, h⟩ := decimal_iff.mp h
    exact (readUnsigned_iff.mpr h).1

/-- A literal with everything that may be in one. -/
theorem float_literals_take_two_signs_exponent :
    ({ heap := { settings := {} } } : Machine).Parses " -1_0.5e-1 " (.float (.ofRatio true 105 100)) := by
  have hread : read? " -1_0.5e-1 " = some (.float (.ofRatio true 105 100)) := by decide +kernel
  exact ((float_literals_take_two_signs _ (intact_fresh {}) (by unfold Spacious; decide) _).1 _).mpr
    ((read?_eq_float_iff _ _).mp hread)

/-- Two minus signs in front of a number are read as none: the text is no number with at most one sign and
is parsed as the double five. -/
theorem double_minus_is_a_float :
    ({ heap := { settings := {} } } : Machine).Parses "--5.0" (.float (.ofInt 5)) ∧
      ∀ x, ¬ Signed (Decimal Figures) (trim "--5.0".toList) x := by
  have hread : read? "--5.0" = some (.float (.ofInt 5)) := by decide +kernel
  refine ⟨parses_of_float (intact_fresh {}) (by unfold Spacious; decide) hread, ?_⟩
  have hfive : Figures ['5'] [5] := Or.inr (.one ⟨by decide, Or.inl rfl⟩)
  have hzero : Figures ['0'] [0] := Or.inr (.one ⟨by decide, Or.inl rfl⟩)
  have htwice : SignedTwice (trim "--5.0".toList) :=
    ⟨'-', by simp, '-', by simp, _, _, by decide, .point hfive hzero (by simp) .none⟩
  exact htwice.not_signed

end ObjectMachine.Machine
