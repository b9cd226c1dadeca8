import Mathlib.Tactic
import ObjectMachine.Proofs.Machine.Closed

/-! Values in the hands of clients, and tables that are not.

A machine reserves some of its tables for itself: the table of symbols, which has texts as keys, and the
tables of names that classes, objects and the globals have, which have symbols as keys.  The tables that
are made for clients have values as keys.  A value is public if it is an atom or a live object and not
reserved; wherever less is asked of a client, a public value is good enough. -/

namespace ObjectMachine

/-- A value that is no object: a fixnum, a symbol, `nil` or a boolean. -/
def Value.Atomic (v : Value) : Prop :=
  v.isFixnum = true ∨ v.isSymbol = true ∨ v.isNil = true ∨ v.isBool = true

namespace Value.Atomic

variable {v : Value}

theorem isRef_eq (h : v.Atomic) : v.isRef = false := by
  rcases h with h | h | h | h
  · exact (kinds_of_isFixnum h).1
  · exact (kinds_of_isSymbol h).2.1
  · rw [beq_iff_eq.mp h]
    decide
  · rw [isBool, Bool.or_eq_true, beq_iff_eq, beq_iff_eq] at h
    rcases h with rfl | rfl
    · decide
    · decide

theorem ne_absent (h : v.Atomic) : v ≠ .absent := by
  rintro rfl
  revert h
  unfold Atomic
  decide

theorem nil : Value.nil.Atomic := Or.inr (Or.inr (Or.inl rfl))

theorem ofBool (b : Bool) : (Value.ofBool b).Atomic := by
  cases b
  · exact Or.inr (Or.inr (Or.inr rfl))
  · exact Or.inr (Or.inr (Or.inr rfl))

theorem ofInt (n : Int) : (Value.ofInt n).Atomic := Or.inl (isFixnum_ofInt n)

theorem ofSymbol (i : Nat) : (Value.ofSymbol i).Atomic := Or.inr (Or.inl (isSymbol_ofSymbol i))

end Value.Atomic

namespace Machine

variable {m : Machine} {v : Value}

/-- A table that the machine keeps for itself. -/
def Reserves (m : Machine) (v : Value) : Prop :=
  ∃ t, m.heap.read Facet.table v = .ok t ∧ t.strategy ≠ .value

/-- A value that programs may hold: a fixnum, a symbol, `nil`, a boolean, or a live object that is not
one of the machine's own tables. -/
def Public (m : Machine) (v : Value) : Prop :=
  v.Atomic ∨ ∃ o, m.heap.get? v = some o ∧ ∀ t, o.body = .table t → t.strategy = .value

/-- A value that clients may pass on: no dangling reference, and not the table of symbols.  The other
tables of the machine may be looked at and even changed, but as long as no object refers to the table of
symbols, the names of the machine and its symbols stay in step. -/
def Usable (m : Machine) (v : Value) : Prop := m.heap.Resolves v ∧ v ≠ m.symbols.table

theorem Reserves.isRef (h : m.Reserves v) : v.isRef = true := by
  obtain ⟨t, ht, -⟩ := h
  exact Heap.isRef_of_isLive (Heap.isLive_of_read ht)

/-- What no table is the machine does not reserve. -/
theorem not_reserves_of_read {facet : Facet α} {x : α} (hfacet : facet.Lawful) (hkind : facet.kind ≠ .table)
    (hx : m.heap.read facet v = .ok x) : ¬ m.Reserves v := by
  rintro ⟨t, ht, -⟩
  obtain ⟨o, ho, hb⟩ := Heap.read_eq_ok_iff.mp hx
  obtain ⟨p, hp, ht⟩ := Heap.read_eq_ok_iff.mp ht
  obtain rfl := Option.some.inj (ho.symm.trans hp)
  have hput := hfacet.kind_put x
  rw [hfacet.put_eq hb, ← Facet.lawful_table.put_eq ht] at hput
  exact absurd hput.symm hkind

/-- Whatever the machine does not reserve is public, if it is anything at all. -/
theorem public_iff : m.Public v ↔ (v.Atomic ∨ m.heap.isLive v = true) ∧ ¬ m.Reserves v := by
  constructor
  · rintro (h | ⟨o, ho, hopen⟩)
    · exact ⟨Or.inl h, fun hr => absurd hr.isRef (by simp [h.isRef_eq])⟩
    · refine ⟨Or.inr (Heap.isLive_of_get? ho), fun ⟨t, ht, hne⟩ => ?_⟩
      obtain ⟨p, hp, ht⟩ := Heap.read_eq_ok_iff.mp ht
      obtain rfl := Option.some.inj (ho.symm.trans hp)
      exact hne (hopen t (Facet.lawful_table.put_eq ht).symm)
  · rintro ⟨h | h, hr⟩
    · exact Or.inl h
    · obtain ⟨o, ho⟩ := Heap.isLive_iff.mp h
      refine Or.inr ⟨o, ho, fun t ht => ?_⟩
      by_contra hne
      exact hr ⟨t, Heap.read_eq_ok_iff.mpr ⟨o, ho, by rw [ht]; rfl⟩, hne⟩

namespace Public

theorem ne_absent (h : m.Public v) : v ≠ .absent := by
  rcases h with h | ⟨o, ho, -⟩
  · exact h.ne_absent
  · rintro rfl
    cases (Heap.get?_eq_some_iff.mp ho).1

theorem resolves (h : m.Public v) : m.heap.Resolves v := by
  rcases h with h | ⟨o, ho, -⟩
  · exact Heap.resolves_of_not_isRef h.isRef_eq
  · exact Heap.resolves_of_isLive (Heap.isLive_of_get? ho)

theorem ne_of_reserves (h : m.Public v) {s : Value} (hs : m.Reserves s) : v ≠ s := by
  rintro rfl
  exact (public_iff.mp h).2 hs

/-- Programs may hold the tables that have values as keys, and no others. -/
theorem strategy_eq (h : m.Public v) {t : Table} (ht : m.heap.read Facet.table v = .ok t) :
    t.strategy = .value := by
  by_contra hne
  exact (public_iff.mp h).2 ⟨t, ht, hne⟩

theorem usable (h : m.Public v) (hs : m.Reserves m.symbols.table) : m.Usable v :=
  ⟨h.resolves, h.ne_of_reserves hs⟩

end Public

/-- What no table is programs may hold. -/
theorem public_of_read {facet : Facet α} (hfacet : facet.Lawful) (hkind : facet.kind ≠ .table) {x : α}
    (hx : m.heap.read facet v = .ok x) : m.Public v :=
  public_iff.mpr ⟨Or.inr (Heap.isLive_of_read hx), not_reserves_of_read hfacet hkind hx⟩

end Machine

end ObjectMachine
