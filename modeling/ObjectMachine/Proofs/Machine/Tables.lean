import Mathlib.Tactic
import ObjectMachine.Proofs.Heap.Reference
import ObjectMachine.Proofs.Machine.Judgements
import ObjectMachine.Proofs.Table.Changes

/-! The tables on the heap of a machine, and the effects that leave them alone.

Tables are looked at slot by slot, so that a table counts even if no reference to it is left.  An
effect is quiet if every table it leaves behind was there before, in the same slot: it may read,
allocate, collect, and change everything else. -/

namespace ObjectMachine

namespace Heap

variable {h : Heap}

/-- What it takes to read the data of an object. -/
theorem read_eq_ok_iff {facet : Facet α} {v : Value} {a : α} :
    h.read facet v = .ok a ↔ ∃ o, h.get? v = some o ∧ facet.get? o.body = some a := by
  unfold read get
  cases ho : h.get? v with
  | none => by_cases hr : v.isRef = true <;> simp [hr]
  | some o =>
    have hr : v.isRef = true := (get?_eq_some_iff.mp ho).1
    cases hf : facet.get? o.body <;> simp [hr, hf]

/-- The table in a slot, if there is one. -/
def tableIn? (h : Heap) (i : Nat) : Option Table :=
  (h.slots[i]?.bind (·.object)).bind fun o => Facet.table.get? o.body

theorem tableIn?_slotIndex {v : Value} {o : Object} (ho : h.get? v = some o) :
    h.tableIn? v.slotIndex = Facet.table.get? o.body := by
  rw [tableIn?, (get?_eq_some_iff.mp ho).2]
  rfl

theorem tableIn?_of_read {v : Value} {t : Table} (ht : h.read Facet.table v = .ok t) :
    h.tableIn? v.slotIndex = some t := by
  obtain ⟨o, ho, hb⟩ := read_eq_ok_iff.mp ht
  rw [tableIn?_slotIndex ho, hb]

/-- A change of an object concerns the table in its slot only. -/
theorem tableIn?_modifyObject {v : Value} {f : Object → Object} {i : Nat} {t : Table}
    (ht : (h.modifyObject v f).tableIn? i = some t) : h.tableIn? i = some t ∨
      i = v.slotIndex ∧ ∃ o, h.get? v = some o ∧ Facet.table.get? (f o).body = some t := by
  unfold modifyObject at ht
  by_cases hv : v.isRef = true
  · rw [if_pos hv, tableIn?] at ht
    simp only [Array.getElem?_modify] at ht
    by_cases hi : v.slotIndex = i
    · subst hi
      cases hs : h.slots[v.slotIndex]? with
      | none => simp [hs] at ht
      | some slot =>
        obtain ⟨g, c⟩ := slot
        by_cases hg : g = v.slotGeneration
        · cases c with
          | none => simp [hs, hg] at ht
          | some o =>
            refine Or.inr ⟨rfl, o, get?_eq_some_iff.mpr ⟨hv, by rw [hs, hg]⟩, ?_⟩
            simpa [hs, hg] using ht
        · refine Or.inl ?_
          simpa [tableIn?, hs, hg] using ht
    · rw [if_neg hi] at ht
      exact Or.inl ht
  · rw [if_neg hv] at ht
    exact Or.inl ht

/-- Changing the data of other objects makes no tables. -/
theorem tableIn?_modify_of_other {facet : Facet α}
    (hf : ∀ a, Facet.table.get? (facet.put a) = none) {v : Value} {f : α → α} {i : Nat} {t : Table}
    (ht : (h.modify facet v f).tableIn? i = some t) : h.tableIn? i = some t := by
  rcases tableIn?_modifyObject ht with ht | ⟨rfl, o, ho, ht⟩
  · exact ht
  · cases ha : facet.get? o.body with
    | none =>
      rw [ha] at ht
      exact (tableIn?_slotIndex ho).trans ht
    | some a =>
      simp only [ha, hf] at ht
      exact absurd ht (by simp)

/-- Changing a table. -/
theorem tableIn?_modify_table {v : Value} {f : Table → Table} {i : Nat} {t' : Table}
    (ht : (h.modify Facet.table v f).tableIn? i = some t') : h.tableIn? i = some t' ∨
      ∃ t, h.read Facet.table v = .ok t ∧ h.tableIn? i = some t ∧ t' = f t := by
  rcases tableIn?_modifyObject ht with ht | ⟨rfl, o, ho, ht⟩
  · exact Or.inl ht
  · have hslot := tableIn?_slotIndex ho
    cases ha : Facet.table.get? o.body with
    | none =>
      rw [ha] at ht
      exact Or.inl (hslot.trans ht)
    | some t =>
      rw [ha] at ht
      refine Or.inr ⟨t, read_eq_ok_iff.mpr ⟨o, ho, ha⟩, hslot.trans ha, ?_⟩
      exact (Option.some.inj ht).symm

/-- Reading an object after changing it. -/
theorem read_modify_self {facet : Facet α} (hget : ∀ x, facet.get? (facet.put x) = some x) {v : Value}
    {x : α} (hx : h.read facet v = .ok x) (f : α → α) :
    (h.modify facet v f).read facet v = .ok (f x) := by
  obtain ⟨o, ho, hb⟩ := read_eq_ok_iff.mp hx
  refine read_eq_ok_iff.mpr ⟨{ o with body := facet.put (f x) }, ?_, hget (f x)⟩
  rw [modify, get?_modifyObject_self, ho, Option.map_some, hb]

theorem read_modify_table {v : Value} {t : Table} (ht : h.read Facet.table v = .ok t)
    (f : Table → Table) : (h.modify Facet.table v f).read Facet.table v = .ok (f t) :=
  read_modify_self (fun _ => rfl) ht f

/-- What a change does elsewhere does not matter. -/
theorem modifyObject_congr {v : Value} {f g : Object → Object} (hfg : ∀ o, h.get? v = some o → f o = g o) :
    h.modifyObject v f = h.modifyObject v g := by
  unfold modifyObject
  split
  · rename_i hv
    simp only [Heap.mk.injEq, and_true, true_and]
    refine Array.ext_getElem? fun i => ?_
    simp only [Array.getElem?_modify]
    by_cases hi : v.slotIndex = i
    · subst hi
      cases hs : h.slots[v.slotIndex]? with
      | none => rfl
      | some slot =>
        obtain ⟨generation, object⟩ := slot
        by_cases hg : generation = v.slotGeneration
        · cases object with
          | none => simp [hg]
          | some o => simp [hg, hfg o (get?_eq_some_iff.mpr ⟨hv, by rw [hs, hg]⟩)]
        · simp [hg]
    · simp only [hi, if_false]
  · rfl

/-- Changing a table that is known is replacing it. -/
theorem modify_table_eq {v : Value} {t : Table} (ht : h.read Facet.table v = .ok t) (f : Table → Table) :
    h.modify Facet.table v f = h.modify Facet.table v fun _ => f t := by
  obtain ⟨o, ho, hb⟩ := read_eq_ok_iff.mp ht
  refine modifyObject_congr fun p hp => ?_
  obtain rfl := Option.some.inj (ho.symm.trans hp)
  rw [hb]

/-- Two changes in a row. -/
theorem modify_modify (h : Heap) (v : Value) (f g : Table → Table) :
    (h.modify Facet.table v f).modify Facet.table v g = h.modify Facet.table v fun t => g (f t) := by
  simp only [modify, modifyObject]
  split
  · simp only [Heap.mk.injEq, and_true, true_and]
    refine Array.ext_getElem? fun i => ?_
    simp only [Array.getElem?_modify]
    by_cases hi : v.slotIndex = i
    · simp only [hi, if_true, Option.map_map]
      congr 1
      funext slot
      simp only [Function.comp]
      split
      · simp only [Option.map_map]
        congr 2
        funext o
        obtain ⟨cls, flags, serial, body⟩ := o
        cases body <;> rfl
      · simp only [*]
    · simp only [hi, if_false]
  · rfl

/-- Reading a text after changing a table. -/
theorem read_text_modify_table {v w : Value} {s : String} (hs : h.read Facet.text w = .ok s)
    (f : Table → Table) : (h.modify Facet.table v f).read Facet.text w = .ok s := by
  obtain ⟨o, ho, hb⟩ := read_eq_ok_iff.mp hs
  by_cases hv : w = v
  · subst hv
    refine read_eq_ok_iff.mpr ⟨o, ?_, hb⟩
    have hbody : Facet.table.get? o.body = none := by
      cases hbody : o.body with
      | table t => simp [hbody, Facet.text] at hb
      | _ => rfl
    rw [modify, get?_modifyObject_self, ho, Option.map_some, hbody]
  · exact read_eq_ok_iff.mpr ⟨o, (get?_modifyObject_of_ne h hv _).trans ho, hb⟩

/-- A stored object is the only table that is new. -/
theorem tableIn?_insert {cls : Value} {body : Body} {i : Nat} {t : Table}
    (ht : (h.insert cls body).tableIn? i = some t) :
    h.tableIn? i = some t ∨ Facet.table.get? body = some t := by
  unfold insert tableIn? at ht
  cases hf : h.free with
  | nil =>
    simp only [hf, Array.getElem?_push] at ht
    by_cases hi : i = h.slots.size
    · rw [if_pos hi] at ht
      exact Or.inr ht
    · rw [if_neg hi] at ht
      exact Or.inl ht
  | cons index rest =>
    simp only [hf, Array.getElem?_modify] at ht
    by_cases hi : index = i
    · subst hi
      cases hs : h.slots[index]? with
      | none => simp [hs] at ht
      | some slot => exact Or.inr (by simpa [hs] using ht)
    · rw [if_neg hi] at ht
      exact Or.inl ht

/-- Collecting makes no tables. -/
theorem tableIn?_collect {roots : List Value} {i : Nat} {t : Table}
    (ht : (h.collect roots).1.tableIn? i = some t) : h.tableIn? i = some t := by
  unfold collect tableIn? at ht
  simp only [Array.getElem?_mapIdx] at ht
  unfold tableIn?
  cases hs : h.slots[i]? with
  | none => simp [hs] at ht
  | some slot =>
    obtain ⟨g, c⟩ := slot
    cases c with
    | none => simp [hs, sweepSlot] at ht
    | some o =>
      simp only [hs, Option.map_some, Option.bind_some, sweepSlot] at ht ⊢
      split at ht
      · split at ht <;> exact ht
      · split at ht <;> exact absurd ht (by simp)

end Heap

/-- Every table of the machine was there in an earlier one, in the same slot. -/
def Machine.Inherits (m' m : Machine) : Prop :=
  ∀ i t, m'.heap.tableIn? i = some t → m.heap.tableIn? i = some t

theorem Machine.Inherits.of_heap_eq {m' m : Machine} (h : m'.heap = m.heap) : m'.Inherits m :=
  fun i t ht => by rwa [h] at ht

theorem Machine.Inherits.trans {m m₁ m₂ : Machine} (h : m₁.Inherits m) (h' : m₂.Inherits m₁) :
    m₂.Inherits m := fun i t ht => h i t (h' i t ht)

/-! ### Quiet effects -/

/-- That the tables are left alone. -/
def Judgement.quiet : Judgement :=
  .ofRel (fun m m' => m'.Inherits m) (fun _ => .of_heap_eq rfl) fun _ _ _ h h' => h.trans h'

namespace Effect

open Judgement

variable {a : Effect α}

/-- Whether an effect leaves the tables alone. -/
def Quiet (a : Effect α) : Prop := Judgement.quiet.Meets a

theorem quiet_of_heap_eq (h : ∀ m, (a.after m).heap = m.heap) : Quiet a :=
  fun m => .of_heap_eq (h m)

theorem quiet_setHandle (place : Nat) (v : Value) : Quiet (setHandle place v) :=
  quiet_of_heap_eq fun _ => rfl

theorem quiet_pin (v : Value) : Quiet (pin v) := quiet_of_heap_eq fun _ => rfl

theorem quiet_record (e : Event) : Quiet (record e) := quiet_of_heap_eq fun _ => rfl

theorem quiet_write {facet : Facet α} (hf : ∀ x, Facet.table.get? (facet.put x) = none) (v : Value)
    (g : α → α) : Quiet (write facet v g) :=
  meets_write fun _ _ _ ht => Heap.tableIn?_modify_of_other hf ht

/-- The tables after an allocation. -/
theorem tableIn?_alloc {cls : Value} {body : Body} {m : Machine} {i : Nat} {t : Table}
    (ht : ((alloc cls body).after m).heap.tableIn? i = some t) :
    m.heap.tableIn? i = some t ∨ Facet.table.get? body = some t := by
  rcases alloc_cases cls body m with h | h
  · rw [after, h] at ht
    exact Heap.tableIn?_insert ht
  · rw [after, h] at ht
    exact (Heap.tableIn?_insert ht).imp_left Heap.tableIn?_collect

theorem quiet_alloc (cls : Value) {body : Body} (hb : Facet.table.get? body = none) :
    Quiet (alloc cls body) := by
  intro m i t ht
  rcases tableIn?_alloc ht with ht | ht
  · exact ht
  · rw [hb] at ht
    exact absurd ht (by simp)

/-! ### Raising is quiet -/

/-- Handles are no tables. -/
def quietScope : ∀ m : Machine, Judgement.quiet.Scope m := scopeOfRel fun _ _ => .of_heap_eq rfl

theorem quiet_makes : Judgement.quiet.Makes where
  alloc cls _ htable _ := quiet_alloc cls htable
  push _ _ := quiet_write (fun _ => rfl) _ _
  setTrace _ _ := quiet_write (fun _ => rfl) _ _

theorem quiet_raises : Judgement.quiet.Raises where
  makes := quiet_makes
  captureTrace := meets_captureTrace quietScope fun _ => quiet_makes
  throwException := meets_throwException_ofRel fun _ => .of_heap_eq rfl

theorem quiet_discardException (exc : Value) (context : String) :
    Quiet (discardException exc context) :=
  meets_discardException quiet_record (quiet_of_heap_eq fun _ => rfl) exc context

end Effect

end ObjectMachine
