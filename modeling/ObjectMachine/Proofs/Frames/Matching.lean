import Mathlib.Tactic
import ObjectMachine.Classes
import ObjectMachine.Proofs.Machine.Tables

/-! Which exceptions a rescue accepts.

A class is below its superclass, and so on up to the root.  An exception is an instance of every class
on this way, and a rescue accepts the instances of its classes.  The search on the way up has a bound;
it is never met, because the classes on a way that ends are different objects of the heap. -/

namespace ObjectMachine.Machine

variable {m : Machine} {cls ancestor v exc : Value}

/-- A class is the ancestor or below it. -/
inductive Below (m : Machine) (ancestor : Value) : Value → Prop where
  | here (h : ancestor.isNil = false) : Below m ancestor ancestor
  | up {cls : Value} {c : ClassBody} (hread : m.heap.read Facet.cls cls = .ok c)
      (h : Below m ancestor c.superclass) : Below m ancestor cls

/-- The classes on the way from a class up to the root. -/
inductive Lineage (m : Machine) : Value → List Value → Prop where
  | top {cls : Value} (h : cls.isNil = true) : Lineage m cls []
  | up {cls : Value} {c : ClassBody} {rest : List Value} (hread : m.heap.read Facet.cls cls = .ok c)
      (h : Lineage m c.superclass rest) : Lineage m cls (cls :: rest)

/-- A value is an instance of its own class and of the classes above it. -/
def InstanceOf (m : Machine) (v cls : Value) : Prop := ∃ own, m.classOf v = .ok own ∧ m.Below cls own

/-- The way from the class of a value to the root comes to an end. -/
def Traceable (m : Machine) (v : Value) : Prop :=
  ∃ own classes, m.classOf v = .ok own ∧ m.Lineage own classes

/-- A rescue accepts the instances of its classes; without classes it accepts everything. -/
def Accepts (m : Machine) (classes : List Value) (exc : Value) : Prop :=
  classes = [] ∨ ∃ cls ∈ classes, m.InstanceOf exc cls

/-! ### The way up -/

theorem read_cls_ne_nil {c : ClassBody} (h : m.heap.read Facet.cls cls = .ok c) :
    cls.isNil = false := by
  obtain ⟨o, ho, -⟩ := Heap.read_eq_ok_iff.mp h
  have href := (Heap.get?_eq_some_iff.mp ho).1
  rw [← Bool.not_eq_true]
  intro hnil
  rw [Value.isNil, beq_iff_eq] at hnil
  rw [hnil] at href
  cases href

theorem Lineage.unique {l l' : List Value} (h : m.Lineage cls l) (h' : m.Lineage cls l') : l = l' := by
  induction h generalizing l' with
  | top hnil =>
    cases h' with
    | top _ => rfl
    | up hread _ => simp [read_cls_ne_nil hread] at hnil
  | up hread _ ih =>
    cases h' with
    | top hnil => simp [read_cls_ne_nil hread] at hnil
    | up hread' h' =>
      obtain rfl := Except.ok.inj (hread.symm.trans hread')
      rw [ih h']

/-- From every class on the way the rest of the way leads on. -/
theorem Lineage.of_mem {l : List Value} (h : m.Lineage cls l) (hv : v ∈ l) :
    ∃ l', m.Lineage v l' ∧ l'.length ≤ l.length := by
  induction h with
  | top _ => cases hv
  | up hread hrest ih =>
    rcases List.mem_cons.mp hv with rfl | hv
    · exact ⟨_, .up hread hrest, le_rfl⟩
    · obtain ⟨l', hl', hlen⟩ := ih hv
      exact ⟨l', hl', hlen.trans (Nat.le_succ _)⟩

theorem Lineage.nodup {l : List Value} (h : m.Lineage cls l) : l.Nodup := by
  induction h with
  | top _ => exact List.nodup_nil
  | up hread hrest ih =>
    refine List.nodup_cons.mpr ⟨fun hin => ?_, ih⟩
    -- a class that comes again would have two ways up, one longer than the other
    obtain ⟨l', hl', hlen⟩ := hrest.of_mem hin
    have hsame := hl'.unique (.up hread hrest)
    rw [hsame, List.length_cons] at hlen
    omega

theorem Lineage.isLive {l : List Value} (h : m.Lineage cls l) (hv : v ∈ l) :
    m.heap.isLive v = true := by
  induction h with
  | top _ => cases hv
  | up hread _ ih =>
    rcases List.mem_cons.mp hv with rfl | hv
    · obtain ⟨o, ho, -⟩ := Heap.read_eq_ok_iff.mp hread
      exact Heap.isLive_iff.mpr ⟨o, ho⟩
    · exact ih hv

/-- A way to the root is no longer than the heap. -/
theorem Lineage.length_le {l : List Value} (h : m.Lineage cls l) : l.length ≤ m.heap.slots.size := by
  have hnodup : (l.map Value.slotIndex).Nodup :=
    List.Nodup.map_on (fun v hv w hw => Heap.eq_of_slotIndex_eq (h.isLive hv) (h.isLive hw)) h.nodup
  have hsub : l.map Value.slotIndex ⊆ List.range m.heap.slots.size := by
    intro i hi
    obtain ⟨v, hv, rfl⟩ := List.mem_map.mp hi
    obtain ⟨o, ho⟩ := Heap.isLive_iff.mp (h.isLive hv)
    exact List.mem_range.mpr (Array.getElem?_eq_some_iff.mp (Heap.get?_eq_some_iff.mp ho).2).1
  simpa using (List.subperm_of_subset hnodup hsub).length_le

/-! ### Searching it -/

theorem subclassFrom_eq_ok {fuel : Nat} {b : Bool} (h : m.subclassFrom ancestor fuel cls = .ok b) :
    b = true ↔ m.Below ancestor cls := by
  induction fuel generalizing cls with
  | zero => cases h
  | succ fuel ih =>
    rw [subclassFrom] at h
    split at h
    · rename_i hnil
      obtain rfl := Except.ok.inj h
      refine iff_of_false (by simp) fun hbelow => ?_
      cases hbelow with
      | here hnot => simp [hnot] at hnil
      | up hread _ => simp [read_cls_ne_nil hread] at hnil
    rename_i hnil
    split at h
    · rename_i heq
      obtain rfl := Except.ok.inj h
      refine iff_of_true rfl ?_
      rw [eq_of_beq heq] at hnil ⊢
      exact .here (by simpa using hnil)
    rename_i hne
    split at h
    · cases h
    · rename_i c hread
      rw [ih h]
      refine ⟨.up hread, fun hbelow => ?_⟩
      cases hbelow with
      | here _ => simp at hne
      | up hread' hrest =>
        obtain rfl := Except.ok.inj (hread.symm.trans hread')
        exact hrest

theorem Lineage.exists_subclassFrom {l : List Value} (h : m.Lineage cls l) (ancestor : Value)
    {fuel : Nat} (hfuel : l.length < fuel) : ∃ b, m.subclassFrom ancestor fuel cls = .ok b := by
  induction h generalizing fuel with
  | top hnil =>
    obtain ⟨fuel, rfl⟩ := Nat.exists_eq_add_of_lt hfuel
    exact ⟨false, by simp [subclassFrom, hnil]⟩
  | @up cls c rest hread _ ih =>
    obtain ⟨fuel, rfl⟩ : ∃ n, fuel = n + 1 := ⟨fuel - 1, by omega⟩
    rw [subclassFrom, if_neg (by simp [read_cls_ne_nil hread])]
    split
    · exact ⟨true, rfl⟩
    · simp only [hread]
      exact ih (by simpa using hfuel)

theorem isInstance_eq_ok {b : Bool} (h : m.isInstance v cls = .ok b) :
    b = true ↔ m.InstanceOf v cls := by
  unfold isInstance at h
  split at h
  · cases h
  · rename_i own hown
    rw [subclassFrom_eq_ok h]
    refine ⟨fun hbelow => ⟨own, hown, hbelow⟩, fun ⟨own', hown', hbelow⟩ => ?_⟩
    obtain rfl := Except.ok.inj (hown.symm.trans hown')
    exact hbelow

theorem Traceable.exists_isInstance (h : m.Traceable v) (cls : Value) :
    ∃ b, m.isInstance v cls = .ok b := by
  obtain ⟨own, l, hown, hl⟩ := h
  unfold isInstance
  rw [hown]
  exact hl.exists_subclassFrom cls (Nat.lt_of_le_of_lt hl.length_le (by omega))

theorem matchesAny_eq_ok {classes : List Value} {b : Bool} (h : m.matchesAny exc classes = .ok b) :
    b = true ↔ ∃ cls ∈ classes, m.InstanceOf exc cls := by
  induction classes with
  | nil =>
    obtain rfl := Except.ok.inj h
    simp
  | cons cls rest ih =>
    rw [matchesAny] at h
    split at h
    · cases h
    · rename_i hb
      obtain rfl := Except.ok.inj h
      exact iff_of_true rfl ⟨cls, List.mem_cons_self, (isInstance_eq_ok hb).mp rfl⟩
    · rename_i hb
      have hnot : ¬ m.InstanceOf exc cls := fun hin => by simpa using (isInstance_eq_ok hb).mpr hin
      rw [ih h]
      simp [hnot]

/-- If the search gives an answer, it is whether the rescue accepts the exception. -/
theorem exceptionMatches_eq_ok {classes : List Value} {b : Bool}
    (h : m.exceptionMatches exc classes = .ok b) : b = true ↔ m.Accepts classes exc := by
  unfold exceptionMatches at h
  unfold Accepts
  split at h
  · rename_i hempty
    obtain rfl := Except.ok.inj h
    exact iff_of_true rfl (Or.inl (List.isEmpty_iff.mp hempty))
  · rename_i hempty
    rw [matchesAny_eq_ok h, or_iff_right fun hnil => hempty (List.isEmpty_iff.mpr hnil)]

theorem Traceable.exists_matchesAny (h : m.Traceable exc) :
    ∀ classes : List Value, ∃ b, m.matchesAny exc classes = .ok b
  | [] => ⟨false, rfl⟩
  | cls :: rest => by
    obtain ⟨b, hb⟩ := h.exists_isInstance cls
    rw [matchesAny, hb]
    cases b with
    | true => exact ⟨true, rfl⟩
    | false => exact h.exists_matchesAny rest

/-- There is an answer if the class of the exception leads up to the root. -/
theorem Traceable.exists_exceptionMatches (h : m.Traceable exc) (classes : List Value) :
    ∃ b, m.exceptionMatches exc classes = .ok b := by
  unfold exceptionMatches
  split
  · exact ⟨true, rfl⟩
  · exact h.exists_matchesAny classes

end ObjectMachine.Machine
