import Mathlib.Tactic
import ObjectMachine.Proofs.Dictionary.Judgements
import ObjectMachine.Proofs.Machine.Bootstrap

/-! How much an operation can add to the machine.

`Within n` bounds the slots an effect may take and the names it may bring, whatever the machine.  The
bootstrap is within a small bound, so that a new machine has room. -/

namespace ObjectMachine

/-- Whether a machine has at most so many more slots than before, and so many more names. -/
def Machine.Outgrows (n : Nat) (m m' : Machine) : Prop :=
  m'.heap.slots.size ≤ m.heap.slots.size + n ∧ m'.symbols.names.size ≤ m.symbols.names.size + n

/-- An effect that takes at most so many new slots and brings at most so many new names. -/
def Effect.Within (n : Nat) (a : Effect α) : Prop := ∀ m : Machine, m.Outgrows n (a.after m)

theorem Machine.Outgrows.trans {n k : Nat} {m m' m'' : Machine} (h : m.Outgrows n m')
    (h' : m'.Outgrows k m'') : m.Outgrows (n + k) m'' := by
  obtain ⟨hslots, hnames⟩ := h
  obtain ⟨hslots', hnames'⟩ := h'
  exact ⟨by omega, by omega⟩

/-- That nothing is taken. -/
def Judgement.frugal : Judgement :=
  .ofRel (Machine.Outgrows 0) (fun _ => ⟨le_rfl, le_rfl⟩) fun _ _ _ h h' => h.trans h'

namespace Effect

open Judgement

variable {α β : Type} {n k : Nat} {a : Effect α} {f : α → Effect β}

/-! ### Rules -/

theorem Within.mono (ha : Within n a) (hnk : n ≤ k) : Within k a := fun m =>
  ⟨(ha m).1.trans (Nat.add_le_add_left hnk _), (ha m).2.trans (Nat.add_le_add_left hnk _)⟩

theorem Within.bind (ha : Within n a) (hf : ∀ x, Within k (f x)) : Within (n + k) (a >>= f) := by
  intro m
  have hfirst := ha m
  cases h : a m with
  | error u m' =>
    rw [after_of_error h] at hfirst
    rw [after_bind_of_error h]
    exact ⟨by have := hfirst.1; omega, by have := hfirst.2; omega⟩
  | ok x m' =>
    rw [after_of_ok h] at hfirst
    rw [after_bind_of_ok h]
    exact hfirst.trans (hf x m')

theorem within_of_frugal (ha : frugal.Meets a) : Within n a := by
  have h : Within 0 a := ha
  exact h.mono (Nat.zero_le n)

end Effect

/-- What costs nothing, and then the rest. -/
theorem Judgement.Meets.andThen {a : Effect α} {f : α → Effect β} {n : Nat}
    (ha : Judgement.frugal.Meets a) (hf : ∀ x, (f x).Within n) : (a >>= f).Within n := by
  have hfirst : a.Within 0 := ha
  have h := hfirst.bind hf
  rwa [Nat.zero_add] at h

namespace Effect

open Judgement

variable {α β : Type} {n k : Nat} {a : Effect α}

theorem within_update {g : Machine → Machine}
    (hslots : ∀ m, (g m).heap.slots.size ≤ m.heap.slots.size + n)
    (hnames : ∀ m, (g m).symbols.names.size ≤ m.symbols.names.size + n) : Within n (update g) :=
  fun m => ⟨hslots m, hnames m⟩

theorem frugal_write (facet : Facet α) (v : Value) (g : α → α) : frugal.Meets (write facet v g) :=
  meets_write fun m => ⟨by simp [update, after, Heap.modify, Heap.size_modifyObject], le_rfl⟩

theorem frugal_record (e : Event) : frugal.Meets (record e) := fun _ => ⟨le_rfl, le_rfl⟩

def frugalScope (m : Machine) : frugal.Scope m := scopeOfRel (fun _ _ => ⟨le_rfl, le_rfl⟩) m

theorem frugal_pin (v : Value) : frugal.Meets (pin v) := fun _ => ⟨le_rfl, le_rfl⟩

theorem frugal_steps (table : Value) : frugal.Steps table fun _ _ => True := fun m _ g _ _ =>
  frugal_write _ _ g m

theorem Within.withHandles (ha : Within n a) : Within n (withHandles a) := fun m => by
  rw [after_withHandles]
  exact ha m

theorem within_alloc (cls : Value) (body : Body) : Within 1 (alloc cls body) := by
  have hstore : Within 1 (store cls body) := fun m =>
    ⟨m.heap.size_insert_le cls body, Nat.le_add_right _ _⟩
  have hcollect : ∀ pending, frugal.Meets (update (·.collectWith pending)) := fun pending m =>
    ⟨le_of_eq (Heap.size_collect m.heap _), le_rfl⟩
  refine (meets_ask _).andThen fun collect => ?_
  split
  · exact (hcollect _).andThen fun _ => hstore
  · exact hstore

theorem within_newText (t : String) : Within 1 (newText t) :=
  (meets_ask _).andThen fun _ => within_alloc _ _

theorem within_newTable (strategy : Strategy) (size : Nat) : Within 1 (newTable strategy size) :=
  (meets_ask _).andThen fun _ => within_alloc _ _

/-! ### Tables -/

theorem frugal_addHashed (table : Value) (hash : UInt64) (key record : Value) :
    frugal.Meets (Dictionary.addHashed table hash key record) :=
  Dictionary.meets_addHashed frugal_record (frugal_steps table) (fun _ => trivial) fun _ => trivial

theorem frugal_insertSymbol (table key record : Value) :
    frugal.Meets (Dictionary.insert (fun _ => Keys.symbol) table key record) := fun m =>
  Dictionary.at_insert (frugalScope m) (fun _ => meetsKeys_symbol) (frugal_record _)
    (frugal_steps table) (fun _ _ => trivial) fun _ hash _ => frugal_addHashed table hash key record

theorem frugal_addText (table key record : Value) :
    frugal.Meets (Dictionary.add (fun _ => Keys.text) table key record) := fun m =>
  Dictionary.at_add (frugalScope m) (fun _ => meetsKeys_text) fun _ hash _ =>
    frugal_addHashed table hash key record

/-! ### Symbols, globals and methods -/

/-- A new name, and the slot of its text. -/
theorem within_intern (name : String) : Within 2 (intern name) := by
  have hpush : Within 1 (update fun m =>
      { m with symbols := { m.symbols with names := m.symbols.names.push name } }) :=
    within_update (fun _ => Nat.le_add_right _ _) fun m => le_of_eq (Array.size_push _)
  have hlookup : ∀ table, frugal.Meets (Dictionary.lookupText table name) := fun _ =>
    Dictionary.meets_lookupText excuses_ofRel name
  refine (meets_ask _).andThen fun table => (hlookup table).andThen fun found => ?_
  cases found with
  | some symbol => exact within_of_frugal (meets_pure _)
  | none =>
    refine (meets_ask _).andThen fun id => hpush.bind (k := 1) fun _ =>
      (within_newText name).bind (k := 0) fun key => ?_
    exact within_of_frugal ((frugal_addText _ _ _).bind fun _ => meets_pure _)

theorem within_setGlobal (name : String) (v : Value) : Within 2 (setGlobal name v) :=
  Within.withHandles ((frugal_pin v).andThen fun _ => (within_intern name).bind (k := 0) fun _ =>
    within_of_frugal ((meets_ask _).bind fun _ => (frugal_insertSymbol _ _ _).bind fun _ => meets_pure _))

theorem within_defineMethod (cls : Value) (method : NativeMethod) :
    Within 3 (defineMethod cls method) :=
  Within.withHandles ((frugal_pin cls).andThen fun _ => (within_intern _).bind (k := 1) fun _ =>
    (meets_read _ _).andThen fun _ => (meets_ask _).andThen fun _ =>
      (within_alloc _ _).bind (k := 0) fun _ =>
        within_of_frugal ((frugal_insertSymbol _ _ _).bind fun _ => meets_pure _))

theorem within_definePrimitives (cls : Value) : ∀ methods : List PrimitiveMethod,
    Within (3 * methods.length) (definePrimitives cls methods)
  | [] => within_of_frugal (meets_pure ())
  | p :: rest => by
    have h := (within_defineMethod cls ⟨p.name, p.arity, .primitive p.primitive⟩).bind fun _ =>
      within_definePrimitives cls rest
    exact h.mono (by rw [List.length_cons]; omega)

end Effect

/-! ### The bootstrap -/

namespace Bootstrap

open Effect Judgement

theorem within_nameClasses : ∀ cs : List BuiltinClass, Within (3 * cs.length) (nameClasses cs)
  | [] => within_of_frugal (meets_pure ())
  | c :: cs => by
    have h := (within_newTable .symbol 0).bind fun methods => (within_intern c.name).bind fun name =>
      (meets_ask (·.classValue c)).andThen fun cls => (frugal_write Facet.cls cls
        fun body => { body with methods := methods, name := name }).andThen fun _ =>
          within_nameClasses cs
    exact h.mono (by rw [List.length_cons]; omega)

theorem within_bindClasses : ∀ cs : List BuiltinClass, Within (2 * cs.length) (bindClasses cs)
  | [] => within_of_frugal (meets_pure ())
  | c :: cs => by
    have h := (meets_ask (·.classValue c)).andThen fun cls =>
      (within_setGlobal c.name cls).bind fun _ => within_bindClasses cs
    exact h.mono (by rw [List.length_cons]; omega)

theorem within_install : ∀ lists : List (BuiltinClass × PrimitiveList),
    Within (lists.map fun p => 3 * p.2.methods.length).sum (install lists)
  | [] => within_of_frugal (meets_pure ())
  | (c, l) :: rest => by
    have h := (meets_ask (·.classValue c)).andThen fun cls =>
      (within_definePrimitives cls l.methods).bind fun _ => within_install rest
    exact h

theorem within_furnish : Within 1000 furnish := by
  have hglobals : ∀ globals,
      frugal.Meets (update fun m : Machine => { m with globals := globals }) :=
    fun _ _ => ⟨le_rfl, le_rfl⟩
  have hheap : frugal.Meets
      (update fun m : Machine => { m with heap := { m.heap with allocated := 0, enabled := true } }) :=
    fun _ => ⟨le_rfl, le_rfl⟩
  have h := (within_nameClasses BuiltinClass.all).bind fun _ => (within_newTable .symbol 0).bind
    fun globals => (hglobals globals).andThen fun _ => (within_bindClasses BuiltinClass.all).bind fun _ =>
      (within_install installation).bind fun _ => hheap.andThen fun _ =>
        (meets_ask (·.heap.live)).andThen fun live =>
          (within_of_frugal (frugal_record (.bootstrapped BuiltinClass.all.length live)) : Within 0 _)
  exact h.mono (by decide)

/-- A new machine has room, and few names. -/
theorem size_new_le (settings : HeapSettings) :
    (Machine.new settings).heap.slots.size ≤ 1025 ∧ (Machine.new settings).symbols.names.size ≤ 1000 := by
  obtain ⟨h, classes, hl, hnew⟩ := exists_new_eq settings
  obtain ⟨hslots, hnames⟩ := within_furnish (planted h classes)
  have hplanted : (planted h classes).heap.slots.size ≤ BuiltinClass.all.length + 1 :=
    hl.size ▸ h.size_insert_le _ _
  have hblank : (planted h classes).symbols.names.size = 0 := rfl
  rw [BuiltinClass.length_all] at hplanted
  rw [hnew]
  exact ⟨by omega, by omega⟩

end Bootstrap

end ObjectMachine
