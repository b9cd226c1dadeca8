import Mathlib.Tactic
import ObjectMachine.Proofs.Dictionary.Tending
import ObjectMachine.Proofs.Table.Density

/-! Effects that serve a table.

A machine hosts a table that is one of its roots: every collection leaves the table alone.  An effect
serves the table if it keeps hosting it, and what it does to the table in the end is a sequence of
steps from a given relation.  Which steps these are is open: an operation on tables serves a relation
that has its own steps in it, provided the methods of the keys and the visitors serve the relation. -/

namespace ObjectMachine

open Relation (ReflTransGen)

/-- The machine holds a table, which was a root of an earlier machine and is one still. -/
structure Machine.Hosts (m : Machine) (table : Value) (t : Table) (base : Machine) : Prop where
  table_eq : m.heap.read Facet.table table = .ok t
  rooted : table ∈ base.roots
  carries : base.Carries m
  sound : m.heap.Sound
  unmarked : m.heap.Unmarked

/-- However the effect ends, the machine hosts the table, which went through steps of the relation. -/
def Effect.Serves (table : Value) (base : Machine) (step : Table → Table → Prop) (a : Effect α)
    (m : Machine) : Prop :=
  ∀ t, m.Hosts table t base → ∃ t', ReflTransGen step t t' ∧ (a.after m).Hosts table t' base

namespace Machine.Hosts

variable {m m' base : Machine} {table : Value} {t t' : Table}

theorem unique (h : m.Hosts table t base) (h' : m.heap.read Facet.table table = .ok t') : t = t' :=
  Except.ok.inj (h.table_eq.symm.trans h')

/-- The roots from before may be those of the machine itself. -/
theorem self (h : m.Hosts table t base) : m.Hosts table t m :=
  ⟨h.table_eq, h.carries.roots_subset h.rooted, .refl m, h.sound, h.unmarked⟩

theorem rebase (h : m.Hosts table t base) (h' : m'.Hosts table t' m) : m'.Hosts table t' base :=
  ⟨h'.table_eq, h.rooted, h.carries.trans h'.carries, h'.sound, h'.unmarked⟩

theorem of_heap_eq (h : m.Hosts table t base) (hheap : m'.heap = m.heap) (hc : base.Carries m') :
    m'.Hosts table t base :=
  ⟨hheap ▸ h.table_eq, h.rooted, hc, hheap ▸ h.sound, hheap ▸ h.unmarked⟩

theorem collectWith (h : m.Hosts table t base) (pending : List Value) :
    (m.collectWith pending).Hosts table t base := by
  obtain ⟨o, ho, hb⟩ := Heap.read_eq_ok_iff.mp h.table_eq
  have hreach : m.heap.Reachable (m.roots ++ pending) table :=
    .root (List.mem_append_left _ (h.carries.roots_subset h.rooted)) (Heap.isLive_of_get? ho)
  have hkept := (Heap.get?_collect_eq_some_iff h.unmarked).mpr ⟨ho, hreach⟩
  exact ⟨Heap.read_eq_ok_iff.mpr ⟨o, hkept, hb⟩, h.rooted, h.carries.trans (m.carries_with _ _),
    h.sound.collect _, Heap.unmarked_collect h.unmarked _⟩

theorem store (h : m.Hosts table t base) (cls : Value) (body : Body) :
    ({ m with heap := m.heap.insert cls body } : Machine).Hosts table t base :=
  ⟨h.sound.read_insert cls body h.table_eq, h.rooted, h.carries.trans (m.carries_with _ _),
    h.sound.insert cls body, h.unmarked.insert h.sound cls body⟩

/-- Writing to an object of another kind. -/
theorem modify (h : m.Hosts table t base) {facet : Facet α} (hf : facet.Lawful)
    (hkind : facet.kind ≠ .table) (v : Value) (g : α → α) :
    ({ m with heap := m.heap.modify facet v g } : Machine).Hosts table t base :=
  ⟨Heap.read_modify_of_other hf Facet.lawful_table hkind h.table_eq, h.rooted,
    h.carries.trans (m.carries_with _ _), h.sound.modifyObject _ _,
    h.unmarked.modifyObject _ fun _ _ => rfl⟩

/-- Writing to the table. -/
theorem change (h : m.Hosts table t base) (g : Table → Table) :
    ({ m with heap := m.heap.modify Facet.table table g } : Machine).Hosts table (g t) base :=
  ⟨Heap.read_modify_table h.table_eq g, h.rooted, h.carries.trans (m.carries_with _ _),
    h.sound.modifyObject _ _, h.unmarked.modifyObject _ fun _ _ => rfl⟩

end Machine.Hosts

/-- That an effect serves a table. -/
def Judgement.serving (table : Value) (base : Machine) (step : Table → Table → Prop) : Judgement :=
  .ofRel (fun m m' => ∀ t, m.Hosts table t base → ∃ t', ReflTransGen step t t' ∧ m'.Hosts table t' base)
    (fun _ t ht => ⟨t, .refl, ht⟩)
    fun _ _ _ h h' t ht => by
      obtain ⟨t₁, hsteps, ht₁⟩ := h t ht
      obtain ⟨t₂, hsteps', ht₂⟩ := h' t₁ ht₁
      exact ⟨t₂, hsteps.trans hsteps', ht₂⟩

namespace Effect

open Machine Judgement

variable {α β : Type} {table : Value} {base m : Machine} {step : Table → Table → Prop}
  {a : Effect α}

theorem Serves.rebase (ha : Serves table m step a m) : Serves table base step a m := fun t ht => by
  obtain ⟨t', hsteps, ht'⟩ := ha t ht.self
  exact ⟨t', hsteps, ht.rebase ht'⟩

theorem meets_serving (ha : ∀ m, Serves table m step a m) : (serving table base step).Meets a :=
  fun m => (ha m).rebase

theorem serving_excuses : (serving table base step).Excuses := excuses_ofRel

/-- What leaves the table to the machine as it was. -/
theorem serves_of_hosts (h : ∀ t, m.Hosts table t base → (a.after m).Hosts table t base) :
    Serves table base step a m := fun t ht => ⟨t, .refl, h t ht⟩

theorem serves_setHandle {place : Nat} (hplace : base.handles.size ≤ place) (v : Value) :
    (serving table base step).Meets (setHandle place v) := fun _ =>
  serves_of_hosts fun _ ht => ht.of_heap_eq rfl (ht.carries.setHandle hplace v)

theorem serves_record (e : Event) : (serving table base step).Meets (record e) := fun _ =>
  serves_of_hosts fun _ ht => ht.of_heap_eq rfl (ht.carries.trans (Machine.carries_with _ _ _))

theorem serves_setUnwindState (s : UnwindState) :
    (serving table base step).Meets (update fun m => { m with unwindState := s }) := fun _ =>
  serves_of_hosts fun _ ht => ht.of_heap_eq rfl
    (ht.carries.trans ⟨rfl, rfl, rfl, List.prefix_rfl, List.Subset.refl _⟩)

theorem serves_alloc (cls : Value) (body : Body) :
    (serving table base step).Meets (alloc cls body) := by
  refine fun m => serves_of_hosts fun t ht => ?_
  rcases alloc_cases cls body m with h | h
  · rw [after_of_ok (h.trans rfl)]
    exact ht.store cls body
  · rw [after_of_ok (h.trans rfl)]
    exact (ht.collectWith (cls :: body.edges)).store cls body

/-- Writing to an object of another kind. -/
theorem serves_write_other {facet : Facet β} (hf : facet.Lawful) (hkind : facet.kind ≠ .table)
    (v : Value) (g : β → β) : (serving table base step).Meets (write facet v g) :=
  meets_write fun _ => serves_of_hosts fun _ ht => ht.modify hf hkind v g

def servingScope (m : Machine) : (serving table base step).Scope m where
  inner := serving table m step
  pin v _ := serves_of_hosts fun _ ht => ht.of_heap_eq rfl (ht.carries.push v)
  close {_ a} ha := by
    intro t ht
    obtain ⟨t', hsteps, ht'⟩ := ha t ht.self
    refine ⟨t', hsteps, ?_⟩
    rw [after_withHandles]
    exact (ht.rebase ht').of_heap_eq rfl (ht.carries.trans ht'.carries.shrink)

theorem serving_raises : (serving table base step).Raises :=
  have hmakes : ∀ {base : Machine}, (serving table base step).Makes :=
    ⟨fun cls _ _ _ => serves_alloc cls _, fun _ _ => serves_write_other Facet.lawful_array nofun _ _,
      fun _ _ => serves_write_other Facet.lawful_exception nofun _ _⟩
  ⟨hmakes, meets_captureTrace servingScope fun _ => hmakes,
    meets_throwException_ofRel (serves_setUnwindState .unwinding)⟩

theorem serves_discardException (exc : Value) (context : String) :
    (serving table base step).Meets (discardException exc context) :=
  meets_discardException serves_record (serves_setUnwindState _) exc context

/-- Writing to the table. -/
theorem serving_steps : (serving table base step).Steps table step := by
  intro m t g ht hsteps s hs
  obtain rfl : s = t := hs.unique ht
  rw [after_of_ok (write_of_ok ht g)]
  exact ⟨g s, hsteps, hs.change g⟩

end Effect

namespace Dictionary

open Effect Machine Judgement

variable {table key record : Value} {base m : Machine} {step : Table → Table → Prop} {keys : Keys}
  {meaning : KeyMeaning} {hash : UInt64}

/-! ### Keys -/

/-- Whether the methods of the keys serve a table. -/
structure ServingKeys (table : Value) (step : Table → Table → Prop) (keys : Keys) : Prop where
  hash : ∀ key (m : Machine), Serves table m step (keys.hash key) m
  equal : ∀ key other (m : Machine), Serves table m step (keys.equal key other) m

theorem ServingKeys.meets (hk : ServingKeys table step keys) :
    (serving table base step).MeetsKeys keys :=
  ⟨fun key => meets_serving (hk.hash key), fun key other => meets_serving (hk.equal key other)⟩

theorem servingKeys_residue (modulus : Nat) : ServingKeys table step (Keys.residue modulus) :=
  ⟨fun _ _ => meets_pure (J := serving table _ step) _ _,
    fun _ _ _ => meets_pure (J := serving table _ step) _ _⟩

/-- The keys of every strategy serve a table if the messages they send do. -/
theorem servingKeys_of_send {calls : Calls}
    (hsend : ∀ v name args (m : Machine), Serves table m step (calls.send v name args) m)
    (s : Strategy) : ServingKeys table step (calls.keys s) := by
  have hsend' : ∀ {base : Machine} v name args,
      (serving table base step).Meets (calls.send v name args) :=
    fun v name args => meets_serving (hsend v name args)
  have hk : ∀ {base : Machine}, (serving table base step).MeetsKeys (calls.keys s) :=
    meetsKeys_of_send serving_raises hsend'
      (meets_valueEqual forgets_ofRel serving_excuses serves_discardException hsend') s
  exact ⟨fun key m => hk.hash key m, fun key other m => hk.equal key other m⟩

/-! ### Operations -/

/-- Adding an entry is one step, together with the growth that may come first. -/
theorem serves_addHashed (henter : ∀ t : Table, step t (t.enter hash key record)) :
    Serves table base step (addHashed table hash key record) m := by
  intro t ht
  refine ⟨_, .single (henter t), ?_⟩
  obtain ⟨events, hadd⟩ := addHashed_eq ht.table_eq hash key record
  rw [after_of_ok hadd]
  have hchange := ht.change fun _ => t.enter hash key record
  exact hchange.of_heap_eq rfl (hchange.carries.trans (carries_with _ _ events))

theorem serves_lookup (hk : ∀ s, ServingKeys table step (meaning s)) :
    (serving table base step).Meets (lookup meaning table key) := fun m =>
  at_lookup (servingScope m) (fun s => (hk s).meets) (serves_record _)

theorem serves_insert (hk : ∀ s, ServingKeys table step (meaning s))
    (hset : ∀ (t : Table) id, step t (t.setRecord id record))
    (henter : ∀ (t : Table) hash, step t (t.enter hash key record)) :
    (serving table base step).Meets (insert meaning table key record) := fun m =>
  at_insert (servingScope m) (fun s => (hk s).meets) (serves_record _) serving_steps hset
    fun _ hash _ _ => serves_addHashed fun t => henter t hash

theorem serves_add (hk : ∀ s, ServingKeys table step (meaning s))
    (henter : ∀ (t : Table) hash, step t (t.enter hash key record)) :
    (serving table base step).Meets (add meaning table key record) := fun m =>
  at_add (servingScope m) (fun s => (hk s).meets) fun _ hash _ _ =>
    serves_addHashed fun t => henter t hash

theorem serves_delete (hk : ∀ s, ServingKeys table step (meaning s))
    (hunlink : ∀ {t t' : Table} {id e}, t.unlink id = .ok (e, t') → step t t') :
    (serving table base step).Meets (delete meaning table key) := fun m =>
  at_delete (servingScope m) (fun s => (hk s).meets) (serves_record _) serving_steps
    serving_excuses hunlink

theorem serves_deleteSafe (hk : ∀ s, ServingKeys table step (meaning s))
    (htombstone : ∀ {t t' : Table} {id e}, t.tombstone id = some (e, t') → step t t') :
    (serving table base step).Meets (deleteSafe meaning table key) := fun m =>
  at_deleteSafe (servingScope m) (fun s => (hk s).meets) (serves_record _) serving_steps htombstone

theorem serves_cleanupSafe
    (hunlink : ∀ {t t' : Table} {id e}, t.unlink id = .ok (e, t') → step t t') :
    (serving table base step).Meets (cleanupSafe table) :=
  meets_cleanupSafe serving_steps serving_excuses hunlink

theorem serves_forEach {visitor : Value → Value → Effect Visit}
    (hv : ∀ key record (m : Machine), Serves table m step (visitor key record) m)
    (hunlink : ∀ {t t' : Table} {id e}, t.unlink id = .ok (e, t') → step t t') (patience : Nat) :
    (serving table base step).Meets (forEach patience table visitor) := by
  refine fun m => at_forEach (servingScope m) (fun _ v hplace => serves_setHandle hplace v)
    (fun key record => meets_serving (hv key record)) (fun id action => ?_) patience
  exact meets_afterVisit serving_steps hunlink id action fun _ _ _ => serving_excuses _ _

end Dictionary

end ObjectMachine
