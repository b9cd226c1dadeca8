import Mathlib.Tactic
import ObjectMachine.Proofs.Dictionary.Judgements
import ObjectMachine.Proofs.Machine.Tables

/-! The representation invariant of tables along runs.

Computing a hash, comparing keys and visiting entries may run the operations on tables again, on the
very table at work.  `TableCode` is the code that arises this way, to any depth of such calls.  Its
runs are cut into steps, in which a table stays as it is, comes into being or is changed by the
operations of the representation, and the invariant holds at every point between two steps. -/

namespace ObjectMachine

/-! ### Steps and runs -/

/-- Where a table may come from in one step: it was there, it is new and empty, or it comes from the
table in its place by changes. -/
inductive Machine.Origin (m : Machine) (i : Nat) : Table → Prop
  | kept {j : Nat} {t : Table} (h : m.heap.tableIn? j = some t) : Origin m i t
  | created (strategy : Strategy) (size : Nat) : Origin m i (Table.new strategy size)
  | changed {t t' : Table} (h : m.heap.tableIn? i = some t) (hc : t.Changes t') : Origin m i t'

/-- One step of a machine, as far as tables are concerned. -/
def Machine.Step (m m' : Machine) : Prop := ∀ i t, m'.heap.tableIn? i = some t → m.Origin i t

/-- Whether every table on the heap is well formed. -/
def Machine.TablesWellFormed (m : Machine) : Prop :=
  ∀ i t, m.heap.tableIn? i = some t → t.WellFormed

theorem Machine.TablesWellFormed.step {m m' : Machine} (hw : m.TablesWellFormed)
    (h : m.Step m') : m'.TablesWellFormed := by
  intro i t ht
  cases h i t ht with
  | kept h => exact hw _ t h
  | created strategy size => exact Table.wellFormed_new strategy size
  | changed h hc => exact (hw i _ h).changes hc

theorem Machine.Inherits.step {m m' : Machine} (h : m'.Inherits m) : m.Step m' :=
  fun i t ht => .kept (h i t ht)

/-- The points that a run of an effect passes through, cut into steps along its sequencing. -/
inductive Run : {α : Type} → Effect α → Machine → List Machine → Prop
  | step {α : Type} {a : Effect α} {m : Machine} (h : m.Step (a.after m)) : Run a m [a.after m]
  | bind {α β : Type} {a : Effect α} {f : α → Effect β} {m m' : Machine} {x : α}
      {points rest : List Machine} (ha : Run a m points) (hx : a m = .ok x m')
      (hf : Run (f x) m' rest) : Run (a >>= f) m (points ++ rest)
  | cut {α β : Type} {a : Effect α} {f : α → Effect β} {m m' : Machine} {u : Unwind}
      {points : List Machine} (ha : Run a m points) (hu : a m = .error u m') :
      Run (a >>= f) m points
  | outcome {α : Type} {a : Effect α} {m : Machine} {points : List Machine} (ha : Run a m points) :
      Run (Effect.outcome a) m points

/-- A run ends where the effect does. -/
theorem Run.mem_after {α : Type} {a : Effect α} {m : Machine} {points : List Machine}
    (h : Run a m points) : a.after m ∈ points := by
  induction h with
  | step h => exact List.mem_singleton_self _
  | bind ha hx hf _ ihf =>
    rw [Effect.after, Effect.bind_of_ok hx]
    exact List.mem_append_right _ ihf
  | cut ha hu ih =>
    rw [Effect.after_of_error hu] at ih
    rwa [Effect.after_of_error (Effect.bind_of_error hu)]
  | outcome ha ih => rwa [Effect.after_outcome]

/-- The invariant holds at every point of a run. -/
theorem Run.wellFormed {α : Type} {a : Effect α} {m : Machine} {points : List Machine}
    (h : Run a m points) (hw : m.TablesWellFormed) : ∀ p ∈ points, p.TablesWellFormed := by
  induction h with
  | step h =>
    intro p hp
    rw [List.mem_singleton.mp hp]
    exact hw.step h
  | bind ha hx hf iha ihf =>
    have hm' := iha hw _ ha.mem_after
    rw [Effect.after_of_ok hx] at hm'
    intro p hp
    rcases List.mem_append.mp hp with hp | hp
    · exact iha hw p hp
    · exact ihf hm' p hp
  | cut ha hu ih => exact ih hw
  | outcome ha ih => exact ih hw

/-! ### Code that runs in steps -/

/-- That a run goes in steps, from a machine with well-formed tables. -/
def Judgement.stepwise : Judgement where
  At a m := m.TablesWellFormed → ∃ points, Run a m points
  look h _ := ⟨_, .step (Machine.Inherits.of_heap_eq (by rw [Effect.after_of_ok h])).step⟩
  fail _ h _ := ⟨_, .step (Machine.Inherits.of_heap_eq (by rw [Effect.after_of_error h])).step⟩
  bind {_ _ a f m} ha hf hw := by
    obtain ⟨points, hrun⟩ := ha hw
    cases h : a m with
    | error u m' => exact ⟨points, .cut hrun h⟩
    | ok x m' =>
      have hm' := hrun.wellFormed hw _ hrun.mem_after
      rw [Effect.after_of_ok h] at hm'
      obtain ⟨rest, hrest⟩ := hf x m' h hm'
      exact ⟨points ++ rest, .bind hrun h hrest⟩

/-- Whether an effect runs in steps on every machine with well-formed tables. -/
def Stepwise (a : Effect α) : Prop := Judgement.stepwise.Meets a

section Stepwise

open Effect Judgement

variable {a : Effect α} {m : Machine}

theorem stepwise_of_inherits (h : ∀ m, m.TablesWellFormed → (a.after m).Inherits m) :
    Stepwise a := fun m hw => ⟨_, .step (h m hw).step⟩

theorem Effect.Quiet.stepwise (h : a.Quiet) : Stepwise a := stepwise_of_inherits fun m _ => h m

theorem stepwise_excuses : Judgement.stepwise.Excuses := fun _ _ =>
  Quiet.stepwise (quiet_of_heap_eq fun _ => rfl)

theorem stepwise_forgets : Judgement.stepwise.Forgets := fun _ _ _ h hw => by
  obtain ⟨points, hrun⟩ := h hw
  exact ⟨points, .outcome hrun⟩

/-- To close a scope is to try the code out and to drop the handles. -/
def stepwiseScope (m : Machine) : Judgement.stepwise.Scope m where
  inner := Judgement.stepwise
  pin v := (quiet_pin v).stepwise
  close {α _} ha := by
    have hshrink : ∀ base, Stepwise (update fun m => { m with handles := m.handles.shrink base }) :=
      fun base => Quiet.stepwise (quiet_of_heap_eq fun _ => rfl)
    have hresume : ∀ result, Stepwise (resume result : Effect α) := fun result =>
      Quiet.stepwise (quiet_of_heap_eq fun m => by rw [after_resume])
    exact At.ask_bind ((stepwise_forgets ha).bind fun result m' _ =>
      (hshrink _).bind (fun _ => hresume result) m')

theorem stepwise_makes : Judgement.stepwise.Makes where
  alloc cls _ htable _ := (quiet_alloc cls htable).stepwise
  push _ _ := (quiet_write (fun _ => rfl) _ _).stepwise
  setTrace _ _ := (quiet_write (fun _ => rfl) _ _).stepwise

theorem stepwise_raises : Judgement.stepwise.Raises where
  makes := stepwise_makes
  captureTrace := meets_captureTrace stepwiseScope fun _ => stepwise_makes
  throwException _ := Quiet.stepwise (quiet_of_heap_eq fun _ => rfl)

/-- Writing to a table what comes from it by changes. -/
theorem steps_change (table : Value) : Judgement.stepwise.Steps table Table.Change := by
  intro m t g hread hc _
  refine ⟨_, .step fun i t' ht' => ?_⟩
  rw [after_of_ok (write_of_ok hread g)] at ht'
  rcases Heap.tableIn?_modify_table ht' with ht' | ⟨t₁, hread₁, hin, rfl⟩
  · exact .kept ht'
  · obtain rfl : t₁ = t := Except.ok.inj (hread₁.symm.trans hread)
    exact .changed hin hc

/-! ### The operations run in steps if the methods of the keys do -/

theorem stepwise_record (e : Event) : Stepwise (record e) := (quiet_record e).stepwise

theorem stepwise_newTable (strategy : Strategy) (size : Nat) :
    Stepwise (newTable strategy size) := by
  refine (meets_ask _).bind fun cls => fun m _ => ⟨_, .step fun i t ht => ?_⟩
  rcases tableIn?_alloc ht with ht | ht
  · exact .kept ht
  · rw [← Option.some.inj ht]
    exact .created strategy size

/-- A copy was somewhere before. -/
theorem stepwise_copy (table : Value) : Stepwise (Dictionary.copy table) := by
  refine Dictionary.meets_copy fun cls ht _ => ⟨_, .step fun i t' ht' => ?_⟩
  rcases tableIn?_alloc ht' with ht' | ht'
  · exact .kept ht'
  · rw [← Option.some.inj ht']
    exact .kept (Heap.tableIn?_of_read ht)

theorem stepwise_addHashed {key : Value} (hkey : key ≠ .absent) (table : Value) (hash : UInt64)
    (record : Value) : Stepwise (Dictionary.addHashed table hash key record) :=
  Dictionary.meets_addHashed stepwise_record (steps_change table)
    (fun _ => .rehash (Table.primeAtLeast_pos _)) fun _ => .prepend hash hkey record

theorem stepwise_fetch {calls : Calls} (hsend : ∀ v name args, Stepwise (calls.send v name args))
    (table key : Value) : Stepwise (calls.fetch table key) := by
  have hequal := meets_valueEqual stepwise_forgets stepwise_excuses
    (fun exc context => (quiet_discardException exc context).stepwise) hsend
  have hkeys := meetsKeys_of_send stepwise_raises hsend hequal
  have hlookup : Stepwise (Dictionary.lookup calls.keys table key) := fun m =>
    Dictionary.at_lookup (stepwiseScope m) hkeys (stepwise_record _)
  have hdisplay : Stepwise (calls.display key) := by
    refine (hsend key "to_s" []).bind fun text => (meets_ask _).bind fun s => ?_
    cases s with
    | some s => exact meets_pure _
    | none => exact stepwise_raises.raiseError _ _
  refine hlookup.bind fun found => ?_
  cases found with
  | some v => exact meets_pure _
  | none => exact hdisplay.bind fun _ => stepwise_raises.raiseError _ _

end Stepwise

/-! ### Every run -/

/-- The code made of the operations on tables: what computing a hash, comparing keys, sending a
message and visiting an entry run is code of this kind again.  Beside the operations it may do
anything that leaves the tables alone; nothing is asked of that where a table is ill formed. -/
inductive TableCode : {α : Type} → Effect α → Prop
  | other {α : Type} {a : Effect α} (h : ∀ m, m.TablesWellFormed → (a.after m).Inherits m) :
      TableCode a
  | bind {α β : Type} {a : Effect α} {f : α → Effect β} (ha : TableCode a)
      (hf : ∀ x, TableCode (f x)) : TableCode (a >>= f)
  | outcome {α : Type} {a : Effect α} (ha : TableCode a) : TableCode (Effect.outcome a)
  | newTable (strategy : Strategy) (size : Nat) : TableCode (Effect.newTable strategy size)
  | copy (table : Value) : TableCode (Dictionary.copy table)
  | lookup {meaning : KeyMeaning} (hhash : ∀ s key, TableCode ((meaning s).hash key))
      (hequal : ∀ s key other, TableCode ((meaning s).equal key other)) (table key : Value) :
      TableCode (Dictionary.lookup meaning table key)
  | fetch {calls : Calls} (hsend : ∀ v name args, TableCode (calls.send v name args))
      (table key : Value) : TableCode (calls.fetch table key)
  | lookupText (table : Value) (text : String) : TableCode (Dictionary.lookupText table text)
  | insert {meaning : KeyMeaning} (hhash : ∀ s key, TableCode ((meaning s).hash key))
      (hequal : ∀ s key other, TableCode ((meaning s).equal key other)) (table : Value)
      {key : Value} (hkey : key ≠ .absent) (record : Value) :
      TableCode (Dictionary.insert meaning table key record)
  | add {meaning : KeyMeaning} (hhash : ∀ s key, TableCode ((meaning s).hash key))
      (hequal : ∀ s key other, TableCode ((meaning s).equal key other)) (table : Value)
      {key : Value} (hkey : key ≠ .absent) (record : Value) :
      TableCode (Dictionary.add meaning table key record)
  | delete {meaning : KeyMeaning} (hhash : ∀ s key, TableCode ((meaning s).hash key))
      (hequal : ∀ s key other, TableCode ((meaning s).equal key other)) (table key : Value) :
      TableCode (Dictionary.delete meaning table key)
  | deleteSafe {meaning : KeyMeaning} (hhash : ∀ s key, TableCode ((meaning s).hash key))
      (hequal : ∀ s key other, TableCode ((meaning s).equal key other)) (table key : Value) :
      TableCode (Dictionary.deleteSafe meaning table key)
  | cleanupSafe (table : Value) : TableCode (Dictionary.cleanupSafe table)
  | forEach {visitor : Value → Value → Effect Dictionary.Visit}
      (hv : ∀ key record, TableCode (visitor key record)) (patience : Nat) (table : Value) :
      TableCode (Dictionary.forEach patience table visitor)
  | size (table : Value) : TableCode (Dictionary.size table)
  | entries (table : Value) : TableCode (Dictionary.entries table)
  | dump (table : Value) : TableCode (Dictionary.dump table)
  | iterator (table : Value) : TableCode (Dictionary.iterator table)
  | next (iter : Value) : TableCode (Dictionary.next iter)
  | currentKey (iter : Value) : TableCode (Dictionary.currentKey iter)
  | currentValue (iter : Value) : TableCode (Dictionary.currentValue iter)

open Effect Judgement Dictionary in
theorem TableCode.stepwise {α : Type} {code : Effect α} (h : TableCode code) : Stepwise code := by
  induction h with
  | other h => exact stepwise_of_inherits h
  | bind _ _ iha ihf => exact Meets.bind iha ihf
  | outcome _ ih => exact fun m => stepwise_forgets (ih m)
  | newTable strategy size => exact stepwise_newTable strategy size
  | copy table => exact stepwise_copy table
  | lookup _ _ table key hhash hequal =>
    exact fun m => at_lookup (stepwiseScope m) (fun s => ⟨hhash s, hequal s⟩) (stepwise_record _)
  | fetch _ table key hsend => exact stepwise_fetch hsend table key
  | lookupText table text => exact meets_lookupText stepwise_excuses text
  | insert _ _ table hkey record hhash hequal =>
    exact fun m => at_insert (stepwiseScope m) (fun s => ⟨hhash s, hequal s⟩) (stepwise_record _)
      (steps_change table) (fun _ id => .setRecord id record) fun _ hash _ =>
        stepwise_addHashed hkey table hash record
  | add _ _ table hkey record hhash hequal =>
    exact fun m => at_add (stepwiseScope m) (fun s => ⟨hhash s, hequal s⟩) fun _ hash _ =>
      stepwise_addHashed hkey table hash record
  | delete _ _ table key hhash hequal =>
    exact fun m => at_delete (stepwiseScope m) (fun s => ⟨hhash s, hequal s⟩) (stepwise_record _)
      (steps_change table) stepwise_excuses .unlink
  | deleteSafe _ _ table key hhash hequal =>
    exact fun m => at_deleteSafe (stepwiseScope m) (fun s => ⟨hhash s, hequal s⟩)
      (stepwise_record _) (steps_change table) .tombstone
  | cleanupSafe table => exact meets_cleanupSafe (steps_change table) stepwise_excuses .unlink
  | forEach _ patience table hv =>
    exact fun m => at_forEach (stepwiseScope m) (fun _ _ _ => (quiet_setHandle _ _).stepwise) hv
      (fun id action => meets_afterVisit (steps_change table) .unlink id action fun _ _ _ =>
        stepwise_excuses _ _) patience
  | size table => exact meets_size
  | entries table => exact (meets_read _ _).bind fun _ => meets_pure _
  | dump table => exact meets_dump stepwise_record
  | iterator table => exact meets_iterator stepwise_makes
  | next iter =>
    exact meets_next (fun g => (quiet_write (fun _ => rfl) _ _).stepwise) fun _ _ =>
      stepwise_excuses _ _
  | currentKey iter => exact (meets_current iter (stepwise_excuses _)).bind fun _ => meets_pure _
  | currentValue iter => exact (meets_current iter (stepwise_excuses _)).bind fun _ => meets_pure _

/-- New tables are well formed and every change keeps them so; an unlinking that fails, which it
does for dead ids only, changes nothing.  Hence code made of the operations on tables runs in steps,
and all tables on the heap are well formed after each of them, whatever the methods of the keys
do to the tables in between. -/
theorem tables_stay_wellFormed :
    (∀ strategy size, (Table.new strategy size).WellFormed) ∧
    (∀ t : Table, t.WellFormed →
      (∀ hash key record, key ≠ .absent → (t.prepend hash key record).WellFormed) ∧
      (∀ n, 1 ≤ n → (t.rehash n).WellFormed) ∧
      (∀ id, (∃ e t', t.get? id = some e ∧ t.unlink id = .ok (e, t') ∧ t'.WellFormed) ∨
        t.get? id = none ∧ t.unlink id = .error .unlinkOfDeadEntry ∧
          t.unlinkAll [id] = (some .unlinkOfDeadEntry, t)) ∧
      (∀ id e t', t.tombstone id = some (e, t') → t'.WellFormed) ∧
      ∀ id record, (t.setRecord id record).WellFormed) ∧
    ∀ {α : Type} (code : Effect α), TableCode code → ∀ m : Machine, m.TablesWellFormed →
      (∃ points, Run code m points) ∧
      ∀ points, Run code m points → ∀ p ∈ points, p.TablesWellFormed := by
  refine ⟨Table.wellFormed_new, fun t hw => ⟨?_, ?_, ?_, ?_, ?_⟩, fun code hcode m hm => ⟨?_, ?_⟩⟩
  · exact fun hash key record hkey => hw.change (.prepend hash hkey record)
  · exact fun n hn => hw.change (.rehash hn)
  · intro id
    cases hid : t.get? id with
    | none =>
      have hdead := Table.unlink_eq_error hid
      refine Or.inr ⟨rfl, hdead, ?_⟩
      simp only [Table.unlinkAll, hdead]
    | some e =>
      obtain ⟨chains, hc⟩ := hw
      obtain ⟨t', hunlink⟩ := hc.exists_unlink hid
      exact Or.inl ⟨e, t', rfl, hunlink, (hc.unlink hunlink).2.1⟩
  · exact fun id e t' h => hw.change (.tombstone h)
  · exact fun id record => hw.change (.setRecord id record)
  · exact hcode.stepwise m hm
  · exact fun points hrun => hrun.wellFormed hm

/-- Keys with methods that work on the table they are looked up in: a hash enters another key, a
comparison removes the key that was found. -/
def meddlingKeys (table : Value) : KeyMeaning := fun _ =>
  { hash := fun key => do
      let _ ← Dictionary.insert (fun _ => Keys.symbol) table .nil key
      return 0
    equal := fun _ other => do
      let _ ← Dictionary.delete (fun _ => Keys.symbol) table other
      return false }

theorem tables_stay_wellFormed_meddling :
    let code : Effect Bool := do
      let table ← Effect.newTable .value 0
      let _ ← Dictionary.insert (meddlingKeys table) table (.ofNat 1) .nil
      Dictionary.insert (meddlingKeys table) table (.ofNat 2) .nil
    let m : Machine := { heap := { settings := {} } }
    m.TablesWellFormed ∧ (∃ points, Run code m points) ∧
      ∀ points, Run code m points → ∀ p ∈ points, p.TablesWellFormed := by
  intro code m
  have hpure : ∀ {α : Type} (x : α), TableCode (pure x : Effect α) := fun x =>
    .other fun m _ => .of_heap_eq rfl
  have hsymbol : ∀ (s : Strategy) key, TableCode (((fun _ => Keys.symbol) s).hash key) :=
    fun _ _ => hpure _
  have hsame : ∀ (s : Strategy) key other, TableCode (((fun _ => Keys.symbol) s).equal key other) :=
    fun _ _ _ => hpure _
  have hhash : ∀ table s key, TableCode ((meddlingKeys table s).hash key) := fun table s key =>
    .bind (.insert hsymbol hsame table (by decide) key) fun _ => hpure _
  have hequal : ∀ table s key other, TableCode ((meddlingKeys table s).equal key other) :=
    fun table s key other => .bind (.delete hsymbol hsame table other) fun _ => hpure _
  have hcode : TableCode code := .bind (.newTable .value 0) fun table =>
    .bind (.insert (hhash table) (hequal table) table (by decide) _) fun _ =>
      .insert (hhash table) (hequal table) table (by decide) _
  have hm : m.TablesWellFormed := fun i t ht => by simp [m, Heap.tableIn?] at ht
  exact ⟨hm, tables_stay_wellFormed.2.2 code hcode m hm⟩

end ObjectMachine
