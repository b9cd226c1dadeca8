import Mathlib.Tactic
import ObjectMachine.Proofs.Machine.Tables

/-! Judgements on the operations on tables.

The operations on tables run the methods of their keys, and traversals run visitors.  A judgement that
these meet, and that lets the table take the steps of some relation, is met by the operations.  Which
steps an operation takes is said here once, and so is how searches and traversals go along the chains. -/

namespace ObjectMachine

open Effect Judgement
open Relation (ReflTransGen)

/-- Whether the method of a key may answer with a hash. -/
def Keys.Answers (keys : Keys) (key : Value) (hash : UInt64) : Prop :=
  ∃ m m', keys.hash key m = .ok hash m'

namespace Judgement

/-- Whether the methods of the keys meet a judgement. -/
structure MeetsKeys (J : Judgement) (keys : Keys) : Prop where
  hash (key : Value) : J.Meets (keys.hash key)
  equal (key other : Value) : J.Meets (keys.equal key other)

/-- Whether a table may go through the steps of a relation when it is written. -/
def Steps (J : Judgement) (table : Value) (step : Table → Table → Prop) : Prop :=
  ∀ ⦃m : Machine⦄ ⦃t : Table⦄ ⦃g : Table → Table⦄, m.heap.read Facet.table table = .ok t →
    ReflTransGen step t (g t) → J.At (write Facet.table table g) m

variable {J : Judgement} {table : Value} {step : Table → Table → Prop}

theorem Steps.write (hJ : J.Steps table step) {g : Table → Table} (hg : ∀ t, step t (g t)) :
    J.Meets (write Facet.table table g) := fun _ => at_write fun t ht => hJ ht (.single (hg t))

/-- If nothing on the heap matters, no step does. -/
theorem Heedless.steps (hJ : J.Heedless) : J.Steps table fun _ _ => True := fun m _ g _ _ =>
  hJ.write _ _ g m

/-! ### Keys -/

theorem meetsKeys_symbol : J.MeetsKeys Keys.symbol := ⟨fun _ => meets_pure _, fun _ _ => meets_pure _⟩

theorem meetsKeys_residue (modulus : Nat) : J.MeetsKeys (Keys.residue modulus) :=
  ⟨fun _ => meets_pure _, fun _ _ => meets_pure _⟩

theorem meetsKeys_text : J.MeetsKeys Keys.text := by
  refine ⟨fun _ => (meets_read _ _).bind fun _ => meets_pure _, fun key other => ?_⟩
  unfold Keys.text
  dsimp only
  split
  · exact meets_pure _
  · exact (meets_read _ _).bind fun _ => (meets_read _ _).bind fun _ => meets_pure _

/-- The keys of every strategy meet a judgement if messages to them do; an exception of `==` is
caught. -/
theorem meetsKeys_of_send {calls : Calls} (hraise : J.Raises)
    (hsend : ∀ v name args, J.Meets (calls.send v name args))
    (hequal : ∀ key other, J.Meets (calls.valueKeys.equal key other)) (s : Strategy) :
    J.MeetsKeys (calls.keys s) := by
  cases s with
  | symbol => exact meetsKeys_symbol
  | text => exact meetsKeys_text
  | residue modulus => exact meetsKeys_residue modulus
  | value =>
    refine ⟨fun key => (hsend key "hash" []).bind fun v => ?_, hequal⟩
    cases v.fixnum? with
    | some n => exact meets_pure _
    | none => exact hraise.raiseError _ _

/-- An exception of `==` is no matter where failures that are caught are none. -/
theorem meets_valueEqual {calls : Calls} (hforgets : J.Forgets) (hexcuses : J.Excuses)
    (hdiscard : ∀ exc context, J.Meets (discardException exc context))
    (hsend : ∀ v name args, J.Meets (calls.send v name args)) (key other : Value) :
    J.Meets (calls.valueKeys.equal key other) := by
  refine Meets.bind (fun m => hforgets (hsend key "==" [other] m)) fun answer => ?_
  rcases answer with (exc | u) | v
  · exact (hdiscard exc _).bind fun _ => meets_pure _
  · exact hexcuses u
  · exact meets_pure _

end Judgement

namespace Dictionary

variable {J : Judgement} {table key record : Value} {hash : UInt64} {keys : Keys}
  {meaning : KeyMeaning} {step : Table → Table → Prop} {m : Machine}

theorem keysOf_bind (meaning : KeyMeaning) (table : Value) (k : Keys → Effect β) :
    (keysOf meaning table >>= k) = read Facet.table table >>= fun t => k (meaning t.strategy) := by
  rw [keysOf, bind_assoc]
  simp only [pure_bind]

/-- Of the meanings of keys only that of the table's strategy matters. -/
theorem withHash_congr {meaning' : KeyMeaning} {t : Table} {pinned : List Value}
    {k : Keys → UInt64 → Effect β} (ht : m.heap.read Facet.table table = .ok t)
    (h : meaning t.strategy = meaning' t.strategy) :
    (withHandles do
      pinAll pinned
      let keys ← keysOf meaning table
      let hash ← keys.hash key
      k keys hash) m =
    (withHandles do
      pinAll pinned
      let keys ← keysOf meaning' table
      let hash ← keys.hash key
      k keys hash) m := by
  let m₁ : Machine := { m with handles := m.handles ++ pinned.toArray }
  have ht₁ : m₁.heap.read Facet.table table = .ok t := ht
  have hpin : pinAll pinned m = .ok () m₁ := pinAll_eq pinned m
  rw [withHandles_eq, withHandles_eq, bind_of_ok hpin, bind_of_ok hpin, keysOf_bind, keysOf_bind,
    bind_of_ok (read_of_ok ht₁), bind_of_ok (read_of_ok ht₁), h]

/-! ### Searches -/

theorem meets_isMatch (hk : J.MeetsKeys keys) (e : Entry) : J.Meets (isMatch keys key hash e) := by
  unfold isMatch
  split
  · split
    · exact meets_pure _
    · exact hk.equal _ _
  · exact meets_pure _

/-- A search goes from entry to entry; that the chain changed is recorded. -/
theorem meets_findFrom (hk : J.MeetsKeys keys) (hrecord : J.Meets (Effect.record .chainChanged)) :
    ∀ (fuel : Nat) (cursor : Option EntryId), J.Meets (findFrom keys table key hash fuel cursor)
  | _, none => by
    rw [findFrom]
    exact meets_pure _
  | 0, some _ => meets_fault nofun
  | fuel + 1, some id => by
    refine (meets_read _ _).bind fun t => ?_
    cases t.get? id with
    | none => exact hrecord.bind fun _ => meets_pure _
    | some e =>
      refine (meets_isMatch hk e).bind fun hit => ?_
      cases hit with
      | true => exact meets_pure _
      | false => exact meets_findFrom hk hrecord fuel e.next

theorem meets_find (hk : J.MeetsKeys keys) (hrecord : J.Meets (Effect.record .chainChanged)) :
    J.Meets (find keys table key hash) :=
  (meets_read _ _).bind fun _ => meets_findFrom hk hrecord _ _

/-- The way the operations on keys begin: pin, look at the keys of the table, hash. -/
theorem at_withHash (scope : J.Scope m) (hk : ∀ s, scope.inner.MeetsKeys (meaning s))
    (pinned : List Value) {k : Keys → UInt64 → Effect β}
    (hrest : ∀ s hash, (meaning s).Answers key hash → scope.inner.Meets (k (meaning s) hash)) :
    J.At (withHandles do
      pinAll pinned
      let keys ← keysOf meaning table
      let hash ← keys.hash key
      k keys hash) m := by
  refine scope.close ((meets_pinAll scope.pin pinned).bind (fun _ => ?_) m)
  rw [keysOf_bind]
  refine (meets_read _ _).bind fun t m' => ((hk t.strategy).hash key m').bind fun hash m'' h => ?_
  exact hrest t.strategy hash ⟨m', m'', h⟩ m''

/-- The way they go on when the key has to be found. -/
theorem at_withFind (scope : J.Scope m) (hk : ∀ s, scope.inner.MeetsKeys (meaning s))
    (hrecord : scope.inner.Meets (Effect.record .chainChanged)) (pinned : List Value)
    {k : UInt64 → Option EntryId → Effect β}
    (hrest : ∀ s hash found, (meaning s).Answers key hash → scope.inner.Meets (k hash found)) :
    J.At (withHandles do
      pinAll pinned
      let keys ← keysOf meaning table
      let hash ← keys.hash key
      let found ← find keys table key hash
      k hash found) m :=
  at_withHash scope hk pinned fun s hash h => (meets_find (hk s) hrecord).bind fun found =>
    hrest s hash found h

/-! ### Operations on one key -/

theorem at_lookup (scope : J.Scope m) (hk : ∀ s, scope.inner.MeetsKeys (meaning s))
    (hrecord : scope.inner.Meets (Effect.record .chainChanged)) :
    J.At (lookup meaning table key) m := by
  refine at_withFind scope hk hrecord [table, key] fun _ _ found _ => ?_
  cases found with
  | none => exact meets_pure _
  | some id => exact (meets_read _ _).bind fun _ => meets_pure _

/-- Adding an entry replaces the table. -/
theorem addHashed_eq {t : Table} (ht : m.heap.read Facet.table table = .ok t) (hash : UInt64)
    (key record : Value) : ∃ events, addHashed table hash key record m = .ok ()
      { m with heap := m.heap.modify Facet.table table fun _ => t.enter hash key record,
               events := events } := by
  rw [addHashed, bind_of_ok (read_of_ok ht), Table.enter]
  cases hgrow : t.needsGrow with
  | false =>
    simp only [Bool.false_eq_true, if_false]
    refine ⟨m.events, ?_⟩
    rw [write_of_ok ht, Heap.modify_table_eq ht]
  | true =>
    simp only [if_true]
    let bins := Table.primeAtLeast (t.bins.size * 2)
    let m₁ : Machine := { m with heap := m.heap.modify Facet.table table (·.rehash bins) }
    let m₂ : Machine := { m₁ with events := m₁.events.push (.rehashed table t.bins.size bins) }
    have hrecord : Effect.record (.rehashed table t.bins.size bins) m₁ = .ok () m₂ := rfl
    have ht₂ : m₂.heap.read Facet.table table = .ok (t.rehash bins) := Heap.read_modify_table ht _
    refine ⟨m₂.events, ?_⟩
    rw [bind_of_ok (write_of_ok ht _), bind_of_ok hrecord, write_of_ok ht₂]
    simp only [m₂, m₁, Heap.modify_modify]
    rw [Heap.modify_table_eq ht]

/-- Adding an entry is a step, or two if the bins grow first. -/
theorem meets_addHashed (hrecord : ∀ e, J.Meets (Effect.record e)) (hsteps : J.Steps table step)
    (hrehash : ∀ t : Table, step t (t.rehash (Table.primeAtLeast (t.bins.size * 2))))
    (hprepend : ∀ t : Table, step t (t.prepend hash key record)) :
    J.Meets (addHashed table hash key record) := by
  have hprepended := hsteps.write hprepend
  intro m
  refine At.read_bind fun t ht => ?_
  split
  · exact (hsteps ht (.single (hrehash t))).bind fun _ m' _ =>
      (hrecord _).bind (fun _ => hprepended) m'
  · exact hprepended m

theorem at_insert (scope : J.Scope m) (hk : ∀ s, scope.inner.MeetsKeys (meaning s))
    (hrecord : scope.inner.Meets (Effect.record .chainChanged))
    (hsteps : scope.inner.Steps table step)
    (hset : ∀ (t : Table) (id : EntryId), step t (t.setRecord id record))
    (hadd : ∀ s hash, (meaning s).Answers key hash →
      scope.inner.Meets (addHashed table hash key record)) :
    J.At (insert meaning table key record) m := by
  refine at_withFind scope hk hrecord [table, key, record] fun s hash found h m' => ?_
  refine At.read_bind fun t ht => ?_
  cases found.filter fun id => (t.get? id).isSome with
  | none => exact (hadd s hash h).bind (fun _ => meets_pure _) m'
  | some id => exact (hsteps ht (.single (hset t id))).bind fun _ m'' _ => meets_pure _ m''

theorem at_add (scope : J.Scope m) (hk : ∀ s, scope.inner.MeetsKeys (meaning s))
    (hadd : ∀ s hash, (meaning s).Answers key hash →
      scope.inner.Meets (addHashed table hash key record)) :
    J.At (add meaning table key record) m :=
  at_withHash scope hk [table, key, record] hadd

theorem at_delete (scope : J.Scope m) (hk : ∀ s, scope.inner.MeetsKeys (meaning s))
    (hrecord : scope.inner.Meets (Effect.record .chainChanged))
    (hsteps : scope.inner.Steps table step) (hexcuses : scope.inner.Excuses)
    (hunlink : ∀ {t t' : Table} {id e}, t.unlink id = .ok (e, t') → step t t') :
    J.At (delete meaning table key) m := by
  refine at_withFind scope hk hrecord [table, key] fun _ _ found _ m' => ?_
  cases found with
  | none => exact meets_pure _ m'
  | some id =>
    refine At.read_bind fun t ht => ?_
    cases h : t.unlink id with
    | error how => exact hexcuses _ m'
    | ok p => exact (hsteps ht (.single (hunlink h))).bind fun _ m'' _ => meets_pure _ m''

theorem at_deleteSafe (scope : J.Scope m) (hk : ∀ s, scope.inner.MeetsKeys (meaning s))
    (hrecord : scope.inner.Meets (Effect.record .chainChanged))
    (hsteps : scope.inner.Steps table step)
    (htombstone : ∀ {t t' : Table} {id e}, t.tombstone id = some (e, t') → step t t') :
    J.At (deleteSafe meaning table key) m := by
  refine at_withFind scope hk hrecord [table, key] fun _ _ found _ m' => ?_
  cases found with
  | none => exact meets_pure _ m'
  | some id =>
    refine At.read_bind fun t ht => ?_
    cases h : t.tombstone id with
    | none => exact meets_pure _ m'
    | some p => exact (hsteps ht (.single (htombstone h))).bind fun _ m'' _ => meets_pure _ m''

/-! ### Operations on whole tables -/

theorem meets_cleanupSafe (hsteps : J.Steps table step) (hexcuses : J.Excuses)
    (hunlink : ∀ {t t' : Table} {id e}, t.unlink id = .ok (e, t') → step t t') :
    J.Meets (cleanupSafe table) := fun m => by
  refine At.read_bind fun t ht => ?_
  refine (hsteps ht (Table.steps_unlinkAll hunlink t t.tombstones)).bind fun _ m' _ => ?_
  cases (t.unlinkAll t.tombstones).1 with
  | none => exact meets_pure _ m'
  | some how => exact hexcuses _ m'

theorem meets_size : J.Meets (size table) := (meets_read _ _).bind fun _ => meets_pure _

theorem meets_dump (hrecord : ∀ e, J.Meets (Effect.record e)) : J.Meets (dump table) :=
  (meets_read _ _).bind fun _ => (hrecord _).bind fun _ => meets_pure _

/-- A search for a bare text reads its keys; a dead link is a corruption. -/
theorem meets_findTextFrom (hJ : J.Excuses) (t : Table) (text : String) (hash : UInt64) :
    ∀ (fuel : Nat) (cursor : Option EntryId), J.Meets (findTextFrom t text hash fuel cursor)
  | _, none => by
    rw [findTextFrom]
    exact meets_pure _
  | 0, some _ => meets_fault nofun
  | fuel + 1, some id => by
    rw [findTextFrom]
    cases t.get? id with
    | none => exact hJ _
    | some e =>
      have hrest : ∀ hit : Bool,
          J.Meets (if hit then return some e.record else findTextFrom t text hash fuel e.next) := by
        intro hit
        cases hit with
        | true => exact meets_pure _
        | false => exact meets_findTextFrom hJ t text hash fuel e.next
      dsimp only
      split
      · exact (meets_read _ _).bind fun _ => (meets_pure _).bind hrest
      · exact (meets_pure _).bind hrest

/-- Along a chain that ends no link is dead. -/
theorem meets_findTextFrom_of_leads {t : Table} (text : String) (hash : UInt64) (fuel : Nat) :
    ∀ {ids : List EntryId} {cursor : Option EntryId}, t.Leads cursor ids →
      J.Meets (findTextFrom t text hash fuel cursor) := by
  induction fuel with
  | zero =>
    intro ids cursor _
    cases cursor with
    | none => exact meets_pure _
    | some id => exact meets_fault nofun
  | succ fuel ih =>
    intro ids cursor hl
    cases ids with
    | nil =>
      rw [show cursor = none from hl, findTextFrom]
      exact meets_pure _
    | cons id rest =>
      obtain ⟨rfl, e, he, hl⟩ := hl
      rw [findTextFrom, he]
      have hrest : ∀ hit : Bool,
          J.Meets (if hit then return some e.record else findTextFrom t text hash fuel e.next) := by
        intro hit
        cases hit with
        | true => exact meets_pure _
        | false => exact ih hl
      dsimp only
      split
      · exact (meets_read _ _).bind fun _ => (meets_pure _).bind hrest
      · exact (meets_pure _).bind hrest

theorem meets_lookupText (hJ : J.Excuses) (text : String) : J.Meets (lookupText table text) := by
  refine (meets_read _ _).bind fun t => ?_
  dsimp only
  split
  · exact meets_findTextFrom hJ _ _ _ _ _
  · exact meets_fault nofun

/-- A copy is stored where the table was read. -/
theorem meets_copy (halloc : ∀ {m : Machine} {t : Table} (cls : Value),
    m.heap.read Facet.table table = .ok t → J.At (alloc cls (.table t)) m) : J.Meets (copy table) :=
  fun m => At.ask_bind ((meets_ofExcept (m.heap.get_ne_corrupted table)).bind
    (fun _ _ => At.read_bind fun _ ht => halloc _ ht) m)

/-! ### Traversal -/

/-- What follows a visit unlinks the entry if it is there and the visitor wants it. -/
theorem meets_afterVisit (hsteps : J.Steps table step)
    (hunlink : ∀ {t t' : Table} {id e}, t.unlink id = .ok (e, t') → step t t') (id : EntryId)
    (action : Visit) (hfail : ∀ {m : Machine} {t : Table} {e how},
      m.heap.read Facet.table table = .ok t → t.get? id = some e → t.unlink id = .error how →
      J.At (fault (.corruptedTable how) : Effect (Option EntryId ⊕ Bool)) m) :
    J.Meets (afterVisit table id action) := fun m => by
  refine At.read_bind fun t ht => ?_
  cases he : t.get? id with
  | none => exact meets_pure _ m
  | some current =>
    cases action with
    | proceed => exact meets_pure _ m
    | stop => exact meets_pure _ m
    | delete =>
      dsimp only
      cases h : t.unlink id with
      | error how => exact hfail ht he h
      | ok p => exact (hsteps ht (.single (hunlink h))).bind fun _ m' _ => meets_pure _ m'
    | check =>
      dsimp only
      split
      · exact meets_pure _ m
      · exact meets_pure _ m

/-- A traversal pins what it visits, asks the visitor, and does what the visitor wants. -/
theorem meets_visitFrom {handles : VisitHandles} {visitor : Value → Value → Effect Visit}
    (hkey : ∀ v, J.Meets (setHandle handles.key v)) (hrecord : ∀ v, J.Meets (setHandle handles.record v))
    (hvisitor : ∀ key record, J.Meets (visitor key record))
    (hafter : ∀ id action, J.Meets (afterVisit table id action)) :
    ∀ (fuel bin : Nat) (cursor : Option EntryId),
      J.Meets (visitFrom table handles visitor fuel bin cursor)
  | 0, _, _ => meets_fault nofun
  | fuel + 1, bin, none => by
    refine (meets_read _ _).bind fun t => ?_
    split
    · exact meets_visitFrom hkey hrecord hvisitor hafter fuel _ _
    · exact meets_pure _
  | fuel + 1, bin, some id => by
    refine (meets_read _ _).bind fun t => ?_
    cases t.get? id with
    | none => exact meets_pure _
    | some e =>
      dsimp only
      split
      · exact meets_visitFrom hkey hrecord hvisitor hafter fuel _ _
      refine (hkey _).bind fun _ => (hrecord _).bind fun _ => ?_
      refine (hvisitor _ _).bind fun action => (hafter id action).bind fun answer => ?_
      cases answer with
      | inl next => exact meets_visitFrom hkey hrecord hvisitor hafter fuel _ _
      | inr answer => exact meets_pure _

/-- The handles that a traversal overwrites are made in its own scope. -/
theorem at_forEach (scope : J.Scope m) {visitor : Value → Value → Effect Visit}
    (hset : ∀ place v, m.handles.size ≤ place → scope.inner.Meets (setHandle place v))
    (hvisitor : ∀ key record, scope.inner.Meets (visitor key record))
    (hafter : ∀ id action, scope.inner.Meets (afterVisit table id action)) (patience : Nat) :
    J.At (forEach patience table visitor) m := by
  refine scope.close ((scope.pin table m).bind fun _ m₁ h₁ => ?_)
  refine (scope.pin .nil m₁).bind fun key m₂ h₂ => (scope.pin .nil m₂).bind fun record m₃ h₃ => ?_
  obtain ⟨-, rfl⟩ := EStateM.Result.ok.inj h₁
  obtain ⟨rfl, rfl⟩ := EStateM.Result.ok.inj h₂
  obtain ⟨rfl, -⟩ := EStateM.Result.ok.inj h₃
  refine (meets_read _ _).bind (fun t => ?_) m₃
  refine meets_visitFrom (fun v => hset _ v ?_) (fun v => hset _ v ?_) hvisitor hafter _ _ _
  · simp
  · simp; omega

/-! ### Iterators -/

theorem meets_iterator (hJ : J.Makes) : J.Meets (iterator table) :=
  (meets_read _ _).bind fun _ => (meets_ask _).bind fun _ => hJ.alloc _ rfl nofun

theorem meets_checkedTable (i : IteratorBody) : J.Meets (checkedTable i) := by
  refine (meets_read _ _).bind fun t => ?_
  split
  · exact meets_pure _
  · exact meets_fault nofun

theorem checkedTable_eq_ok {i : IteratorBody} {t : Table} {m' : Machine}
    (h : checkedTable i m = .ok t m') : m' = m ∧ m.heap.read Facet.table i.table = .ok t := by
  obtain ⟨t', m₀, hread, hcheck⟩ := exists_of_bind_eq_ok h
  obtain ⟨hread, rfl⟩ := of_read_eq_ok hread
  split at hcheck
  · obtain ⟨rfl, rfl⟩ := EStateM.Result.ok.inj hcheck
    exact ⟨rfl, hread⟩
  · exact absurd hcheck nofun

theorem meets_next {iter : Value} (hwrite : ∀ g, J.Meets (write Facet.iterator iter g))
    (hfail : ∀ {m : Machine} {table : Value} {t : Table} {p how},
      m.heap.read Facet.table table = .ok t → t.advance p = .error how →
      J.At (fault (.corruptedTable how) : Effect Bool) m) : J.Meets (next iter) := by
  refine (meets_read _ _).bind fun i m => (meets_checkedTable i m).bind fun t m' ht => ?_
  obtain ⟨rfl, hread⟩ := checkedTable_eq_ok ht
  cases hp : t.advance i.position with
  | error how => exact hfail hread hp
  | ok position =>
    refine (hwrite _).bind (fun _ => ?_) m'
    split
    · exact meets_pure _
    · exact meets_pure _

theorem meets_current (iter : Value)
    (hgone : J.Meets (fault (.corruptedTable .iteratorEntryVanished) : Effect Entry)) :
    J.Meets (current iter) := by
  refine (meets_read _ _).bind fun i => (meets_checkedTable i).bind fun t => ?_
  split
  · split
    · exact meets_pure _
    · exact hgone
  · exact meets_fault nofun

end Dictionary

/-! ### Where the heap does not matter -/

namespace Judgement

variable {J : Judgement} {table key record : Value} {meaning : KeyMeaning} {m : Machine}

theorem Heedless.addHashed (hJ : J.Heedless) (table : Value) (hash : UInt64) (key record : Value) :
    J.Meets (Dictionary.addHashed table hash key record) :=
  Dictionary.meets_addHashed hJ.record hJ.steps (fun _ => trivial)
    fun _ => trivial

section Whole

variable (hJ : J.Heedless) (hexcuses : J.Excuses)

include hJ

theorem Heedless.dump : J.Meets (Dictionary.dump table) := Dictionary.meets_dump hJ.record

theorem Heedless.copy : J.Meets (Dictionary.copy table) :=
  Dictionary.meets_copy fun _ _ => hJ.alloc _ _ _

theorem Heedless.iterator : J.Meets (Dictionary.iterator table) := Dictionary.meets_iterator hJ.makes

include hexcuses

theorem Heedless.cleanupSafe : J.Meets (Dictionary.cleanupSafe table) :=
  Dictionary.meets_cleanupSafe hJ.steps hexcuses fun _ => trivial


theorem Heedless.afterVisit (id : EntryId) (action : Dictionary.Visit) :
    J.Meets (Dictionary.afterVisit table id action) :=
  Dictionary.meets_afterVisit hJ.steps (fun _ => trivial) id action fun _ _ _ => hexcuses _ _

theorem Heedless.next (iter : Value) : J.Meets (Dictionary.next iter) :=
  Dictionary.meets_next (fun _ => hJ.write _ _ _) fun _ _ => hexcuses _ _

end Whole

/-- A scope in which nothing on the heap matters, and every fault is in order. -/
structure Scope.Open (scope : J.Scope m) : Prop where
  heedless : scope.inner.Heedless
  excuses : scope.inner.Excuses

namespace Scope.Open

variable {scope : J.Scope m} (h : scope.Open)

include h

theorem lookup (hk : ∀ s, scope.inner.MeetsKeys (meaning s)) :
    J.At (Dictionary.lookup meaning table key) m :=
  Dictionary.at_lookup scope hk (h.heedless.record _)

theorem insert (hk : ∀ s, scope.inner.MeetsKeys (meaning s)) :
    J.At (Dictionary.insert meaning table key record) m :=
  Dictionary.at_insert scope hk (h.heedless.record _) h.heedless.steps
    (fun _ _ => trivial) fun _ hash _ => h.heedless.addHashed table hash key record

theorem add (hk : ∀ s, scope.inner.MeetsKeys (meaning s)) :
    J.At (Dictionary.add meaning table key record) m :=
  Dictionary.at_add scope hk fun _ hash _ => h.heedless.addHashed table hash key record

theorem delete (hk : ∀ s, scope.inner.MeetsKeys (meaning s)) :
    J.At (Dictionary.delete meaning table key) m :=
  Dictionary.at_delete scope hk (h.heedless.record _) h.heedless.steps
    h.excuses fun _ => trivial

theorem deleteSafe (hk : ∀ s, scope.inner.MeetsKeys (meaning s)) :
    J.At (Dictionary.deleteSafe meaning table key) m :=
  Dictionary.at_deleteSafe scope hk (h.heedless.record _)
    h.heedless.steps fun _ => trivial

theorem forEach {visitor : Value → Value → Effect Dictionary.Visit}
    (hset : ∀ place v, m.handles.size ≤ place → scope.inner.Meets (setHandle place v))
    (hvisitor : ∀ key record, scope.inner.Meets (visitor key record)) (patience : Nat) :
    J.At (Dictionary.forEach patience table visitor) m :=
  Dictionary.at_forEach scope hset hvisitor (h.heedless.afterVisit h.excuses) patience

end Scope.Open

end Judgement

end ObjectMachine
