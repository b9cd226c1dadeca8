import Mathlib.Tactic
import ObjectMachine.Proofs.Dictionary.Hosting

/-! Traversals as sequences of visits.

A traversal that answers has made certain visits, each with the machine and the table as the visitor
found them and as it left them.  `Traverses` is the course of such a traversal, step by step and
without fuel; the fuel of a traversal is enough if it is at least the number of steps. -/

namespace ObjectMachine

/-- The machine with an entry in the places that keep key and record alive. -/
def Machine.holding (m : Machine) (handles : Dictionary.VisitHandles) (e : Entry) : Machine :=
  { m with handles :=
      (m.handles.setIfInBounds handles.key e.key).setIfInBounds handles.record e.record }

namespace Dictionary

open Effect

/-- A visit: the entry, the machine and the table when the visitor is called, what it answers, and
machine and table after that. -/
structure Visited where
  id : EntryId
  entry : Entry
  called : Machine
  before : Table
  action : Visit
  answered : Machine
  after : Table

/-- The visit was made by a traversal that had come to its entry on a certain machine. -/
structure Visited.Made (v : Visited) (table : Value) (handles : VisitHandles)
    (visitor : Value → Value → Effect Visit) (m : Machine) : Prop where
  before_eq : m.heap.read Facet.table table = .ok v.before
  entry_eq : v.before.get? v.id = some v.entry
  proper : v.entry.isTombstone = false
  called_eq : v.called = m.holding handles v.entry
  action_eq : visitor v.entry.key v.entry.record v.called = .ok v.action v.answered
  after_eq : v.answered.heap.read Facet.table table = .ok v.after

/-- The course of a traversal from a cursor in a bin on: its steps, its visits, its answer, and the
machine in the end. -/
inductive Traverses (table : Value) (handles : VisitHandles)
    (visitor : Value → Value → Effect Visit) :
    Nat → Machine → Nat → Option EntryId → List Visited → Bool → Machine → Prop
  | finished {m : Machine} {t : Table} {bin : Nat} (ht : m.heap.read Facet.table table = .ok t)
      (hbin : ¬ bin + 1 < t.bins.size) : Traverses table handles visitor 1 m bin none [] true m
  | nextBin {n : Nat} {m m' : Machine} {t : Table} {bin : Nat} {visits : List Visited} {answer : Bool}
      (ht : m.heap.read Facet.table table = .ok t) (hbin : bin + 1 < t.bins.size)
      (h : Traverses table handles visitor n m (bin + 1) (t.binHead (bin + 1)) visits answer m') :
      Traverses table handles visitor (n + 1) m bin none visits answer m'
  | lost {m : Machine} {t : Table} {bin : Nat} {id : EntryId}
      (ht : m.heap.read Facet.table table = .ok t) (hid : t.get? id = none) :
      Traverses table handles visitor 1 m bin (some id) [] false m
  | passed {n : Nat} {m m' : Machine} {t : Table} {bin : Nat} {id : EntryId} {e : Entry}
      {visits : List Visited} {answer : Bool} (ht : m.heap.read Facet.table table = .ok t)
      (he : t.get? id = some e) (hd : e.isTombstone = true)
      (h : Traverses table handles visitor n m bin e.next visits answer m') :
      Traverses table handles visitor (n + 1) m bin (some id) visits answer m'
  | ended {m m' : Machine} {bin : Nat} {v : Visited} {answer : Bool}
      (hv : v.Made table handles visitor m)
      (hafter : afterVisit table v.id v.action v.answered = .ok (.inr answer) m') :
      Traverses table handles visitor 1 m bin (some v.id) [v] answer m'
  | visited {n : Nat} {m m' m'' : Machine} {bin : Nat} {v : Visited} {next : Option EntryId}
      {visits : List Visited} {answer : Bool} (hv : v.Made table handles visitor m)
      (hafter : afterVisit table v.id v.action v.answered = .ok (.inl next) m')
      (h : Traverses table handles visitor n m' bin next visits answer m'') :
      Traverses table handles visitor (n + 1) m bin (some v.id) (v :: visits) answer m''

variable {table : Value} {handles : VisitHandles} {visitor : Value → Value → Effect Visit}
  {m m' : Machine} {t : Table} {id : EntryId} {e : Entry} {answer : Bool}

/-! ### Steps -/

theorem holding_hosts {base : Machine} (hm : m.Hosts table t base)
    (hkey : base.handles.size ≤ handles.key) (hrecord : base.handles.size ≤ handles.record)
    (e : Entry) : (m.holding handles e).Hosts table t base :=
  hm.of_heap_eq rfl ((hm.carries.setHandle hkey e.key).setHandle hrecord e.record)

/-- A visit takes the table through the steps that the visitor makes. -/
theorem Visited.Made.hosts {v : Visited} {base : Machine} {step : Table → Table → Prop}
    (hv : v.Made table handles visitor m) (hm : m.Hosts table t base)
    (hkey : base.handles.size ≤ handles.key) (hrecord : base.handles.size ≤ handles.record)
    (hserves : ∀ key record (m : Machine), Serves table m step (visitor key record) m) :
    v.before = t ∧ Relation.ReflTransGen step v.before v.after ∧
      v.answered.Hosts table v.after base := by
  obtain rfl : t = v.before := hm.unique hv.before_eq
  have hcalled : v.called.Hosts table v.before base :=
    hv.called_eq ▸ holding_hosts hm hkey hrecord v.entry
  obtain ⟨t', hsteps, ht'⟩ := (hserves v.entry.key v.entry.record v.called).rebase v.before hcalled
  rw [after_of_ok hv.action_eq] at ht'
  obtain rfl : t' = v.after := ht'.unique hv.after_eq
  exact ⟨rfl, hsteps, ht'⟩

theorem visitFrom_none (ht : m.heap.read Facet.table table = .ok t) (fuel bin : Nat) :
    visitFrom table handles visitor (fuel + 1) bin none m =
      if bin + 1 < t.bins.size then
        visitFrom table handles visitor fuel (bin + 1) (t.binHead (bin + 1)) m
      else .ok true m := by
  rw [visitFrom, bind_of_ok (read_of_ok ht)]
  split <;> rfl

theorem visitFrom_dead (ht : m.heap.read Facet.table table = .ok t) (hid : t.get? id = none)
    (fuel bin : Nat) : visitFrom table handles visitor (fuel + 1) bin (some id) m = .ok false m := by
  rw [visitFrom, bind_of_ok (read_of_ok ht), hid]
  rfl

theorem visitFrom_tombstone (ht : m.heap.read Facet.table table = .ok t) (he : t.get? id = some e)
    (hd : e.isTombstone = true) (fuel bin : Nat) :
    visitFrom table handles visitor (fuel + 1) bin (some id) m =
      visitFrom table handles visitor fuel bin e.next m := by
  rw [visitFrom, bind_of_ok (read_of_ok ht), he]
  simp only [hd, if_true]

theorem visitFrom_entry (ht : m.heap.read Facet.table table = .ok t) (he : t.get? id = some e)
    (hd : e.isTombstone = false) (fuel bin : Nat) :
    visitFrom table handles visitor (fuel + 1) bin (some id) m =
      (do
        let action ← visitor e.key e.record
        match ← afterVisit table id action with
        | .inl next => visitFrom table handles visitor fuel bin next
        | .inr answer => return answer : Effect Bool) (m.holding handles e) := by
  rw [visitFrom, bind_of_ok (read_of_ok ht), he]
  simp only [hd, Bool.false_eq_true, if_false]
  rfl

/-- What is done after a visit, if the entry is still there. -/
theorem afterVisit_eq (ht : m.heap.read Facet.table table = .ok t) (he : t.get? id = some e)
    (action : Visit) : afterVisit table id action m =
      match action with
      | .proceed => .ok (.inl e.next) m
      | .stop => .ok (.inr true) m
      | .delete =>
        match t.unlink id with
        | .error how => .error (.fatal (.corruptedTable how)) m
        | .ok (_, t') =>
          .ok (.inl e.next) { m with heap := m.heap.modify Facet.table table fun _ => t' }
      | .check =>
        if t.chainContains (t.binOf e.hash) id then .ok (.inl e.next) m else .ok (.inr false) m := by
  rw [afterVisit, bind_of_ok (read_of_ok ht), he]
  cases action with
  | proceed => rfl
  | stop => rfl
  | delete =>
    cases hu : t.unlink id with
    | error how => rfl
    | ok p => exact bind_of_ok (write_of_ok ht _)
  | check =>
    dsimp only
    split <;> rfl

theorem afterVisit_dead (ht : m.heap.read Facet.table table = .ok t) (hid : t.get? id = none)
    (action : Visit) : afterVisit table id action m = .ok (.inr false) m := by
  rw [afterVisit, bind_of_ok (read_of_ok ht), hid]
  rfl

/-! ### Runs -/

/-- A run that answers took a course. -/
theorem exists_traverses : ∀ {fuel : Nat} {m : Machine} {bin : Nat} {cursor : Option EntryId},
    visitFrom table handles visitor fuel bin cursor m = .ok answer m' →
      ∃ n visits, n ≤ fuel ∧ Traverses table handles visitor n m bin cursor visits answer m'
  | 0, m, bin, cursor, h => by
    rw [visitFrom] at h
    cases h
  | fuel + 1, m, bin, none, h => by
    cases ht : m.heap.read Facet.table table with
    | error u =>
      rw [visitFrom, bind_of_error (read_of_error ht)] at h
      cases h
    | ok t =>
      rw [visitFrom_none ht] at h
      split at h
      · obtain ⟨n, visits, hn, htrace⟩ := exists_traverses h
        exact ⟨n + 1, visits, Nat.succ_le_succ hn, .nextBin ht ‹_› htrace⟩
      · obtain ⟨rfl, rfl⟩ := EStateM.Result.ok.inj h
        exact ⟨1, [], by omega, .finished ht ‹_›⟩
  | fuel + 1, m, bin, some id, h => by
    cases ht : m.heap.read Facet.table table with
    | error u =>
      rw [visitFrom, bind_of_error (read_of_error ht)] at h
      cases h
    | ok t =>
      cases he : t.get? id with
      | none =>
        rw [visitFrom_dead ht he] at h
        obtain ⟨rfl, rfl⟩ := EStateM.Result.ok.inj h
        exact ⟨1, [], by omega, .lost ht he⟩
      | some e =>
        cases hd : e.isTombstone with
        | true =>
          rw [visitFrom_tombstone ht he hd] at h
          obtain ⟨n, visits, hn, htrace⟩ := exists_traverses h
          exact ⟨n + 1, visits, Nat.succ_le_succ hn, .passed ht he hd htrace⟩
        | false =>
          rw [visitFrom_entry ht he hd] at h
          obtain ⟨action, m₁, hvisit, hrest⟩ := exists_of_bind_eq_ok h
          obtain ⟨next, m₂, hafter, hgo⟩ := exists_of_bind_eq_ok hrest
          obtain ⟨u, m₃, hread, -⟩ := exists_of_bind_eq_ok hafter
          let v : Visited := ⟨id, e, m.holding handles e, t, action, m₁, u⟩
          have hv : v.Made table handles visitor m :=
            ⟨ht, he, hd, rfl, hvisit, (of_read_eq_ok hread).1⟩
          cases next with
          | inl next =>
            obtain ⟨n, visits, hn, htrace⟩ := exists_traverses hgo
            exact ⟨n + 1, v :: visits, Nat.succ_le_succ hn, .visited hv hafter htrace⟩
          | inr answer =>
            obtain ⟨rfl, rfl⟩ := EStateM.Result.ok.inj hgo
            exact ⟨1, [v], by omega, .ended hv hafter⟩

/-- A course is run if the fuel lasts. -/
theorem Traverses.visitFrom_eq {n : Nat} {bin : Nat} {cursor : Option EntryId}
    {visits : List Visited} (h : Traverses table handles visitor n m bin cursor visits answer m') :
    ∀ {fuel : Nat}, n ≤ fuel → visitFrom table handles visitor fuel bin cursor m = .ok answer m' := by
  induction h with
  | finished ht hbin =>
    rintro (_ | fuel) hfuel
    · omega
    · rw [visitFrom_none ht, if_neg hbin]
  | nextBin ht hbin _ ih =>
    rintro (_ | fuel) hfuel
    · omega
    · rw [visitFrom_none ht, if_pos hbin]
      exact ih (by omega)
  | lost ht hid =>
    rintro (_ | fuel) hfuel
    · omega
    · exact visitFrom_dead ht hid fuel _
  | passed ht he hd _ ih =>
    rintro (_ | fuel) hfuel
    · omega
    · rw [visitFrom_tombstone ht he hd]
      exact ih (by omega)
  | ended hv hafter =>
    rintro (_ | fuel) hfuel
    · omega
    · rw [visitFrom_entry hv.before_eq hv.entry_eq hv.proper, ← hv.called_eq,
        bind_of_ok hv.action_eq, bind_of_ok hafter]
      rfl
  | visited hv hafter _ ih =>
    rintro (_ | fuel) hfuel
    · omega
    · rw [visitFrom_entry hv.before_eq hv.entry_eq hv.proper, ← hv.called_eq,
        bind_of_ok hv.action_eq, bind_of_ok hafter]
      exact ih (by omega)

/-- Every visit was made. -/
theorem Traverses.made {n bin : Nat} {cursor : Option EntryId} {visits : List Visited}
    (h : Traverses table handles visitor n m bin cursor visits answer m') :
    ∀ v ∈ visits, ∃ m, v.Made table handles visitor m := by
  induction h with
  | finished _ _ => simp
  | nextBin _ _ _ ih => exact ih
  | lost _ _ => simp
  | passed _ _ _ _ ih => exact ih
  | ended hv _ => exact fun v h => ⟨_, List.mem_singleton.mp h ▸ hv⟩
  | visited hv _ _ ih =>
    rintro v (_ | ⟨_, h⟩)
    · exact ⟨_, hv⟩
    · exact ih v h

/-- Another visitor takes the same course if it answers the same. -/
theorem Traverses.imp {other : Value → Value → Effect Visit}
    (hsame : ∀ key record (m : Machine) action m', visitor key record m = .ok action m' →
      other key record m = .ok action m') {n bin : Nat} {cursor : Option EntryId}
    {visits : List Visited} (h : Traverses table handles visitor n m bin cursor visits answer m') :
    Traverses table handles other n m bin cursor visits answer m' := by
  have hmade : ∀ {v : Visited} {m : Machine}, v.Made table handles visitor m →
      v.Made table handles other m := fun hv =>
    ⟨hv.before_eq, hv.entry_eq, hv.proper, hv.called_eq, hsame _ _ _ _ _ hv.action_eq, hv.after_eq⟩
  induction h with
  | finished ht hbin => exact .finished ht hbin
  | nextBin ht hbin _ ih => exact .nextBin ht hbin ih
  | lost ht hid => exact .lost ht hid
  | passed ht he hd _ ih => exact .passed ht he hd ih
  | ended hv hafter => exact .ended (hmade hv) hafter
  | visited hv hafter _ ih => exact .visited (hmade hv) hafter ih

/-! ### Traversals -/

/-- The places that a traversal makes for the entry it visits. -/
def visitHandles (m : Machine) : VisitHandles := ⟨m.handles.size + 1, m.handles.size + 2⟩

/-- The machine on which a traversal starts to walk. -/
def walking (table : Value) (m : Machine) : Machine :=
  { m with handles := ((m.handles.push table).push .nil).push .nil }

/-- A traversal of the whole table. -/
def TraversesAll (table : Value) (visitor : Value → Value → Effect Visit) (n : Nat) (m : Machine)
    (t : Table) (visits : List Visited) (answer : Bool) (m' : Machine) : Prop :=
  m.heap.read Facet.table table = .ok t ∧ ∃ m₁,
    Traverses table (visitHandles m) visitor n (walking table m) 0 (t.binHead 0) visits answer m₁ ∧
      m' = { m₁ with handles := m₁.handles.shrink m.handles.size }

theorem forEach_eq (ht : m.heap.read Facet.table table = .ok t) (patience : Nat) :
    forEach patience table visitor m =
      match visitFrom table (visitHandles m) visitor (t.bins.size + t.slots.size + 1 + patience) 0
        (t.binHead 0) (walking table m) with
      | .ok answer m₁ => .ok answer { m₁ with handles := m₁.handles.shrink m.handles.size }
      | .error u m₁ => .error u { m₁ with handles := m₁.handles.shrink m.handles.size } := by
  let m₁ : Machine := { m with handles := m.handles.push table }
  let m₂ : Machine := { m₁ with handles := m₁.handles.push .nil }
  have h₁ : pin table m = .ok m.handles.size m₁ := rfl
  have h₂ : pin .nil m₁ = .ok (m.handles.size + 1) m₂ := by simp [pin, m₁, m₂]
  have h₃ : pin .nil m₂ = .ok (m.handles.size + 2) (walking table m) := by
    simp [pin, m₁, m₂, walking]
  have hread : (walking table m).heap.read Facet.table table = .ok t := ht
  rw [forEach, withHandles_eq, bind_of_ok h₁, bind_of_ok h₂, bind_of_ok h₃,
    bind_of_ok (read_of_ok hread), visitHandles]
  cases visitFrom table ⟨m.handles.size + 1, m.handles.size + 2⟩ visitor
    (t.bins.size + t.slots.size + 1 + patience) 0 (t.binHead 0) (walking table m) <;> rfl

/-- A traversal that answers has traversed the whole table. -/
theorem exists_traversesAll {patience : Nat} (ht : m.heap.read Facet.table table = .ok t)
    (h : forEach patience table visitor m = .ok answer m') :
    ∃ n visits, n ≤ t.bins.size + t.slots.size + 1 + patience ∧
      TraversesAll table visitor n m t visits answer m' := by
  rw [forEach_eq ht] at h
  split at h
  · rename_i answer₁ m₁ hrun
    obtain ⟨rfl, rfl⟩ := EStateM.Result.ok.inj h
    obtain ⟨n, visits, hn, htrace⟩ := exists_traverses hrun
    exact ⟨n, visits, hn, ht, m₁, htrace, rfl⟩
  · cases h

theorem TraversesAll.forEach_eq {n : Nat} {visits : List Visited}
    (h : TraversesAll table visitor n m t visits answer m') {patience : Nat}
    (hn : n ≤ t.bins.size + t.slots.size + 1 + patience) :
    forEach patience table visitor m = .ok answer m' := by
  obtain ⟨ht, m₁, htrace, rfl⟩ := h
  rw [Dictionary.forEach_eq ht, htrace.visitFrom_eq hn]

/-- Whether a traversal succeeds and leaves a table that passes a test. -/
def succeedsWith (a : Effect Bool) (table : Value) (test : Table → Bool) (m : Machine) : Bool :=
  match a m with
  | .ok answer m' => answer && (m'.heap.read? Facet.table table).any test
  | .error _ _ => false

theorem exists_of_succeedsWith {a : Effect Bool} {test : Table → Bool}
    (h : succeedsWith a table test m = true) : ∃ m' t', a m = .ok true m' ∧
      m'.heap.read Facet.table table = .ok t' ∧ test t' = true := by
  unfold succeedsWith at h
  cases ha : a m with
  | error u m' =>
    rw [ha] at h
    cases h
  | ok answer m' =>
    simp only [ha, Bool.and_eq_true] at h
    obtain ⟨rfl, hread⟩ := h
    obtain ⟨t', ht', htest⟩ := (Option.any_eq_true _ _).mp hread
    obtain ⟨o, ho, hb⟩ := Option.bind_eq_some_iff.mp ht'
    exact ⟨m', t', rfl, Heap.read_eq_ok_iff.mpr ⟨o, ho, hb⟩, htest⟩

/-! ### A table of numbers -/

/-- A table with the first numbers, which hash to their residues by three. -/
def numbered (n : Nat) : Table :=
  (List.range n).foldl (fun t i => t.prepend (UInt64.ofNat (i % 3)) (.ofNat i) (.ofNat i))
    (.new (.residue 3) 0)

theorem wellFormed_numbered {n : Nat} (h : ∀ i ∈ List.range n, Value.ofNat i ≠ .absent) :
    (numbered n).WellFormed := by
  refine List.foldlRecOn (motive := Table.WellFormed) _ _ (Table.wellFormed_new _ _) ?_
  exact fun t hw i hi => hw.change (.prepend _ (h i hi) _)

end Dictionary

/-- A machine with a table in slot 0. -/
def Machine.storing (t : Table) : Machine :=
  { heap := ({ settings := {} } : Heap).insert .nil (.table t) }

theorem Machine.sound_storing (t : Table) :
    (storing t).heap.Sound ∧ (storing t).heap.Unmarked := by
  have hfresh : Heap.Sound { settings := {} } := Heap.sound_fresh {}
  have hunmarked : Heap.Unmarked { settings := {} } := fun slot hslot => by simp at hslot
  exact ⟨hfresh.insert _ _, hunmarked.insert hfresh _ _⟩

theorem Machine.read_storing (t : Table) :
    (storing t).heap.read Facet.table (.ofSlot 0 0) = .ok t := rfl

end ObjectMachine
