import Mathlib
import ObjectMachine.Proofs.Dictionary.Careful

/-! Keys that change the table they are looked up in.

The methods of a key may run the operations on tables again, on the very table at work.  Every
operation looks again at the entry it found before it uses it, with one exception: a removal unlinks
the entry at once, and finds the table corrupted if `==` took the entry away before it said yes. -/

namespace ObjectMachine

namespace Dictionary

open Effect

variable {meaning : KeyMeaning} {table key : Value} {m : Machine}

/-- Unlinking what was found finds the table corrupted exactly if the entry is gone. -/
theorem unlinkFound_corrupted_iff (hm : m.TablesWellFormed) {found : Option EntryId}
    {how : Corruption} :
    (∃ m', unlinkFound table found m = .error (.fatal (.corruptedTable how)) m') ↔
      how = .unlinkOfDeadEntry ∧ ∃ id t, found = some id ∧ m.heap.read Facet.table table = .ok t ∧
        t.get? id = none := by
  cases found with
  | none => exact ⟨fun ⟨_, h⟩ => absurd h nofun, fun ⟨_, _, _, h, _⟩ => absurd h nofun⟩
  | some id =>
    rw [unlinkFound]
    cases hread : m.heap.read Facet.table table with
    | error u =>
      refine ⟨fun ⟨m', h⟩ => ?_, fun ⟨_, _, _, _, h, _⟩ => absurd h nofun⟩
      rw [bind_of_error (read_of_error hread)] at h
      have hu : Uncorrupted (read Facet.table table) := Judgement.meets_read _ _
      refine absurd (read_of_error hread) ?_
      rw [(EStateM.Result.error.inj h).1]
      exact hu.ne how
    | ok t =>
      rw [bind_of_ok (read_of_ok hread)]
      cases he : t.get? id with
      | none =>
        rw [Table.unlink_eq_error he]
        constructor
        · rintro ⟨m', h⟩
          have hhow := Fault.corruptedTable.inj (Unwind.fatal.inj (EStateM.Result.error.inj h).1)
          exact ⟨hhow.symm, id, t, rfl, rfl, he⟩
        · rintro ⟨rfl, -⟩
          exact ⟨m, rfl⟩
      | some e =>
        obtain ⟨chains, hc⟩ := hm _ t (Heap.tableIn?_of_read hread)
        obtain ⟨t', hunlink⟩ := hc.exists_unlink he
        rw [hunlink]
        constructor
        · rintro ⟨m', h⟩
          have hu : Uncorrupted (do
              write Facet.table table fun _ => t'
              return some e.record) :=
            (uncorrupted_heedless.write _ _ _).bind fun _ => Judgement.meets_pure _
          exact absurd h (hu.ne how)
        · rintro ⟨-, j, t₁, hj, ht, hnone⟩
          obtain rfl := Except.ok.inj ht
          rw [← Option.some.inj hj, he] at hnone
          exact absurd hnone nofun

/-- A removal finds its table corrupted exactly if the search found an entry that is gone when the
search is over. -/
theorem delete_corrupted_iff {allowed : Corruption → Prop} (hallowed : ∀ how, ¬ allowed how)
    (hk : ∀ s, UpholdingKeys Table.WellFormed allowed (meaning s)) (hm : m.TablesWellFormed)
    (how : Corruption) :
    (∃ m', delete meaning table key m = .error (.fatal (.corruptedTable how)) m') ↔
      how = .unlinkOfDeadEntry ∧ ∃ id m' t,
        search meaning table key { m with handles := m.handles ++ #[table, key] } = .ok (some id) m' ∧
          m'.heap.read Facet.table table = .ok t ∧ t.get? id = none := by
  let pinned : Machine := { m with handles := m.handles ++ #[table, key] }
  have hpin : pinAll [table, key] m = .ok () pinned := pinAll_eq [table, key] m
  have hsearch : Upholds Table.WellFormed allowed (search meaning table key) pinned :=
    upholds_search hk pinned hm
  rw [delete_eq, withHandles_eq, bind_of_ok hpin]
  change _ ↔ _ ∧ ∃ id m' t, search meaning table key pinned = _ ∧ _
  cases hfound : search meaning table key pinned with
  | error u m₁ =>
    rw [bind_of_error hfound]
    constructor
    · rintro ⟨m', h⟩
      rw [(EStateM.Result.error.inj h).1] at hfound
      exact absurd (hsearch.corruption hfound) (hallowed how)
    · rintro ⟨-, _, _, _, h, -⟩
      exact absurd h nofun
  | ok found m₁ =>
    have htables := hsearch.tables
    rw [after_of_ok hfound] at htables
    rw [bind_of_ok hfound]
    have hiff : (∃ m', unlinkFound table found m₁ = .error (.fatal (.corruptedTable how)) m') ↔ _ :=
      unlinkFound_corrupted_iff htables
    constructor
    · rintro ⟨m', h⟩
      cases hx : unlinkFound table found m₁ with
      | ok x m₂ =>
        rw [hx] at h
        exact absurd h nofun
      | error u m₂ =>
        rw [hx] at h
        obtain ⟨rfl, id, t, rfl, ht, hnone⟩ :=
          hiff.mp ⟨m₂, by rw [hx, (EStateM.Result.error.inj h).1]⟩
        exact ⟨rfl, id, m₁, t, rfl, ht, hnone⟩
    · rintro ⟨rfl, id, m', t, h, ht, hnone⟩
      obtain ⟨rfl, rfl⟩ := EStateM.Result.ok.inj h
      obtain ⟨m₂, hx⟩ := hiff.mpr ⟨rfl, id, t, rfl, ht, hnone⟩
      rw [hx]
      exact ⟨_, rfl⟩

end Dictionary

open Effect Dictionary in
/-- Let hash and `==` of the keys and the visitor of a traversal be code made of the operations on
tables: they may put keys into the table at work, remove them, clean it up or make it grow, raise, and
return anything.  Then looking up, inserting, adding, removing with a tombstone, cleaning up and
traversing never find the table corrupted.  Neither does a plain removal if comparing keys leaves the
tables alone; in general it does so exactly if the search found an entry that `==` took away before it
said yes, and the corruption is then always that of an entry that is gone. -/
theorem reentrant_keys_corrupt_only_removals (meaning : KeyMeaning)
    (visitor : Value → Value → Effect Visit)
    (hhash : ∀ s key, Careful (fun _ => True) (fun _ => False) ((meaning s).hash key))
    (hequal : ∀ s key other, Careful (fun _ => True) (fun _ => False) ((meaning s).equal key other))
    (hvisitor : ∀ key record, Careful (fun _ => True) (fun _ => False) (visitor key record))
    (m : Machine) (hm : m.TablesWellFormed) (table key record : Value) (hkey : key ≠ .absent)
    (patience : Nat) (how : Corruption) (m' : Machine) :
    lookup meaning table key m ≠ .error (.fatal (.corruptedTable how)) m' ∧
    insert meaning table key record m ≠ .error (.fatal (.corruptedTable how)) m' ∧
    add meaning table key record m ≠ .error (.fatal (.corruptedTable how)) m' ∧
    deleteSafe meaning table key m ≠ .error (.fatal (.corruptedTable how)) m' ∧
    cleanupSafe table m ≠ .error (.fatal (.corruptedTable how)) m' ∧
    forEach patience table visitor m ≠ .error (.fatal (.corruptedTable how)) m' ∧
    ((∀ s, Loyal (meaning s)) →
      delete meaning table key m ≠ .error (.fatal (.corruptedTable how)) m') ∧
    ((∃ m', delete meaning table key m = .error (.fatal (.corruptedTable how)) m') ↔
      how = .unlinkOfDeadEntry ∧ ∃ id m' t,
        search meaning table key { m with handles := m.handles ++ #[table, key] } = .ok (some id) m' ∧
          m'.heap.read Facet.table table = .ok t ∧ t.get? id = none) := by
  have hnever : ∀ {α : Type} {code : Effect α}, Careful (fun _ => True) (fun _ => False) code →
      code m ≠ .error (.fatal (.corruptedTable how)) m' := fun hcode h =>
    (hcode.upholds Table.kept_wellFormed m hm).corruption h
  refine ⟨?_, ?_, ?_, ?_, ?_, ?_, fun hloyal => ?_, ?_⟩
  · exact hnever (.lookup hhash hequal table key)
  · exact hnever (.insert hhash hequal table hkey trivial)
  · exact hnever (.add hhash hequal table hkey trivial)
  · exact hnever (.deleteSafe hhash hequal table key)
  · exact hnever (.cleanupSafe table)
  · exact hnever (.forEach hvisitor patience table)
  · exact hnever (.delete hhash hequal (Or.inr hloyal) table key)
  · refine delete_corrupted_iff (fun _ => id) (fun s => ⟨fun key => ?_, fun key other => ?_⟩) hm how
    · exact (hhash s key).upholds Table.kept_wellFormed
    · exact (hequal s key other).upholds Table.kept_wellFormed

/-- With keys whose `==` removes the entry that was found, inserting and removing with a tombstone go
well. -/
theorem reentrant_keys_corrupt_only_removals_meddling :
    let keys := (Calls.meddling (.ofSlot 0 0) Dictionary.delete).keys
    Machine.tabled.TablesWellFormed ∧ ∀ how m',
      Dictionary.insert keys (.ofSlot 0 0) (.ofNat 2) .nil Machine.tabled ≠
        .error (.fatal (.corruptedTable how)) m' ∧
      Dictionary.deleteSafe keys (.ofSlot 0 0) (.ofNat 2) Machine.tabled ≠
        .error (.fatal (.corruptedTable how)) m' := by
  intro keys
  have hm : Machine.tabled.TablesWellFormed := Machine.tables_tabled Table.kept_wellFormed trivial
  have hsend : ∀ v name args, Careful (fun _ => True) (fun _ => False)
      ((Calls.meddling (.ofSlot 0 0) Dictionary.delete).send v name args) :=
    Calls.careful_meddling_delete (.ofSlot 0 0)
  have hkeys := Calls.careful_keys hsend
  have hstop : Careful (fun _ => True) (fun _ => False) (pure .stop : Effect Dictionary.Visit) :=
    careful_pure _
  refine ⟨hm, fun how m' => ?_⟩
  obtain ⟨-, hinsert, -, hdelete, -⟩ :=
    reentrant_keys_corrupt_only_removals keys (fun _ _ => pure .stop) (fun s => (hkeys s).1)
      (fun s => (hkeys s).2) (fun _ _ => hstop) Machine.tabled hm (.ofSlot 0 0) (.ofNat 2) .nil
      (by decide) 0 how m'
  exact ⟨hinsert, hdelete⟩

/-- With the same keys, a plain removal finds its table corrupted. -/
theorem removal_corrupted_by_meddling :
    let calls := Calls.meddling (.ofSlot 0 0) Dictionary.delete
    Machine.tabled.TablesWellFormed ∧
    (∀ v name args, Careful (fun _ => True) (fun _ => False) (calls.send v name args)) ∧
    ∃ m', Dictionary.delete calls.keys (.ofSlot 0 0) (.ofNat 2) Machine.tabled =
      .error (.fatal (.corruptedTable .unlinkOfDeadEntry)) m' := by
  refine ⟨Machine.tables_tabled Table.kept_wellFormed trivial,
    Calls.careful_meddling_delete (.ofSlot 0 0), ?_⟩
  refine ⟨(Dictionary.delete (Calls.meddling (.ofSlot 0 0) Dictionary.delete).keys (.ofSlot 0 0)
    (.ofNat 2)).after Machine.tabled, ?_⟩
  cbv

end ObjectMachine
