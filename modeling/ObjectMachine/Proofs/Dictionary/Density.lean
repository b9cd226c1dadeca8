import Mathlib.Tactic
import ObjectMachine.Proofs.Dictionary.Hosting

/-! Tables that are in use stay sparse.

The operations on tables and the traversals serve the steps that keep a table dense within bounds, so
whatever is made of them, one after the other or inside each other, leaves an admissible number of
bins that never went down, and no more mappings than the bins have room for. -/

namespace ObjectMachine.Dictionary

open Effect Judgement Machine Relation

variable {table : Value} {base m : Machine} {meaning : KeyMeaning}

/-- What is done with a table: an operation or a traversal. -/
inductive Use where
  | perform (op : Op)
  | traverse (patience : Nat) (visitor : Value → Value → Effect Visit)

/-- Uses the table, whatever the answer. -/
def Use.run (meaning : KeyMeaning) (table : Value) : Use → Effect Unit
  | .perform op => do
    let _ ← op.perform meaning table
  | .traverse patience visitor => do
    let _ ← forEach patience table visitor

/-- The machine after one use after the other, whether they succeed or fail. -/
def runUses (meaning : KeyMeaning) (table : Value) (uses : List Use) (m : Machine) : Machine :=
  uses.foldl (fun m use => (use.run meaning table).after m) m

/-- Whether the visitor of a traversal does nothing to the table but what tables are for. -/
def Use.Tame (table : Value) : Use → Prop
  | .perform _ => True
  | .traverse _ visitor => ∀ key record (m : Machine),
      Serves table m Table.Step (visitor key record) m

theorem serves_perform (hk : ∀ s, ServingKeys table Table.Step (meaning s)) (op : Op) :
    (Judgement.serving table base Table.Step).Meets (op.perform meaning table) := by
  cases op with
  | insert key record =>
    exact (serves_insert hk (fun _ id => .setRecord id record) fun _ hash =>
      .enter hash key record).bind fun _ => meets_pure _
  | add key record =>
    exact (serves_add hk fun _ hash => .enter hash key record).bind fun _ => meets_pure _
  | lookup key => exact (serves_lookup hk).bind fun _ => meets_pure _
  | delete key => exact (serves_delete hk .unlink).bind fun _ => meets_pure _
  | deleteSafe key => exact (serves_deleteSafe hk .tombstone).bind fun _ => meets_pure _
  | cleanup => exact (serves_cleanupSafe .unlink).bind fun _ => meets_pure _

theorem serves_use (hk : ∀ s, ServingKeys table Table.Step (meaning s)) {use : Use}
    (huse : use.Tame table) :
    (Judgement.serving table base Table.Step).Meets (use.run meaning table) := by
  cases use with
  | perform op => exact (serves_perform hk op).bind fun _ => meets_pure _
  | traverse patience visitor =>
    exact (serves_forEach huse .unlink patience).bind fun _ => meets_pure _

/-- One use after the other takes the table through steps. -/
theorem hosts_runUses (hk : ∀ s, ServingKeys table Table.Step (meaning s)) :
    ∀ (uses : List Use) {m : Machine} {t : Table}, (∀ use ∈ uses, use.Tame table) →
      m.Hosts table t base →
      ∃ t', ReflTransGen Table.Step t t' ∧ (runUses meaning table uses m).Hosts table t' base
  | [], m, t, _, ht => ⟨t, .refl, ht⟩
  | use :: uses, m, t, htame, ht => by
    obtain ⟨t₁, hsteps, ht₁⟩ := serves_use hk (htame use List.mem_cons_self) m t ht
    obtain ⟨t₂, hsteps', ht₂⟩ := hosts_runUses hk uses
      (fun use huse => htame use (List.mem_cons_of_mem _ huse)) ht₁
    exact ⟨t₂, hsteps.trans hsteps', ht₂⟩

/-- An allocation leaves the heap in order. -/
theorem sound_alloc (hsound : m.heap.Sound) (hunmarked : m.heap.Unmarked) (cls : Value)
    (body : Body) : ((alloc cls body).after m).heap.Sound ∧
      ((alloc cls body).after m).heap.Unmarked := by
  rcases alloc_cases cls body m with h | h
  · rw [after_of_ok (h.trans rfl)]
    exact ⟨hsound.insert cls body, hunmarked.insert hsound cls body⟩
  · rw [after_of_ok (h.trans rfl)]
    have hs := hsound.collect (m.roots ++ (cls :: body.edges))
    have hu := Heap.unmarked_collect hunmarked (m.roots ++ (cls :: body.edges))
    exact ⟨hs.insert cls body, hu.insert hs cls body⟩

/-- A new table, once it is a root, is hosted by the machine. -/
theorem exists_newTable (strategy : Strategy) (size : Nat) (hsound : m.heap.Sound)
    (hunmarked : m.heap.Unmarked)
    (hroom : ((newTable strategy size).after m).heap.slots.size ≤ 2 ^ 32) :
    ∃ table m₁, newTable strategy size m = .ok table m₁ ∧ ∀ m' : Machine, m'.heap = m₁.heap →
      table ∈ m'.roots → m'.Hosts table (.new strategy size) m' := by
  obtain ⟨table, m₁, hnew, hread⟩ := newTable_eq strategy size hsound hroom
  have hask : newTable strategy size m =
      alloc (m.classValue .dict) (.table (Table.new strategy size)) m := rfl
  obtain ⟨hsound₁, hunmarked₁⟩ := sound_alloc hsound hunmarked (m.classValue .dict)
    (.table (Table.new strategy size))
  rw [after_of_ok (hask.symm.trans hnew)] at hsound₁ hunmarked₁
  refine ⟨table, m₁, hnew, fun m' hheap hroot => ?_⟩
  exact ⟨hheap ▸ hread, hroot, .refl m', hheap ▸ hsound₁, hheap ▸ hunmarked₁⟩

/-- A table that is made and then kept as a root has an admissible number of bins at every time, which
never decreases, and at most five mappings for each of them unless the number of bins is the greatest
there is.  This holds for every history of operations and traversals, whichever of them fail, and for
everything else that serves the table; the methods of keys and the visitors may use the table
themselves, because operations and traversals serve it, too. -/
theorem tables_stay_dense (strategy : Strategy) (size : Nat) {m₀ : Machine} (hsound : m₀.heap.Sound)
    (hunmarked : m₀.heap.Unmarked)
    (hroom : ((newTable strategy size).after m₀).heap.slots.size ≤ 2 ^ 32) :
    ∃ table m₁, newTable strategy size m₀ = .ok table m₁ ∧
      ∀ m : Machine, m.heap = m₁.heap → table ∈ m.roots →
        (∀ {α : Type} (code : Effect α), Serves table m Table.Step code m →
          ∃ t, (code.after m).heap.read Facet.table table = .ok t ∧ t.bins.size ∈ Table.primes ∧
            (t.entries.length ≤ 5 * t.bins.size ∨ t.bins.size = 1073741909)) ∧
        (∀ calls : Calls, (∀ v name args (m' : Machine),
            Serves table m' Table.Step (calls.send v name args) m') →
          ∀ s, ServingKeys table Table.Step (calls.keys s)) ∧
        ∀ meaning : KeyMeaning, (∀ s, ServingKeys table Table.Step (meaning s)) →
          (∀ use : Use, use.Tame table → ∀ m' : Machine,
            Serves table m' Table.Step (use.run meaning table) m') ∧
          ∀ uses more : List Use, (∀ use ∈ uses ++ more, use.Tame table) →
            ∃ t t', (runUses meaning table uses m).heap.read Facet.table table = .ok t ∧
              (runUses meaning table (uses ++ more) m).heap.read Facet.table table = .ok t' ∧
              t.bins.size ∈ Table.primes ∧ t.bins.size ≤ t'.bins.size ∧
              (t.entries.length ≤ 5 * t.bins.size ∨ t.bins.size = 1073741909) := by
  obtain ⟨table, m₁, hnew, hhosts⟩ := exists_newTable strategy size hsound hunmarked hroom
  refine ⟨table, m₁, hnew, fun m hheap hroot => ⟨fun code hcode => ?_, ?_, fun meaning hk => ⟨?_, ?_⟩⟩⟩
  · obtain ⟨t, hsteps, ht⟩ := hcode _ (hhosts m hheap hroot)
    have hd := ((Table.dense_new strategy size).steps hsteps).1
    exact ⟨t, ht.table_eq, hd.bins_mem, hd.length_entries_le⟩
  · exact fun calls hsend s => servingKeys_of_send hsend s
  · exact fun use huse m' => serves_use hk huse m'
  · intro uses more htame
    have hleft : ∀ use ∈ uses, use.Tame table := fun use h => htame use (List.mem_append_left _ h)
    have hright : ∀ use ∈ more, use.Tame table := fun use h => htame use (List.mem_append_right _ h)
    obtain ⟨t, hsteps, ht⟩ := hosts_runUses hk uses hleft (hhosts m hheap hroot)
    obtain ⟨t', hsteps', ht'⟩ := hosts_runUses hk more hright ht
    rw [runUses, runUses, ← List.foldl_append] at ht'
    have hd := ((Table.dense_new strategy size).steps hsteps).1
    exact ⟨t, t', ht.table_eq, ht'.table_eq, hd.bins_mem, (hd.steps hsteps').2, hd.length_entries_le⟩

/-- Sixty keys, of which a traversal in between removes the first thirty. -/
theorem tables_stay_dense_sixty_keys :
    let start : Machine := { heap := { settings := {} } }
    let insertions : List Use :=
      (List.range 30).map fun n => .perform (.insert (.ofNat n) (.ofNat n))
    let removal : Use := .traverse 0 fun _ _ => pure .delete
    ∃ table m₁ t, newTable (.residue 7) 0 start = .ok table m₁ ∧
      (runUses (fun _ => Keys.residue 7) table (insertions ++ removal :: insertions)
        { m₁ with handles := #[table] }).heap.read Facet.table table = .ok t ∧
      t.bins.size ∈ Table.primes ∧
      (t.entries.length ≤ 5 * t.bins.size ∨ t.bins.size = 1073741909) := by
  intro start insertions removal
  have hsound : start.heap.Sound := Heap.sound_fresh {}
  have hunmarked : start.heap.Unmarked := fun slot hslot => by simp [start] at hslot
  obtain ⟨table, m₁, hnew, h⟩ := tables_stay_dense (.residue 7) 0 hsound hunmarked (by decide)
  have hroot : table ∈ ({ m₁ with handles := #[table] } : Machine).roots :=
    mem_roots_push { m₁ with handles := #[] } table
  obtain ⟨-, -, hruns⟩ := h { m₁ with handles := #[table] } rfl hroot
  have hkeys : ∀ s : Strategy, ServingKeys table Table.Step ((fun _ => Keys.residue 7) s) :=
    fun _ => servingKeys_residue 7
  have htame : ∀ use ∈ (insertions ++ removal :: insertions) ++ [], use.Tame table := by
    intro use huse
    cases use with
    | perform op => trivial
    | traverse patience visitor =>
      simp [insertions, removal] at huse
      obtain ⟨-, rfl⟩ := huse
      exact fun _ _ m => meets_pure (J := .serving table m Table.Step) _ m
  obtain ⟨t, -, ht, -, hmem, -, hdense⟩ := (hruns _ hkeys).2 _ [] htame
  exact ⟨table, m₁, t, hnew, ht, hmem, hdense⟩

end ObjectMachine.Dictionary
