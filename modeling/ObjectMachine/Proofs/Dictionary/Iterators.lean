import Mathlib.Tactic
import ObjectMachine.Proofs.Dictionary.Tending

/-! Iterators over tables that are in use.

Every table that the operations on tables build is well formed, so a new iterator on it starts a tour.
The operations tend the iterator, each with the structural changes its answer tells of; hence what
happens to the machine from then on is a history, and the iterator behaves as histories say. -/

namespace ObjectMachine

open Table (Placed Tours)

namespace Dictionary

open Effect Judgement Machine

variable {iter table : Value} {m : Machine}

/-- The next move of an iterator with `rest` ahead of it: over tombstones to the first key, which can
be read then, or to the end if there is none. -/
def MovesOn (iter : Value) (t : Table) (rest : List EntryId) (m : Machine) : Prop :=
  (∃ skipped id later e m', rest = skipped ++ id :: later ∧
    (∀ j ∈ skipped, t.holdsKey j = false) ∧ t.get? id = some e ∧ e.isTombstone = false ∧
    next iter m = .ok true m' ∧ currentKey iter m' = .ok e.key m' ∧
    currentValue iter m' = .ok e.record m') ∨
  (∀ j ∈ rest, t.holdsKey j = false) ∧ ∃ m', next iter m = .ok false m'

theorem movesOn_of_placed {i : IteratorBody} {t : Table} {chains : Nat → List EntryId}
    (hw : m.Watching iter i t) (hs : t.stamp = i.stamp) (hc : t.Chained chains)
    (hp : Placed chains t.bins.size i.position) : MovesOn iter t (t.ahead i.position) m := by
  obtain ⟨p, hadvance, -, hmoves⟩ := hc.advance hp
  have hnext := next_of_advance hw hs hadvance
  cases hmoves with
  | @found skipped rest id bin hskipped hid hids =>
    cases he : t.get? id with
    | none => simp [Table.holdsKey, he] at hid
    | some e =>
      have hd : e.isTombstone = false := by simpa [Table.holdsKey, he] using hid
      have hcurrent := current_of_position (hw.moved (.at bin id)) hs rfl he
      exact Or.inl ⟨skipped, id, rest, e, _, hids, hskipped, he, hd, hnext, hcurrent⟩
  | ended hskipped => exact Or.inr ⟨hskipped, _, hnext⟩

/-- A new iterator stands in front of the entries of its table. -/
theorem iterator_eq {t : Table} (ht : m.heap.read Facet.table table = .ok t)
    (hsound : m.heap.Sound) (hunmarked : m.heap.Unmarked)
    (hroom : ((iterator table).after m).HasRoom) :
    ∃ iter m', iterator table m = .ok iter m' ∧
      m'.heap.read Facet.iterator iter = .ok ⟨table, .fresh, t.stamp⟩ ∧
      m'.heap.read Facet.table table = .ok t ∧ m'.heap.Sound ∧ m'.heap.Unmarked := by
  let cls := m.classValue .dictIterator
  let body : Body := .iterator ⟨table, .fresh, t.stamp⟩
  have halloc : iterator table m = alloc cls body m := bind_of_ok (read_of_ok ht)
  have hstore : ∀ m₁ : Machine, m₁.heap.Sound → m₁.heap.Unmarked →
      m₁.heap.read Facet.table table = .ok t → iterator table m = store cls body m₁ →
      ∃ iter m', iterator table m = .ok iter m' ∧
        m'.heap.read Facet.iterator iter = .ok ⟨table, .fresh, t.stamp⟩ ∧
        m'.heap.read Facet.table table = .ok t ∧ m'.heap.Sound ∧ m'.heap.Unmarked := by
    intro m₁ hs hu ht₁ heq
    rw [after, heq] at hroom
    have hget := (hs.get?_insert cls body hroom m₁.heap.nextReference).trans (if_pos rfl)
    exact ⟨_, _, heq, Heap.read_eq_ok_iff.mpr ⟨_, hget, rfl⟩, hs.read_insert cls body ht₁,
      hs.insert cls body, hu.insert hs cls body⟩
  rcases alloc_cases cls body m with h | h
  · exact hstore m hsound hunmarked ht (halloc.trans h)
  · -- the table is part of the object under construction
    refine hstore _ (hsound.collect _) (Heap.unmarked_collect hunmarked _) ?_ (halloc.trans h)
    obtain ⟨o, ho, hb⟩ := Heap.read_eq_ok_iff.mp ht
    refine Heap.read_eq_ok_iff.mpr ⟨o, (Heap.get?_collect_eq_some_iff hunmarked).mpr ⟨ho, ?_⟩, hb⟩
    exact .root (List.mem_append_right _ (by simp [body, Body.edges])) (Heap.isLive_of_get? ho)

/-- A table that was built by the operations on tables, and an iterator on it that is kept as a root.
As long as nothing changes the table structurally, the moves of the iterator find every entry that is
no tombstone when it is reached, once and in the order of the table, and then nothing for good; after
a structural change the iterator refuses to work.  Operations on the table, moves, collections and
traversals may follow each other and run inside each other: they add nothing but the changes that
their answers tell of, and those of the methods of keys and visitors. -/
theorem iterators_tour_tables {code : Effect α} (hcode : TableCode code) {start : Machine}
    (hstart : start.TablesWellFormed) {m₀ : Machine} (hm₀ : code.after start = m₀) {table : Value}
    {t₀ : Table} (ht₀ : m₀.heap.read Facet.table table = .ok t₀) (hsound : m₀.heap.Sound)
    (hunmarked : m₀.heap.Unmarked) (hroom : ((iterator table).after m₀).HasRoom) :
    ∃ iter m₁, iterator table m₀ = .ok iter m₁ ∧
      ∀ m : Machine, m.heap = m₁.heap → iter ∈ m.roots →
        (∀ n calls m', History iter m n calls m' → m'.Tended iter table m' ∧
          ∃ t, m'.heap.read Facet.table table = .ok t ∧
            (n = 0 → t.entryIds = t₀.entryIds ∧ t.bins.size = t₀.bins.size ∧
              (calls.filterMap (·.2)).Nodup ∧
              ∃ rest, Tours t₀.entryIds calls rest ∧ MovesOn iter t rest m') ∧
            (0 < n → n < 2 ^ 64 →
              next iter m' = .error (.fatal .tableModifiedDuringIteration) m' ∧
              currentKey iter m' = .error (.fatal .tableModifiedDuringIteration) m' ∧
              currentValue iter m' = .error (.fatal .tableModifiedDuringIteration) m')) ∧
        (∀ (A : AddSubmonoid ℕ) (calls : Calls), (∀ v name args {m' : Machine},
            m'.Tended iter table m' → Tends iter m' A still (calls.send v name args) m') →
          ∀ s, TendingKeys iter table A (calls.keys s)) ∧
        ∀ (A : AddSubmonoid ℕ) (meaning : KeyMeaning), (∀ s, TendingKeys iter table A (meaning s)) →
          ∀ m' : Machine, m'.Tended iter table m' →
            (∀ op : Op, op.Proper → Tends iter m' A op.changes (op.perform meaning table) m') ∧
            Tends iter m' A still (next iter) m' ∧
            Tends iter m' A still collectGarbage m' ∧
            ∀ patience visitor, (∀ key record {m'' : Machine}, m''.Tended iter table m'' →
                Tends iter m'' ⊤ still (visitor key record) m'') →
              Tends iter m' ⊤ still (forEach patience table visitor) m' := by
  subst hm₀
  obtain ⟨points, hrun⟩ := hcode.stepwise start hstart
  have hw₀ : t₀.WellFormed :=
    hrun.wellFormed hstart _ hrun.mem_after _ t₀ (Heap.tableIn?_of_read ht₀)
  obtain ⟨iter, m₁, hiter, hbody, htable, hsound₁, hunmarked₁⟩ :=
    iterator_eq ht₀ hsound hunmarked hroom
  refine ⟨iter, m₁, hiter, fun m hheap hroot => ⟨fun n calls m' h => ?_, ?_, ?_⟩⟩
  · have hw : m.Watching iter ⟨table, .fresh, t₀.stamp⟩ t₀ :=
      ⟨hheap ▸ hbody, hheap ▸ htable, hw₀, hroot, hheap ▸ hsound₁, hheap ▸ hunmarked₁⟩
    obtain ⟨chains, hc⟩ := hw₀
    obtain ⟨p, t, hw', hevolves, htour⟩ := h.tours hc hw
    refine ⟨⟨hw'.rooted, .refl m', _, t, rfl, hw'⟩, t, hw'.table_eq, fun hn => ?_, fun hpos hn =>
      refuses_of_stamp_ne hw' (hevolves.stamp_ne hpos hn)⟩
    obtain ⟨hplaced, htours⟩ := htour hn
    obtain ⟨hct, hsize⟩ := hevolves.chained hn hc
    subst hn
    have hids := hevolves.entryIds_eq ⟨chains, hc⟩
    have hnodup : t₀.entryIds.Nodup := hc.entryIds_eq ▸ hc.once
    have hstamp : t.stamp = t₀.stamp := by simpa using hevolves.stamp_eq
    refine ⟨hids, hsize, ?_, t.ahead p, htours, movesOn_of_placed hw' hstamp hct (hsize ▸ hplaced)⟩
    exact ((List.sublist_append_left _ _).trans htours.sublist).nodup hnodup
  · exact fun A calls hsend s => tendingKeys_of_send hsend s
  · intro A meaning hk m' hm'
    exact ⟨fun op hop => tends_perform hk hop hm', tends_next hm', (tending_collectGarbage m').tends hm',
      fun patience visitor hv => tends_forEach hv patience hm'⟩

/-- Makes a table with three keys, one of which is removed in place. -/
def threeKeys : Effect Unit := do
  let table ← newTable .symbol 0
  let _ ← insert (fun _ => Keys.symbol) table (.ofNat 1) (.ofNat 10)
  let _ ← insert (fun _ => Keys.symbol) table (.ofNat 2) (.ofNat 20)
  let _ ← insert (fun _ => Keys.symbol) table (.ofNat 3) (.ofNat 30)
  let _ ← deleteSafe (fun _ => Keys.symbol) table (.ofNat 2)

theorem tableCode_threeKeys : TableCode threeKeys := by
  have hhash : ∀ (s : Strategy) key, TableCode (((fun _ => Keys.symbol) s).hash key) :=
    fun _ _ => .other fun _ _ => .of_heap_eq rfl
  have hequal : ∀ (s : Strategy) key other, TableCode (((fun _ => Keys.symbol) s).equal key other) :=
    fun _ _ _ => .other fun _ _ => .of_heap_eq rfl
  refine .bind (.newTable .symbol 0) fun table => ?_
  refine .bind (.insert hhash hequal table (by decide) _) fun _ => ?_
  refine .bind (.insert hhash hequal table (by decide) _) fun _ => ?_
  refine .bind (.insert hhash hequal table (by decide) _) fun _ => ?_
  exact .bind (.deleteSafe hhash hequal table _) fun _ => .other fun _ _ => .of_heap_eq rfl

theorem iterators_tour_tables_three_keys :
    let table : Value := .ofSlot 0 0
    ∃ m₀ t₀ iter m₁, threeKeys.after { heap := { settings := {} } } = m₀ ∧ m₀.heap.read Facet.table table = .ok t₀ ∧ t₀.entryIds.length = 3 ∧
      iterator table m₀ = .ok iter m₁ ∧
      (∃ t, MovesOn iter t t₀.entryIds { m₁ with handles := #[iter] }) ∧
      ∀ n calls m', History iter { m₁ with handles := #[iter] } n calls m' → 0 < n → n < 2 ^ 64 →
        next iter m' = .error (.fatal .tableModifiedDuringIteration) m' := by
  intro table
  have hstart : Machine.TablesWellFormed { heap := { settings := {} } } := fun i t ht => by
    simp [Heap.tableIn?] at ht
  obtain ⟨m₀, hm₀, hlen, hslots, hmarks, hfree, hroom⟩ : ∃ m₀,
      threeKeys.after { heap := { settings := {} } } = m₀ ∧
      (m₀.heap.read? Facet.table table).map (·.entryIds.length) = some 3 ∧
      (∀ s ∈ m₀.heap.slots, s.generation ≤ Value.maxGeneration) ∧
      (∀ s ∈ m₀.heap.slots, ∀ o ∈ s.object, o.flags.marked = false) ∧ m₀.heap.free = [] ∧
      ((iterator table).after m₀).heap.slots.size ≤ 2 ^ 32 :=
    ⟨_, rfl, by decide +kernel, by decide +kernel, by decide +kernel, by decide +kernel,
      by decide +kernel⟩
  obtain ⟨t₀, ht₀, hlen⟩ := Option.map_eq_some_iff.mp hlen
  obtain ⟨o, ho, hb⟩ := Option.bind_eq_some_iff.mp ht₀
  have hread : m₀.heap.read Facet.table table = .ok t₀ := Heap.read_eq_ok_iff.mpr ⟨o, ho, hb⟩
  have hsound : m₀.heap.Sound :=
    ⟨by simp [hfree], by simp [hfree], fun _ _ _ hi => hslots _ (Array.mem_of_getElem? hi)⟩
  obtain ⟨iter, m₁, hiter, h⟩ := iterators_tour_tables tableCode_threeKeys hstart hm₀ hread hsound
    hmarks hroom
  have hroot : iter ∈ ({ m₁ with handles := #[iter] } : Machine).roots :=
    mem_roots_push { m₁ with handles := #[] } iter
  obtain ⟨hhistory, -⟩ := h { m₁ with handles := #[iter] } rfl hroot
  refine ⟨m₀, t₀, iter, m₁, hm₀, hread, hlen, hiter, ?_, fun n calls m' hn hpos hlt => ?_⟩
  · obtain ⟨-, t, -, hexact, -⟩ := hhistory 0 [] _ .start
    obtain ⟨-, -, -, rest, htours, hmoves⟩ := hexact rfl
    generalize hcalls : ([] : List (Table × Option EntryId)) = calls at htours
    cases htours with
    | start => exact ⟨t, hmoves⟩
    | found _ _ _ => simp at hcalls
    | ended _ _ => simp at hcalls
  · obtain ⟨-, t, -, -, hrefuses⟩ := hhistory n calls m' hn
    exact (hrefuses hpos hlt).1

end Dictionary

end ObjectMachine
