import Mathlib.Tactic
import ObjectMachine.Proofs.Dictionary.Refinement
import ObjectMachine.Proofs.Dictionary.Tombstones
import ObjectMachine.Proofs.Table.Iteration

/-! What happens to an iterator and its table.

A machine is watched through an iterator that is a root: the iterator keeps its table alive, so both
outlive every collection.  A history of such a machine counts the structural changes of the table and
lists the moves of the iterator.  As long as there are none of the former, the latter are a tour over
the entries of the table; as soon as there are some, the iterator refuses to work. -/

namespace ObjectMachine

open Table (Position Placed Tours)

theorem Facet.lawful_iterator : Lawful iterator where
  put_eq {b x} h := by cases b <;> simp_all [iterator]
  kind_put _ := rfl
  exists_get? {b} h := by cases b <;> simp_all [iterator, Body.kind]

namespace Heap

variable {h : Heap} {v : Value}

theorem Sound.read_insert (hs : h.Sound) (cls : Value) (body : Body) {facet : Facet α} {x : α}
    (hx : h.read facet v = .ok x) : (h.insert cls body).read facet v = .ok x := by
  obtain ⟨o, ho, hb⟩ := read_eq_ok_iff.mp hx
  exact read_eq_ok_iff.mpr ⟨o, hs.get?_insert_of_some cls body ho, hb⟩

end Heap

/-! ### Watched machines -/

/-- The machine holds an iterator, which is a root, and the table it goes over. -/
structure Machine.Watching (m : Machine) (iter : Value) (i : IteratorBody) (t : Table) : Prop where
  iterator_eq : m.heap.read Facet.iterator iter = .ok i
  table_eq : m.heap.read Facet.table i.table = .ok t
  wellFormed : t.WellFormed
  rooted : iter ∈ m.roots
  sound : m.heap.Sound
  unmarked : m.heap.Unmarked

/-- Moves an iterator. -/
def Machine.moved (m : Machine) (iter : Value) (p : Position) : Machine :=
  { m with heap := m.heap.modify Facet.iterator iter fun i => { i with position := p } }

namespace Machine.Watching

variable {m m' : Machine} {iter : Value} {i : IteratorBody} {t : Table}

theorem unique {j : IteratorBody} {t' : Table} (h : m.Watching iter i t)
    (h' : m.Watching iter j t') : i = j ∧ t = t' := by
  obtain rfl : i = j := Except.ok.inj (h.iterator_eq.symm.trans h'.iterator_eq)
  exact ⟨rfl, Except.ok.inj (h.table_eq.symm.trans h'.table_eq)⟩

theorem of_heap_eq (h : m.Watching iter i t) (hheap : m'.heap = m.heap) (hroot : iter ∈ m'.roots) :
    m'.Watching iter i t :=
  ⟨hheap ▸ h.iterator_eq, hheap ▸ h.table_eq, h.wellFormed, hroot, hheap ▸ h.sound,
    hheap ▸ h.unmarked⟩

/-- The iterator is a root, and the table can be reached through it. -/
theorem reachable (h : m.Watching iter i t) :
    m.heap.Reachable m.roots iter ∧ m.heap.Reachable m.roots i.table := by
  obtain ⟨o, ho, hb⟩ := Heap.read_eq_ok_iff.mp h.iterator_eq
  have hroot : m.heap.Reachable m.roots iter := .root h.rooted (Heap.isLive_of_get? ho)
  have hbody : o.body = .iterator i := by
    cases hbody : o.body <;> simp_all [Facet.iterator]
  refine ⟨hroot, .edge hroot ho (List.mem_cons_of_mem _ ?_) (Heap.isLive_of_read h.table_eq)⟩
  rw [hbody]
  exact List.mem_singleton_self _

theorem collectWith (h : m.Watching iter i t) (pending : List Value) :
    (m.collectWith pending).Watching iter i t := by
  have hread : ∀ {β : Type} {facet : Facet β} {v : Value} {x : β},
      m.heap.Reachable m.roots v → m.heap.read facet v = .ok x →
      (m.collectWith pending).heap.read facet v = .ok x := by
    intro β facet v x hv hx
    obtain ⟨o, ho, hb⟩ := Heap.read_eq_ok_iff.mp hx
    refine Heap.read_eq_ok_iff.mpr ⟨o, ?_, hb⟩
    exact (Heap.get?_collect_eq_some_iff h.unmarked).mpr
      ⟨ho, hv.mono (List.subset_append_left _ _)⟩
  exact ⟨hread h.reachable.1 h.iterator_eq, hread h.reachable.2 h.table_eq, h.wellFormed, h.rooted,
    h.sound.collect _, Heap.unmarked_collect h.unmarked _⟩

theorem store (h : m.Watching iter i t) (cls : Value) (body : Body) :
    ({ m with heap := m.heap.insert cls body } : Machine).Watching iter i t :=
  ⟨h.sound.read_insert cls body h.iterator_eq, h.sound.read_insert cls body h.table_eq, h.wellFormed,
    h.rooted, h.sound.insert cls body, h.unmarked.insert h.sound cls body⟩

/-- Writing to an object of another kind. -/
theorem modify (h : m.Watching iter i t) {facet : Facet α} (hf : facet.Lawful)
    (hiter : facet.kind ≠ .iterator) (htable : facet.kind ≠ .table) (v : Value) (g : α → α) :
    ({ m with heap := m.heap.modify facet v g } : Machine).Watching iter i t :=
  ⟨Heap.read_modify_of_other hf Facet.lawful_iterator hiter h.iterator_eq,
    Heap.read_modify_of_other hf Facet.lawful_table htable h.table_eq, h.wellFormed, h.rooted,
    h.sound.modifyObject _ _, h.unmarked.modifyObject _ fun _ _ => rfl⟩

/-- Writing to the table. -/
theorem change (h : m.Watching iter i t) {g : Table → Table} (hw : (g t).WellFormed) :
    ({ m with heap := m.heap.modify Facet.table i.table g } : Machine).Watching iter i (g t) :=
  ⟨Heap.read_modify_of_other Facet.lawful_table Facet.lawful_iterator nofun h.iterator_eq,
    Heap.read_modify_table h.table_eq g, hw, h.rooted, h.sound.modifyObject _ _,
    h.unmarked.modifyObject _ fun _ _ => rfl⟩

theorem moved (h : m.Watching iter i t) (p : Position) :
    (m.moved iter p).Watching iter { i with position := p } t :=
  ⟨Heap.read_modify_iterator h.iterator_eq _,
    Heap.read_modify_of_other Facet.lawful_iterator Facet.lawful_table nofun h.table_eq,
    h.wellFormed, h.rooted, h.sound.modifyObject _ _, h.unmarked.modifyObject _ fun _ _ => rfl⟩

end Machine.Watching

namespace Dictionary

open Effect

variable {m m' m'' : Machine} {iter table : Value} {i : IteratorBody} {t t₀ : Table}

/-! ### What an iterator does -/

theorem checkedTable_of_stamp_eq (h : m.Watching iter i t) (hs : t.stamp = i.stamp) :
    checkedTable i m = .ok t m := by
  rw [checkedTable, bind_of_ok (read_of_ok h.table_eq), if_pos (beq_iff_eq.mpr hs)]
  rfl

theorem checkedTable_of_stamp_ne (h : m.Watching iter i t) (hs : t.stamp ≠ i.stamp) :
    checkedTable i m = .error (.fatal .tableModifiedDuringIteration) m := by
  rw [checkedTable, bind_of_ok (read_of_ok h.table_eq), if_neg (by simpa using hs)]
  rfl

/-- An iterator moves as the cursor in it does. -/
theorem next_of_advance (h : m.Watching iter i t) (hs : t.stamp = i.stamp) {p : Position}
    (hp : t.advance i.position = .ok p) :
    next iter m = .ok p.entry?.isSome (m.moved iter p) := by
  have hwrite : write Facet.iterator iter (fun i => { i with position := p }) m =
      .ok () (m.moved iter p) := bind_of_ok (read_of_ok h.iterator_eq)
  rw [next, bind_of_ok (read_of_ok h.iterator_eq), bind_of_ok (checkedTable_of_stamp_eq h hs), hp]
  dsimp only
  rw [bind_of_ok hwrite]
  cases p <;> rfl

/-- The ways in which a move may end. -/
theorem next_cases (h : m.Watching iter i t) :
    (∃ p, t.stamp = i.stamp ∧ t.advance i.position = .ok p ∧
      next iter m = .ok p.entry?.isSome (m.moved iter p)) ∨ ∃ u, next iter m = .error u m := by
  by_cases hs : t.stamp = i.stamp
  · cases hp : t.advance i.position with
    | ok p => exact Or.inl ⟨p, hs, rfl, next_of_advance h hs hp⟩
    | error how =>
      refine Or.inr ⟨.fatal (.corruptedTable how), ?_⟩
      rw [next, bind_of_ok (read_of_ok h.iterator_eq), bind_of_ok (checkedTable_of_stamp_eq h hs), hp]
      rfl
  · refine Or.inr ⟨.fatal .tableModifiedDuringIteration, ?_⟩
    rw [next, bind_of_ok (read_of_ok h.iterator_eq)]
    exact bind_of_error (checkedTable_of_stamp_ne h hs)

/-- An iterator whose table has another stamp refuses to work. -/
theorem refuses_of_stamp_ne (h : m.Watching iter i t) (hs : t.stamp ≠ i.stamp) :
    next iter m = .error (.fatal .tableModifiedDuringIteration) m ∧
    currentKey iter m = .error (.fatal .tableModifiedDuringIteration) m ∧
    currentValue iter m = .error (.fatal .tableModifiedDuringIteration) m := by
  have hcurrent : current iter m = .error (.fatal .tableModifiedDuringIteration) m := by
    rw [current, bind_of_ok (read_of_ok h.iterator_eq)]
    exact bind_of_error (checkedTable_of_stamp_ne h hs)
  refine ⟨?_, bind_of_error hcurrent, bind_of_error hcurrent⟩
  rw [next, bind_of_ok (read_of_ok h.iterator_eq)]
  exact bind_of_error (checkedTable_of_stamp_ne h hs)

/-- The entry an iterator stands on can be read. -/
theorem current_of_position (h : m.Watching iter i t) (hs : t.stamp = i.stamp) {bin : Nat}
    {id : EntryId} {e : Entry} (hp : i.position = .at bin id) (he : t.get? id = some e) :
    currentKey iter m = .ok e.key m ∧ currentValue iter m = .ok e.record m := by
  have hcurrent : current iter m = .ok e m := by
    rw [current, bind_of_ok (read_of_ok h.iterator_eq), bind_of_ok (checkedTable_of_stamp_eq h hs),
      hp]
    simp only [he]
    rfl
  exact ⟨bind_of_ok hcurrent, bind_of_ok hcurrent⟩

/-! ### Histories -/

/-- What happened to a watched machine: `n` structural changes of the table, and the moves of the
iterator, each with the table at that time and the entry that was found. -/
inductive History (iter : Value) (m : Machine) :
    Nat → List (Table × Option EntryId) → Machine → Prop
  | start : History iter m 0 [] m
  | changed {n k : Nat} {calls : List (Table × Option EntryId)} {m' m'' : Machine}
      {i : IteratorBody} {t t' : Table} (h : History iter m n calls m')
      (hm' : m'.Watching iter i t) (he : t.Evolves k t') (hm'' : m''.Watching iter i t') :
      History iter m (n + k) calls m''
  | moved {n : Nat} {calls : List (Table × Option EntryId)} {m' m'' : Machine} {i j : IteratorBody}
      {t : Table} {more : Bool} (h : History iter m n calls m') (hm' : m'.Watching iter i t)
      (hrun : next iter m' = .ok more m'') (hm'' : m''.Watching iter j t) :
      History iter m n (calls ++ [(t, j.position.entry?)]) m''

theorem History.trans {n k : Nat} {calls calls' : List (Table × Option EntryId)}
    (h : History iter m n calls m') (h' : History iter m' k calls' m'') :
    History iter m (n + k) (calls ++ calls') m'' := by
  induction h' with
  | start => rwa [List.append_nil]
  | changed _ hm' he hm'' ih =>
    rw [← Nat.add_assoc]
    exact ih.changed hm' he hm''
  | moved _ hm' hrun hm'' ih =>
    rw [← List.append_assoc]
    exact ih.moved hm' hrun hm''

/-- The machine at the end of a history is watched, by the same iterator for the same table. -/
theorem History.watching {n : Nat} {calls : List (Table × Option EntryId)}
    (h : History iter m n calls m') (hm : m.Watching iter i t) :
    ∃ j t', j.table = i.table ∧ m'.Watching iter j t' := by
  induction h with
  | start => exact ⟨i, t, rfl, hm⟩
  | changed _ hm' _ hm'' ih =>
    obtain ⟨j, t', hj, hw⟩ := ih
    exact ⟨j, _, hj, (hw.unique hm').1 ▸ hm''⟩
  | moved _ hm' hrun hm'' ih =>
    obtain ⟨j, t', hj, hw⟩ := ih
    rcases next_cases hw with ⟨p, -, -, hnext⟩ | ⟨u, hnext⟩
    · obtain ⟨-, rfl⟩ := EStateM.Result.ok.inj (hnext.symm.trans hrun)
      exact ⟨{ j with position := p }, t', hj, hw.moved p⟩
    · rw [hnext] at hrun
      cases hrun

/-- A history that starts with a new iterator: its stamp stays that of the table it was made for, and
its moves are a tour as long as there was no structural change. -/
theorem History.tours {chains : Nat → List EntryId} (hc : t₀.Chained chains)
    (hm : m.Watching iter ⟨table, .fresh, t₀.stamp⟩ t₀) {n : Nat}
    {calls : List (Table × Option EntryId)} (h : History iter m n calls m') :
    ∃ p t, m'.Watching iter ⟨table, p, t₀.stamp⟩ t ∧ t₀.Evolves n t ∧
      (n = 0 → Placed chains t₀.bins.size p ∧ Tours t₀.entryIds calls (t.ahead p)) := by
  induction h with
  | start => exact ⟨.fresh, t₀, hm, .refl, fun _ => ⟨trivial, .start⟩⟩
  | @changed n k calls m' m'' i t t' _ hm' he hm'' ih =>
    obtain ⟨p, s, hw, hevolves, htour⟩ := ih
    obtain ⟨rfl, rfl⟩ := hw.unique hm'
    refine ⟨p, t', hm'', hevolves.trans he, fun hn => ?_⟩
    obtain ⟨rfl, rfl⟩ : n = 0 ∧ k = 0 := Nat.add_eq_zero_iff.mp hn
    rw [he.ahead_eq hw.wellFormed]
    exact htour rfl
  | @moved n calls m' m'' i j t more _ hm' hrun hm'' ih =>
    obtain ⟨p, s, hw, hevolves, htour⟩ := ih
    obtain ⟨rfl, rfl⟩ := hw.unique hm'
    rcases next_cases hw with ⟨p', -, hp', hnext⟩ | ⟨u, hnext⟩
    · obtain ⟨-, rfl⟩ := EStateM.Result.ok.inj (hnext.symm.trans hrun)
      obtain ⟨rfl, -⟩ := hm''.unique (hw.moved p')
      refine ⟨p', s, hw.moved p', hevolves, fun hn => ?_⟩
      obtain ⟨hplaced, htour⟩ := htour hn
      obtain ⟨hcs, hsize⟩ := hevolves.chained hn hc
      obtain ⟨q, hq, hqplaced, hmoves⟩ := hcs.advance (hsize ▸ hplaced)
      obtain rfl : q = p' := Except.ok.inj (hq.symm.trans hp')
      refine ⟨hsize ▸ hqplaced, ?_⟩
      cases hmoves with
      | found bin hskipped hid hids =>
        rw [Table.ahead_at_of_suffix (hcs.entryIds_eq ▸ hcs.once) (s.ahead_suffix p) hids]
        exact .found (hids ▸ htour) hskipped hid
      | ended hskipped => exact .ended htour hskipped
    · rw [hnext] at hrun
      cases hrun

end Dictionary

end ObjectMachine
