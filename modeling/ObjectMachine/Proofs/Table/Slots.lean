import Mathlib.Tactic
import ObjectMachine.Object
import ObjectMachine.Proofs.Table.Changes

/-! What a table holds.

The values in a table are the keys and records of its live entries.  As long as the free list names
vacant slots, each once, adding an entry and spreading the entries over new bins lose none of
them. -/

namespace ObjectMachine

namespace Table

variable {t : Table}

/-- The free list names vacant slots, each once. -/
structure Slotted (t : Table) : Prop where
  vacant : ∀ i ∈ t.free, t.Vacant i
  nodup : t.free.Nodup

theorem WellFormed.slotted (hw : t.WellFormed) : t.Slotted := by
  obtain ⟨chains, hc⟩ := hw
  exact ⟨fun i hi => (hc.free_vacant i).mp hi, hc.free_nodup⟩

/-- The values in a table. -/
theorem mem_edges {v : Value} : v ∈ (Body.table t).edges ↔
    ∃ id e, t.get? id = some e ∧ (v = e.key ∨ v = e.record) := by
  simp only [Body.edges, slab, List.mem_flatMap, List.mem_filterMap, List.mem_cons,
    List.not_mem_nil, or_false]
  constructor
  · rintro ⟨e, ⟨slot, hslot, he⟩, hv⟩
    obtain ⟨i, hi⟩ := List.mem_iff_getElem?.mp hslot
    refine ⟨⟨i, slot.generation⟩, e, get?_eq_some_iff.mpr ?_, hv⟩
    rw [← he, ← hi, Array.getElem?_toList]
  · rintro ⟨id, e, he, hv⟩
    have hslot := Array.mem_of_getElem? (get?_eq_some_iff.mp he)
    exact ⟨e, ⟨_, Array.mem_toList_iff.mpr hslot, rfl⟩, hv⟩

/-! ### Writing a record -/

theorem Slotted.setRecord (hs : t.Slotted) (id : EntryId) (record : Value) :
    (t.setRecord id record).Slotted :=
  ⟨fun i hi => (vacant_adjust t id _ i).mpr (hs.vacant i hi), hs.nodup⟩

/-- A new record is the only value that is new. -/
theorem mem_edges_setRecord {id : EntryId} {record v : Value}
    (hv : v ∈ (Body.table (t.setRecord id record)).edges) :
    v ∈ (Body.table t).edges ∨ v = record := by
  obtain ⟨j, e, he, hv⟩ := mem_edges.mp hv
  rw [Table.setRecord, get?_adjust] at he
  split at he
  · obtain ⟨e', he', rfl⟩ := Option.map_eq_some_iff.mp he
    rcases hv with rfl | rfl
    · exact Or.inl (mem_edges.mpr ⟨id, e', he', Or.inl rfl⟩)
    · exact Or.inr rfl
  · exact Or.inl (mem_edges.mpr ⟨j, e, he, hv⟩)

/-! ### Adding an entry -/

theorem Slotted.prepend (hs : t.Slotted) (hash : UInt64) (key record : Value) :
    (t.prepend hash key record).Slotted := by
  obtain ⟨hnodup, hmem⟩ := mem_free_store hs.nodup ⟨hash, key, record, t.binHead (t.binOf hash)⟩
  refine ⟨fun i hi => ?_, hnodup⟩
  obtain ⟨hi, hne⟩ := (hmem i).mp hi
  exact (vacant_store hs.vacant _ i).mpr ⟨hs.vacant i hi, hne⟩

/-- The values of a new entry join those that are there. -/
theorem mem_edges_prepend (hs : t.Slotted) {hash : UInt64} {key record v : Value} :
    v ∈ (Body.table (t.prepend hash key record)).edges ↔
      v ∈ (Body.table t).edges ∨ v = key ∨ v = record := by
  have hget := get?_prepend hs.vacant hash key record
  rw [mem_edges, mem_edges]
  constructor
  · rintro ⟨j, e, he, hv⟩
    rw [hget] at he
    split at he
    · obtain rfl := Option.some.inj he
      exact Or.inr hv
    · exact Or.inl ⟨j, e, he, hv⟩
  · rintro (⟨j, e, he, hv⟩ | hv)
    · refine ⟨j, e, ?_, hv⟩
      rw [hget, if_neg ?_, he]
      rintro rfl
      rw [get?_nextId hs.vacant] at he
      cases he
    · exact ⟨t.nextId, _, (hget t.nextId).trans (if_pos rfl), hv⟩

/-! ### New bins -/

/-- The values in a table do not depend on the links. -/
theorem mem_edges_of_content?_eq {t' : Table} (h : ∀ id, t'.content? id = t.content? id) {v : Value}
    (hv : v ∈ (Body.table t).edges) : v ∈ (Body.table t').edges := by
  obtain ⟨id, e, he, hv⟩ := mem_edges.mp hv
  obtain ⟨e', he', hc⟩ := exists_get?_of_content?_eq (h id) he
  have hkey : e'.content.key = e.content.key := by rw [hc]
  have hrecord : e'.content.record = e.content.record := by rw [hc]
  exact mem_edges.mpr ⟨id, e', he', hv.imp (fun h => h.trans hkey.symm) fun h => h.trans hrecord.symm⟩

theorem Slotted.rehash (hs : t.Slotted) (n : Nat) : (t.rehash n).Slotted := by
  obtain ⟨hfree, hvacant, -⟩ := t.rehash_keeps n
  exact ⟨fun i hi => (hvacant i).mpr (hs.vacant i (hfree ▸ hi)), hfree ▸ hs.nodup⟩

theorem mem_edges_rehash {n : Nat} {v : Value} :
    v ∈ (Body.table (t.rehash n)).edges ↔ v ∈ (Body.table t).edges := by
  obtain ⟨-, -, hcontent⟩ := t.rehash_keeps n
  exact ⟨mem_edges_of_content?_eq fun id => (hcontent id).symm, mem_edges_of_content?_eq hcontent⟩

/-! ### One entry -/

/-- Entering a mapping takes a dead id, and leaves the content of every other id as it is. -/
theorem Slotted.exists_content?_enter (hs : t.Slotted) (hash : UInt64) (key record : Value) :
    ∃ id, t.content? id = none ∧ ∀ j, (t.enter hash key record).content? j =
      if j = id then some ⟨hash, key, record, none⟩ else t.content? j := by
  let u := if t.needsGrow then t.rehash (primeAtLeast (t.bins.size * 2)) else t
  have hu : u.Slotted ∧ ∀ j, u.content? j = t.content? j := by
    dsimp only [u]
    split
    · exact ⟨hs.rehash _, t.content?_rehash _⟩
    · exact ⟨hs, fun _ => rfl⟩
  obtain ⟨hslotted, hcontent⟩ := hu
  refine ⟨u.nextId, ?_, fun j => ?_⟩
  · rw [← hcontent, content?, get?_nextId hslotted.vacant]
    rfl
  · rw [← hcontent]
    show (u.prepend hash key record).content? j = _
    rw [content?, get?_prepend hslotted.vacant]
    split
    · rfl
    · rfl

/-- An entry is the new one, or holds what one held before. -/
theorem Slotted.get?_enter (hs : t.Slotted) {hash : UInt64} {key record : Value} {id : EntryId} {e : Entry}
    (he : (t.enter hash key record).get? id = some e) : e.key = key ∧ e.record = record ∨
      ∃ e₀, t.get? id = some e₀ ∧ e.key = e₀.key ∧ e.record = e₀.record := by
  obtain ⟨new, -, hcontent⟩ := hs.exists_content?_enter hash key record
  have hid := hcontent id
  rw [content?, he, Option.map_some] at hid
  split at hid
  · have hnew := Option.some.inj hid
    exact Or.inl ⟨congrArg Entry.key hnew, congrArg Entry.record hnew⟩
  · obtain ⟨e₀, he₀, hold⟩ := Option.map_eq_some_iff.mp hid.symm
    exact Or.inr ⟨e₀, he₀, (congrArg Entry.key hold).symm, (congrArg Entry.record hold).symm⟩

/-- One mapping was entered: all entries but one are as they were.  The one is new and has this key, or
its key is one of these and its record was replaced. -/
structure Enters (same : Value → Prop) (key record : Value) (t t' : Table) : Prop where
  strategy_eq : t'.strategy = t.strategy
  content : ∃ id, (∀ j, j ≠ id → t'.content? j = t.content? j) ∧
    ((t.content? id = none ∧ ∃ hash, t'.content? id = some ⟨hash, key, record, none⟩) ∨
      ∃ e, t.content? id = some e ∧ same e.key ∧ t'.content? id = some { e with record := record })

theorem Slotted.enters (hs : t.Slotted) (same : Value → Prop) (hash : UInt64) (key record : Value) :
    t.Enters same key record (t.enter hash key record) := by
  obtain ⟨id, hid, hcontent⟩ := hs.exists_content?_enter hash key record
  refine ⟨?_, id, fun j hj => by rw [hcontent, if_neg hj],
    Or.inl ⟨hid, hash, by rw [hcontent, if_pos rfl]⟩⟩
  rw [enter, strategy_prepend]
  split
  · exact strategy_rehash t _
  · rfl

theorem Enters.imp {same same' : Value → Prop} {key record : Value} {t' : Table}
    (h : t.Enters same key record t') (hsame : ∀ k, same k → same' k) : t.Enters same' key record t' := by
  obtain ⟨id, hother, hid⟩ := h.content
  refine ⟨h.strategy_eq, id, hother, hid.imp_right ?_⟩
  rintro ⟨e, he, hkey, he'⟩
  exact ⟨e, he, hsame _ hkey, he'⟩

end Table

end ObjectMachine
