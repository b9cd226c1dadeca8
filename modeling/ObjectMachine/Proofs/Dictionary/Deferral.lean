import Mathlib.Tactic
import ObjectMachine.Proofs.Dictionary.Refinement
import ObjectMachine.Proofs.Dictionary.Tombstones
import ObjectMachine.Proofs.Table.Thinning

/-! Removing later is removing now.

A removal either unlinks its entry at once or leaves a tombstone, which a cleanup unlinks later.
`Defers` relates a table whose removals are deferred to one where they are done: on every chain the
entries that are not tombstones are the same, with the same ids and in the same order.  A removal of
the same key on both sides finds the same entry and keeps the relation, and so does a cleanup of the
first table, after which nothing is left to tell the two apart. -/

namespace ObjectMachine

/-- Writing to an object what it has is no change. -/
theorem Heap.modify_eq_self {facet : Facet α} (hf : facet.Lawful) {v : Value} {x : α} {h : Heap}
    (hx : h.read facet v = .ok x) : h.modify facet v (fun _ => x) = h := by
  obtain ⟨o, ho, hb⟩ := read_eq_ok_iff.mp hx
  obtain ⟨hr, hslot⟩ := get?_eq_some_iff.mp ho
  have hsame : ({ o with body := facet.put x } : Object) = o := by rw [hf.put_eq hb]
  rw [modify, modifyObject, if_pos hr]
  have hslots : ∀ f : Slot → Slot, f ⟨v.slotGeneration, some o⟩ = ⟨v.slotGeneration, some o⟩ →
      h.slots.modify v.slotIndex f = h.slots := by
    intro f hfix
    refine Array.ext_getElem? fun i => ?_
    rw [Array.getElem?_modify]
    split
    next hi => rw [← hi, hslot, Option.map_some, hfix]
    next => rfl
  rw [hslots]
  simp only [if_true, Option.map_some, hb, hsame]

namespace Table

variable {t t' u u' : Table} {id : EntryId} {e f : Entry}

/-! ### The mappings on a chain -/

/-- The mappings on the chain of a bin, with their ids. -/
def chainMappings (t : Table) (bin : Nat) : List (EntryId × Entry) := t.mappingsOf (t.chainIds bin)

/-- What stands on the chain of a bin, tombstones included, apart from the links. -/
def chainContents (t : Table) (bin : Nat) : List (EntryId × Entry) :=
  (t.chain bin).map fun p => (p.1, p.2.content)

theorem chain_eq_nil {bin : Nat} (hb : ¬ bin < t.bins.size) : t.chain bin = [] := by
  have hhead : t.binHead bin = none := by
    rw [binHead, Array.getD_eq_getD_getElem?, Array.getElem?_eq_none (Nat.le_of_not_lt hb)]
    rfl
  rw [chain, hhead]
  cases t.slots.size with
  | zero => rfl
  | succ n => rfl

/-- On a chain without tombstones stand its mappings. -/
theorem WellFormed.chainContents_eq (hw : t.WellFormed) (hswept : t.tombstones = []) (bin : Nat) :
    t.chainContents bin = t.chainMappings bin := by
  have hlist : ∀ l : List (EntryId × Entry), (∀ p ∈ l, t.get? p.1 = some p.2) →
      l.map (fun p => (p.1, p.2.content)) = t.mappingsOf (l.map (·.1)) := by
    intro l hl
    induction l with
    | nil => rfl
    | cons p l ih =>
      have hget := hl p List.mem_cons_self
      have hkey : p.2.isTombstone = false := by
        obtain ⟨chains, hc⟩ := hw
        have hnot := List.eq_nil_iff_forall_not_mem.mp hswept p.1
        rw [hc.mem_tombstones, holdsTombstone_of_get? hget, Bool.not_eq_true] at hnot
        exact hnot
      rw [List.map_cons, List.map_cons, mappingsOf_cons_of_some (mapping?_of_get? hget hkey),
        ih fun q hq => hl q (List.mem_cons_of_mem _ hq)]
  exact hlist _ fun p hp => get?_of_mem_chainFrom hp

/-- Every mapping stands on the chain of one of the bins. -/
theorem WellFormed.mapping?_iff (hw : t.WellFormed) :
    t.mapping? id = some e ↔ ∃ bin < t.bins.size, (id, e) ∈ t.chainMappings bin := by
  obtain ⟨chains, hc⟩ := hw
  constructor
  · intro he
    obtain ⟨f, hf, -⟩ := mapping?_eq_some_iff.mp he
    obtain ⟨bin, hb, hid⟩ := mem_idsOf.mp ((hc.linked id).mp ⟨f, hf⟩)
    exact ⟨bin, hb, mem_mappingsOf.mpr ⟨(hc.chainIds_eq hb).symm ▸ hid, he⟩⟩
  · rintro ⟨bin, -, hmem⟩
    exact (mem_mappingsOf.mp hmem).2

/-- The count is the number of mappings on the chains. -/
theorem WellFormed.count_eq_chainMappings (hw : t.WellFormed) :
    t.count = ((List.range t.bins.size).flatMap t.chainMappings).length := by
  have hentries := hw.entries_eq
  obtain ⟨chains, hc⟩ := hw
  have hids : t.entryIds = (List.range t.bins.size).flatMap t.chainIds := by
    rw [entryIds, linked, List.map_flatMap]
    rfl
  rw [hc.count_eq_length, hentries, List.length_map, mappings, hids, mappingsOf,
    List.filterMap_flatMap]
  rfl

theorem WellFormed.chainMappings_unlink (hw : t.WellFormed) (h : t.unlink id = .ok (e, t')) :
    t'.bins.size = t.bins.size ∧ ∀ bin < t.bins.size,
      t'.chainMappings bin = (t.chainMappings bin).filter fun p => decide (p.1 ∉ [id]) := by
  obtain ⟨chains, hc⟩ := hw
  obtain ⟨hsize, hids⟩ := hc.chainIds_unlink h
  have hgone : ∀ j, t'.mapping? j = if j ∈ [id] then none else t.mapping? j := by
    simpa using mapping?_unlink hc h
  refine ⟨hsize, fun bin hb => ?_⟩
  rw [chainMappings, hids bin hb, mappingsOf_filter_isLive, mappingsOf_of_gone hgone]
  rfl

theorem WellFormed.chainMappings_tombstone (hw : t.WellFormed) (h : t.tombstone id = some (e, t')) :
    t'.bins.size = t.bins.size ∧ ∀ bin < t.bins.size,
      t'.chainMappings bin = (t.chainMappings bin).filter fun p => decide (p.1 ∉ [id]) := by
  obtain ⟨chains, hc⟩ := hw
  have hsize : t'.bins.size = t.bins.size := by
    obtain ⟨-, -, rfl⟩ := tombstone_eq_some_iff.mp h
    rfl
  have hgone : ∀ j, t'.mapping? j = if j ∈ [id] then none else t.mapping? j := by
    simpa using mapping?_tombstone h
  refine ⟨hsize, fun bin hb => ?_⟩
  have hids : t'.chainIds bin = t.chainIds bin :=
    ((hc.tombstone h).chainIds_eq (hsize.symm ▸ hb)).trans (hc.chainIds_eq hb).symm
  rw [chainMappings, hids, mappingsOf_of_gone hgone]
  rfl

/-! ### Deferring removals -/

/-- The first table is the second, except that some entries that the second has unlinked are still
there as tombstones. -/
structure Defers (t u : Table) : Prop where
  wellFormed : t.WellFormed
  wellFormed_done : u.WellFormed
  strategy_eq : t.strategy = u.strategy
  size_eq : t.bins.size = u.bins.size
  chains_eq : ∀ bin < t.bins.size, t.chainMappings bin = u.chainMappings bin
  swept : u.tombstones = []

theorem Defers.refl (hw : t.WellFormed) (hswept : t.tombstones = []) : t.Defers t :=
  ⟨hw, hw, rfl, rfl, fun _ _ => rfl, hswept⟩

theorem Defers.mapping?_eq (h : t.Defers u) (id : EntryId) : t.mapping? id = u.mapping? id := by
  refine Option.ext fun e => ?_
  rw [h.wellFormed.mapping?_iff, h.wellFormed_done.mapping?_iff, ← h.size_eq]
  refine exists_congr fun bin => and_congr_right fun hb => ?_
  rw [h.chains_eq bin hb]

theorem Defers.count_eq (h : t.Defers u) : t.count = u.count := by
  rw [h.wellFormed.count_eq_chainMappings, h.wellFormed_done.count_eq_chainMappings, ← h.size_eq]
  exact congrArg _ (List.flatMap_congr fun bin hb => h.chains_eq bin (List.mem_range.mp hb))

/-- Removing an entry on one side with a tombstone and on the other at once. -/
theorem Defers.remove (h : t.Defers u) (ht : t.tombstone id = some (e, t'))
    (hu : u.unlink id = .ok (f, u')) : t'.Defers u' := by
  have hchange : t.Change t' := .tombstone ht
  have hchange' : u.Change u' := .unlink hu
  obtain ⟨hsize, hchains⟩ := h.wellFormed.chainMappings_tombstone ht
  obtain ⟨hsize', hchains'⟩ := h.wellFormed_done.chainMappings_unlink hu
  refine ⟨h.wellFormed.change hchange, h.wellFormed_done.change hchange', ?_, ?_, fun bin hb => ?_, ?_⟩
  · rw [hchange.strategy_eq, hchange'.strategy_eq, h.strategy_eq]
  · rw [hsize, hsize', h.size_eq]
  · rw [hsize] at hb
    rw [hchains bin hb, hchains' bin (h.size_eq ▸ hb), h.chains_eq bin hb]
  · obtain ⟨chains, hc⟩ := h.wellFormed_done
    obtain ⟨chains', hc'⟩ := h.wellFormed_done.change hchange'
    refine List.eq_nil_iff_forall_not_mem.mpr fun j hj => ?_
    rw [hc'.mem_tombstones, holdsTombstone, (hc.unlink hu).2.2] at hj
    split at hj
    · cases hj
    · have hold : j ∈ u.tombstones := hc.mem_tombstones.mpr hj
      rw [h.swept] at hold
      cases hold

/-- Unlinking a tombstone. -/
theorem Defers.sweep (h : t.Defers u) (hdead : t.holdsTombstone id = true)
    (ht : t.unlink id = .ok (e, t')) : t'.Defers u := by
  have hchange : t.Change t' := .unlink ht
  obtain ⟨hsize, hchains⟩ := h.wellFormed.chainMappings_unlink ht
  refine ⟨h.wellFormed.change hchange, h.wellFormed_done, hchange.strategy_eq.trans h.strategy_eq,
    hsize.trans h.size_eq, fun bin hb => ?_, h.swept⟩
  rw [hsize] at hb
  rw [hchains bin hb, List.filter_eq_self.mpr fun p hp => ?_, h.chains_eq bin hb]
  -- a tombstone is no mapping
  have hmapping := (mem_mappingsOf.mp hp).2
  refine decide_eq_true fun hid => ?_
  rw [List.mem_singleton] at hid
  obtain ⟨f, hf, hkey, -⟩ := mapping?_eq_some_iff.mp hmapping
  rw [hid] at hf
  rw [holdsTombstone_of_get? hf, hkey] at hdead
  cases hdead

theorem Defers.unlinkAll : ∀ (ids : List EntryId) {t : Table}, t.Defers u → ids.Nodup →
    (∀ id ∈ ids, t.holdsTombstone id = true) → (t.unlinkAll ids).2.Defers u
  | [], _, h, _, _ => h
  | id :: ids, t, h, hnodup, hdead => by
    rw [List.nodup_cons] at hnodup
    rw [Table.unlinkAll]
    cases ht : t.unlink id with
    | error how => exact h
    | ok p =>
      obtain ⟨e, t'⟩ := p
      refine Defers.unlinkAll ids (h.sweep (hdead id List.mem_cons_self) ht) hnodup.2 fun j hj => ?_
      obtain ⟨chains, hc⟩ := h.wellFormed
      have hne : j ≠ id := fun heq => hnodup.1 (heq ▸ hj)
      rw [holdsTombstone, (hc.unlink ht).2.2, if_neg hne]
      exact hdead j (List.mem_cons_of_mem _ hj)

/-- A cleanup succeeds, and then nothing tells the tables apart. -/
theorem Defers.cleanup (h : t.Defers u) : ∃ t', t.unlinkAll t.tombstones = (none, t') ∧ t'.Defers u ∧
    t'.tombstones = [] ∧ ∀ bin, t'.chainContents bin = u.chainContents bin := by
  obtain ⟨chains, hc⟩ := id h.wellFormed
  obtain ⟨t', ht', -, hnone, -⟩ := h.wellFormed.unlinkAll_tombstones
  have hdefers := Defers.unlinkAll t.tombstones h hc.nodup_tombstones fun id hid =>
    hc.mem_tombstones.mp hid
  rw [ht'] at hdefers
  refine ⟨t', ht', hdefers, hnone, fun bin => ?_⟩
  by_cases hb : bin < t'.bins.size
  · rw [hdefers.wellFormed.chainContents_eq hnone, hdefers.wellFormed_done.chainContents_eq h.swept,
      hdefers.chains_eq bin hb]
  · rw [chainContents, chainContents, chain_eq_nil hb, chain_eq_nil (hdefers.size_eq ▸ hb)]

end Table

namespace Dictionary

open Effect Table

/-! ### Keys that are functions -/

/-- Hash and equality of the keys in the domain are functions on the machines in scope: they answer,
and leave the machine as it is.  What a removal does to a machine does not leave the scope.  No more is
asked of the functions; equality need not be an equivalence. -/
structure PureKeys (keys : Keys) (hash : Value → UInt64) (equal : Value → Value → Bool)
    (domain : Value → Prop) (scope : Machine → Prop) (table : Value) : Prop where
  hash_eq : ∀ {m key}, scope m → domain key → keys.hash key m = .ok (hash key) m
  equal_eq : ∀ {m key other}, scope m → domain key → domain other →
    keys.equal key other m = .ok (equal key other) m
  handles : ∀ {m : Machine} (places : Array Value), scope m → scope { m with handles := places }
  events : ∀ {m : Machine} (log : Array Event), scope m → scope { m with events := log }
  changes : ∀ {m : Machine} (f : Table → Table), scope m →
    scope { m with heap := m.heap.modify Facet.table table f }

variable {keys : Keys} {meaning : KeyMeaning} {hash : UInt64} {hashOf : Value → UInt64}
  {equal : Value → Value → Bool} {domain : Value → Prop} {scope : Machine → Prop}
  {table key : Value} {m : Machine} {t t' u : Table}

/-- What a scope is closed under, as a law for no keys at all. -/
theorem PureKeys.frame (hp : PureKeys keys hashOf equal domain scope table) :
    Lawful Keys.symbol (.ofView id fun _ => 0) (fun _ => False) scope table where
  ne_absent h := h.elim
  hash_eq _ h := h.elim
  equal_eq _ h := h.elim
  handles := hp.handles
  events := hp.events
  changes := hp.changes

/-- Whether an entry is taken for the one of a key. -/
def accepts (equal : Value → Value → Bool) (key : Value) (hash : UInt64) (e : Entry) : Bool :=
  e.hash == hash && (e.key == key || equal key e.key)

/-- The first mapping that is taken for the one of a key, on the chain of its hash. -/
def seek (hash : Value → UInt64) (equal : Value → Value → Bool) (t : Table) (key : Value) :
    Option EntryId :=
  ((t.chainMappings (t.binOf (hash key))).find? fun p => accepts equal key (hash key) p.2).map (·.1)

theorem seek_eq_some {id : EntryId} (h : seek hashOf equal t key = some id) :
    ∃ e, t.mapping? id = some e := by
  obtain ⟨p, hp, rfl⟩ := Option.map_eq_some_iff.mp h
  exact ⟨p.2, (mem_mappingsOf.mp (List.mem_of_find?_eq_some hp)).2⟩

theorem PureKeys.isMatch (hp : PureKeys keys hashOf equal domain scope table)
    (hm : Holds scope table t m) (hkey : domain key) {e : Entry}
    (he : e.isTombstone = false → domain e.key) :
    Yields scope table (isMatch keys key hash e) m (!e.isTombstone && accepts equal key hash e) t := by
  unfold Dictionary.isMatch accepts
  rw [show e.key.isAbsent = e.isTombstone from rfl]
  cases hhash : e.hash == hash with
  | false =>
    rw [Bool.false_and, Bool.false_and, Bool.and_false]
    exact hm.pure false
  | true =>
    cases hdead : e.isTombstone with
    | true => exact hm.pure false
    | false =>
      cases hsame : e.key == key with
      | true => exact hm.pure true
      | false => exact ⟨m, hp.equal_eq hm.inScope hkey (he hdead), hm⟩

/-- Searching along a chain passes over the tombstones. -/
theorem PureKeys.findFrom (hp : PureKeys keys hashOf equal domain scope table) (hkey : domain key)
    (hkeys : ∀ id e, t.mapping? id = some e → domain e.key) :
    ∀ {m : Machine} {cursor : Option EntryId} {chain : List EntryId} {fuel : Nat},
      t.Leads cursor chain → chain.length ≤ fuel → Holds scope table t m →
      Yields scope table (findFrom keys table key hash fuel cursor) m
        (((t.mappingsOf chain).find? fun p => accepts equal key hash p.2).map (·.1)) t
  | m, cursor, [], fuel, hlead, _, hm => by
    obtain rfl : cursor = none := hlead
    rw [Dictionary.findFrom]
    exact hm.pure none
  | m, cursor, id :: chain, fuel + 1, ⟨hc, e, he, hlead⟩, hfuel, hm => by
    subst hc
    have hrest := fun m hm => hp.findFrom (m := m) hkey hkeys hlead (Nat.le_of_succ_le_succ hfuel) hm
    refine hm.read.bind fun m hm => ?_
    simp only [he]
    have hdomain : e.isTombstone = false → domain e.key := fun hlive =>
      hkeys id e.content (mapping?_of_get? he hlive)
    refine (hp.isMatch hm hkey hdomain).bind fun m hm => ?_
    cases hdead : e.isTombstone with
    | true =>
      have hnone : t.mapping? id = none := by
        rw [mapping?, content?, he, Option.map_some, Option.filter_some, if_neg (by simp [hdead])]
      rw [mappingsOf_cons_of_none hnone]
      exact hrest m hm
    | false =>
      rw [mappingsOf_cons_of_some (mapping?_of_get? he hdead), List.find?_cons]
      have hsame : accepts equal key hash e.content = accepts equal key hash e := rfl
      rw [hsame]
      cases accepts equal key hash e with
      | true => exact hm.pure (some id)
      | false => exact hrest m hm

/-- The search of an operation. -/
theorem PureKeys.search (hp : PureKeys (meaning t.strategy) hashOf equal domain scope table)
    (hw : t.WellFormed) (hkey : domain key) (hkeys : ∀ id e, t.mapping? id = some e → domain e.key)
    (hm : Holds scope table t m) :
    Yields scope table (search meaning table key) m (seek hashOf equal t key) t := by
  obtain ⟨chains, hc⟩ := hw
  have hbin := hc.binOf_lt (hashOf key)
  have hlead := hc.ends _ hbin
  rw [← hc.chainIds_eq hbin] at hlead
  have hlength := hlead.length_le
  rw [Dictionary.search, keysOf_bind]
  refine hm.read.bind fun m hm => ?_
  have hhash : Yields scope table ((meaning t.strategy).hash key) m (hashOf key) t :=
    ⟨m, hp.hash_eq hm.inScope hkey, hm⟩
  refine hhash.bind fun m hm => hm.read.bind fun m hm => ?_
  exact hp.findFrom hkey hkeys hlead (by omega) hm

/-- What removals have in common. -/
theorem PureKeys.withSearch (hp : PureKeys (meaning t.strategy) hashOf equal domain scope table)
    (hw : t.WellFormed) (hkey : domain key) (hkeys : ∀ id e, t.mapping? id = some e → domain e.key)
    (hm : Holds scope table t m) {k : Option EntryId → Effect β} {y : β}
    (hk : ∀ m, Holds scope table t m → Yields scope table (k (seek hashOf equal t key)) m y t') :
    Yields scope table (withHandles do
      pinAll [table, key]
      let found ← Dictionary.search meaning table key
      k found) m y t' :=
  hp.frame.withHandles ((hp.frame.pinAll [table, key] hm).bind fun _ hm =>
    (hp.search hw hkey hkeys hm).bind hk)

/-! ### Removals side by side -/

/-- A removal that is deferred and one that is not give the same answer, and the first leaves one more
tombstone if there was something to remove. -/
theorem exists_removal (h : t.Defers u)
    (hp : PureKeys (meaning t.strategy) hashOf equal domain scope table) (hkey : domain key)
    (hkeys : ∀ id e, t.mapping? id = some e → domain e.key) :
    ∃ answer t' u', t'.Defers u' ∧ t'.strategy = t.strategy ∧
      (∀ id e, t'.mapping? id = some e → domain e.key) ∧
      t'.tombstones.length = t.tombstones.length + (if answer.isSome then 1 else 0) ∧
      (∀ m, Holds scope table t m → Yields scope table (deleteSafe meaning table key) m answer t') ∧
      ∀ m, Holds scope table u m → Yields scope table (delete meaning table key) m answer u' := by
  have hp' : PureKeys (meaning u.strategy) hashOf equal domain scope table := h.strategy_eq ▸ hp
  have hkeys' : ∀ id e, u.mapping? id = some e → domain e.key := fun id e he =>
    hkeys id e ((h.mapping?_eq id).trans he)
  obtain ⟨chains, hc⟩ := id h.wellFormed
  have hsame : seek hashOf equal u key = seek hashOf equal t key := by
    have hbin : u.binOf (hashOf key) = t.binOf (hashOf key) := by rw [binOf, binOf, h.size_eq]
    rw [seek, seek, hbin, h.chains_eq _ (hc.binOf_lt _)]
  cases hfound : seek hashOf equal t key with
  | none =>
    refine ⟨none, t, u, h, rfl, hkeys, rfl, fun m hm => ?_, fun m hm => ?_⟩
    · rw [deleteSafe_eq]
      refine hp.withSearch h.wellFormed hkey hkeys hm fun m hm => ?_
      rw [hfound]
      exact hm.pure none
    · rw [delete_eq]
      refine hp'.withSearch h.wellFormed_done hkey hkeys' hm fun m hm => ?_
      rw [hsame, hfound]
      exact hm.pure none
  | some id =>
    obtain ⟨e₀, he₀⟩ := seek_eq_some hfound
    obtain ⟨e, he, hlive, rfl⟩ := mapping?_eq_some_iff.mp he₀
    obtain ⟨f, hf, -, hcontent⟩ := mapping?_eq_some_iff.mp ((h.mapping?_eq id).symm.trans he₀)
    have hrecord : f.record = e.record := (congrArg Entry.record hcontent :)
    obtain ⟨t', ht⟩ : ∃ t', t.tombstone id = some (e, t') :=
      ⟨_, tombstone_eq_some_iff.mpr ⟨he, hlive, rfl⟩⟩
    obtain ⟨u', hu⟩ : ∃ u', u.unlink id = .ok (f, u') := by
      obtain ⟨chains', hc'⟩ := h.wellFormed_done
      exact hc'.exists_unlink hf
    have hchange : t.Change t' := .tombstone ht
    have hdefers := h.remove ht hu
    refine ⟨some e.record, t', u', hdefers, hchange.strategy_eq, fun j e' hj => ?_, ?_, fun m hm => ?_,
      fun m hm => ?_⟩
    · rw [mapping?_tombstone ht] at hj
      split at hj
      · cases hj
      · exact hkeys j e' hj
    · refine h.wellFormed.length_tombstones_succ (a := id) hdefers.wellFormed ?_ fun j => ?_
      · rw [holdsTombstone_of_get? he, hlive]
      · rw [holdsTombstone, content?_tombstone ht]
        by_cases hj : j = id
        · rw [if_pos hj, if_pos hj]
          rfl
        · rw [if_neg hj, if_neg hj]
          rfl
    · rw [deleteSafe_eq]
      refine hp.withSearch h.wellFormed hkey hkeys hm fun m hm => ?_
      rw [hfound]
      refine hm.read.bind fun m hm => ?_
      simp only [ht]
      exact (hp.frame.write hm _).bind fun m hm => hm.pure _
    · rw [delete_eq]
      refine hp'.withSearch h.wellFormed_done hkey hkeys' hm fun m hm => ?_
      rw [hsame, hfound, ← hrecord]
      refine hm.read.bind fun m hm => ?_
      simp only [hu]
      exact (hp'.frame.write hm _).bind fun m hm => hm.pure _

/-- Lists of removals give the same answers, and the deferred ones leave a tombstone for each record
they gave. -/
theorem exists_removals : ∀ (removed : List Value) {t u : Table}, t.Defers u →
    PureKeys (meaning t.strategy) hashOf equal domain scope table → (∀ key ∈ removed, domain key) →
    (∀ id e, t.mapping? id = some e → domain e.key) →
    ∃ answers t' u', t'.Defers u' ∧
      t'.tombstones.length = t.tombstones.length + answers.countP Option.isSome ∧
      (∀ m, Holds scope table t m →
        Yields scope table (removed.mapM (deleteSafe meaning table)) m answers t') ∧
      ∀ m, Holds scope table u m → Yields scope table (removed.mapM (delete meaning table)) m answers u'
  | [], t, u, h, _, _, _ => by
    refine ⟨[], t, u, h, rfl, fun m hm => ?_, fun m hm => ?_⟩
    · rw [List.mapM_nil]
      exact hm.pure []
    · rw [List.mapM_nil]
      exact hm.pure []
  | key :: removed, t, u, h, hp, hremoved, hkeys => by
    obtain ⟨answer, t₁, u₁, h₁, hs, hkeys₁, hlength, hlater, hnow⟩ :=
      exists_removal h hp (hremoved key List.mem_cons_self) hkeys
    obtain ⟨answers, t', u', h', hlengths, hlaters, hnows⟩ :=
      exists_removals removed h₁ (hs.symm ▸ hp)
        (fun k hk => hremoved k (List.mem_cons_of_mem _ hk)) hkeys₁
    refine ⟨answer :: answers, t', u', h', ?_, fun m hm => ?_, fun m hm => ?_⟩
    · rw [hlengths, hlength, List.countP_cons]
      omega
    · rw [List.mapM_cons]
      exact (hlater m hm).bind fun m hm => (hlaters m hm).bind fun m hm => hm.pure _
    · rw [List.mapM_cons]
      exact (hnow m hm).bind fun m hm => (hnows m hm).bind fun m hm => hm.pure _

/-- A cleanup of a table without tombstones changes nothing. -/
theorem cleanupSafe_swept (ht : m.heap.read Facet.table table = .ok t) (hswept : t.tombstones = []) :
    cleanupSafe table m = .ok 0 m := by
  rw [cleanupSafe, bind_of_ok (read_of_ok ht)]
  simp only [hswept, Table.unlinkAll, List.length_nil]
  have hwrite : write Facet.table table (fun _ => t) m = .ok () m := by
    have hsame := Heap.modify_eq_self Facet.lawful_table ht
    refine (bind_of_ok (read_of_ok ht)).trans ?_
    exact congrArg (fun h => EStateM.Result.ok () ({ m with heap := h } : Machine)) hsame
  exact bind_of_ok hwrite

/-- Let hash and equality of the keys be functions, and let a table be well formed and without
tombstones.  Then removing the keys of a list with tombstones and cleaning up afterwards is removing
them at once: the answers are the same, and so are the number of bins, the count, and what stands on
every chain, in its order.  The cleanup never fails, gives the number of the tombstones, one for each
record that was given out, and leaves none; another cleanup gives zero and changes nothing. -/
theorem deferred_removals_are_immediate (meaning : KeyMeaning) (hash : Value → UInt64)
    (equal : Value → Value → Bool) (domain : Value → Prop) (scope : Machine → Prop) (table : Value)
    (m : Machine) (t : Table) (hm : scope m) (ht : m.heap.read Facet.table table = .ok t)
    (hp : PureKeys (meaning t.strategy) hash equal domain scope table) (hw : t.WellFormed)
    (hswept : t.tombstones = []) (hstored : ∀ p ∈ t.entries, domain p.1) (removed : List Value)
    (hremoved : ∀ key ∈ removed, domain key) :
    ∃ answers now later buried swept immediate deferred,
      removed.mapM (delete meaning table) m = .ok answers now ∧
      now.heap.read Facet.table table = .ok immediate ∧
      removed.mapM (deleteSafe meaning table) m = .ok answers later ∧
      later.heap.read Facet.table table = .ok buried ∧
      buried.tombstones.length = answers.countP Option.isSome ∧
      cleanupSafe table later = .ok buried.tombstones.length swept ∧
      swept.heap.read Facet.table table = .ok deferred ∧
      deferred.bins.size = immediate.bins.size ∧ deferred.count = immediate.count ∧
      (∀ bin, deferred.chainContents bin = immediate.chainContents bin) ∧
      deferred.tombstones = [] ∧ cleanupSafe table swept = .ok 0 swept := by
  have hkeys : ∀ id e, t.mapping? id = some e → domain e.key := by
    intro id e he
    have hmem : (id, e) ∈ t.mappings :=
      mem_mappingsOf.mpr ⟨hw.isLive_iff_mem.mp (isLive_of_holdsKey (by rw [holdsKey_eq, he]; rfl)), he⟩
    refine hstored (e.key, e.record) ?_
    rw [hw.entries_eq]
    exact List.mem_map.mpr ⟨_, hmem, rfl⟩
  have hholds : Holds scope table t m := ⟨hm, ht⟩
  obtain ⟨answers, buried, immediate, hdefers, hlength, hlater, hnow⟩ :=
    exists_removals removed (Defers.refl hw hswept) hp hremoved hkeys
  obtain ⟨later, hlater, hlater'⟩ := hlater m hholds
  obtain ⟨now, hnow, hnow'⟩ := hnow m hholds
  obtain ⟨deferred, hunlink, hdone, hnone, hcontents⟩ := hdefers.cleanup
  have hclean : Yields scope table (cleanupSafe table) later buried.tombstones.length deferred := by
    refine hlater'.read.bind fun m hm => ?_
    simp only [hunlink]
    exact (hp.frame.write hm _).bind fun m hm => hm.pure _
  obtain ⟨swept, hclean, hswept'⟩ := hclean
  rw [hswept, List.length_nil, Nat.zero_add] at hlength
  exact ⟨answers, now, later, buried, swept, immediate, deferred, hnow, hnow'.read_eq, hlater,
    hlater'.read_eq, hlength, hclean, hswept'.read_eq, hdone.size_eq, hdone.count_eq, hcontents, hnone,
    cleanupSafe_swept hswept'.read_eq hnone⟩

/-- Keys that hash to a residue are functions on every machine. -/
theorem pureKeys_residue (modulus : Nat) (table : Value) :
    PureKeys (Keys.residue modulus)
      (fun key => match key.fixnum? with
        | some n => UInt64.ofNat (n % modulus).toNat
        | none => 0)
      (fun key other => key == other) (fun _ => True) (fun _ => True) table where
  hash_eq _ _ := rfl
  equal_eq _ _ _ := rfl
  handles _ _ := trivial
  events _ _ := trivial
  changes _ _ := trivial

/-- Three keys in one bin, two of them removed, one of these twice. -/
theorem deferred_removals_are_immediate_one_bin :
    let t : Table := (((Table.new (.residue 2) 0).prepend 1 (.ofNat 1) .nil).prepend 1 (.ofNat 3)
      .nil).prepend 1 (.ofNat 5) .nil
    let m : Machine := { heap := ({ settings := {} } : Heap).insert .nil (.table t) }
    let table : Value := .ofSlot 0 0
    let meaning := Calls.exhausted.keys
    let removed : List Value := [.ofNat 3, .ofNat 5, .ofNat 3]
    ∃ now later swept immediate deferred,
      removed.mapM (delete meaning table) m = .ok [some .nil, some .nil, none] now ∧
      now.heap.read Facet.table table = .ok immediate ∧
      removed.mapM (deleteSafe meaning table) m = .ok [some .nil, some .nil, none] later ∧
      cleanupSafe table later = .ok 2 swept ∧ swept.heap.read Facet.table table = .ok deferred ∧
      deferred.chainContents 1 = immediate.chainContents 1 := by
  intro t m table meaning removed
  have hw : t.WellFormed := by
    exact (((Table.wellFormed_new _ _).change (.prepend _ (by decide) _)).change
      (.prepend _ (by decide) _)).change (.prepend _ (by decide) _)
  have ht : m.heap.read Facet.table table = .ok t := by
    have hget := (Heap.sound_fresh {}).get?_insert .nil (.table t) (by decide) table
    exact Heap.read_eq_ok_iff.mpr ⟨_, hget.trans (if_pos (by decide)), rfl⟩
  obtain ⟨answers, now, later, buried, swept, immediate, deferred, hnow, himmediate, hlater, -, hcount,
    hclean, hdeferred, -, -, hcontents, -, -⟩ :=
    deferred_removals_are_immediate meaning _ _ _ _ table m t trivial ht
      (pureKeys_residue 2 table) hw (by decide) (fun _ _ => trivial) removed (fun _ _ => trivial)
  have heval : EStateM.run' (removed.mapM (delete meaning table)) m =
      some [some .nil, some .nil, none] := by decide +kernel
  delta EStateM.run' EStateM.run at heval
  rw [hnow] at heval
  obtain rfl := Option.some.inj heval
  rw [hcount] at hclean
  exact ⟨now, later, swept, immediate, deferred, hnow, himmediate, hlater, hclean, hdeferred,
    hcontents 1⟩

end Dictionary

end ObjectMachine
