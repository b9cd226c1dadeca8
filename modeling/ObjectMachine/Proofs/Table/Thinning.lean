import Mathlib.Tactic
import ObjectMachine.Proofs.Table.Drift

/-! Tables that only lose entries.

Leaving tombstones and unlinking entries take mappings away and change nothing else that can be seen:
what is left stands in the old order.  `mappings` lists the mappings of a table with their ids, so that
a table that lost some can be said to be a filtered one. -/

namespace ObjectMachine.Table

open Relation (ReflTransGen)

variable {t t' t'' : Table} {chains : Nat → List EntryId} {id : EntryId} {e : Entry}

/-- The mappings that some ids have, with the ids. -/
def mappingsOf (t : Table) (ids : List EntryId) : List (EntryId × Entry) :=
  ids.filterMap fun id => (t.mapping? id).map (id, ·)

/-- The mappings of a table with their ids, in iteration order. -/
def mappings (t : Table) : List (EntryId × Entry) := t.mappingsOf t.entryIds

theorem mappingsOf_cons_of_none {ids : List EntryId} (h : t.mapping? id = none) :
    t.mappingsOf (id :: ids) = t.mappingsOf ids := by
  rw [mappingsOf, List.filterMap_cons, h]
  rfl

theorem mappingsOf_cons_of_some {ids : List EntryId} (h : t.mapping? id = some e) :
    t.mappingsOf (id :: ids) = (id, e) :: t.mappingsOf ids := by
  rw [mappingsOf, List.filterMap_cons, h]
  rfl

theorem mem_mappingsOf {ids : List EntryId} {p : EntryId × Entry} :
    p ∈ t.mappingsOf ids ↔ p.1 ∈ ids ∧ t.mapping? p.1 = some p.2 := by
  rw [mappingsOf, List.mem_filterMap]
  constructor
  · rintro ⟨id, hid, h⟩
    obtain ⟨e, he, rfl⟩ := Option.map_eq_some_iff.mp h
    exact ⟨hid, he⟩
  · rintro ⟨hid, he⟩
    exact ⟨p.1, hid, by rw [he]; rfl⟩

/-- Ids without an entry contribute nothing. -/
theorem mappingsOf_filter_isLive (t : Table) (ids : List EntryId) :
    t.mappingsOf (ids.filter t.isLive) = t.mappingsOf ids := by
  rw [mappingsOf, List.filterMap_filter, mappingsOf]
  refine List.filterMap_congr fun id _ => ?_
  cases h : t.isLive id with
  | true => rfl
  | false =>
    have hdead : t.get? id = none := by simpa [isLive] using h
    rw [mapping?, content?, hdead]
    rfl

/-- The mappings that are left when those of some ids are taken away. -/
theorem mappingsOf_of_gone {gone : List EntryId}
    (hgone : ∀ j, t'.mapping? j = if j ∈ gone then none else t.mapping? j) :
    ∀ ids : List EntryId,
      t'.mappingsOf ids = (t.mappingsOf ids).filter fun p => decide (p.1 ∉ gone)
  | [] => rfl
  | id :: ids => by
    have hrest := mappingsOf_of_gone hgone ids
    have hid := hgone id
    cases he : t.mapping? id with
    | none =>
      rw [he, ite_self] at hid
      rw [mappingsOf_cons_of_none hid, mappingsOf_cons_of_none he, hrest]
    | some e =>
      rw [mappingsOf_cons_of_some he]
      split at hid
      · rw [mappingsOf_cons_of_none hid, hrest, List.filter_cons_of_neg (by simpa)]
      · rw [he] at hid
        rw [mappingsOf_cons_of_some hid, hrest, List.filter_cons_of_pos (by simpa)]

theorem map_fst_mappingsOf_sublist (t : Table) : ∀ ids : List EntryId,
    ((t.mappingsOf ids).map (·.1)).Sublist ids
  | [] => .slnil
  | id :: ids => by
    have hrest := map_fst_mappingsOf_sublist t ids
    cases h : t.mapping? id with
    | none => rw [mappingsOf_cons_of_none h]; exact hrest.cons id
    | some e => rw [mappingsOf_cons_of_some h]; exact hrest.cons_cons id

theorem WellFormed.entries_eq (hw : t.WellFormed) :
    t.entries = t.mappings.map fun p => (p.2.key, p.2.record) := by
  obtain ⟨chains, hc⟩ := hw
  have hlist : ∀ l : List (EntryId × Entry), (∀ p ∈ l, t.get? p.1 = some p.2) →
      (l.filter (!·.2.isTombstone)).map (fun p => (p.2.key, p.2.record)) =
        (t.mappingsOf (l.map (·.1))).map fun p => (p.2.key, p.2.record) := by
    intro l hl
    induction l with
    | nil => rfl
    | cons p l ih =>
      have hrest := ih fun q hq => hl q (List.mem_cons_of_mem _ hq)
      have hget := hl p List.mem_cons_self
      cases hd : p.2.isTombstone with
      | true =>
        have hnone : t.mapping? p.1 = none := by
          rw [mapping?, content?, hget, Option.map_some, Option.filter_some, if_neg (by simp [hd])]
        rw [List.filter_cons_of_neg (by simp [hd]), List.map_cons, mappingsOf_cons_of_none hnone]
        exact hrest
      | false =>
        rw [List.filter_cons_of_pos (by simp [hd]), List.map_cons, List.map_cons,
          mappingsOf_cons_of_some (mapping?_of_get? hget hd), List.map_cons]
        exact congrArg _ hrest
  exact hlist t.linked fun p hp => hc.mem_linked.mp hp

/-! ### Tombstones -/

/-- One entry was left as a tombstone. -/
def Bury (t t' : Table) : Prop := ∃ id e, t.tombstone id = some (e, t')

theorem evolves_of_buries (h : ReflTransGen Bury t t') : t.Evolves 0 t' := by
  induction h with
  | refl => exact .refl
  | tail _ h ih =>
    obtain ⟨id, e, h⟩ := h
    exact ih.tombstone h

/-- A mapping that is left is the one that was there. -/
theorem mapping?_of_buries (h : ReflTransGen Bury t t') (j : EntryId) :
    t'.mapping? j = t.mapping? j ∨ t'.mapping? j = none := by
  induction h with
  | refl => exact Or.inl rfl
  | tail _ h ih =>
    obtain ⟨id, e, h⟩ := h
    rw [mapping?_tombstone h]
    split
    · exact Or.inr rfl
    · exact ih

/-! ### Thinning -/

/-- The ids of the second table are those of the first that are left, in the same order, in as many
bins. -/
structure Thins (t t' : Table) : Prop where
  wellFormed : t'.WellFormed
  size_eq : t'.bins.size = t.bins.size
  entryIds_eq : t'.entryIds = t.entryIds.filter t'.isLive

theorem WellFormed.isLive_iff_mem (hw : t.WellFormed) : t.isLive id = true ↔ id ∈ t.entryIds := by
  obtain ⟨chains, hc⟩ := hw
  rw [isLive, Option.isSome_iff_exists, hc.linked, hc.entryIds_eq]

theorem WellFormed.nodup_entryIds (hw : t.WellFormed) : t.entryIds.Nodup := by
  obtain ⟨chains, hc⟩ := hw
  exact hc.entryIds_eq ▸ hc.once

theorem Thins.of_evolves (hw : t.WellFormed) (h : t.Evolves 0 t') : t.Thins t' := by
  have hw' := hw.changes h.changes
  have hids := h.entryIds_eq hw
  obtain ⟨chains, hc⟩ := id hw
  refine ⟨hw', (h.chained rfl hc).2, ?_⟩
  rw [List.filter_eq_self.mpr, hids]
  exact fun id hid => hw'.isLive_iff_mem.mpr (hids ▸ hid)

theorem Thins.refl (hw : t.WellFormed) : t.Thins t := .of_evolves hw .refl

theorem Thins.trans (h : t.Thins t') (h' : t'.Thins t'') : t.Thins t'' := by
  refine ⟨h'.wellFormed, h'.size_eq.trans h.size_eq, ?_⟩
  rw [h'.entryIds_eq, h.entryIds_eq, List.filter_filter]
  refine List.filter_congr fun id _ => ?_
  cases hl : t''.isLive id with
  | false => rfl
  | true =>
    have hmem := h'.wellFormed.isLive_iff_mem.mp hl
    rw [h'.entryIds_eq] at hmem
    rw [h.wellFormed.isLive_iff_mem.mpr (List.mem_of_mem_filter hmem), Bool.and_self]

theorem Thins.of_unlink (hw : t.WellFormed) (h : t.unlink id = .ok (e, t')) : t.Thins t' := by
  obtain ⟨chains, hc⟩ := hw
  obtain ⟨-, ⟨chains', hc'⟩, -⟩ := hc.unlink h
  obtain ⟨hsize, hids⟩ := hc.chainIds_unlink h
  refine ⟨⟨chains', hc'⟩, hsize, ?_⟩
  rw [hc'.entryIds_eq, hc.entryIds_eq, idsOf, idsOf, hsize, List.filter_flatMap]
  refine List.flatMap_congr fun bin hbin => ?_
  have hb := List.mem_range.mp hbin
  rw [← hc'.chainIds_eq (hsize ▸ hb), hids bin hb, hc.chainIds_eq hb]

/-- A table that lost the mappings of some ids has the others in the old order. -/
theorem Thins.mappings_eq (h : t.Thins t') {gone : List EntryId}
    (hgone : ∀ j, t'.mapping? j = if j ∈ gone then none else t.mapping? j) :
    t'.mappings = t.mappings.filter fun p => decide (p.1 ∉ gone) := by
  rw [mappings, mappings, h.entryIds_eq, mappingsOf_filter_isLive, mappingsOf_of_gone hgone]

/-! ### Checks -/

theorem Leads.reaches : ∀ {cursor : Option EntryId} {ids : List EntryId} {fuel : Nat},
    t.Leads cursor ids → id ∈ ids → ids.length ≤ fuel → t.reaches id fuel cursor = true
  | _, j :: ids, fuel + 1, ⟨hcursor, f, hf, hl⟩, hid, hlen => by
    rw [hcursor, Table.reaches, hf, Option.bind_some, Bool.or_eq_true, beq_iff_eq]
    rcases List.mem_cons.mp hid with rfl | hid
    · exact Or.inl rfl
    · exact Or.inr (hl.reaches hid (Nat.le_of_succ_le_succ hlen))

/-- An entry is found in its bin. -/
theorem WellFormed.chainContains (hw : t.WellFormed) (he : t.get? id = some e) :
    t.chainContains (t.binOf e.hash) id = true := by
  obtain ⟨chains, hc⟩ := hw
  obtain ⟨bin, hbin, hid⟩ := mem_idsOf.mp ((hc.linked id).mp ⟨e, he⟩)
  obtain rfl := hc.home bin hbin id hid e he
  have hends := hc.ends _ hbin
  exact hends.reaches hid (Nat.le_succ_of_le hends.length_le)

end ObjectMachine.Table
