import Mathlib.Data.Finmap
import Mathlib.Tactic
import ObjectMachine.Proofs.Table.Changes

/-! Tables as finite maps.

A law makes hash and equality functions of the keys alone.  The keys up to equality are the keys of a
finite map, which holds for each of them the key as it was entered and its record.  A table stands
for such a map through its mappings: the entries of its ids, tombstones left out, without links. -/

namespace ObjectMachine

/-- Hash and equality of keys as functions: an equivalence, and a hash that respects it. -/
structure KeyLaw where
  hash : Value → UInt64
  equal : Value → Value → Bool
  refl : ∀ a, equal a a = true
  symm : ∀ {a b}, equal a b = true → equal b a = true
  trans : ∀ {a b c}, equal a b = true → equal b c = true → equal a c = true
  hash_eq : ∀ {a b}, equal a b = true → hash a = hash b

namespace KeyLaw

def setoid (law : KeyLaw) : Setoid Value where
  r a b := law.equal a b = true
  iseqv := ⟨law.refl, law.symm, law.trans⟩

/-- The keys up to equality. -/
def Class (law : KeyLaw) : Type := Quotient law.setoid

def classOf (law : KeyLaw) (key : Value) : law.Class := Quotient.mk law.setoid key

theorem classOf_eq_iff {law : KeyLaw} {a b : Value} :
    law.classOf a = law.classOf b ↔ law.equal a b = true := Quotient.eq

instance (law : KeyLaw) : DecidableEq law.Class :=
  @Quotient.decidableEq _ law.setoid fun a b => inferInstanceAs (Decidable (law.equal a b = true))

/-- The law of keys that are equal if a view of them is. -/
def ofView [DecidableEq β] (view : Value → β) (hash : β → UInt64) : KeyLaw where
  hash key := hash (view key)
  equal a b := view a = view b
  refl a := by simp
  symm h := by simpa using (of_decide_eq_true h).symm
  trans h h' := by simpa using (of_decide_eq_true h).trans (of_decide_eq_true h')
  hash_eq h := by rw [of_decide_eq_true h]

@[simp] theorem ofView_equal [DecidableEq β] (view : Value → β) (hash : β → UInt64) (a b : Value) :
    (ofView view hash).equal a b = decide (view a = view b) := rfl

/-- Finite maps from keys up to equality to a key and its record. -/
abbrev Map (law : KeyLaw) := Finmap fun _ : law.Class => Value × Value

end KeyLaw

namespace Table

variable {t t' : Table} {chains : Nat → List EntryId}

/-- The entry of an id without its place in a chain, unless it is dead or a tombstone. -/
def mapping? (t : Table) (id : EntryId) : Option Entry :=
  (t.content? id).filter fun e => !e.isTombstone

theorem mapping?_eq_some_iff {id : EntryId} {e : Entry} : t.mapping? id = some e ↔
    ∃ f, t.get? id = some f ∧ f.isTombstone = false ∧ f.content = e := by
  rw [mapping?, Option.filter_eq_some_iff, content?, Option.map_eq_some_iff]
  constructor
  · rintro ⟨⟨f, hf, rfl⟩, hd⟩
    exact ⟨f, hf, by simpa using hd, rfl⟩
  · rintro ⟨f, hf, hd, rfl⟩
    exact ⟨⟨f, hf, rfl⟩, by simpa using hd⟩

theorem mapping?_of_get? {id : EntryId} {e : Entry} (he : t.get? id = some e)
    (hd : e.isTombstone = false) : t.mapping? id = some e.content :=
  mapping?_eq_some_iff.mpr ⟨e, he, hd, rfl⟩

/-- Mappings are read off the contents. -/
theorem mapping?_congr {id : EntryId} (h : t'.content? id = t.content? id) :
    t'.mapping? id = t.mapping? id := by rw [mapping?, mapping?, h]

/-! ### What changes do to mappings -/

theorem mapping?_prepend (hfree : ∀ i ∈ t.free, t.Vacant i) (hash : UInt64) {key : Value}
    (hkey : key ≠ .absent) (record : Value) (j : EntryId) :
    (t.prepend hash key record).mapping? j =
      if j = t.nextId then some ⟨hash, key, record, none⟩ else t.mapping? j := by
  have hget := get?_prepend hfree hash key record j
  by_cases hj : j = t.nextId
  · rw [if_pos hj] at hget ⊢
    exact mapping?_of_get? hget (by simpa [Entry.isTombstone, Value.isAbsent] using hkey)
  · rw [if_neg hj] at hget ⊢
    exact mapping?_congr (by rw [content?, content?, hget])

theorem mapping?_setRecord {id : EntryId} {e : Entry} (he : t.mapping? id = some e)
    (record : Value) (j : EntryId) : (t.setRecord id record).mapping? j =
      if j = id then some { e with record := record } else t.mapping? j := by
  obtain ⟨f, hf, hd, rfl⟩ := mapping?_eq_some_iff.mp he
  have hcontent := content?_setRecord hf record j
  by_cases hj : j = id
  · rw [if_pos hj] at hcontent ⊢
    rw [mapping?, hcontent, Option.filter_some, if_pos]
    simpa [Entry.isTombstone] using hd
  · rw [if_neg hj] at hcontent ⊢
    exact mapping?_congr hcontent

theorem mapping?_tombstone {id : EntryId} {e : Entry} (ht : t.tombstone id = some (e, t'))
    (j : EntryId) : t'.mapping? j = if j = id then none else t.mapping? j := by
  have hcontent := content?_tombstone ht j
  by_cases hj : j = id
  · rw [if_pos hj] at hcontent ⊢
    rw [mapping?, hcontent, Option.filter_some, if_neg]
    simp [Entry.isTombstone, Value.isAbsent]
  · rw [if_neg hj] at hcontent ⊢
    exact mapping?_congr hcontent

theorem mapping?_unlink (hc : t.Chained chains) {id : EntryId} {e : Entry}
    (ht : t.unlink id = .ok (e, t')) (j : EntryId) :
    t'.mapping? j = if j = id then none else t.mapping? j := by
  have hcontent := (hc.unlink ht).2.2 j
  by_cases hj : j = id
  · rw [if_pos hj] at hcontent ⊢
    rw [mapping?, hcontent]
    rfl
  · rw [if_neg hj] at hcontent ⊢
    exact mapping?_congr hcontent

/-! ### Representing a map -/

/-- The mappings of a table are those of a map, one for each key up to equality; the cached hashes are
right, and all keys are in the domain. -/
structure Represents (law : KeyLaw) (domain : Value → Prop) (t : Table) (map : law.Map) :
    Prop where
  lawful : ∀ {id e}, t.mapping? id = some e → domain e.key ∧ e.hash = law.hash e.key
  lookup_iff : ∀ c p, map.lookup c = some p ↔
    ∃ id e, t.mapping? id = some e ∧ law.classOf e.key = c ∧ (e.key, e.record) = p
  unique : ∀ {i j e f}, t.mapping? i = some e → t.mapping? j = some f →
    law.classOf e.key = law.classOf f.key → i = j

namespace Represents

variable {law : KeyLaw} {domain : Value → Prop} {map : law.Map}

theorem congr (hr : Represents law domain t map) (h : ∀ id, t'.mapping? id = t.mapping? id) :
    Represents law domain t' map where
  lawful he := hr.lawful (h _ ▸ he)
  lookup_iff c p := by simp only [h, hr.lookup_iff]
  unique he hf := hr.unique (h _ ▸ he) (h _ ▸ hf)

theorem lookup_of_mapping (hr : Represents law domain t map) {id : EntryId} {e : Entry}
    (he : t.mapping? id = some e) {key : Value} (hkey : law.classOf e.key = law.classOf key) :
    map.lookup (law.classOf key) = some (e.key, e.record) :=
  (hr.lookup_iff _ _).mpr ⟨id, e, he, hkey, rfl⟩

/-- One id gets a mapping for a key that no other id has. -/
theorem put (hr : Represents law domain t map) {id : EntryId} {e : Entry} (hdom : domain e.key)
    (hhash : e.hash = law.hash e.key)
    (hold : ∀ f, t.mapping? id = some f → law.classOf f.key = law.classOf e.key)
    (hother : ∀ j f, t.mapping? j = some f → law.classOf f.key = law.classOf e.key → j = id)
    (h : ∀ j, t'.mapping? j = if j = id then some e else t.mapping? j) :
    Represents law domain t' (map.insert (law.classOf e.key) (e.key, e.record)) := by
  have hcases : ∀ {j f}, t'.mapping? j = some f →
      j = id ∧ f = e ∨ j ≠ id ∧ t.mapping? j = some f := by
    intro j f hf
    rw [h] at hf
    by_cases hj : j = id
    · rw [if_pos hj, Option.some.injEq] at hf
      exact Or.inl ⟨hj, hf.symm⟩
    · rw [if_neg hj] at hf
      exact Or.inr ⟨hj, hf⟩
  refine ⟨fun {j f} hf => ?_, fun c p => ?_, fun {i j f g} hf hg hfg => ?_⟩
  · rcases hcases hf with ⟨-, rfl⟩ | ⟨-, hf⟩
    · exact ⟨hdom, hhash⟩
    · exact hr.lawful hf
  · by_cases hc : c = law.classOf e.key
    · subst hc
      rw [Finmap.lookup_insert, Option.some.injEq]
      constructor
      · intro hp
        exact ⟨id, e, by rw [h, if_pos rfl], rfl, hp⟩
      · rintro ⟨j, f, hf, hfc, hp⟩
        rcases hcases hf with ⟨-, rfl⟩ | ⟨hj, hf⟩
        · exact hp
        · exact absurd (hother j f hf hfc) hj
    · rw [Finmap.lookup_insert_of_ne _ hc, hr.lookup_iff]
      constructor
      · rintro ⟨j, f, hf, rfl, hp⟩
        have hj : j ≠ id := by
          rintro rfl
          exact hc (hold f hf)
        exact ⟨j, f, by rw [h, if_neg hj, hf], rfl, hp⟩
      · rintro ⟨j, f, hf, rfl, hp⟩
        rcases hcases hf with ⟨-, rfl⟩ | ⟨-, hf⟩
        · exact absurd rfl hc
        · exact ⟨j, f, hf, rfl, hp⟩
  · rcases hcases hf with ⟨rfl, rfl⟩ | ⟨hi, hf⟩ <;> rcases hcases hg with ⟨rfl, rfl⟩ | ⟨hj, hg⟩
    · rfl
    · exact absurd (hother j g hg hfg.symm) hj
    · exact absurd (hother i f hf hfg) hi
    · exact hr.unique hf hg hfg

/-- One id loses its mapping. -/
theorem drop (hr : Represents law domain t map) {id : EntryId} {e : Entry}
    (he : t.mapping? id = some e)
    (h : ∀ j, t'.mapping? j = if j = id then none else t.mapping? j) :
    Represents law domain t' (map.erase (law.classOf e.key)) := by
  have hcases : ∀ {j f}, t'.mapping? j = some f ↔ j ≠ id ∧ t.mapping? j = some f := by
    intro j f
    rw [h]
    by_cases hj : j = id <;> simp [hj]
  refine ⟨fun hf => hr.lawful (hcases.mp hf).2, fun c p => ?_, fun hf hg => ?_⟩
  · by_cases hc : c = law.classOf e.key
    · subst hc
      rw [Finmap.lookup_erase]
      refine iff_of_false (by simp) ?_
      rintro ⟨j, f, hf, hfc, -⟩
      obtain ⟨hj, hf⟩ := hcases.mp hf
      exact hj (hr.unique hf he hfc)
    · rw [Finmap.lookup_erase_ne hc, hr.lookup_iff]
      constructor
      · rintro ⟨j, f, hf, rfl, hp⟩
        refine ⟨j, f, hcases.mpr ⟨?_, hf⟩, rfl, hp⟩
        rintro rfl
        rw [he, Option.some.injEq] at hf
        exact hc (by rw [hf])
      · rintro ⟨j, f, hf, hfc, hp⟩
        exact ⟨j, f, (hcases.mp hf).2, hfc, hp⟩
  · exact hr.unique (hcases.mp hf).2 (hcases.mp hg).2

/-- A key that matches nothing on the chain of its hash is not in the map. -/
theorem lookup_eq_none (hr : Represents law domain t map) (hc : t.Chained chains) {key : Value}
    (hmiss : ∀ id ∈ chains (t.binOf (law.hash key)), ∀ e, t.mapping? id = some e →
      law.equal key e.key = false) : map.lookup (law.classOf key) = none := by
  rw [Option.eq_none_iff_forall_not_mem]
  intro p hp
  obtain ⟨id, e, he, hclass, -⟩ := (hr.lookup_iff _ _).mp hp
  obtain ⟨f, hf, -, rfl⟩ := mapping?_eq_some_iff.mp he
  have heq : law.equal key f.key = true := law.symm (KeyLaw.classOf_eq_iff.mp hclass)
  have hhash : f.hash = law.hash key := (hr.lawful he).2.trans (law.hash_eq heq).symm
  obtain ⟨bin, hbin, hid⟩ := mem_idsOf.mp ((hc.linked id).mp ⟨f, hf⟩)
  have hhome : t.binOf (law.hash key) = bin := hhash ▸ hc.home bin hbin id hid f hf
  have hne := hmiss id (hhome ▸ hid) _ he
  rw [f.content_key, heq] at hne
  exact absurd hne (by simp)

/-- The listed mappings are those of the map, each listed once. -/
theorem entries_eq (hr : Represents law domain t map) (hw : t.WellFormed) :
    (t.entries : Multiset (Value × Value)) = map.entries.map (·.2) := by
  obtain ⟨chains, hc⟩ := hw
  let view : EntryId × Entry → Sigma fun _ : law.Class => Value × Value := fun p =>
    ⟨law.classOf p.2.key, p.2.key, p.2.record⟩
  have hmapping : ∀ p ∈ t.linked.filter (!·.2.isTombstone), t.get? p.1 = some p.2 ∧
      t.mapping? p.1 = some p.2.content := by
    intro p hp
    obtain ⟨hlinked, hd⟩ := List.mem_filter.mp hp
    have hget := hc.mem_linked.mp hlinked
    exact ⟨hget, mapping?_of_get? hget (by simpa using hd)⟩
  have hnodup : ((t.linked.filter (!·.2.isTombstone)).map view).Nodup := by
    have hlinked : t.linked.Nodup := by
      refine List.Nodup.of_map (·.1) ?_
      rw [← entryIds, hc.entryIds_eq]
      exact hc.once
    refine List.Nodup.map_on (fun p hp q hq hpq => ?_) (hlinked.filter _)
    obtain ⟨hp, hmp⟩ := hmapping p hp
    obtain ⟨hq, hmq⟩ := hmapping q hq
    have hid : p.1 = q.1 := hr.unique hmp hmq (congrArg Sigma.fst hpq)
    rw [hid, hq, Option.some.injEq] at hp
    exact Prod.ext hid hp.symm
  have hview : ((t.linked.filter (!·.2.isTombstone)).map view : Multiset _) = map.entries := by
    refine (Multiset.Nodup.ext (Multiset.coe_nodup.mpr hnodup) map.nodup_entries).mpr ?_
    rintro ⟨c, p⟩
    rw [Multiset.mem_coe, List.mem_map, ← Finmap.lookup_eq_some_iff, hr.lookup_iff]
    constructor
    · rintro ⟨q, hq, hqv⟩
      cases hqv
      exact ⟨q.1, _, (hmapping q hq).2, rfl, rfl⟩
    · rintro ⟨id, e, he, rfl, rfl⟩
      obtain ⟨f, hf, hd, rfl⟩ := mapping?_eq_some_iff.mp he
      refine ⟨(id, f), List.mem_filter.mpr ⟨hc.mem_linked.mpr hf, by simpa using hd⟩, rfl⟩
  rw [← hview, Multiset.map_coe, List.map_map, entries]
  rfl

end Represents

/-- The count is the number of listed mappings. -/
theorem Chained.count_eq_length (hc : t.Chained chains) : t.count = t.entries.length := by
  rw [hc.count_eq, ← hc.entryIds_eq, entryIds, List.countP_map, entries, List.length_map,
    ← List.countP_eq_length_filter]
  refine List.countP_congr fun p hp => ?_
  simp [holdsKey, hc.mem_linked.mp hp]

/-- The count is the number of keys of the map. -/
theorem Represents.count_eq {law : KeyLaw} {domain : Value → Prop} {map : law.Map}
    (hr : Represents law domain t map) (hw : t.WellFormed) : t.count = map.keys.card := by
  obtain ⟨chains, hc⟩ := hw
  have hcard := congrArg Multiset.card (hr.entries_eq ⟨chains, hc⟩)
  rw [Multiset.coe_card, Multiset.card_map] at hcard
  rw [hc.count_eq_length, hcard]
  exact (Multiset.card_map Sigma.fst map.entries).symm

/-! ### Tombstones -/

/-- Whether an id stands for a tombstone. -/
def holdsTombstone (t : Table) (id : EntryId) : Bool := (t.content? id).any (·.isTombstone)

theorem holdsTombstone_of_get? {id : EntryId} {e : Entry} (he : t.get? id = some e) :
    t.holdsTombstone id = e.isTombstone := by
  rw [holdsTombstone, content?, he]
  rfl

theorem Chained.mem_tombstones (hc : t.Chained chains) {id : EntryId} :
    id ∈ t.tombstones ↔ t.holdsTombstone id = true := by
  rw [tombstones, List.mem_map]
  constructor
  · rintro ⟨p, hp, rfl⟩
    obtain ⟨hlinked, hd⟩ := List.mem_filter.mp hp
    rw [holdsTombstone_of_get? (hc.mem_linked.mp hlinked), hd]
  · intro h
    obtain ⟨e, he, hd⟩ := (Option.any_eq_true _ _).mp h
    obtain ⟨f, hf, rfl⟩ := Option.map_eq_some_iff.mp he
    exact ⟨(id, f), List.mem_filter.mpr ⟨hc.mem_linked.mpr hf, hd⟩, rfl⟩

theorem Chained.nodup_tombstones (hc : t.Chained chains) : t.tombstones.Nodup := by
  have hids : t.entryIds.Nodup := hc.entryIds_eq ▸ hc.once
  exact hids.sublist (List.filter_sublist.map _)

/-- The number of tombstones, if no id became one or ceased to be one. -/
theorem WellFormed.length_tombstones_eq (hw : t.WellFormed) (hw' : t'.WellFormed)
    (h : ∀ id, t'.holdsTombstone id = t.holdsTombstone id) :
    t'.tombstones.length = t.tombstones.length := by
  obtain ⟨_, hc⟩ := hw
  obtain ⟨_, hc'⟩ := hw'
  refine ((List.perm_ext_iff_of_nodup hc'.nodup_tombstones hc.nodup_tombstones).mpr ?_).length_eq
  intro id
  rw [hc'.mem_tombstones, hc.mem_tombstones, h]

/-- The number of tombstones after one more id became one. -/
theorem WellFormed.length_tombstones_succ (hw : t.WellFormed) (hw' : t'.WellFormed) {a : EntryId}
    (ha : t.holdsTombstone a = false)
    (h : ∀ id, t'.holdsTombstone id = if id = a then true else t.holdsTombstone id) :
    t'.tombstones.length = t.tombstones.length + 1 := by
  obtain ⟨_, hc⟩ := hw
  obtain ⟨_, hc'⟩ := hw'
  have hnew : a ∉ t.tombstones := by
    rw [hc.mem_tombstones, ha]
    simp
  have hnodup : (a :: t.tombstones).Nodup := List.nodup_cons.mpr ⟨hnew, hc.nodup_tombstones⟩
  refine ((List.perm_ext_iff_of_nodup hc'.nodup_tombstones hnodup).mpr fun id => ?_).length_eq
  rw [hc'.mem_tombstones, h, List.mem_cons, hc.mem_tombstones]
  by_cases hid : id = a <;> simp [hid]

/-- Unlinking live ids, all of them different, succeeds and takes them and nothing else away. -/
theorem WellFormed.unlinkAll : ∀ {t : Table} (ids : List EntryId), t.WellFormed → ids.Nodup →
    (∀ id ∈ ids, ∃ e, t.get? id = some e) → ∃ t', t.unlinkAll ids = (none, t') ∧ t'.WellFormed ∧
      ∀ j, t'.content? j = if j ∈ ids then none else t.content? j
  | t, [], hw, _, _ => ⟨t, rfl, hw, fun j => by simp⟩
  | t, id :: ids, ⟨chains, hc⟩, hnodup, hlive => by
    rw [List.nodup_cons] at hnodup
    obtain ⟨e, he⟩ := hlive id (List.mem_cons_self ..)
    obtain ⟨s, hunlink⟩ := hc.exists_unlink he
    obtain ⟨-, hw', hcontent⟩ := hc.unlink hunlink
    have hrest : ∀ j ∈ ids, ∃ f, s.get? j = some f := by
      intro j hj
      obtain ⟨f, hf⟩ := hlive j (List.mem_cons_of_mem _ hj)
      have hji : j ≠ id := fun h => hnodup.1 (h ▸ hj)
      have hsame := hcontent j
      rw [if_neg hji] at hsame
      obtain ⟨f', hf', -⟩ := exists_get?_of_content?_eq hsame hf
      exact ⟨f', hf'⟩
    obtain ⟨t', ht', hwt', hcontent'⟩ := WellFormed.unlinkAll ids hw' hnodup.2 hrest
    refine ⟨t', by simp only [Table.unlinkAll, hunlink, ht'], hwt', fun j => ?_⟩
    rw [hcontent', hcontent]
    by_cases hj : j = id
    · simp [hj]
    · simp [hj]

/-- Unlinking all tombstones succeeds, leaves none and keeps the mappings. -/
theorem WellFormed.unlinkAll_tombstones (hw : t.WellFormed) : ∃ t',
    t.unlinkAll t.tombstones = (none, t') ∧ t'.WellFormed ∧ t'.tombstones = [] ∧
      ∀ j, t'.mapping? j = t.mapping? j := by
  obtain ⟨chains, hc⟩ := hw
  have hlive : ∀ id ∈ t.tombstones, ∃ e, t.get? id = some e := by
    intro id hid
    obtain ⟨e, he, -⟩ := (Option.any_eq_true _ _).mp (hc.mem_tombstones.mp hid)
    exact live_iff.mpr (by rw [he]; rfl)
  obtain ⟨t', ht', ⟨chains', hc'⟩, hcontent⟩ :=
    WellFormed.unlinkAll t.tombstones ⟨chains, hc⟩ hc.nodup_tombstones hlive
  refine ⟨t', ht', ⟨chains', hc'⟩, ?_, fun j => ?_⟩
  · rw [List.eq_nil_iff_forall_not_mem]
    intro id hid
    rw [hc'.mem_tombstones, holdsTombstone, hcontent] at hid
    by_cases hmem : id ∈ t.tombstones
    · rw [if_pos hmem] at hid
      exact absurd hid (by simp)
    · rw [if_neg hmem] at hid
      exact hmem (hc.mem_tombstones.mpr hid)
  · by_cases hmem : j ∈ t.tombstones
    · obtain ⟨e, he, hd⟩ := (Option.any_eq_true _ _).mp (hc.mem_tombstones.mp hmem)
      rw [mapping?, mapping?, hcontent, if_pos hmem, he, Option.filter_some, hd]
      rfl
    · exact mapping?_congr (by rw [hcontent, if_neg hmem])

end Table

end ObjectMachine
