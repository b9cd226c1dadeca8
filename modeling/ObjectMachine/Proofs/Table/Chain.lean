import Mathlib.Tactic
import ObjectMachine.Table.Basic

/-! Chains of a table as lists of ids.

`Leads` says that the links from a cursor on meet certain ids and then end.  A chain that ends meets
no id twice, so it is no longer than the slab, and the walks with fuel go to its end.  The second
half says what each change of slab and bins does to the entry of an id. -/

namespace ObjectMachine

theorem EntryId.eq_of_fields {i j : EntryId} (hi : i.index = j.index)
    (hg : i.generation = j.generation) : i = j := by
  obtain ⟨a, b⟩ := i
  obtain ⟨c, d⟩ := j
  simp only at hi hg
  rw [hi, hg]

namespace Table

variable {t : Table}

/-! ### Entries of ids -/

theorem get?_eq_some_iff {id : EntryId} {e : Entry} :
    t.get? id = some e ↔ t.slots[id.index]? = some ⟨id.generation, some e⟩ := by
  unfold get?
  cases t.slots[id.index]? with
  | none => simp
  | some slot =>
    obtain ⟨g, c⟩ := slot
    by_cases hg : g = id.generation <;> simp [hg]

/-- Two live ids of one slot are the same id. -/
theorem eq_of_index_eq {i j : EntryId} {e f : Entry} (hi : t.get? i = some e)
    (hj : t.get? j = some f) (hij : i.index = j.index) : i = j := by
  rw [get?_eq_some_iff] at hi hj
  rw [hij, hj] at hi
  simp only [Option.some.injEq, EntrySlot.mk.injEq] at hi
  exact EntryId.eq_of_fields hij hi.1.symm

/-! ### Chains that end -/

/-- The links from `cursor` on meet these ids, all of them live, and end after the last one. -/
def Leads (t : Table) : Option EntryId → List EntryId → Prop
  | cursor, [] => cursor = none
  | cursor, id :: rest => cursor = some id ∧ ∃ e, t.get? id = some e ∧ t.Leads e.next rest

theorem Leads.unique : ∀ {cursor : Option EntryId} {l l' : List EntryId},
    t.Leads cursor l → t.Leads cursor l' → l = l'
  | _, [], [], _, _ => rfl
  | _, [], _ :: _, h, h' => absurd (h.symm.trans h'.1) (by simp)
  | _, _ :: _, [], h, h' => absurd (h'.symm.trans h.1) (by simp)
  | _, id :: l, id' :: l', ⟨h, e, he, hl⟩, ⟨h', e', he', hl'⟩ => by
    obtain rfl : id = id' := Option.some.inj (h.symm.trans h')
    obtain rfl : e = e' := Option.some.inj (he.symm.trans he')
    rw [Leads.unique hl hl']

/-- A chain that has an entry left starts with it. -/
theorem Leads.exists_cons {id : EntryId} {e : Entry} {l : List EntryId} (h : t.Leads (some id) l)
    (he : t.get? id = some e) : ∃ rest, l = id :: rest ∧ t.Leads e.next rest := by
  cases l with
  | nil => cases h
  | cons j rest =>
    obtain ⟨hj, e', he', hrest⟩ := h
    obtain rfl := Option.some.inj hj
    obtain rfl := Option.some.inj (he.symm.trans he')
    exact ⟨rest, rfl, hrest⟩

theorem Leads.live : ∀ {cursor : Option EntryId} {l : List EntryId}, t.Leads cursor l →
    ∀ id ∈ l, ∃ e, t.get? id = some e
  | _, id :: l, ⟨_, e, he, hl⟩, j, hj => by
    rcases List.mem_cons.mp hj with rfl | hj
    · exact ⟨e, he⟩
    · exact hl.live j hj

/-- From an id on the chain, the links lead over the rest of it. -/
theorem Leads.suffix {id : EntryId} {post : List EntryId} :
    ∀ {pre : List EntryId} {cursor : Option EntryId}, t.Leads cursor (pre ++ id :: post) →
      t.Leads (some id) (id :: post)
  | [], _, h => ⟨rfl, h.2⟩
  | _ :: _, _, ⟨_, _, _, hl⟩ => hl.suffix

/-- A chain that ends meets no id twice. -/
theorem Leads.nodup : ∀ {cursor : Option EntryId} {l : List EntryId}, t.Leads cursor l → l.Nodup
  | _, [], _ => List.nodup_nil
  | _, id :: l, ⟨_, e, he, hl⟩ => by
    refine List.nodup_cons.mpr ⟨fun hmem => ?_, hl.nodup⟩
    obtain ⟨pre, post, hsplit⟩ := List.append_of_mem hmem
    -- the links from the second visit on and those from the first on are the same
    have hsuffix : t.Leads (some id) (id :: post) := Leads.suffix (hsplit ▸ hl)
    have heq : id :: l = id :: post := Leads.unique ⟨rfl, e, he, hl⟩ hsuffix
    have hlen := congrArg List.length heq
    rw [hsplit] at hlen
    simp only [List.length_cons, List.length_append] at hlen
    omega

/-- Links are all that a chain depends on. -/
theorem Leads.congr {t' : Table} : ∀ {cursor : Option EntryId} {l : List EntryId},
    t.Leads cursor l → (∀ id ∈ l, (t'.get? id).map (·.next) = (t.get? id).map (·.next)) →
    t'.Leads cursor l
  | _, [], h, _ => h
  | _, id :: l, ⟨h, e, he, hl⟩, hsame => by
    have hid := hsame id (List.mem_cons_self ..)
    rw [he, Option.map_some, Option.map_eq_some_iff] at hid
    obtain ⟨e', he', hnext⟩ := hid
    refine ⟨h, e', he', ?_⟩
    rw [hnext]
    exact hl.congr fun j hj => hsame j (List.mem_cons_of_mem _ hj)

/-- There are no more entries than slots. -/
theorem length_le_slots {l : List EntryId} (hnodup : l.Nodup)
    (hlive : ∀ id ∈ l, ∃ e, t.get? id = some e) : l.length ≤ t.slots.size := by
  have hindex : (l.map (·.index)).Nodup := by
    refine List.Nodup.map_on (fun i hi j hj hij => ?_) hnodup
    obtain ⟨e, he⟩ := hlive i hi
    obtain ⟨f, hf⟩ := hlive j hj
    exact eq_of_index_eq he hf hij
  have hsub : l.map (·.index) ⊆ List.range t.slots.size := by
    intro i hi
    obtain ⟨id, hid, rfl⟩ := List.mem_map.mp hi
    obtain ⟨e, he⟩ := hlive id hid
    exact List.mem_range.mpr (Array.getElem?_eq_some_iff.mp (get?_eq_some_iff.mp he)).1
  simpa using (hindex.subperm hsub).length_le

/-- A chain that ends is no longer than the slab. -/
theorem Leads.length_le {cursor : Option EntryId} {l : List EntryId} (h : t.Leads cursor l) :
    l.length ≤ t.slots.size := length_le_slots h.nodup h.live

/-! ### Walks with fuel -/

/-- Whatever a walk meets is a live id with its entry. -/
theorem get?_of_mem_chainFrom : ∀ {fuel : Nat} {cursor : Option EntryId} {p : EntryId × Entry},
    p ∈ t.chainFrom fuel cursor → t.get? p.1 = some p.2
  | 0, _, _, hp => by simp [chainFrom] at hp
  | _ + 1, none, _, hp => by simp [chainFrom] at hp
  | fuel + 1, some id, p, hp => by
    rw [chainFrom] at hp
    cases he : t.get? id with
    | none => simp [he] at hp
    | some e =>
      simp only [he, List.mem_cons] at hp
      rcases hp with rfl | hp
      · exact he
      · exact get?_of_mem_chainFrom hp

theorem Leads.map_chainFrom : ∀ {cursor : Option EntryId} {l : List EntryId} {fuel : Nat},
    t.Leads cursor l → l.length ≤ fuel → (t.chainFrom fuel cursor).map (·.1) = l
  | _, [], 0, _, _ => rfl
  | _, [], _ + 1, h, _ => by rw [h]; rfl
  | _, id :: l, fuel + 1, ⟨h, e, he, hl⟩, hf => by
    rw [h, chainFrom, he]
    simp only [List.map_cons]
    rw [hl.map_chainFrom (Nat.le_of_succ_le_succ hf)]

/-- The chain of a bin, for links that end. -/
theorem Leads.map_chain {bin : Nat} {l : List EntryId} (h : t.Leads (t.binHead bin) l) :
    (t.chain bin).map (·.1) = l :=
  h.map_chainFrom h.length_le

/-! ### Changes of slab and bins -/

theorem get?_adjust (t : Table) (id : EntryId) (f : Entry → Entry) (j : EntryId) :
    (t.adjust id f).get? j = if j = id then (t.get? id).map f else t.get? j := by
  unfold adjust get?
  simp only [Array.getElem?_modify]
  by_cases hi : id.index = j.index
  · rw [if_pos hi, hi]
    cases t.slots[j.index]? with
    | none => simp
    | some slot =>
      simp only [Option.map_some]
      by_cases hg : id.generation = j.generation
      · obtain rfl : j = id := EntryId.eq_of_fields hi.symm hg.symm
        by_cases hs : slot.generation = j.generation <;> simp [hs]
      · have hji : j ≠ id := fun h => hg (by rw [h])
        by_cases hs : slot.generation = id.generation
        · simp [hs, hg, hji]
        · simp [hs, hji]
  · have hji : j ≠ id := fun h => hi (by rw [h])
    rw [if_neg hi, if_neg hji]

/-- Whether a slot of the slab is empty. -/
def Vacant (t : Table) (i : Nat) : Prop := ∃ g : Nat, t.slots[i]? = some ⟨g, none⟩

theorem vacant_adjust (t : Table) (id : EntryId) (f : Entry → Entry) (i : Nat) :
    (t.adjust id f).Vacant i ↔ t.Vacant i := by
  unfold Vacant adjust
  simp only [Array.getElem?_modify]
  split
  · cases t.slots[i]? with
    | none => simp
    | some slot =>
      obtain ⟨g, c⟩ := slot
      by_cases hg : g = id.generation <;> cases c <;> simp [hg]
  · rfl

theorem get?_eq_none_of_vacant {id : EntryId} (h : t.Vacant id.index) : t.get? id = none := by
  obtain ⟨g, hg⟩ := h
  unfold get?
  rw [hg]
  simp

theorem binHead_setHead (t : Table) {bin : Nat} (hb : bin < t.bins.size) (head : Option EntryId)
    (b : Nat) : (t.setHead bin head).binHead b = if b = bin then head else t.binHead b := by
  unfold setHead binHead
  simp only [Array.getD_eq_getD_getElem?, Array.getElem?_setIfInBounds]
  by_cases hbb : bin = b
  · subst hbb; simp [hb]
  · simp [hbb, Ne.symm hbb]

/-- Taking an entry out of the slab leaves the others. -/
theorem get?_release {id : EntryId} {e : Entry} (he : t.get? id = some e) (j : EntryId) :
    (t.release id).get? j = if j = id then none else t.get? j := by
  rw [get?_eq_some_iff] at he
  unfold release get?
  simp only [Array.getElem?_modify]
  by_cases hi : id.index = j.index
  · rw [if_pos hi, ← hi, he]
    by_cases hji : j = id
    · simp [hji]
    · have hg : id.generation ≠ j.generation := fun hg =>
        hji (EntryId.eq_of_fields hi.symm hg.symm)
      simp [hji, hg]
  · have hji : j ≠ id := fun h => hi (by rw [h])
    rw [if_neg hi, if_neg hji]

theorem vacant_release {id : EntryId} {e : Entry} (he : t.get? id = some e) (i : Nat) :
    (t.release id).Vacant i ↔ i = id.index ∨ t.Vacant i := by
  rw [get?_eq_some_iff] at he
  unfold release Vacant
  simp only [Array.getElem?_modify]
  by_cases hi : id.index = i
  · subst hi; simp [he]
  · simp [hi, Ne.symm hi]

/-- Storing an entry fills the slot of the next id. -/
theorem getElem?_store (hfree : ∀ i ∈ t.free, t.Vacant i) (e : Entry) (i : Nat) :
    (t.store e).slots[i]? =
      if i = t.nextId.index then some ⟨t.nextId.generation, some e⟩ else t.slots[i]? := by
  cases hf : t.free with
  | nil => simp only [store, nextId, hf, Array.getElem?_push]
  | cons index rest =>
    obtain ⟨g, hg⟩ := hfree index (hf ▸ List.mem_cons_self ..)
    simp only [store, nextId, hf, Array.getElem?_modify, hg, Option.map_some, Option.getD_some]
    by_cases hi : index = i
    · subst hi; simp [hg]
    · simp [hi, Ne.symm hi]

/-- The slot of the next id is empty or beyond the slab. -/
theorem ne_some_nextId (hfree : ∀ i ∈ t.free, t.Vacant i) (g : Nat) (e : Entry) :
    t.slots[t.nextId.index]? ≠ some ⟨g, some e⟩ := by
  cases hf : t.free with
  | nil =>
    simp only [nextId, hf]
    intro h
    have := (Array.getElem?_eq_some_iff.mp h).1
    omega
  | cons index rest =>
    obtain ⟨g', hg⟩ := hfree index (hf ▸ List.mem_cons_self ..)
    simp only [nextId, hf, hg]
    simp

theorem get?_nextId (hfree : ∀ i ∈ t.free, t.Vacant i) : t.get? t.nextId = none := by
  rw [Option.eq_none_iff_forall_not_mem]
  intro e he
  exact ne_some_nextId hfree _ e (get?_eq_some_iff.mp he)

theorem get?_store (hfree : ∀ i ∈ t.free, t.Vacant i) (e : Entry) (j : EntryId) :
    (t.store e).get? j = if j = t.nextId then some e else t.get? j := by
  ext f
  rw [get?_eq_some_iff, getElem?_store hfree]
  by_cases hj : j = t.nextId
  · subst hj; simp
  · rw [if_neg hj]
    split
    · rename_i hi
      have hg : t.nextId.generation ≠ j.generation := fun hg =>
        hj (EntryId.eq_of_fields hi hg.symm)
      refine iff_of_false (fun h => ?_) fun h => ?_
      · simp only [Option.some.injEq, EntrySlot.mk.injEq] at h
        exact hg h.1
      · exact ne_some_nextId hfree _ f (hi ▸ get?_eq_some_iff.mp h)
    · exact get?_eq_some_iff.symm

theorem vacant_store (hfree : ∀ i ∈ t.free, t.Vacant i) (e : Entry) (i : Nat) :
    (t.store e).Vacant i ↔ t.Vacant i ∧ i ≠ t.nextId.index := by
  unfold Vacant
  rw [getElem?_store hfree]
  by_cases hi : i = t.nextId.index <;> simp [hi]

/-- Storing an entry takes its slot from the free list. -/
theorem mem_free_store (hnodup : t.free.Nodup) (e : Entry) :
    (t.store e).free.Nodup ∧ ∀ i, i ∈ (t.store e).free ↔ i ∈ t.free ∧ i ≠ t.nextId.index := by
  cases hf : t.free with
  | nil => simp [store, hf]
  | cons index rest =>
    rw [hf, List.nodup_cons] at hnodup
    simp only [store, nextId, hf, List.mem_cons]
    refine ⟨hnodup.2, fun i => ⟨fun hi => ⟨Or.inr hi, ?_⟩, fun hi => hi.1.resolve_left hi.2⟩⟩
    rintro rfl
    exact hnodup.1 hi

end Table

end ObjectMachine
