import Mathlib.Tactic
import ObjectMachine.Proofs.Table.Density
import ObjectMachine.Proofs.Table.Iteration

/-! Tables that change under a traversal.

As long as the bins are not rehashed, an entry stays in its chain: new entries come in front of it,
entries around it go away, and an id that is gone never comes back.  So a traversal that stands on an
entry knows, after any such changes, what is still ahead of it: of the ids that were ahead, those that
are left, in the same order, and in the bins to come perhaps new ones. -/

namespace ObjectMachine.Table

open Relation (ReflTransGen)

variable {t t' t'' : Table} {chains : Nat → List EntryId} {id : EntryId} {e : Entry}

/-- Whether there is an entry for an id. -/
def isLive (t : Table) (id : EntryId) : Bool := (t.get? id).isSome

theorem isLive_of_get? (he : t.get? id = some e) : t.isLive id = true := by
  rw [isLive, he]
  rfl

theorem exists_of_isLive (h : t.isLive id = true) : ∃ e, t.get? id = some e :=
  Option.isSome_iff_exists.mp h

theorem isLive_of_holdsKey (h : t.holdsKey id = true) : t.isLive id = true := by
  obtain ⟨e, he, -⟩ := (Option.any_eq_true _ _).mp h
  exact isLive_of_get? he

/-- The keys of a table are the ids that have a mapping. -/
theorem holdsKey_eq (t : Table) (id : EntryId) : t.holdsKey id = (t.mapping? id).isSome := by
  rw [holdsKey, mapping?, content?]
  cases t.get? id with
  | none => rfl
  | some e => cases he : e.isTombstone <;> simp [Option.filter, he]

/-- The ids on the chain of a bin. -/
def chainIds (t : Table) (bin : Nat) : List EntryId := (t.chain bin).map (·.1)

theorem entryIds_eq_idsOf (t : Table) : t.entryIds = idsOf t.bins.size t.chainIds := List.map_flatMap

theorem Chained.chainIds_eq (hc : t.Chained chains) {bin : Nat} (hb : bin < t.bins.size) :
    t.chainIds bin = chains bin := hc.map_chain hb

theorem WellFormed.isLive_of_mem (hw : t.WellFormed) {bin : Nat} (hb : bin < t.bins.size)
    (hid : id ∈ t.chainIds bin) : t.isLive id = true := by
  obtain ⟨chains, hc⟩ := hw
  rw [hc.chainIds_eq hb] at hid
  obtain ⟨e, he⟩ := (hc.ends bin hb).live id hid
  exact isLive_of_get? he

/-! ### Ids are given out once -/

/-- The generation of a slot, and whether there is an entry in it. -/
def seat (t : Table) (i : Nat) : Option (Nat × Bool) :=
  t.slots[i]?.map fun slot => (slot.generation, slot.entry.isSome)

/-- Whether an id belongs to an entry that is or was in the table. -/
def Issued (t : Table) (id : EntryId) : Prop := ∃ generation filled,
  t.seat id.index = some (generation, filled) ∧
    (id.generation < generation ∨ id.generation = generation ∧ filled = true)

theorem isLive_iff : t.isLive id = true ↔ t.seat id.index = some (id.generation, true) := by
  rw [isLive, Option.isSome_iff_exists, seat]
  simp only [get?_eq_some_iff]
  cases t.slots[id.index]? with
  | none => simp
  | some slot =>
    obtain ⟨g, c⟩ := slot
    cases c <;> simp

theorem issued_of_isLive (h : t.isLive id = true) : t.Issued id :=
  ⟨id.generation, true, isLive_iff.mp h, Or.inr ⟨rfl, rfl⟩⟩

theorem seat_adjust (t : Table) (id : EntryId) (f : Entry → Entry) (i : Nat) :
    (t.adjust id f).seat i = t.seat i := by
  unfold seat adjust
  simp only [Array.getElem?_modify]
  split
  · cases t.slots[i]? with
    | none => rfl
    | some slot =>
      obtain ⟨g, c⟩ := slot
      by_cases hg : g = id.generation <;> cases c <;> simp [hg]
  · rfl

theorem seat_prepend (hfree : ∀ i ∈ t.free, t.Vacant i) (hash : UInt64) (key record : Value)
    (i : Nat) : (t.prepend hash key record).seat i =
      if i = t.nextId.index then some (t.nextId.generation, true) else t.seat i := by
  show ((t.store _).slots[i]?).map _ = _
  rw [getElem?_store hfree]
  split <;> rfl

/-- The slot of the next id is vacant or not there yet. -/
theorem seat_nextId (hfree : ∀ i ∈ t.free, t.Vacant i) :
    t.seat t.nextId.index = none ∨ t.seat t.nextId.index = some (t.nextId.generation, false) := by
  cases hf : t.free with
  | nil => exact Or.inl (by simp [seat, nextId, hf])
  | cons index rest =>
    obtain ⟨g, hg⟩ := hfree index (hf ▸ List.mem_cons_self ..)
    exact Or.inr (by simp [seat, nextId, hf, hg])

theorem seat_unlink (hu : t.unlink id = .ok (e, t')) (i : Nat) :
    t'.seat i = if i = id.index then some (id.generation + 1, false) else t.seat i := by
  obtain ⟨he, before, -, rfl⟩ := unlink_eq_ok_iff.mp hu
  have hbypass : ∀ j, (t.bypass (t.binOf e.hash) before e.next).seat j = t.seat j := fun j => by
    cases before with
    | none => rfl
    | some p => exact seat_adjust t p _ j
  have hseat := isLive_iff.mp (isLive_of_get? he)
  rw [← hbypass] at hseat ⊢
  generalize t.bypass (t.binOf e.hash) before e.next = u at hseat
  simp only [seat, release, Array.getElem?_modify] at hseat ⊢
  by_cases hi : id.index = i
  · subst hi
    obtain ⟨slot, hslot, heq⟩ := Option.map_eq_some_iff.mp hseat
    simp only [Prod.mk.injEq] at heq
    simp [hslot, heq.1]
  · simp [hi, Ne.symm hi]

/-! ### Changes that leave the bins -/

/-- A change of a table, but no rehash. -/
inductive Drift (t : Table) : Table → Prop
  | prepend (hash : UInt64) {key : Value} (hkey : key ≠ .absent) (record : Value) :
      Drift t (t.prepend hash key record)
  | setRecord (id : EntryId) (record : Value) : Drift t (t.setRecord id record)
  | unlink {id : EntryId} {e : Entry} {t' : Table} (h : t.unlink id = .ok (e, t')) : Drift t t'
  | tombstone {id : EntryId} {e : Entry} {t' : Table} (h : t.tombstone id = some (e, t')) :
      Drift t t'

/-- Changes without a rehash, one after the other. -/
def Drifts : Table → Table → Prop := ReflTransGen Drift

/-- What a table has in common with one that it drifted from. -/
structure Drifted (t t' : Table) : Prop where
  wellFormed : t'.WellFormed
  size_eq : t'.bins.size = t.bins.size
  issued : ∀ id, t.Issued id → t'.Issued id
  live : ∀ id, t.Issued id → t'.isLive id = true → t.isLive id = true
  holdsKey : ∀ id, t.Issued id → t'.holdsKey id = true → t.holdsKey id = true
  chainIds : ∀ bin < t.bins.size, ∃ fresh, t'.chainIds bin =
    fresh ++ (t.chainIds bin).filter t'.isLive ∧ ∀ id ∈ fresh, ¬ t.Issued id

/-- Changes that leave slots and chains alone. -/
theorem Drifted.of_seat_eq (hw : t.WellFormed) (hw' : t'.WellFormed)
    (hsize : t'.bins.size = t.bins.size) (hseat : ∀ i, t'.seat i = t.seat i)
    (hkey : ∀ id, t'.holdsKey id = true → t.holdsKey id = true)
    (hids : ∀ bin < t.bins.size, t'.chainIds bin = t.chainIds bin) : t.Drifted t' where
  wellFormed := hw'
  size_eq := hsize
  issued id h := by
    unfold Issued
    rwa [hseat]
  live id _ h := by rwa [isLive_iff, hseat, ← isLive_iff] at h
  holdsKey id _ h := hkey id h
  chainIds bin hb := by
    refine ⟨[], ?_, by simp⟩
    rw [hids bin hb, List.nil_append, List.filter_eq_self.mpr]
    intro id hid
    rw [isLive_iff, hseat, ← isLive_iff]
    exact hw.isLive_of_mem hb hid

theorem Drifted.refl (hw : t.WellFormed) : t.Drifted t :=
  .of_seat_eq hw hw rfl (fun _ => rfl) (fun _ h => h) fun _ _ => rfl

theorem Drifted.trans (hw : t.WellFormed) (h : t.Drifted t') (h' : t'.Drifted t'') :
    t.Drifted t'' where
  wellFormed := h'.wellFormed
  size_eq := h'.size_eq.trans h.size_eq
  issued id hid := h'.issued id (h.issued id hid)
  live id hid hl := h.live id hid (h'.live id (h.issued id hid) hl)
  holdsKey id hid hk := h.holdsKey id hid (h'.holdsKey id (h.issued id hid) hk)
  chainIds bin hb := by
    obtain ⟨fresh, hids, hfresh⟩ := h.chainIds bin hb
    obtain ⟨fresh', hids', hfresh'⟩ := h'.chainIds bin (h.size_eq ▸ hb)
    refine ⟨fresh' ++ fresh.filter t''.isLive, ?_, fun id hid => ?_⟩
    · rw [hids', hids, List.filter_append, List.filter_filter, List.append_assoc]
      congr 2
      refine List.filter_congr fun id hid => ?_
      have hissued := h.issued id (issued_of_isLive (hw.isLive_of_mem hb hid))
      cases hl : t''.isLive id with
      | true => rw [h'.live id hissued hl, Bool.and_self]
      | false => rfl
    · rcases List.mem_append.mp hid with hid | hid
      · exact fun hissued => hfresh' id hid (h.issued id hissued)
      · exact hfresh id (List.mem_of_mem_filter hid)

theorem Chained.drifted_prepend (hc : t.Chained chains) (hash : UInt64) {key : Value}
    (hkey : key ≠ .absent) (record : Value) : t.Drifted (t.prepend hash key record) := by
  have hfree : ∀ i ∈ t.free, t.Vacant i := fun i hi => (hc.free_vacant i).mp hi
  have hc' := hc.prepend hash hkey record
  have hsize := size_prepend t hash key record
  have hseat := seat_prepend hfree hash key record
  -- an id that was given out for the slot is of an earlier generation
  have hold : ∀ id, t.Issued id → id.index = t.nextId.index →
      id.generation < t.nextId.generation := by
    rintro id ⟨g, filled, hs, hcases⟩ hi
    rw [hi] at hs
    rcases seat_nextId hfree with hnone | hvacant
    · rw [hnone] at hs
      cases hs
    · rw [hvacant, Option.some.injEq, Prod.mk.injEq] at hs
      obtain ⟨rfl, rfl⟩ := hs
      exact hcases.resolve_right fun h => Bool.noConfusion h.2
  have hlive : ∀ id, t.Issued id →
      (t.prepend hash key record).isLive id = t.isLive id := by
    intro id hid
    rw [Bool.eq_iff_iff, isLive_iff, isLive_iff, hseat]
    split
    · rename_i hi
      have hlt := hold id hid hi
      rcases seat_nextId hfree with hs | hs
      · simp [hi, hs, hlt.ne']
      · simp [hi, hs, hlt.ne']
    · rfl
  refine ⟨⟨_, hc'⟩, hsize, fun id hid => ?_, fun id hid h => hlive id hid ▸ h, fun id hid h => ?_,
    fun bin hb => ?_⟩
  · unfold Issued
    rw [hseat]
    split
    · rename_i hi
      exact ⟨_, _, rfl, Or.inl (hold id hid hi)⟩
    · exact hid
  · have hne : id ≠ t.nextId := fun h => (hold id hid (by rw [h])).ne (by rw [h])
    rwa [holdsKey, get?_prepend hfree, if_neg hne] at h
  · rw [hc'.chainIds_eq (hsize ▸ hb), hc.chainIds_eq hb, consAt]
    have hkept : (chains bin).filter (t.prepend hash key record).isLive = chains bin := by
      refine List.filter_eq_self.mpr fun id hid => ?_
      obtain ⟨e, he⟩ := (hc.ends bin hb).live id hid
      rw [hlive id (issued_of_isLive (isLive_of_get? he)), isLive_of_get? he]
    by_cases hbin : bin = t.binOf hash
    · subst hbin
      refine ⟨[t.nextId], by rw [Function.update_self, hkept]; rfl, fun id hid => ?_⟩
      obtain rfl := List.mem_singleton.mp hid
      exact fun h => (hold _ h rfl).false
    · exact ⟨[], by rw [Function.update_of_ne hbin, hkept]; rfl, by simp⟩

theorem Chained.drifted_setRecord (hc : t.Chained chains) (id : EntryId) (record : Value) :
    t.Drifted (t.setRecord id record) := by
  have hc' := hc.setRecord id record
  refine .of_seat_eq ⟨_, hc⟩ ⟨_, hc'⟩ rfl (seat_adjust t id _) (fun j hj => ?_) fun bin hb =>
    (hc'.chainIds_eq hb).trans (hc.chainIds_eq hb).symm
  rw [holdsKey, Table.setRecord, get?_adjust] at hj
  split at hj
  · rename_i hji
    rw [Option.any_map] at hj
    rwa [hji]
  · exact hj

theorem Chained.drifted_tombstone (hc : t.Chained chains) (h : t.tombstone id = some (e, t')) :
    t.Drifted t' := by
  have hc' := hc.tombstone h
  obtain ⟨he, hd, rfl⟩ := tombstone_eq_some_iff.mp h
  refine .of_seat_eq ⟨_, hc⟩ ⟨_, hc'⟩ rfl (seat_adjust t id _) (fun j hj => ?_) fun bin hb =>
    (hc'.chainIds_eq hb).trans (hc.chainIds_eq hb).symm
  have hget := get?_adjust t id (fun e => { e with key := .absent, record := .absent }) j
  have hj : ((t.adjust id fun e => { e with key := .absent, record := .absent }).get? j).any
      (!·.isTombstone) = true := hj
  rw [hget] at hj
  split at hj
  · rw [he] at hj
    simp [Entry.isTombstone, Value.isAbsent] at hj
  · exact hj

theorem Chained.isLive_unlink (hc : t.Chained chains) (h : t.unlink id = .ok (e, t'))
    (j : EntryId) : t'.isLive j = (decide (j ≠ id) && t.isLive j) := by
  have hsome : ∀ s : Table, s.isLive j = (s.content? j).isSome := fun s => by
    rw [isLive, content?, Option.isSome_map]
  rw [hsome, hsome, (hc.unlink h).2.2]
  by_cases hj : j = id <;> simp [hj]

/-- Unlinking takes an id out of its chain. -/
theorem Chained.chainIds_unlink (hc : t.Chained chains) (h : t.unlink id = .ok (e, t')) :
    t'.bins.size = t.bins.size ∧
      ∀ bin < t.bins.size, t'.chainIds bin = (t.chainIds bin).filter t'.isLive := by
  obtain ⟨he, -, -⟩ := hc.unlink h
  obtain ⟨pre, post, hchain, hunlink⟩ := hc.unlink_eq he
  have hlive := hc.isLive_unlink h
  rw [h, Except.ok.injEq, Prod.mk.injEq] at hunlink
  obtain ⟨-, rfl⟩ := hunlink
  have hc' := hc.unlinked he hchain (t.stamp + 1)
  have hsize := (bypass_keeps t (t.binOf e.hash) pre.getLast? e.next).1
  refine ⟨hsize, fun bin hb => ?_⟩
  have hkept : ∀ ids : List EntryId, ids ⊆ chains bin → id ∉ ids →
      ids.filter (fun j => decide (j ≠ id) && t.isLive j) = ids := by
    intro ids hids hid
    refine List.filter_eq_self.mpr fun j hj => ?_
    obtain ⟨f, hf⟩ := (hc.ends bin hb).live j (hids hj)
    have hne : j ≠ id := fun h => hid (h ▸ hj)
    rw [isLive_of_get? hf, decide_eq_true hne]
    rfl
  rw [List.filter_congr fun j _ => hlive j]
  refine (hc'.chainIds_eq (hsize.symm ▸ hb)).trans ?_
  rw [hc.chainIds_eq hb]
  by_cases hbin : bin = t.binOf e.hash
  · have hnodup := (hc.ends bin hb).nodup
    subst hbin
    rw [hchain] at hkept hnodup ⊢
    have hout := (List.nodup_cons.mp (List.nodup_middle.mp hnodup)).1
    rw [Function.update_self, List.filter_append, List.filter_cons_of_neg (by simp),
      hkept pre (by simp) fun h => hout (List.mem_append_left _ h),
      hkept post (by simp) fun h => hout (List.mem_append_right _ h)]
  · rw [Function.update_of_ne hbin, hkept _ (List.Subset.refl _)]
    intro hid
    exact hbin (hc.home bin hb id hid e he).symm

theorem Chained.drifted_unlink (hc : t.Chained chains) (h : t.unlink id = .ok (e, t')) :
    t.Drifted t' := by
  obtain ⟨he, hw', -⟩ := hc.unlink h
  obtain ⟨hsize, hids⟩ := hc.chainIds_unlink h
  have hseat := seat_unlink h
  have hid := isLive_iff.mp (isLive_of_get? he)
  refine ⟨hw', hsize, fun j hj => ?_, fun j _ hl => ?_, fun j _ hk => ?_, fun bin hb =>
    ⟨[], hids bin hb, by simp⟩⟩
  · unfold Issued
    rw [hseat]
    split
    · rename_i hi
      obtain ⟨g, filled, hs, hcases⟩ := hj
      rw [hi, hid, Option.some.injEq, Prod.mk.injEq] at hs
      exact ⟨_, _, rfl, Or.inl (by omega)⟩
    · exact hj
  · rw [hc.isLive_unlink h, Bool.and_eq_true] at hl
    exact hl.2
  · rw [holdsKey_eq, mapping?_unlink hc h] at hk
    rw [holdsKey_eq]
    split at hk
    · cases hk
    · exact hk

theorem WellFormed.drifted (hw : t.WellFormed) (h : t.Drifts t') : t.Drifted t' := by
  induction h with
  | refl => exact .refl hw
  | tail _ h ih =>
    refine ih.trans hw ?_
    obtain ⟨chains, hc⟩ := ih.wellFormed
    cases h with
    | prepend hash hkey record => exact hc.drifted_prepend hash hkey record
    | setRecord id record => exact hc.drifted_setRecord id record
    | unlink h => exact hc.drifted_unlink h
    | tombstone h => exact hc.drifted_tombstone h

/-! ### Standing in a chain -/

/-- What comes after the first bins and some ids of the next: those that are left of its chain, and
the chains of the bins to come. -/
def following (t : Table) (bin : Nat) (rest : List EntryId) : List EntryId :=
  rest ++ (List.range' (bin + 1) (t.bins.size - (bin + 1))).flatMap t.chainIds

/-- A cursor in the chain of a bin, and the ids it leads to. -/
structure Stands (t : Table) (bin : Nat) (cursor : Option EntryId) (rest : List EntryId) : Prop where
  wellFormed : t.WellFormed
  bin_lt : bin < t.bins.size
  suffix : rest <:+ t.chainIds bin
  cursor_eq : cursor = rest.head?

theorem Leads.cursor_eq : ∀ {cursor : Option EntryId} {l : List EntryId}, t.Leads cursor l →
    cursor = l.head?
  | _, [], h => h
  | _, _ :: _, h => h.1

theorem mem_following_cons {bin : Nat} {ids : List EntryId} {j : EntryId} :
    j ∈ t.following bin (id :: ids) ↔ j = id ∨ j ∈ t.following bin ids := List.mem_cons

theorem following_end {bin : Nat} (h : ¬ bin + 1 < t.bins.size) : t.following bin [] = [] := by
  have hnone : t.bins.size - (bin + 1) = 0 := by omega
  rw [following, hnone]
  rfl

theorem following_next {bin : Nat} (h : bin + 1 < t.bins.size) :
    t.following bin [] = t.following (bin + 1) (t.chainIds (bin + 1)) := by
  have hsize : t.bins.size - (bin + 1) = (t.bins.size - (bin + 1 + 1)) + 1 := by omega
  rw [following, following, hsize, List.range'_succ, List.flatMap_cons, List.nil_append]

/-- At the head of a chain all of it is left. -/
theorem WellFormed.stands (hw : t.WellFormed) {bin : Nat} (hb : bin < t.bins.size) :
    t.Stands bin (t.binHead bin) (t.chainIds bin) := by
  refine ⟨hw, hb, List.suffix_rfl, ?_⟩
  obtain ⟨chains, hc⟩ := hw
  rw [hc.chainIds_eq hb]
  exact (hc.ends bin hb).cursor_eq

theorem WellFormed.following_zero (hw : t.WellFormed) :
    t.following 0 (t.chainIds 0) = t.entryIds := by
  rw [entryIds_eq_idsOf, idsOf_split hw.bins_pos, following]
  rfl

namespace Stands

variable {bin : Nat} {cursor : Option EntryId} {rest post : List EntryId}

theorem nil_of_none (h : t.Stands bin none rest) : rest = [] :=
  List.head?_eq_none_iff.mp h.cursor_eq.symm

/-- On an entry the cursor leads to it first. -/
theorem exists_cons (h : t.Stands bin (some id) rest) : ∃ post, rest = id :: post := by
  cases rest with
  | nil => exact absurd h.cursor_eq nofun
  | cons j post => exact ⟨post, by rw [Option.some.inj h.cursor_eq]⟩

/-- The ids that follow are those after the passed ones. -/
theorem entryIds_eq (h : t.Stands bin cursor rest) :
    ∃ passed, t.entryIds = passed ++ t.following bin rest := by
  obtain ⟨pre, hpre⟩ := h.suffix
  refine ⟨(List.range' 0 bin).flatMap t.chainIds ++ pre, ?_⟩
  rw [entryIds_eq_idsOf, idsOf_split h.bin_lt, ← hpre, following]
  simp

theorem nodup_following (h : t.Stands bin cursor rest) : (t.following bin rest).Nodup := by
  obtain ⟨passed, hids⟩ := h.entryIds_eq
  obtain ⟨chains, hc⟩ := h.wellFormed
  have hnodup : t.entryIds.Nodup := hc.entryIds_eq ▸ hc.once
  rw [hids] at hnodup
  exact (List.nodup_append.mp hnodup).2.1

theorem notMem_following (h : t.Stands bin (some id) (id :: post)) : id ∉ t.following bin post := by
  have hnodup : (id :: t.following bin post).Nodup := h.nodup_following
  exact (List.nodup_cons.mp hnodup).1

/-- Everything ahead is live. -/
theorem isLive (h : t.Stands bin cursor rest) (hid : id ∈ t.following bin rest) :
    t.isLive id = true := by
  obtain ⟨passed, hids⟩ := h.entryIds_eq
  obtain ⟨chains, hc⟩ := h.wellFormed
  have hmem : id ∈ t.entryIds := hids ▸ List.mem_append_right _ hid
  rw [hc.entryIds_eq] at hmem
  obtain ⟨e, he⟩ := (hc.linked id).mpr hmem
  exact isLive_of_get? he

/-- The entry under the cursor. -/
theorem exists_entry (h : t.Stands bin (some id) (id :: post)) : ∃ e, t.get? id = some e :=
  exists_of_isLive (h.isLive (mem_following_cons.mpr (Or.inl rfl)))

/-- Moving on along the chain. -/
theorem next (h : t.Stands bin (some id) (id :: post)) (he : t.get? id = some e) :
    t.Stands bin e.next post := by
  obtain ⟨pre, hpre⟩ := h.suffix
  obtain ⟨chains, hc⟩ := h.wellFormed
  have hends := hc.ends bin h.bin_lt
  rw [← hc.chainIds_eq h.bin_lt, ← hpre] at hends
  obtain ⟨-, f, hf, hl⟩ := hends.suffix
  obtain rfl : e = f := Option.some.inj (he.symm.trans hf)
  exact ⟨⟨chains, hc⟩, h.bin_lt, (List.suffix_cons id post).trans ⟨pre, hpre⟩, hl.cursor_eq⟩

/-- After the table drifted, a cursor on a live entry leads to what is left of the chain. -/
theorem drift (h : t.Stands bin (some id) (id :: post)) (hd : t.Drifted t')
    (he : t'.get? id = some e) : t'.Stands bin e.next (post.filter t'.isLive) := by
  obtain ⟨pre, hpre⟩ := h.suffix
  obtain ⟨fresh, hids, -⟩ := hd.chainIds bin h.bin_lt
  rw [← hpre, List.filter_append, List.filter_cons_of_pos (isLive_of_get? he),
    ← List.append_assoc] at hids
  have hstands : t'.Stands bin (some id) (id :: post.filter t'.isLive) :=
    ⟨hd.wellFormed, hd.size_eq ▸ h.bin_lt, ⟨_, hids.symm⟩, rfl⟩
  exact hstands.next he

/-- Unlinking the entry under the cursor leaves what is ahead of it. -/
theorem unlink (h : t.Stands bin (some id) (id :: post)) (hu : t.unlink id = .ok (e, t')) :
    t'.Stands bin e.next post ∧ t'.following bin post = t.following bin post := by
  obtain ⟨chains, hc⟩ := h.wellFormed
  obtain ⟨hsize, hids⟩ := hc.chainIds_unlink hu
  obtain ⟨he, hw', -⟩ := hc.unlink hu
  have hnext := h.next he
  have hkept : ∀ j ∈ t.following bin post, t'.isLive j = true := by
    intro j hj
    have hne : j ≠ id := fun hji => h.notMem_following (hji ▸ hj)
    rw [hc.isLive_unlink hu, decide_eq_true hne, hnext.isLive hj]
    rfl
  have hpost : post.filter t'.isLive = post :=
    List.filter_eq_self.mpr fun j hj => hkept j (List.mem_append_left _ hj)
  refine ⟨⟨hw', hsize ▸ h.bin_lt, ?_, hnext.cursor_eq⟩, ?_⟩
  · obtain ⟨pre, hpre⟩ := hnext.suffix
    rw [hids bin h.bin_lt, ← hpre, List.filter_append, hpost]
    exact List.suffix_append _ _
  · rw [following, following, hsize]
    refine congrArg (post ++ ·) (List.flatMap_congr fun b hb => ?_)
    have hrange := List.mem_range'_1.mp hb
    rw [hids b (by omega)]
    refine List.filter_eq_self.mpr fun j hj => hkept j (List.mem_append_right _ ?_)
    exact List.mem_flatMap.mpr ⟨b, hb, hj⟩

/-- Changes that keep the ids keep what is ahead. -/
theorem still (h : t.Stands bin cursor rest) (he : t.Evolves 0 t') :
    t'.Stands bin cursor rest ∧ ∀ ids, t'.following bin ids = t.following bin ids := by
  obtain ⟨chains, hc⟩ := h.wellFormed
  obtain ⟨hc', hsize⟩ := he.chained rfl hc
  have hids : ∀ b < t.bins.size, t'.chainIds b = t.chainIds b := fun b hb =>
    (hc'.chainIds_eq (hsize ▸ hb)).trans (hc.chainIds_eq hb).symm
  refine ⟨⟨⟨_, hc'⟩, hsize ▸ h.bin_lt, (hids bin h.bin_lt).symm ▸ h.suffix, h.cursor_eq⟩, fun ids => ?_⟩
  rw [following, following, hsize]
  refine congrArg (ids ++ ·) (List.flatMap_congr fun b hb => hids b ?_)
  have hrange := List.mem_range'_1.mp hb
  omega

end Stands

/-- Of the ids that were given out before the table drifted, those are ahead that were and that are
left. -/
theorem Drifted.mem_following (hd : t.Drifted t') {j : EntryId} (hj : t.Issued j)
    (hlive : t'.isLive j = true) (bin : Nat) (ids : List EntryId) :
    j ∈ t'.following bin (ids.filter t'.isLive) ↔ j ∈ t.following bin ids := by
  rw [following, following, hd.size_eq, List.mem_append, List.mem_append, List.mem_filter,
    and_iff_left hlive]
  refine or_congr_right ?_
  simp only [List.mem_flatMap, List.mem_range'_1]
  refine exists_congr fun b => and_congr_right fun hb => ?_
  obtain ⟨fresh, hids, hfresh⟩ := hd.chainIds b (by omega)
  rw [hids, List.mem_append, List.mem_filter, and_iff_left hlive]
  exact or_iff_right fun hmem => hfresh j hmem hj

end ObjectMachine.Table
