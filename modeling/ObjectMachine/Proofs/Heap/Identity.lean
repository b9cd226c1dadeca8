import Mathlib.Tactic
import ObjectMachine.Proofs.Heap.Collection

/-! References never stand for another object.

A run of the heap inserts objects and collects.  The invariant ties the references handed out so far
to the slots: the generation of a slot never falls below that of a reference into it, and it is above
it while the slot waits on the free list.  So the reference of a new object is new, and a reference
that went stale stays stale.  A slot whose generations are used up is retired: it stays empty and is
never listed again. -/

namespace ObjectMachine.Heap

/-! ### What insertion and collection do to the slots -/

/-- The free list names empty slots, each once, and generations fit into a reference. -/
structure Sound (h : Heap) : Prop where
  free_empty : ∀ i ∈ h.free, ∃ g : Nat, h.slots[i]? = some ⟨g, none⟩
  free_nodup : h.free.Nodup
  generation_le : ∀ (i g : Nat) (c : Option Object), h.slots[i]? = some ⟨g, c⟩ →
    g ≤ Value.maxGeneration

variable {h : Heap}

theorem sound_fresh (settings : HeapSettings) : Sound { settings := settings } where
  free_empty := by simp
  free_nodup := List.nodup_nil
  generation_le := by simp

/-- The object an insertion stores. -/
def stored (h : Heap) (cls : Value) (body : Body) : Object :=
  { cls := cls, serial := h.nextSerial, body := body }

/-- An insertion fills a slot in one of its generations: the slot on top of the free list, or else a
new one. -/
structure Fills (h : Heap) (cls : Value) (body : Body) (i g : Nat) : Prop where
  reference_eq : h.nextReference = .ofSlot i g
  generation_le : g ≤ Value.maxGeneration
  slots_eq : ∀ j, (h.insert cls body).slots[j]? =
    if j = i then some ⟨g, some (h.stored cls body)⟩ else h.slots[j]?
  source : h.free = i :: (h.insert cls body).free ∧ h.slots[i]? = some ⟨g, none⟩ ∨
    h.free = [] ∧ (h.insert cls body).free = [] ∧ i = h.slots.size

theorem Sound.exists_fills (hs : h.Sound) (cls : Value) (body : Body) :
    ∃ i g, h.Fills cls body i g := by
  cases hf : h.free with
  | nil =>
    refine ⟨h.slots.size, 0, by simp only [nextReference, hf], Nat.zero_le _, fun j => ?_, Or.inr ?_⟩
    · simp only [insert, hf, Array.getElem?_push, stored]
    · simp only [insert, hf, and_self]
  | cons i rest =>
    obtain ⟨g, hg⟩ := hs.free_empty i (hf ▸ List.mem_cons_self ..)
    refine ⟨i, g, ?_, hs.generation_le i g none hg, fun j => ?_, Or.inl ?_⟩
    · simp only [nextReference, hf, hg, Option.map_some, Option.getD_some]
    · simp only [insert, hf, Array.getElem?_modify, stored]
      by_cases hij : i = j
      · subst hij; simp [hg]
      · simp [hij, Ne.symm hij]
    · simp only [insert, hf, hg, and_self]

namespace Fills

variable {cls : Value} {body : Body} {i g : Nat}

theorem index_lt (hf : h.Fills cls body i g) (hroom : (h.insert cls body).slots.size ≤ 2 ^ 32) :
    i < 2 ^ 32 :=
  (Array.getElem?_eq_some_iff.mp ((hf.slots_eq i).trans (if_pos rfl))).1.trans_le hroom

/-- A slot that was there already was empty and listed as free. -/
theorem slot_before (hf : h.Fills cls body i g) {g' : Nat} {c : Option Object}
    (hslot : h.slots[i]? = some ⟨g', c⟩) : g' = g ∧ c = none ∧ i ∈ h.free := by
  rcases hf.source with ⟨hfree, hempty⟩ | ⟨-, -, rfl⟩
  · have hsame := hslot.symm.trans hempty
    simp only [Option.some.injEq, Slot.mk.injEq] at hsame
    exact ⟨hsame.1, hsame.2, hfree ▸ List.mem_cons_self⟩
  · exact absurd (Array.getElem?_eq_some_iff.mp hslot).1 (lt_irrefl _)

theorem notMem_occupied (hf : h.Fills cls body i g) : i ∉ h.occupied := by
  intro hi
  obtain ⟨g', o, hslot⟩ := mem_occupied.mp hi
  exact absurd (hf.slot_before hslot).2.1 nofun

theorem occupied_eq (hf : h.Fills cls body i g) :
    (h.insert cls body).occupied = Insert.insert i h.occupied := by
  ext j
  rw [Finset.mem_insert, mem_occupied, mem_occupied, hf.slots_eq]
  by_cases hj : j = i
  · simp [hj]
  · simp [hj]

/-- The free list loses the slot. -/
theorem mem_free (hs : h.Sound) (hf : h.Fills cls body i g) (j : Nat) :
    j ∈ (h.insert cls body).free ↔ j ∈ h.free ∧ j ≠ i := by
  rcases hf.source with ⟨hfree, -⟩ | ⟨hfree, hnil, -⟩
  · have hnodup := hs.free_nodup
    rw [hfree, List.nodup_cons] at hnodup
    rw [hfree, List.mem_cons]
    constructor
    · exact fun hj => ⟨Or.inr hj, fun hji => hnodup.1 (hji ▸ hj)⟩
    · exact fun hj => hj.1.resolve_left hj.2
  · rw [hfree, hnil]
    simp

theorem free_nodup (hs : h.Sound) (hf : h.Fills cls body i g) : (h.insert cls body).free.Nodup := by
  rcases hf.source with ⟨hfree, -⟩ | ⟨-, hnil, -⟩
  · exact (List.nodup_cons.mp (hfree ▸ hs.free_nodup)).2
  · rw [hnil]
    exact List.nodup_nil

end Fills

theorem Sound.insert (hs : h.Sound) (cls : Value) (body : Body) : (h.insert cls body).Sound := by
  obtain ⟨i, g, hf⟩ := hs.exists_fills cls body
  refine ⟨fun j hj => ?_, hf.free_nodup hs, fun j g' c hj => ?_⟩
  · obtain ⟨hj, hji⟩ := (hf.mem_free hs j).mp hj
    rw [hf.slots_eq, if_neg hji]
    exact hs.free_empty j hj
  · rw [hf.slots_eq] at hj
    split at hj
    · simp only [Option.some.injEq, Slot.mk.injEq] at hj
      exact hj.1 ▸ hf.generation_le
    · exact hs.generation_le j g' c hj

theorem Unmarked.insert (hs : h.Sound) (hu : h.Unmarked) (cls : Value) (body : Body) :
    (h.insert cls body).Unmarked := by
  obtain ⟨i, g, hf⟩ := hs.exists_fills cls body
  rintro slot hslot o ho
  obtain ⟨j, hj⟩ := Array.mem_iff_getElem?.mp hslot
  rw [hf.slots_eq] at hj
  split at hj
  · obtain rfl := Option.some.inj hj
    rw [← Option.some.inj ho]
    rfl
  · exact hu slot (Array.mem_of_getElem? hj) o ho

theorem nextSerial_insert (h : Heap) (cls : Value) (body : Body) :
    (h.insert cls body).nextSerial = h.nextSerial + 1 := by
  unfold Heap.insert
  dsimp only
  split <;> rfl

theorem live_insert (h : Heap) (cls : Value) (body : Body) :
    (h.insert cls body).live = h.live + 1 := by
  unfold Heap.insert
  dsimp only
  split <;> rfl

/-- The new reference resolves to the new object, every other one to what it resolved to before. -/
theorem Sound.get?_insert (hs : h.Sound) (cls : Value) (body : Body)
    (hroom : (h.insert cls body).slots.size ≤ 2 ^ 32) (v : Value) :
    (h.insert cls body).get? v =
      if v = h.nextReference then some (h.stored cls body) else h.get? v := by
  obtain ⟨i, g, hf⟩ := hs.exists_fills cls body
  have hi := hf.index_lt hroom
  have hg := hf.generation_le
  rw [hf.reference_eq]
  ext o
  rw [get?_eq_some_iff, hf.slots_eq]
  by_cases hv : v = .ofSlot i g
  · subst hv
    rw [if_pos rfl, if_pos (Value.slotIndex_ofSlot g hi), Value.slotGeneration_ofSlot hi hg]
    simp [Value.isRef_ofSlot g hi]
  · rw [if_neg hv, get?_eq_some_iff]
    refine and_congr_right fun hr => ?_
    split
    · rename_i hvi
      -- no reference led to an object in that slot before
      have hvg : g ≠ v.slotGeneration := fun hvg => hv <| Value.eq_of_slot hr (Value.isRef_ofSlot g hi)
        (by rw [Value.slotIndex_ofSlot g hi, hvi]) (by rw [Value.slotGeneration_ofSlot hi hg, hvg])
      refine iff_of_false (fun ho => ?_) fun ho => ?_
      · simp only [Option.some.injEq, Slot.mk.injEq] at ho
        exact hvg ho.1
      · rw [hvi] at ho
        exact absurd (hf.slot_before ho).2.1 nofun
    · rfl

/-- Storing an object leaves those that are there alone. -/
theorem Sound.get?_insert_of_some (hs : h.Sound) (cls : Value) (body : Body)
    {v : Value} {o : Object} (ho : h.get? v = some o) : (h.insert cls body).get? v = some o := by
  obtain ⟨i, g, hf⟩ := hs.exists_fills cls body
  obtain ⟨hr, hslot⟩ := get?_eq_some_iff.mp ho
  refine get?_eq_some_iff.mpr ⟨hr, ?_⟩
  rw [hf.slots_eq, if_neg ?_, hslot]
  rintro rfl
  exact absurd (hf.slot_before hslot).2.1 nofun

/-- Whatever a reference resolves to is the new object, or was there before. -/
theorem Sound.get?_insert_cases (hs : h.Sound) (cls : Value) (body : Body) {v : Value} {o : Object}
    (ho : (h.insert cls body).get? v = some o) : h.get? v = some o ∨ o = h.stored cls body := by
  obtain ⟨i, g, hf⟩ := hs.exists_fills cls body
  obtain ⟨hr, hslot⟩ := get?_eq_some_iff.mp ho
  rw [hf.slots_eq] at hslot
  split at hslot
  · simp only [Option.some.injEq, Slot.mk.injEq] at hslot
    exact Or.inr hslot.2.symm
  · exact Or.inl (get?_eq_some_iff.mpr ⟨hr, hslot⟩)

/-- A slot that is freed moves on to its next generation, if there is one. -/
theorem sweepSlot_of_garbage {marks : Array Bool} {i g : Nat} {c : Option Object}
    (hg : isGarbage marks i ⟨g, c⟩ = true) :
    c.isSome = true ∧ sweepSlot marks i ⟨g, c⟩ =
      if g < Value.maxGeneration then ⟨g + 1, none⟩ else ⟨g, none⟩ := by
  cases c with
  | none => simp [isGarbage] at hg
  | some o =>
    rw [isGarbage, Bool.not_eq_true'] at hg
    simp only [sweepSlot, hg, Bool.false_eq_true, if_false, Option.isSome_some, and_self]

/-- Sweeping never lowers the generation of a slot, nor lifts it over the greatest one. -/
theorem generation_sweepSlot (marks : Array Bool) (i : Nat) (slot : Slot) :
    slot.generation ≤ (sweepSlot marks i slot).generation ∧
      (slot.generation ≤ Value.maxGeneration →
        (sweepSlot marks i slot).generation ≤ Value.maxGeneration) := by
  rw [sweepSlot]
  cases slot.object with
  | none => exact ⟨le_rfl, id⟩
  | some o =>
    simp only
    split
    · split
      · exact ⟨le_rfl, id⟩
      · exact ⟨le_rfl, id⟩
    · split
      · rename_i hlt
        exact ⟨Nat.le_succ _, fun _ => hlt⟩
      · exact ⟨le_rfl, id⟩

/-- A slot is on the free list after a collection if it was before, or was freed with a generation
to spare. -/
theorem mem_free_collect (h : Heap) (roots : List Value) (i : Nat) :
    i ∈ (h.collect roots).1.free ↔ i ∈ h.free ∨ ∃ g o, h.slots[i]? = some ⟨g, some o⟩ ∧
      isGarbage (h.markFrom roots).marks i ⟨g, some o⟩ = true ∧ g < Value.maxGeneration := by
  have hfree : (h.collect roots).1.free = pushReusable (h.markFrom roots).marks h.slots h.free := rfl
  rw [hfree, pushReusable_eq, List.mem_append, List.mem_reverse, List.mem_filter, List.mem_range,
    reusableAt, Option.any_eq_true, or_comm]
  refine or_congr_right ⟨?_, ?_⟩
  · rintro ⟨_, ⟨g, c⟩, hs, hg⟩
    rw [Bool.and_eq_true, decide_eq_true_iff] at hg
    obtain ⟨o, rfl⟩ := Option.isSome_iff_exists.mp (sweepSlot_of_garbage hg.1).1
    exact ⟨g, o, hs, hg.1, hg.2⟩
  · rintro ⟨g, o, hs, hg, hlt⟩
    exact ⟨(Array.getElem?_eq_some_iff.mp hs).1, _, hs, by simp [hg, hlt]⟩

theorem Sound.collect (hs : h.Sound) (roots : List Value) : (h.collect roots).1.Sound := by
  refine ⟨fun i hi => ?_, ?_, fun i g c hi => ?_⟩
  · rcases (mem_free_collect h roots i).mp hi with hi | ⟨g, o, hslot, hg, hlt⟩
    · obtain ⟨g, hg⟩ := hs.free_empty i hi
      exact ⟨g, getElem?_collect_of_empty hg⟩
    · rw [getElem?_collect, hslot, Option.map_some, (sweepSlot_of_garbage hg).2, if_pos hlt]
      exact ⟨g + 1, rfl⟩
  · have hfree : (h.collect roots).1.free =
        pushReusable (h.markFrom roots).marks h.slots h.free := rfl
    rw [hfree, pushReusable_eq, List.nodup_append]
    refine ⟨List.nodup_reverse.mpr (List.nodup_range.filter _), hs.free_nodup, ?_⟩
    -- a slot on the free list is empty, and the freed ones are not
    rintro i hi _ hi' rfl
    obtain ⟨g, hg⟩ := hs.free_empty i hi'
    rw [List.mem_reverse, List.mem_filter, reusableAt, hg] at hi
    simp [isGarbage] at hi
  · rw [getElem?_collect] at hi
    obtain ⟨slot, hslot, hsweep⟩ := Option.map_eq_some_iff.mp hi
    have hle := (generation_sweepSlot (h.markFrom roots).marks i slot).2
      (hs.generation_le i slot.generation slot.object hslot)
    rwa [hsweep] at hle

/-! ### Runs -/

/-- What happens to a heap: an object is stored, or the heap is collected. -/
inductive Step where
  | insert (cls : Value) (body : Body)
  | collect (roots : List Value)

/-- The heap after a step. -/
def step (h : Heap) : Step → Heap
  | .insert cls body => h.insert cls body
  | .collect roots => (h.collect roots).1

/-- The heap after a list of steps. -/
def run (h : Heap) (steps : List Step) : Heap := steps.foldl step h

/-- The references that the insertions among the steps give, in order. -/
def issued (h : Heap) : List Step → List Value
  | [] => []
  | .insert cls body :: rest => h.nextReference :: (h.insert cls body).issued rest
  | .collect roots :: rest => (h.collect roots).1.issued rest

/-- Every collection among the steps reaches the reference. -/
def Survives (h : Heap) (v : Value) : List Step → Prop
  | [] => True
  | .insert cls body :: rest => (h.insert cls body).Survives v rest
  | .collect roots :: rest => h.Reachable roots v ∧ (h.collect roots).1.Survives v rest

/-- A collection empties a slot whose generations are used up. -/
def RetiredBy (h : Heap) (roots : List Value) (i : Nat) : Prop :=
  ∃ o, h.slots[i]? = some ⟨Value.maxGeneration, some o⟩ ∧ i ∉ (h.collect roots).1.occupied

/-- One of the collections among the steps retires a slot. -/
def Retires (h : Heap) (i : Nat) : List Step → Prop
  | [] => False
  | .insert cls body :: rest => (h.insert cls body).Retires i rest
  | .collect roots :: rest => h.RetiredBy roots i ∨ (h.collect roots).1.Retires i rest

theorem run_append (h : Heap) (before after : List Step) :
    h.run (before ++ after) = (h.run before).run after := List.foldl_append

/-- Slots are never given back. -/
theorem size_le_run : ∀ (h : Heap) (steps : List Step), h.slots.size ≤ (h.run steps).slots.size
  | _, [] => le_rfl
  | h, .insert cls body :: rest => by
    refine le_trans ?_ (size_le_run (h.insert cls body) rest)
    unfold insert
    simp only
    split
    · simp
    · simp
  | h, .collect roots :: rest => by
    refine le_trans (le_of_eq ?_) (size_le_run (h.collect roots).1 rest)
    simp [collect]

/-- What holds of a heap that gave the references `given` and retired the slots `gone`. -/
structure Consistent (h : Heap) (given : List Value) (gone : Nat → Prop) : Prop where
  sound : h.Sound
  unmarked : h.Unmarked
  live_eq : h.live = h.occupied.card
  mem_free : ∀ i, i ∈ h.free ↔ (∃ g : Nat, h.slots[i]? = some ⟨g, none⟩) ∧ ¬ gone i
  gone_empty : ∀ i, gone i → ∃ g : Nat, h.slots[i]? = some ⟨g, none⟩
  serial_eq : h.nextSerial = given.length
  given_nodup : given.Nodup
  given_le : ∀ v ∈ given, ∃ (g : Nat) (c : Option Object), h.slots[v.slotIndex]? = some ⟨g, c⟩ ∧
    v.slotGeneration ≤ g ∧ (v.slotIndex ∈ h.free → v.slotGeneration < g)

theorem consistent_fresh (settings : HeapSettings) :
    Consistent { settings := settings } [] fun _ => False where
  sound := sound_fresh settings
  unmarked := by simp [Unmarked]
  live_eq := rfl
  mem_free := by simp
  gone_empty := by simp
  serial_eq := rfl
  given_nodup := List.nodup_nil
  given_le := by simp

variable {given : List Value} {gone : Nat → Prop}

/-- The reference of a new object was never given before. -/
theorem Consistent.nextReference_notMem (hc : h.Consistent given gone) (cls : Value) (body : Body)
    (hroom : (h.insert cls body).slots.size ≤ 2 ^ 32) : h.nextReference ∉ given := by
  obtain ⟨i, g, hf⟩ := hc.sound.exists_fills cls body
  have hi := hf.index_lt hroom
  intro hv
  obtain ⟨g', c, hslot, -, hlt⟩ := hc.given_le _ hv
  rw [hf.reference_eq, Value.slotIndex_ofSlot g hi] at hslot hlt
  rw [Value.slotGeneration_ofSlot hi hf.generation_le] at hlt
  obtain ⟨rfl, -, hfree⟩ := hf.slot_before hslot
  exact lt_irrefl _ (hlt hfree)

theorem Consistent.insert (hc : h.Consistent given gone) (cls : Value) (body : Body)
    (hroom : (h.insert cls body).slots.size ≤ 2 ^ 32) :
    (h.insert cls body).Consistent (given ++ [h.nextReference]) gone := by
  have hnew := hc.nextReference_notMem cls body hroom
  obtain ⟨i, g, hf⟩ := hc.sound.exists_fills cls body
  have hfree := hf.mem_free hc.sound
  have hkept : ∀ j, gone j → j ≠ i := by
    rintro j hj rfl
    obtain ⟨g', hslot⟩ := hc.gone_empty j hj
    exact ((hc.mem_free j).mp (hf.slot_before hslot).2.2).2 hj
  refine ⟨hc.sound.insert cls body, hc.unmarked.insert hc.sound cls body, ?_, fun j => ?_, fun j hj => ?_,
    ?_, ?_, fun v hv => ?_⟩
  · rw [live_insert, hf.occupied_eq, Finset.card_insert_of_notMem hf.notMem_occupied, ← hc.live_eq]
  · rw [hfree, hc.mem_free, hf.slots_eq]
    by_cases hj : j = i
    · simp [hj]
    · simp [hj]
  · rw [hf.slots_eq, if_neg (hkept j hj)]
    exact hc.gone_empty j hj
  · rw [nextSerial_insert, List.length_append, List.length_singleton, ← hc.serial_eq]
  · rw [List.nodup_append]
    refine ⟨hc.given_nodup, List.nodup_singleton _, ?_⟩
    rintro v hv w hw rfl
    exact hnew (List.mem_singleton.mp hw ▸ hv)
  · rw [List.mem_append, List.mem_singleton] at hv
    rw [hf.slots_eq, hfree]
    rcases hv with hv | rfl
    · obtain ⟨g', c, hslot, hle, hlt⟩ := hc.given_le v hv
      by_cases hvi : v.slotIndex = i
      · -- an older tenant of the slot has an older generation
        obtain ⟨rfl, -, -⟩ := hf.slot_before (hvi ▸ hslot)
        rw [if_pos hvi]
        exact ⟨g', _, rfl, hle, fun hf => absurd hvi hf.2⟩
      · rw [if_neg hvi]
        exact ⟨g', c, hslot, hle, fun hf => hlt hf.1⟩
    · have hi := hf.index_lt hroom
      rw [hf.reference_eq, Value.slotIndex_ofSlot g hi, Value.slotGeneration_ofSlot hi hf.generation_le,
        if_pos rfl]
      exact ⟨g, _, rfl, le_rfl, fun hf => absurd rfl hf.2⟩

/-- The empty slots after a collection are those listed as free and those that are retired. -/
theorem Consistent.mem_free_collect (hc : h.Consistent given gone) (roots : List Value) (i : Nat) :
    i ∈ (h.collect roots).1.free ↔ (∃ g : Nat, (h.collect roots).1.slots[i]? = some ⟨g, none⟩) ∧
      ¬ (gone i ∨ h.RetiredBy roots i) := by
  rw [Heap.mem_free_collect, hc.mem_free]
  cases hslot : h.slots[i]? with
  | none =>
    rw [getElem?_collect, hslot]
    simp
  | some slot =>
    obtain ⟨g, c⟩ := slot
    cases c with
    | none =>
      rw [getElem?_collect_of_empty hslot]
      simp [RetiredBy, hslot]
    | some o =>
      have hgone : ¬ gone i := fun hi => by
        obtain ⟨g', hg'⟩ := hc.gone_empty i hi
        rw [hslot] at hg'; simp at hg'
      have hgarbage : isGarbage (h.markFrom roots).marks i ⟨g, some o⟩ = true ↔
          i ∉ h.reached roots := by
        rw [isGarbage_iff hc.unmarked hslot, mem_markedSlots_iff_reached hc.unmarked]; simp
      have hocc : i ∈ (h.collect roots).1.occupied ↔ i ∈ h.reached roots := by
        rw [mem_occupied_collect hc.unmarked]
        exact and_iff_right (mem_occupied.mpr ⟨g, o, hslot⟩)
      by_cases hi : i ∈ h.reached roots
      · rw [getElem?_collect_of_reached hc.unmarked hi, hslot]
        simp [hgarbage, hi]
      · rw [getElem?_collect_of_not_reached hc.unmarked hslot hi]
        have hle := hc.sound.generation_le i g _ hslot
        have hret : h.RetiredBy roots i ↔ ¬ g < Value.maxGeneration := by
          rw [RetiredBy, hslot]
          constructor
          · rintro ⟨p, hp, _⟩
            simp only [Option.some.injEq, Slot.mk.injEq] at hp
            omega
          · exact fun hlt => ⟨o, by rw [le_antisymm hle (Nat.le_of_not_lt hlt)], mt hocc.mp hi⟩
        by_cases hlt : g < Value.maxGeneration <;> simp [hgarbage, hi, hgone, hret, hlt]

theorem Consistent.collect (hc : h.Consistent given gone) (roots : List Value) :
    (h.collect roots).1.Consistent given fun i => gone i ∨ h.RetiredBy roots i := by
  refine ⟨hc.sound.collect roots, unmarked_collect hc.unmarked roots, ?_, hc.mem_free_collect roots,
    ?_, hc.serial_eq, hc.given_nodup, fun v hv => ?_⟩
  · have hcard := card_occupied_collect hc.unmarked roots
    have hlive : (h.collect roots).1.live = h.live - (h.collect roots).1.counts.freed := rfl
    have := hc.live_eq
    omega
  · rintro i (hi | ⟨o, hslot, hi⟩)
    · obtain ⟨g, hg⟩ := hc.gone_empty i hi
      exact ⟨g, getElem?_collect_of_empty hg⟩
    · have hr : i ∉ h.reached roots := fun hr =>
        hi ((mem_occupied_collect hc.unmarked).mpr ⟨mem_occupied.mpr ⟨_, o, hslot⟩, hr⟩)
      rw [getElem?_collect_of_not_reached hc.unmarked hslot hr, if_neg (lt_irrefl _)]
      exact ⟨_, rfl⟩
  · obtain ⟨g, c, hslot, hle, hlt⟩ := hc.given_le v hv
    rw [getElem?_collect, hslot, Option.map_some]
    have hmono := (generation_sweepSlot (h.markFrom roots).marks v.slotIndex ⟨g, c⟩).1
    refine ⟨(sweepSlot _ _ ⟨g, c⟩).generation, _, rfl, le_trans hle hmono, fun hfree => ?_⟩
    rcases (Heap.mem_free_collect h roots _).mp hfree with hfree | ⟨g', o, hslot', hg, hlt'⟩
    · exact lt_of_lt_of_le (hlt hfree) hmono
    · -- freed just now, so the slot is one generation further on
      rw [hslot, Option.some.injEq] at hslot'
      rw [hslot', (sweepSlot_of_garbage hg).2, if_pos hlt']
      simp only [Slot.mk.injEq] at hslot'
      show v.slotGeneration < g' + 1
      omega

/-- A run keeps the heap consistent with the references given and the slots retired on the way. -/
theorem Consistent.run : ∀ {h : Heap} {given : List Value} {gone : Nat → Prop} (steps : List Step),
    h.Consistent given gone → (h.run steps).slots.size ≤ 2 ^ 32 →
    (h.run steps).Consistent (given ++ h.issued steps) fun i => gone i ∨ h.Retires i steps
  | h, given, gone, [], hc, _ => by simpa [Heap.run, issued, Retires] using hc
  | h, given, gone, .insert cls body :: rest, hc, hroom => by
    have hsize := size_le_run (h.insert cls body) rest
    have hrec := Consistent.run rest (hc.insert cls body (le_trans hsize hroom)) hroom
    rwa [List.append_assoc] at hrec
  | h, given, gone, .collect roots :: rest, hc, hroom => by
    have hrec := Consistent.run rest (hc.collect roots) hroom
    simp only [or_assoc] at hrec
    exact hrec

/-! ### What a reference resolves to -/

/-- A reference that was given and is stale stays stale. -/
theorem Consistent.run_stale : ∀ {h : Heap} {given : List Value} {gone : Nat → Prop}
    (steps : List Step) {v : Value}, h.Consistent given gone → (h.run steps).slots.size ≤ 2 ^ 32 →
    v ∈ given → h.get? v = none → (h.run steps).get? v = none
  | h, given, gone, [], v, _, _, _, hv => hv
  | h, given, gone, .insert cls body :: rest, v, hc, hroom, hg, hv => by
    have hroom' := le_trans (size_le_run (h.insert cls body) rest) hroom
    refine Consistent.run_stale (h := h.insert cls body) rest (hc.insert cls body hroom') hroom
      (List.mem_append_left _ hg) ?_
    have hne : v ≠ h.nextReference := fun e => hc.nextReference_notMem cls body hroom' (e ▸ hg)
    rw [hc.sound.get?_insert cls body hroom', if_neg hne, hv]
  | h, given, gone, .collect roots :: rest, v, hc, hroom, hg, hv => by
    refine Consistent.run_stale (h := (h.collect roots).1) rest (hc.collect roots) hroom hg ?_
    rw [Option.eq_none_iff_forall_not_mem]
    intro o ho
    rw [Option.mem_def, get?_collect_eq_some_iff hc.unmarked, hv] at ho
    simp at ho

/-- A reference resolves to its object while the collections reach it, and to nothing afterwards. -/
theorem Consistent.get?_run : ∀ {h : Heap} {given : List Value} {gone : Nat → Prop}
    (steps : List Step) {v : Value} {o : Object}, h.Consistent given gone →
    (h.run steps).slots.size ≤ 2 ^ 32 → v ∈ given → h.get? v = some o →
    (h.Survives v steps → (h.run steps).get? v = some o) ∧
      (¬ h.Survives v steps → (h.run steps).get? v = none)
  | h, given, gone, [], v, o, _, _, _, hv => ⟨fun _ => hv, fun hn => absurd trivial hn⟩
  | h, given, gone, .insert cls body :: rest, v, o, hc, hroom, hg, hv => by
    have hroom' := le_trans (size_le_run (h.insert cls body) rest) hroom
    have hne : v ≠ h.nextReference := fun e => hc.nextReference_notMem cls body hroom' (e ▸ hg)
    refine Consistent.get?_run (h := h.insert cls body) rest (hc.insert cls body hroom') hroom
      (List.mem_append_left _ hg) ?_
    rw [hc.sound.get?_insert cls body hroom', if_neg hne, hv]
  | h, given, gone, .collect roots :: rest, v, o, hc, hroom, hg, hv => by
    by_cases hr : h.Reachable roots v
    · have hkept := (get?_collect_eq_some_iff hc.unmarked).mpr ⟨hv, hr⟩
      obtain ⟨h1, h2⟩ := Consistent.get?_run rest (hc.collect roots) hroom hg hkept
      exact ⟨fun hs => h1 hs.2, fun hn => h2 fun hs => hn ⟨hr, hs⟩⟩
    · refine ⟨fun hs => absurd hs.1 hr, fun _ => ?_⟩
      refine Consistent.run_stale (h := (h.collect roots).1) rest (hc.collect roots) hroom hg ?_
      rw [Option.eq_none_iff_forall_not_mem]
      intro p hp
      exact hr ((get?_collect_eq_some_iff hc.unmarked).mp hp).2

theorem get_of_get?_eq_some {v : Value} {o : Object} (hv : h.get? v = some o) : h.get v = .ok o := by
  simp only [get, (get?_eq_some_iff.mp hv).1, if_true, hv]

theorem get_of_get?_eq_none {v : Value} (hr : v.isRef = true) (hv : h.get? v = none) :
    h.get v = .error (.staleReference v) := by
  simp only [get, hr, if_true, hv]

/-- What becomes of the reference of a new object in the rest of a run. -/
theorem Consistent.get_insert_run (hc : h.Consistent given gone) (cls : Value) (body : Body)
    (rest : List Step) (hroom : ((h.insert cls body).run rest).slots.size ≤ 2 ^ 32) :
    let v := h.nextReference
    ((h.insert cls body).Survives v rest →
      ((h.insert cls body).run rest).get v = .ok (h.stored cls body)) ∧
    (¬ (h.insert cls body).Survives v rest →
      ((h.insert cls body).run rest).get v = .error (.staleReference v)) := by
  intro v
  have hroom' := le_trans (size_le_run (h.insert cls body) rest) hroom
  have hnew : (h.insert cls body).get? v = some (h.stored cls body) := by
    rw [hc.sound.get?_insert cls body hroom', if_pos rfl]
  obtain ⟨hkept, hlost⟩ := Consistent.get?_run rest (hc.insert cls body hroom') hroom
    (List.mem_append_right _ (List.mem_singleton_self _)) hnew
  exact ⟨fun hs => get_of_get?_eq_some (hkept hs),
    fun hn => get_of_get?_eq_none (get?_eq_some_iff.mp hnew).1 (hlost hn)⟩

/-- A slot of the heap is empty or occupied. -/
theorem exists_empty_iff {i : Nat} :
    (∃ g : Nat, h.slots[i]? = some ⟨g, none⟩) ↔ i < h.slots.size ∧ i ∉ h.occupied := by
  rw [mem_occupied]
  constructor
  · rintro ⟨g, hg⟩
    exact ⟨(Array.getElem?_eq_some_iff.mp hg).1, by rw [hg]; simp⟩
  · rintro ⟨hi, hempty⟩
    obtain ⟨⟨g, c⟩, hslot⟩ : ∃ slot, h.slots[i]? = some slot := ⟨_, Array.getElem?_eq_getElem hi⟩
    cases c with
    | none => exact ⟨g, hslot⟩
    | some o => exact absurd ⟨g, o, hslot⟩ hempty

/-- The references that a run of insertions and collections on a fresh heap gives are pairwise
different.  Each resolves to its own object, with the serial of its insertion, as long as every
collection reaches it, and is stale from then on; no stale reference becomes live again.  On the way
the free list names exactly the empty slots that are not retired, each once, and the count of live
objects is the number of occupied slots, so that a collection never frees more than it counts. -/
theorem references_never_alias (settings : HeapSettings) (steps : List Step)
    (hroom : (Heap.run { settings := settings } steps).slots.size ≤ 2 ^ 32) :
    let start : Heap := { settings := settings }
    let h := start.run steps
    (start.issued steps).Nodup ∧
    (∀ before cls body after, steps = before ++ .insert cls body :: after →
      let now := start.run before
      let v := now.nextReference
      ((now.insert cls body).Survives v after →
        h.get v = .ok { cls := cls, serial := (start.issued before).length, body := body }) ∧
      (¬ (now.insert cls body).Survives v after → h.get v = .error (.staleReference v))) ∧
    (∀ before after v, steps = before ++ after → v ∈ start.issued before →
      (start.run before).isLive v = false → h.isLive v = false) ∧
    (∀ i, i ∈ h.free ↔ i < h.slots.size ∧ i ∉ h.occupied ∧ ¬ start.Retires i steps) ∧
    h.free.Nodup ∧
    h.live = h.occupied.card ∧
    ∀ roots, (h.collect roots).1.counts.freed ≤ h.live := by
  intro start h
  have hfresh := consistent_fresh settings
  -- the consistency of the heap in the middle of the run, and the room it has there
  have hmiddle : ∀ before after, steps = before ++ after →
      (start.run before).Consistent (start.issued before) (fun i => start.Retires i before) ∧
        ((start.run before).run after).slots.size ≤ 2 ^ 32 := by
    rintro before after rfl
    rw [run_append] at hroom
    have hsize := le_trans (size_le_run (start.run before) after) hroom
    exact ⟨by simpa using hfresh.run before hsize, hroom⟩
  have hc : h.Consistent (start.issued steps) (fun i => start.Retires i steps) :=
    (hmiddle steps [] (by simp)).1
  refine ⟨hc.given_nodup, ?_, ?_, fun i => ?_, hc.sound.free_nodup, hc.live_eq, fun roots => ?_⟩
  · intro before cls body after hsteps now v
    obtain ⟨hnow, hroom'⟩ := hmiddle before (.insert cls body :: after) hsteps
    have hrun : h = (now.insert cls body).run after := by
      show start.run steps = _
      rw [hsteps, run_append]; rfl
    have hserial : now.stored cls body =
        { cls := cls, serial := (start.issued before).length, body := body } := by
      rw [stored, hnow.serial_eq]
    rw [hrun, ← hserial]
    exact hnow.get_insert_run cls body after hroom'
  · intro before after v hsteps hv hstale
    obtain ⟨hnow, hroom'⟩ := hmiddle before after hsteps
    have hrun : h = (start.run before).run after := by
      show start.run steps = _
      rw [hsteps, run_append]
    rw [isLive, Option.isSome_eq_false_iff, Option.isNone_iff_eq_none] at hstale ⊢
    rw [hrun]
    exact hnow.run_stale after hroom' hv hstale
  · rw [hc.mem_free, exists_empty_iff, and_assoc]
  · have hcard := card_occupied_collect hc.unmarked roots
    have := hc.live_eq
    omega

/-- After a collection without roots the slot of the first object is used again: its reference is
stale, and the second object has a reference of its own. -/
theorem references_never_alias_reused_slot :
    let steps : List Step := [.insert .nil (.bignum 1), .collect [], .insert .nil (.bignum 2)]
    let h := Heap.run { settings := {} } steps
    h.slots.size ≤ 2 ^ 32 ∧ h.get (.ofSlot 0 0) = .error (.staleReference (.ofSlot 0 0)) ∧
      h.get (.ofSlot 0 1) = .ok { cls := .nil, serial := 1, body := .bignum 2 } := by
  intro steps h
  have hroom : h.slots.size ≤ 2 ^ 32 := by decide
  have spec := (references_never_alias {} steps hroom).2.1
  have hfirst : (Heap.run { settings := {} } []).nextReference = .ofSlot 0 0 := rfl
  have hsecond : (Heap.run { settings := {} } (steps.take 2)).nextReference = .ofSlot 0 1 := by decide
  have hstale := (spec [] .nil (.bignum 1) [.collect [], .insert .nil (.bignum 2)] rfl).2
  have hlive := (spec (steps.take 2) .nil (.bignum 2) [] rfl).1 trivial
  rw [hsecond] at hlive
  rw [hfirst] at hstale
  refine ⟨hroom, hstale ?_, hlive⟩
  rintro ⟨hreach, _⟩
  generalize Value.ofSlot 0 0 = v at hreach
  induction hreach with
  | root hv _ => simp at hv
  | edge _ _ _ _ ih => exact ih

end ObjectMachine.Heap
