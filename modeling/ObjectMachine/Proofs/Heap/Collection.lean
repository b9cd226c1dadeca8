import Mathlib.Tactic
import Mathlib.Data.Set.Card
import ObjectMachine.Proofs.Heap.Marking

/-! A collection frees exactly the objects that cannot be reached.

Sweeping decides slot by slot: an occupied slot without a mark is emptied, counted, and pushed on the
free list unless its generations are used up; every other slot stays as it is.  Together with what
marking finds, this says which references are live after a collection and what they resolve to. -/

namespace ObjectMachine.Heap

/-- The slots that hold an object. -/
def occupied (h : Heap) : Finset Nat :=
  (Finset.range h.slots.size).filter fun i => (h.slots[i]?.any (·.object.isSome)) = true

theorem mem_occupied {h : Heap} {i : Nat} :
    i ∈ h.occupied ↔ ∃ g o, h.slots[i]? = some ⟨g, some o⟩ := by
  rw [occupied, Finset.mem_filter, Finset.mem_range, Option.any_eq_true]
  constructor
  · rintro ⟨_, ⟨g, c⟩, hs, hc⟩
    obtain ⟨o, rfl⟩ := Option.isSome_iff_exists.mp hc
    exact ⟨g, o, hs⟩
  · rintro ⟨g, o, hs⟩
    exact ⟨(Array.getElem?_eq_some_iff.mp hs).1, _, hs, rfl⟩

/-- The slots whose object can be reached. -/
def reached (h : Heap) (roots : List Value) : Set Nat :=
  {i | ∃ v, h.Reachable roots v ∧ v.slotIndex = i}

/-! ### Sweeping a slot -/

variable {h : Heap} {roots : List Value}

/-- On a heap without marks in its headers, sweeping keeps the marked slots. -/
theorem sweepSlot_of_marked (hu : h.Unmarked) {marks : Array Bool} {i : Nat} {slot : Slot}
    (hs : h.slots[i]? = some slot) (hi : i ∈ markedSlots marks) : sweepSlot marks i slot = slot := by
  rw [sweepSlot]
  cases ho : slot.object with
  | none => rfl
  | some o =>
    have hflag : o.flags.marked = false := hu slot (Array.mem_of_getElem? hs) o ho
    simp only [(isMarked_iff hu marks hs ho).mpr hi, if_true, hflag, Bool.false_eq_true, if_false]

/-- On a heap without marks in its headers, sweeping empties the unmarked slots. -/
theorem sweepSlot_of_unmarked (hu : h.Unmarked) {marks : Array Bool} {i g : Nat} {o : Object}
    (hs : h.slots[i]? = some ⟨g, some o⟩) (hi : i ∉ markedSlots marks) :
    sweepSlot marks i ⟨g, some o⟩ =
      if g < Value.maxGeneration then ⟨g + 1, none⟩ else ⟨g, none⟩ := by
  have hm : isMarked marks i o = false := by
    rw [Bool.eq_false_iff]
    exact fun hm => hi ((isMarked_iff hu marks hs rfl).mp hm)
  simp only [sweepSlot, hm, Bool.false_eq_true, if_false]

theorem isGarbage_iff (hu : h.Unmarked) {marks : Array Bool} {i g : Nat} {c : Option Object}
    (hs : h.slots[i]? = some ⟨g, c⟩) :
    isGarbage marks i ⟨g, c⟩ = true ↔ c.isSome = true ∧ i ∉ markedSlots marks := by
  cases c with
  | none => simp [isGarbage]
  | some o =>
    rw [isGarbage, Bool.not_eq_true', ← Bool.not_eq_true, isMarked_iff hu marks hs rfl]
    simp

/-! ### Sweeping all slots -/

/-- Whether a numbered slot is to be freed. -/
def garbageAt (marks : Array Bool) (slots : Array Slot) (i : Nat) : Bool :=
  slots[i]?.any (isGarbage marks i)

/-- Whether a numbered slot is to be freed and can be used again. -/
def reusableAt (marks : Array Bool) (slots : Array Slot) (i : Nat) : Bool :=
  slots[i]?.any fun slot => isGarbage marks i slot && slot.generation < Value.maxGeneration

/-- Going over the slots is going over their numbers. -/
theorem fold_slots (slots : Array Slot) (f : Nat → Slot → β → β) (init : β) :
    slots.size.fold (fun i _ b => f i slots[i] b) init =
      (List.range slots.size).foldl (fun b i => slots[i]?.elim b (f i · b)) init := by
  rw [Nat.fold_eq_finRange_foldl, ← List.map_coe_finRange_eq_range, List.foldl_map]
  congr 1
  funext b i
  rw [Array.getElem?_eq_getElem i.isLt]
  rfl

theorem garbageCount_eq (marks : Array Bool) (slots : Array Slot) :
    garbageCount marks slots = ((List.range slots.size).filter (garbageAt marks slots)).length := by
  have hcount : ∀ (l : List Nat) (n : Nat),
      l.foldl (fun n i => slots[i]?.elim n
        (fun slot => if isGarbage marks i slot then n + 1 else n)) n =
      n + (l.filter (garbageAt marks slots)).length := by
    intro l
    induction l with
    | nil => intro n; rfl
    | cons i l ih =>
      intro n
      rw [List.foldl_cons, ih, List.filter_cons, garbageAt]
      cases slots[i]? with
      | none => rfl
      | some slot =>
        simp only [Option.elim_some, Option.any_some]
        split
        · rw [List.length_cons]; omega
        · rfl
  rw [garbageCount, fold_slots slots (fun i slot n => if isGarbage marks i slot then n + 1 else n),
    hcount, Nat.zero_add]

theorem pushReusable_eq (marks : Array Bool) (slots : Array Slot) (free : List Nat) :
    pushReusable marks slots free =
      ((List.range slots.size).filter (reusableAt marks slots)).reverse ++ free := by
  have hpush : ∀ (l free : List Nat),
      l.foldl (fun free i => slots[i]?.elim free (fun slot =>
        if isGarbage marks i slot && slot.generation < Value.maxGeneration then i :: free
        else free)) free =
      (l.filter (reusableAt marks slots)).reverse ++ free := by
    intro l
    induction l with
    | nil => intro free; rfl
    | cons i l ih =>
      intro free
      rw [List.foldl_cons, ih, List.filter_cons, reusableAt]
      cases slots[i]? with
      | none => rfl
      | some slot =>
        simp only [Option.elim_some, Option.any_some]
        split
        · rw [List.reverse_cons, List.append_assoc]; rfl
        · rfl
  rw [pushReusable, fold_slots slots (fun i slot free =>
    if isGarbage marks i slot && slot.generation < Value.maxGeneration then i :: free else free), hpush]

/-! ### The heap after a collection -/

theorem mem_markedSlots_iff_reached (hu : h.Unmarked) (roots : List Value) (i : Nat) :
    i ∈ markedSlots (h.markFrom roots).marks ↔ i ∈ h.reached roots := by
  constructor
  · intro hi
    obtain ⟨v, hv, hr⟩ := (iterate_markStep_roots hu roots).2.sound i hi
    exact ⟨v, hr, hv⟩
  · rintro ⟨v, hr, rfl⟩
    exact (mem_markedSlots_iff_reachable hu roots hr.isLive).mpr hr

theorem getElem?_collect (h : Heap) (roots : List Value) (i : Nat) :
    (h.collect roots).1.slots[i]? =
      (h.slots[i]?).map (sweepSlot (h.markFrom roots).marks i) := by
  simp only [collect, Array.getElem?_mapIdx]

/-- A slot that is reached stays as it is. -/
theorem getElem?_collect_of_reached (hu : h.Unmarked) {i : Nat} (hi : i ∈ h.reached roots) :
    (h.collect roots).1.slots[i]? = h.slots[i]? := by
  rw [getElem?_collect]
  cases hs : h.slots[i]? with
  | none => rfl
  | some slot =>
    rw [Option.map_some,
      sweepSlot_of_marked hu hs ((mem_markedSlots_iff_reached hu roots i).mpr hi)]

/-- A slot that holds an object out of reach is emptied. -/
theorem getElem?_collect_of_not_reached (hu : h.Unmarked) {i g : Nat} {o : Object}
    (hs : h.slots[i]? = some ⟨g, some o⟩) (hi : i ∉ h.reached roots) :
    (h.collect roots).1.slots[i]? =
      some (if g < Value.maxGeneration then ⟨g + 1, none⟩ else ⟨g, none⟩) := by
  rw [getElem?_collect, hs, Option.map_some,
    sweepSlot_of_unmarked hu hs fun hm => hi ((mem_markedSlots_iff_reached hu roots i).mp hm)]

/-- A slot that holds no object stays as it is. -/
theorem getElem?_collect_of_empty {i g : Nat} (hs : h.slots[i]? = some ⟨g, none⟩) :
    (h.collect roots).1.slots[i]? = some ⟨g, none⟩ := by
  rw [getElem?_collect, hs]; rfl

/-- A slot holds an object after a collection if it held that object before and is reached. -/
theorem getElem?_collect_eq_some_iff (hu : h.Unmarked) {i g : Nat} {o : Object} :
    (h.collect roots).1.slots[i]? = some ⟨g, some o⟩ ↔
      h.slots[i]? = some ⟨g, some o⟩ ∧ i ∈ h.reached roots := by
  by_cases hi : i ∈ h.reached roots
  · rw [getElem?_collect_of_reached hu hi]
    exact (and_iff_left hi).symm
  · refine iff_of_false (fun hs => ?_) fun hs => hi hs.2
    cases hb : h.slots[i]? with
    | none => rw [getElem?_collect, hb] at hs; simp at hs
    | some slot =>
      obtain ⟨g', c⟩ := slot
      cases c with
      | none => rw [getElem?_collect_of_empty hb] at hs; simp at hs
      | some p => rw [getElem?_collect_of_not_reached hu hb hi] at hs; split at hs <;> simp at hs

/-- A reference resolves after a collection to what it resolved to before, if it can be reached. -/
theorem get?_collect_eq_some_iff (hu : h.Unmarked) {v : Value} {o : Object} :
    (h.collect roots).1.get? v = some o ↔ h.get? v = some o ∧ h.Reachable roots v := by
  rw [get?_eq_some_iff, getElem?_collect_eq_some_iff hu, get?_eq_some_iff, and_assoc]
  refine and_congr_right fun hr => and_congr_right fun hs => ?_
  have hl : h.isLive v = true := isLive_iff.mpr ⟨o, get?_eq_some_iff.mpr ⟨hr, hs⟩⟩
  rw [← mem_markedSlots_iff_reached hu, mem_markedSlots_iff_reachable hu roots hl]

theorem unmarked_collect (hu : h.Unmarked) (roots : List Value) : (h.collect roots).1.Unmarked := by
  rintro ⟨g, c⟩ hslot o rfl
  obtain ⟨i, hi⟩ := Array.mem_iff_getElem?.mp hslot
  exact hu _ (Array.mem_of_getElem? ((getElem?_collect_eq_some_iff hu).mp hi).1) o rfl

theorem mem_occupied_collect (hu : h.Unmarked) {i : Nat} :
    i ∈ (h.collect roots).1.occupied ↔ i ∈ h.occupied ∧ i ∈ h.reached roots := by
  simp only [mem_occupied, getElem?_collect_eq_some_iff hu]
  constructor
  · rintro ⟨g, o, hs, hi⟩
    exact ⟨⟨g, o, hs⟩, hi⟩
  · rintro ⟨⟨g, o, hs⟩, hi⟩
    exact ⟨g, o, hs, hi⟩

/-- The freed objects are the occupied slots that are not reached. -/
theorem freed_collect (hu : h.Unmarked) (roots : List Value) :
    (h.collect roots).1.counts.freed = (↑h.occupied \ h.reached roots).ncard := by
  have hset : (↑h.occupied \ h.reached roots : Set Nat) =
      ↑((List.range h.slots.size).filter
        (garbageAt (h.markFrom roots).marks h.slots)).toFinset := by
    ext i
    rw [Set.mem_sdiff, Finset.mem_coe, Finset.mem_coe, mem_occupied, List.mem_toFinset,
      List.mem_filter, List.mem_range, garbageAt, Option.any_eq_true,
      ← mem_markedSlots_iff_reached hu]
    constructor
    · rintro ⟨⟨g, o, hs⟩, hi⟩
      exact ⟨(Array.getElem?_eq_some_iff.mp hs).1, _, hs, (isGarbage_iff hu hs).mpr ⟨rfl, hi⟩⟩
    · rintro ⟨_, ⟨g, c⟩, hs, hg⟩
      obtain ⟨hc, hi⟩ := (isGarbage_iff hu hs).mp hg
      obtain ⟨o, rfl⟩ := Option.isSome_iff_exists.mp hc
      exact ⟨⟨g, o, hs⟩, hi⟩
  rw [hset, Set.ncard_coe_finset, List.toFinset_card_of_nodup (List.nodup_range.filter _)]
  exact garbageCount_eq _ _

/-- The objects before a collection are those after it and those it freed. -/
theorem card_occupied_collect (hu : h.Unmarked) (roots : List Value) :
    h.occupied.card = (h.collect roots).1.occupied.card + (h.collect roots).1.counts.freed := by
  have hinter : (↑(h.collect roots).1.occupied : Set Nat) = ↑h.occupied ∩ h.reached roots := by
    ext i
    exact mem_occupied_collect hu
  rw [freed_collect hu, ← Set.ncard_coe_finset h.occupied,
    ← Set.ncard_coe_finset (h.collect roots).1.occupied, hinter,
    Set.ncard_inter_add_ncard_sdiff_eq_ncard _ _ (Finset.finite_toSet _)]

/-- For every heap without marks in its headers and every list of roots, immediate values and stale
references among them: marking ends with an empty worklist; after the collection exactly those
references are live that were live and can be reached, and they resolve to the same object, header
and body; the counts are those of the objects reached and of the objects freed, and the number of
live objects drops by the latter; no header is marked. -/
theorem collect_frees_exactly_unreachable (h : Heap) (hu : h.Unmarked) (roots : List Value) :
    let after := (h.collect roots).1
    (markStep h.slots)^[h.markFuel roots]
        (roots.foldl pushReference [], { marks := Array.replicate h.slots.size false }) =
      ([], h.markFrom roots) ∧
    (∀ v, after.isLive v = true ↔ h.isLive v = true ∧ h.Reachable roots v) ∧
    after.counts.marked = {v | h.Reachable roots v}.ncard ∧
    after.counts.freed = (↑h.occupied \ h.reached roots).ncard ∧
    after.live = h.live - after.counts.freed ∧
    (h.live = h.occupied.card →
      h.live = after.live + after.counts.freed ∧ after.live = after.occupied.card) ∧
    (∀ v, after.isLive v = true → after.get? v = h.get? v) ∧
    after.Unmarked := by
  refine ⟨(iterate_markStep_roots hu roots).1, ?_, count_markFrom hu roots, freed_collect hu roots,
    rfl, ?_, ?_, unmarked_collect hu roots⟩
  · intro v
    simp only [isLive_iff, get?_collect_eq_some_iff hu]
    constructor
    · rintro ⟨o, ho, hr⟩
      exact ⟨⟨o, ho⟩, hr⟩
    · rintro ⟨⟨o, ho⟩, hr⟩
      exact ⟨o, ho, hr⟩
  · intro hlive
    have hcard := card_occupied_collect hu roots
    have hdrop : (h.collect roots).1.live = h.live - (h.collect roots).1.counts.freed := rfl
    omega
  · intro v hv
    obtain ⟨o, ho⟩ := isLive_iff.mp hv
    rw [ho, ((get?_collect_eq_some_iff hu).mp ho).1]

/-- Two arrays that hold each other, one of them also a stale reference, survive a collection from
one of them; the number beside them does not. -/
theorem collect_frees_exactly_unreachable_cycle :
    let h : Heap :=
      { settings := {}
        slots := #[⟨0, some { cls := .nil, serial := 0, body := .array #[.ofSlot 1 0] }⟩,
          ⟨0, some { cls := .nil, serial := 1, body := .array #[.ofSlot 0 0, .ofSlot 7 3] }⟩,
          ⟨0, some { cls := .ofSlot 0 0, serial := 2, body := .bignum 7 }⟩]
        live := 3 }
    h.Unmarked ∧ (h.collect [.ofSlot 0 0, .nil]).1.isLive (.ofSlot 1 0) = true ∧
      ¬ (h.collect [.ofSlot 0 0, .nil]).1.isLive (.ofSlot 2 0) = true := by
  intro h
  have hu : h.Unmarked := by
    intro slot hs o ho
    simp only [h, List.mem_toArray, List.mem_cons, List.not_mem_nil, or_false] at hs
    rcases hs with rfl | rfl | rfl <;> (cases ho; rfl)
  have spec := (collect_frees_exactly_unreachable h hu [.ofSlot 0 0, .nil]).2.1
  refine ⟨hu, (spec _).mpr ⟨by decide, ?_⟩, fun hl => ?_⟩
  · exact .edge (.root (List.mem_cons_self ..) (by decide)) rfl (by decide) (by decide)
  · exact absurd hl (by decide)

end ObjectMachine.Heap
