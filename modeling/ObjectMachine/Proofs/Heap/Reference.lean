import Mathlib.Tactic
import ObjectMachine.Heap.Basic
import ObjectMachine.Proofs.Value.Tags

/-! References as pairs of slot and generation.

A reference is the word of its slot index and its generation, so two references with the same slot
and the same generation are one.  What a reference resolves to is therefore a function of slot and
generation alone, and changing the object of one reference leaves what every other one resolves to
as it was. -/

namespace ObjectMachine

namespace Value

theorem slotIndex_eq (v : Value) : v.slotIndex = v.word.toNat / 2 ^ 32 := by
  rw [slotIndex, UInt64.toNat_div]; rfl

theorem slotGeneration_eq (v : Value) : v.slotGeneration = v.word.toNat / 4 % 2 ^ 30 := by
  rw [slotGeneration, UInt64.toNat_mod, UInt64.toNat_div]; rfl

/-- The word of a reference, when the index fits its 32 bits. -/
theorem toNat_word_ofSlot {index : Nat} (generation : Nat) (hi : index < 2 ^ 32) :
    (ofSlot index generation).word.toNat = index * 2 ^ 32 + generation % 2 ^ 30 * 4 + 1 := by
  rw [ofSlot, UInt64.toNat_ofNat']; omega

theorem isRef_ofSlot {index : Nat} (generation : Nat) (hi : index < 2 ^ 32) :
    (ofSlot index generation).isRef = true := by
  rw [isRef_iff, toNat_word_ofSlot generation hi]; omega

theorem slotIndex_ofSlot {index : Nat} (generation : Nat) (hi : index < 2 ^ 32) :
    (ofSlot index generation).slotIndex = index := by
  rw [slotIndex_eq, toNat_word_ofSlot generation hi]; omega

theorem slotGeneration_ofSlot {index generation : Nat} (hi : index < 2 ^ 32)
    (hg : generation ≤ maxGeneration) : (ofSlot index generation).slotGeneration = generation := by
  rw [maxGeneration] at hg
  rw [slotGeneration_eq, toNat_word_ofSlot generation hi]; omega

/-- A reference is determined by its slot and its generation. -/
theorem eq_of_slot {v w : Value} (hv : v.isRef = true) (hw : w.isRef = true)
    (hi : v.slotIndex = w.slotIndex) (hg : v.slotGeneration = w.slotGeneration) : v = w := by
  rw [isRef_iff] at hv hw
  rw [slotIndex_eq, slotIndex_eq] at hi
  rw [slotGeneration_eq, slotGeneration_eq] at hg
  have hword : v.word = w.word := by rw [← UInt64.toNat_inj]; omega
  exact congrArg Value.mk hword

end Value

namespace Heap

/-- What it takes for a value to resolve to an object. -/
theorem objectAt?_eq_some_iff {slots : Array Slot} {v : Value} {o : Object} :
    objectAt? slots v = some o ↔
      v.isRef = true ∧ slots[v.slotIndex]? = some ⟨v.slotGeneration, some o⟩ := by
  unfold objectAt?
  by_cases hr : v.isRef = true
  · simp only [hr, if_true, true_and]
    cases hs : slots[v.slotIndex]? with
    | none => simp
    | some slot =>
      obtain ⟨g, c⟩ := slot
      by_cases hg : g = v.slotGeneration <;> simp [hg]
  · simp [hr]

theorem get?_eq_some_iff {h : Heap} {v : Value} {o : Object} :
    h.get? v = some o ↔
      v.isRef = true ∧ h.slots[v.slotIndex]? = some ⟨v.slotGeneration, some o⟩ :=
  objectAt?_eq_some_iff

theorem isLive_iff {h : Heap} {v : Value} : h.isLive v = true ↔ ∃ o, h.get? v = some o := by
  rw [isLive, Option.isSome_iff_exists]

/-- Two live references to one slot are the same reference. -/
theorem eq_of_slotIndex_eq {h : Heap} {v w : Value} (hv : h.isLive v = true)
    (hw : h.isLive w = true) (hi : v.slotIndex = w.slotIndex) : v = w := by
  obtain ⟨o, ho⟩ := isLive_iff.mp hv
  obtain ⟨p, hp⟩ := isLive_iff.mp hw
  rw [get?_eq_some_iff] at ho hp
  rw [hi, hp.2] at ho
  simp only [Option.some.injEq, Slot.mk.injEq] at ho
  exact Value.eq_of_slot ho.1 hp.1 hi ho.2.1.symm

/-- Changing the object of a reference changes what that reference resolves to. -/
theorem get?_modifyObject_self (h : Heap) (v : Value) (f : Object → Object) :
    (h.modifyObject v f).get? v = (h.get? v).map f := by
  unfold modifyObject get? objectAt?
  by_cases hv : v.isRef = true
  · simp only [hv, if_true, Array.getElem?_modify]
    cases h.slots[v.slotIndex]? with
    | none => rfl
    | some slot => by_cases hg : slot.generation = v.slotGeneration <;> simp [hg]
  · simp [hv]

/-- Changing the object of a reference leaves what any other one resolves to alone. -/
theorem get?_modifyObject_of_ne (h : Heap) {v w : Value} (hne : w ≠ v) (f : Object → Object) :
    (h.modifyObject v f).get? w = h.get? w := by
  unfold modifyObject
  by_cases hv : v.isRef = true
  · rw [if_pos hv]
    ext o
    rw [get?_eq_some_iff, get?_eq_some_iff]
    refine and_congr_right fun hw => ?_
    simp only [Array.getElem?_modify]
    split
    · rename_i hi
      have hg : v.slotGeneration ≠ w.slotGeneration := fun hg =>
        hne (Value.eq_of_slot hw hv hi.symm hg.symm)
      cases h.slots[w.slotIndex]? with
      | none => rfl
      | some slot =>
        -- a slot at the generation of `v` is not at that of `w`, neither before nor after
        obtain ⟨g, c⟩ := slot
        by_cases hs : g = v.slotGeneration <;> simp [hs, hg]
    · rfl
  · rw [if_neg hv]

end Heap

end ObjectMachine
