import Mathlib.Tactic
import ObjectMachine.Proofs.Heap.Identity
import ObjectMachine.Proofs.Machine.Tables

/-! What an allocation does to the heap.

A collection may come first; then the object takes its slot, and the reference handed out resolves
to it. -/

namespace ObjectMachine

/-! ### Collecting and storing -/

namespace Heap

theorem size_collect (h : Heap) (roots : List Value) :
    (h.collect roots).1.slots.size = h.slots.size := by
  simp [collect]

theorem size_insert_le (h : Heap) (cls : Value) (body : Body) :
    (h.insert cls body).slots.size ≤ h.slots.size + 1 := by
  unfold insert
  simp only
  split
  · simp
  · simp

theorem size_le_insert (h : Heap) (cls : Value) (body : Body) :
    h.slots.size ≤ (h.insert cls body).slots.size := by
  unfold insert
  simp only
  split
  · simp
  · simp

end Heap

namespace Effect

/-- The reference that an allocation gives resolves to the new object. -/
theorem exists_alloc {m : Machine} (hs : m.heap.Sound) (hroom : m.heap.slots.size < 2 ^ 32)
    (cls : Value) (body : Body) :
    ∃ v m' o, alloc cls body m = .ok v m' ∧ m'.heap.get? v = some o ∧ o.cls = cls ∧ o.body = body := by
  have hstore : ∀ k : Machine, k.heap.Sound → k.heap.slots.size < 2 ^ 32 →
      ∃ v m' o, store cls body k = .ok v m' ∧ m'.heap.get? v = some o ∧ o.cls = cls ∧ o.body = body := by
    intro k hk hroom
    have hsize := k.heap.size_insert_le cls body
    have hget := hk.get?_insert cls body (by omega) k.heap.nextReference
    exact ⟨_, _, k.heap.stored cls body, rfl, hget.trans (if_pos rfl), rfl, rfl⟩
  rcases alloc_cases cls body m with h | h
  · rw [h]
    exact hstore m hs hroom
  · rw [h]
    refine hstore _ (hs.collect _) ?_
    exact lt_of_eq_of_lt (Heap.size_collect m.heap _) hroom

end Effect

end ObjectMachine
