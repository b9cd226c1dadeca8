import Mathlib.Tactic
import ObjectMachine.Proofs.Machine.Closed
import ObjectMachine.Proofs.Machine.Runs

/-! Contracts of effects.

A contract says, of an effect that is started on one machine, how it ends and what machine it leaves,
provided that an assumption holds and the machine at the end has room for its slots.  The heap never
shrinks, so what has room at the end had room all along; this is why growing is part of every contract
and needs no assumption.  The rules follow the way effects are built.  What is promised differs between
the logics of effects; how promises go through code does not, and is proved here. -/

namespace ObjectMachine

open Machine

/-- What an effect, started on a machine under an assumption, promises of its end. -/
structure Effect.Promises (pre : Prop) (a : Effect α) (m : Machine)
    (ends : Except Unwind α → Machine → Prop) : Prop where
  grows : m.heap.slots.size ≤ (a.after m).heap.slots.size
  keeps : pre → (a.after m).HasRoom → ends (a.ending m) (a.after m)

namespace Effect.Promises

variable {α β : Type} {pre pre' : Prop} {a : Effect α} {f : α → Effect β} {m m' : Machine}
  {ends ends' : Except Unwind α → Machine → Prop} {goal : Except Unwind β → Machine → Prop}

/-! ### Runs -/

theorem of_ok {x : α} (h : a m = .ok x m') (hg : m.heap.slots.size ≤ m'.heap.slots.size)
    (hk : pre → m'.HasRoom → ends (.ok x) m') : Promises pre a m ends := by
  refine ⟨by rwa [after_of_ok h], ?_⟩
  rwa [ending_of_ok h, after_of_ok h]

theorem of_error {u : Unwind} (h : a m = .error u m') (hg : m.heap.slots.size ≤ m'.heap.slots.size)
    (hk : pre → m'.HasRoom → ends (.error u) m') : Promises pre a m ends := by
  refine ⟨by rwa [after_of_error h], ?_⟩
  rwa [ending_of_error h, after_of_error h]

theorem grows_of_ok (ha : Promises pre a m ends) {x : α} (h : a m = .ok x m') :
    m.heap.slots.size ≤ m'.heap.slots.size := after_of_ok h ▸ ha.grows

theorem grows_of_error (ha : Promises pre a m ends) {u : Unwind} (h : a m = .error u m') :
    m.heap.slots.size ≤ m'.heap.slots.size := after_of_error h ▸ ha.grows

theorem keeps_of_ok (ha : Promises pre a m ends) {x : α} (h : a m = .ok x m') (hp : pre)
    (hroom : m'.HasRoom) : ends (.ok x) m' := by
  have hk := ha.keeps hp
  rw [ending_of_ok h, after_of_ok h] at hk
  exact hk hroom

theorem keeps_of_error (ha : Promises pre a m ends) {u : Unwind} (h : a m = .error u m') (hp : pre)
    (hroom : m'.HasRoom) : ends (.error u) m' := by
  have hk := ha.keeps hp
  rw [ending_of_error h, after_of_error h] at hk
  exact hk hroom

theorem congr {b : Effect α} (h : a m = b m) (hb : Promises pre b m ends) : Promises pre a m ends := by
  refine ⟨after_congr h ▸ hb.grows, ?_⟩
  rw [ending_congr h, after_congr h]
  exact hb.keeps

/-! ### Assuming more, promising less -/

theorem imp (ha : Promises pre a m ends) (hpre : pre' → pre)
    (hok : ∀ x m', a m = .ok x m' → pre' → m'.HasRoom → ends (.ok x) m' → ends' (.ok x) m')
    (herror : ∀ u m', a m = .error u m' → pre' → m'.HasRoom → ends (.error u) m' →
      ends' (.error u) m') : Promises pre' a m ends' := by
  cases h : a m with
  | ok x m' =>
    exact of_ok h (ha.grows_of_ok h) fun hp hroom =>
      hok x m' h hp hroom (ha.keeps_of_ok h (hpre hp) hroom)
  | error u m' =>
    exact of_error h (ha.grows_of_error h) fun hp hroom =>
      herror u m' h hp hroom (ha.keeps_of_error h (hpre hp) hroom)

theorem mono (ha : Promises pre a m ends) (hpre : pre' → pre)
    (hk : ∀ r m', pre' → m'.HasRoom → ends r m' → ends' r m') : Promises pre' a m ends' :=
  ⟨ha.grows, fun hp hroom => hk _ _ hp hroom (ha.keeps (hpre hp) hroom)⟩

/-! ### Sequences -/

/-- One effect after the other: what the first promises of an answer may be assumed of the second. -/
theorem bind (ha : Promises pre a m ends)
    (hf : ∀ x m', a m = .ok x m' → Promises (pre ∧ ends (.ok x) m') (f x) m' goal)
    (herror : ∀ u m', pre → ends (.error u) m' → goal (.error u) m') :
    Promises pre (a >>= f) m goal := by
  cases h : a m with
  | error u m' =>
    exact of_error (bind_of_error h) (ha.grows_of_error h) fun hp hroom =>
      herror u m' hp (ha.keeps_of_error h hp hroom)
  | ok x m' =>
    have hf := hf x m' h
    refine ⟨?_, ?_⟩
    · rw [after_bind_of_ok h]
      exact (ha.grows_of_ok h).trans hf.grows
    · -- once there is room at the end, there was room in between
      rw [ending_bind_of_ok h, after_bind_of_ok h]
      exact fun hp hroom => hf.keeps ⟨hp, ha.keeps_of_ok h hp (le_trans hf.grows hroom)⟩ hroom

/-- An effect whose answer is only looked at. -/
theorem map (ha : Promises pre a m ends) (g : α → β)
    (hok : ∀ x m', pre → ends (.ok x) m' → goal (.ok (g x)) m')
    (herror : ∀ u m', pre → ends (.error u) m' → goal (.error u) m') :
    Promises pre (a >>= fun x => pure (g x)) m goal :=
  ha.bind (fun x m' _ => of_ok rfl le_rfl fun h _ => hok x m' h.1 h.2) herror

theorem ask_bind {g : Machine → α} (hf : Promises pre (f (g m)) m goal) :
    Promises pre (ask g >>= f) m goal := hf.congr (bind_of_ok rfl)

theorem read_bind {facet : Facet α} {v : Value}
    (hf : ∀ x, m.heap.read facet v = .ok x → Promises pre (f x) m goal)
    (hfail : ∀ u, m.heap.read facet v = .error u → pre → goal (.error (.fatal u)) m) :
    Promises pre (read facet v >>= f) m goal := by
  cases h : m.heap.read facet v with
  | ok x => exact (hf x h).congr (bind_of_ok (read_of_ok h))
  | error u =>
    exact of_error (bind_of_error (read_of_error h)) le_rfl fun hp _ => hfail u h hp

/-! ### Trying out, and scopes of handles -/

/-- How an effect ended that was tried out is its answer. -/
theorem outcome {tried : Except Unwind (Except Unwind α) → Machine → Prop}
    (ha : Promises pre a m ends) (hk : ∀ r m', pre → ends r m' → tried (.ok r) m') :
    Promises pre (outcome a) m tried :=
  of_ok (outcome_eq a m) ha.grows fun hp hroom => hk _ _ hp (ha.keeps hp hroom)

theorem withHandles (ha : Promises pre a m ends)
    (hk : ∀ r m', pre → ends r m' →
      ends' r { m' with handles := m'.handles.shrink m.handles.size }) :
    Promises pre (withHandles a) m ends' := by
  refine ⟨?_, ?_⟩
  · rw [after_withHandles]
    exact ha.grows
  · rw [ending_withHandles, after_withHandles]
    exact fun hp hroom => hk _ _ hp (ha.keeps hp hroom)

end Effect.Promises

end ObjectMachine
