import Mathlib.Tactic
import ObjectMachine.Calls

/-! How effects run.

A run ends in an answer or an unwind and leaves a machine behind.  `ending` and `after` are the two
halves of it.  The equations here say what they are for effects in sequence, for effects that were tried
out, and for scopes of handles, and what reading, writing and allocating come down to. -/

namespace ObjectMachine.Effect

variable {α β : Type} {a : Effect α} {f : α → Effect β} {m m' : Machine}

/-- How an effect ends. -/
def ending (a : Effect α) (m : Machine) : Except Unwind α :=
  match a m with
  | .ok x _ => .ok x
  | .error u _ => .error u

/-! ### The two halves of a run -/

theorem after_of_ok {x : α} (h : a m = .ok x m') : a.after m = m' := by
  rw [after, h]

theorem after_of_error {u : Unwind} (h : a m = .error u m') : a.after m = m' := by
  rw [after, h]

theorem after_congr {b : Effect α} (h : a m = b m') : a.after m = b.after m' := by
  unfold after
  rw [h]

theorem ending_of_ok {x : α} (h : a m = .ok x m') : a.ending m = .ok x := by
  rw [ending, h]

theorem ending_of_error {u : Unwind} (h : a m = .error u m') : a.ending m = .error u := by
  rw [ending, h]

theorem ending_congr {b : Effect α} (h : a m = b m') : a.ending m = b.ending m' := by
  unfold ending
  rw [h]

theorem eq_ok_of_ending {x : α} (h : a.ending m = .ok x) : a m = .ok x (a.after m) := by
  unfold ending at h
  unfold after
  cases hrun : a m with
  | ok y m' =>
    rw [hrun] at h
    rw [Except.ok.inj h]
  | error u m' =>
    rw [hrun] at h
    cases h

theorem eq_error_of_ending {u : Unwind} (h : a.ending m = .error u) :
    a m = .error u (a.after m) := by
  unfold ending at h
  unfold after
  cases hrun : a m with
  | ok x m' =>
    rw [hrun] at h
    cases h
  | error u' m' =>
    rw [hrun] at h
    rw [Except.error.inj h]

/-! ### Sequences -/

theorem bind_of_ok {x : α} (h : a m = .ok x m') : (a >>= f) m = f x m' := by
  show EStateM.bind a f m = _
  rw [EStateM.bind, h]

theorem bind_of_error {u : Unwind} (h : a m = .error u m') : (a >>= f) m = .error u m' := by
  show EStateM.bind a f m = _
  rw [EStateM.bind, h]

theorem bind_congr_run {b : Effect α} (h : a m = b m') : (a >>= f) m = (b >>= f) m' := by
  show EStateM.bind a f m = EStateM.bind b f m'
  rw [EStateM.bind, EStateM.bind, h]

/-- One effect after the other leaves what the second leaves. -/
theorem after_bind_of_ok {x : α} (h : a m = .ok x m') : (a >>= f).after m = (f x).after m' :=
  after_congr (bind_of_ok h)

theorem after_bind_of_error {u : Unwind} (h : a m = .error u m') : (a >>= f).after m = m' :=
  after_of_error (bind_of_error h)

/-- One effect after the other ends as the second ends. -/
theorem ending_bind_of_ok {x : α} (h : a m = .ok x m') : (a >>= f).ending m = (f x).ending m' :=
  ending_congr (bind_of_ok h)

theorem ending_bind_of_error {u : Unwind} (h : a m = .error u m') :
    (a >>= f).ending m = .error u := ending_of_error (bind_of_error h)

theorem after_map (a : Effect α) (g : α → β) (m : Machine) :
    (a >>= fun x => pure (g x)).after m = a.after m := by
  cases h : a m with
  | ok x m' => rw [after_bind_of_ok h, after_of_ok h]; rfl
  | error u m' => rw [after_bind_of_error h, after_of_error h]

/-- Two effects in sequence answer if both do. -/
theorem exists_of_bind_eq_ok {y : β} (h : (a >>= f) m = .ok y m') :
    ∃ x m₁, a m = .ok x m₁ ∧ f x m₁ = .ok y m' := by
  cases hx : a m with
  | ok x m₁ => exact ⟨x, m₁, rfl, (bind_of_ok hx).symm.trans h⟩
  | error u m₁ =>
    rw [bind_of_error hx] at h
    exact absurd h nofun

/-! ### Effects that were tried out -/

theorem outcome_eq (a : Effect α) (m : Machine) : outcome a m = .ok (a.ending m) (a.after m) := by
  unfold outcome ending after
  cases a m <;> rfl

theorem outcome_bind (a : Effect α) (k : Except Unwind α → Effect β) (m : Machine) :
    (outcome a >>= k) m = k (a.ending m) (a.after m) := bind_of_ok (outcome_eq a m)

theorem after_outcome (a : Effect α) (m : Machine) : (outcome a).after m = a.after m :=
  after_of_ok (outcome_eq a m)

theorem ending_resume (r : Except Unwind α) (m : Machine) : (resume r).ending m = r := by
  cases r <;> rfl

theorem after_resume (r : Except Unwind α) (m : Machine) : (resume r).after m = m := by
  cases r <;> rfl

theorem outcome_bind_resume (a : Effect α) : (outcome a >>= fun r => resume r) = a := by
  funext m
  rw [outcome_bind]
  cases h : a m with
  | ok x m' =>
    rw [ending_of_ok h, after_of_ok h]
    rfl
  | error u m' =>
    rw [ending_of_error h, after_of_error h]
    rfl

/-! ### Reading, writing and allocating -/

theorem read_of_ok {facet : Facet α} {v : Value} {x : α} (h : m.heap.read facet v = .ok x) :
    read facet v m = .ok x m := by
  rw [read, h]

theorem read_of_error {facet : Facet α} {v : Value} {u : Fault}
    (h : m.heap.read facet v = .error u) : read facet v m = .error (.fatal u) m := by
  rw [read, h]

theorem of_read_eq_ok {facet : Facet α} {v : Value} {x : α} (h : read facet v m = .ok x m') :
    m.heap.read facet v = .ok x ∧ m' = m := by
  cases hx : m.heap.read facet v with
  | ok y =>
    rw [read_of_ok hx] at h
    obtain ⟨rfl, rfl⟩ := EStateM.Result.ok.inj h
    exact ⟨rfl, rfl⟩
  | error u =>
    rw [read_of_error hx] at h
    exact absurd h nofun

theorem after_read (facet : Facet α) (v : Value) (m : Machine) : (read facet v).after m = m := by
  cases h : m.heap.read facet v with
  | ok x => exact after_of_ok (read_of_ok h)
  | error u => exact after_of_error (read_of_error h)

theorem write_of_ok {facet : Facet α} {v : Value} {x : α} (h : m.heap.read facet v = .ok x)
    (g : α → α) : write facet v g m = .ok () { m with heap := m.heap.modify facet v g } :=
  bind_of_ok (read_of_ok h)

/-- Writing changes the heap, or nothing if there is nothing to write to. -/
theorem after_write (facet : Facet α) (v : Value) (g : α → α) (m : Machine) :
    (write facet v g).after m = m ∨
      (write facet v g).after m = { m with heap := m.heap.modify facet v g } := by
  cases h : m.heap.read facet v with
  | error u => exact Or.inl (after_of_error (bind_of_error (read_of_error h)))
  | ok x => exact Or.inr (after_of_ok (write_of_ok h g))

/-- An allocation stores the object, after a collection or without one. -/
theorem alloc_cases (cls : Value) (body : Body) (m : Machine) :
    alloc cls body m = store cls body m ∨
      alloc cls body m = store cls body (m.collectWith (cls :: body.edges)) := by
  cases hc : m.heap.shouldCollect with
  | false => exact Or.inl (by simp [alloc, bind, EStateM.bind, ask, hc])
  | true => exact Or.inr (by simp [alloc, bind, EStateM.bind, ask, hc, update])

/-! ### Scopes of handles -/

theorem pinAll_eq (vs : List Value) (m : Machine) :
    pinAll vs m = .ok () { m with handles := m.handles ++ vs.toArray } := by
  induction vs generalizing m with
  | nil => simp [pinAll, pure, EStateM.pure]
  | cons v vs ih =>
    have hv : pin v m = .ok m.handles.size { m with handles := m.handles.push v } := rfl
    rw [pinAll, bind_of_ok hv, ih]
    simp

theorem withHandles_eq (a : Effect α) (m : Machine) : withHandles a m =
    match a m with
    | .ok x m' => .ok x { m' with handles := m'.handles.shrink m.handles.size }
    | .error u m' => .error u { m' with handles := m'.handles.shrink m.handles.size } := by
  have hask : ask (·.handles.size) m = .ok m.handles.size m := rfl
  rw [withHandles, bind_of_ok hask, outcome_bind]
  cases h : a m with
  | ok x m' =>
    rw [ending_of_ok h, after_of_ok h]
    rfl
  | error u m' =>
    rw [ending_of_error h, after_of_error h]
    rfl

theorem ending_withHandles (a : Effect α) (m : Machine) :
    (withHandles a).ending m = a.ending m := by
  unfold ending
  rw [withHandles_eq]
  cases a m <;> rfl

theorem after_withHandles (a : Effect α) (m : Machine) : (withHandles a).after m =
    { a.after m with handles := (a.after m).handles.shrink m.handles.size } := by
  cases h : a m with
  | ok x m' => rw [after, withHandles_eq, h, after_of_ok h]
  | error u m' => rw [after, withHandles_eq, h, after_of_error h]

theorem exists_of_withHandles_eq_ok {x : α} (h : withHandles a m = .ok x m') :
    ∃ m₁, a m = .ok x m₁ := by
  rw [withHandles_eq] at h
  cases hx : a m with
  | ok y m₁ =>
    rw [hx] at h
    obtain ⟨rfl, -⟩ := EStateM.Result.ok.inj h
    exact ⟨m₁, rfl⟩
  | error u m₁ =>
    rw [hx] at h
    exact absurd h nofun

/-! ### Taking a trace -/

/-- What is done while an exception is kept alive to get its trace. -/
def takeTrace (exc : Value) (names : List String) : Effect Unit := do
  let trace ← newArray []
  let _ ← pin trace
  pushTraceLines trace names
  write Facet.exception exc fun e => { e with stackTrace := trace }

theorem captureTrace_eq (exc : Value) : captureTrace exc =
    (ask (·.frameNames) >>= fun names => withHandles (pin exc >>= fun _ => takeTrace exc names)) := rfl

theorem heap_after_captureTrace (exc : Value) (m : Machine) : ((captureTrace exc).after m).heap =
    ((takeTrace exc m.frameNames).after { m with handles := m.handles.push exc }).heap := by
  have hask : ask (·.frameNames) m = .ok m.frameNames m := rfl
  have hpin : pin exc m = .ok m.handles.size { m with handles := m.handles.push exc } := rfl
  rw [captureTrace_eq, after_bind_of_ok hask, after_withHandles, after_bind_of_ok hpin]

/-- An exception gets its trace when it is first raised. -/
theorem raiseValue_of_exception {exc : Value} {e : ExceptionBody} {m : Machine}
    (he : m.heap.read Facet.exception exc = .ok e) : (raiseValue exc : Effect α) m = (do
      if e.stackTrace.isNil then captureTrace exc
      throwException exc : Effect α) m := by
  have hask : ask (·.heap.read Facet.exception exc) m = .ok (.ok e) m := by rw [← he]; rfl
  exact bind_of_ok hask

theorem raiseValue_of_other {v : Value} {u : Fault} {m : Machine}
    (hv : m.heap.read Facet.exception v = .error u) : (raiseValue v : Effect α) m =
      (raiseError .typeError s!"exceptions must derive from Exception, not {m.typeName v}" : Effect α) m := by
  have hask : ask (·.heap.read Facet.exception v) m = .ok (.error u) m := by rw [← hv]; rfl
  exact bind_of_ok hask

end ObjectMachine.Effect
