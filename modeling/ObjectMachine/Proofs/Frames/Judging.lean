import Mathlib.Tactic
import ObjectMachine.Proofs.Frames.UnwindState
import ObjectMachine.Proofs.Heap.Aging

/-! Verdicts on runs.

A verdict says something of a run: where it began, how it ended and what it left.  If it passes from
one run to the next, and nothing matters for it but the heap, the roots and the exception that was
raised, then scopes, frames and rescues earn it as soon as what they are put around does. -/

namespace ObjectMachine

open Observer (flying landed)

/-- A verdict on runs.  It goes on with what follows on the machine that was left; of the end, only
the exception matters; doing nothing to the heap is in order; and what holds of a run inside a frame, a
rescue or a flight, holds from outside, where there are fewer roots. -/
structure Verdict where
  Holds {α : Type} (m : Machine) (r : Except Unwind α) (m' : Machine) : Prop
  precede {α β : Type} {m m' m'' : Machine} {r : Except Unwind α} {r' : Except Unwind β} :
    Holds m r m' → Holds m' r' m'' → Holds m r' m''
  ends {α β : Type} {m m' : Machine} {r : Except Unwind α} {r' : Except Unwind β} :
    Holds m r m' → (∀ exc, r' = .error (.raise exc) → r = .error (.raise exc)) → Holds m r' m'
  idle {m m' : Machine} : m'.heap = m.heap → m.Carries m' → Holds m (.ok () : Except Unwind Unit) m'
  transport {α : Type} {inner inner' m m' : Machine} {r : Except Unwind α} : Holds inner r inner' →
    inner.heap = m.heap → m'.heap = inner'.heap → m.roots ⊆ inner.roots →
    (inner.Carries inner' → m.Carries m') → Holds m r m'

namespace Verdict

variable {inScope : Bool}

/-- That a run is balanced and the verdict holds of it. -/
def judgement (V : Verdict) (inScope : Bool) : Judgement :=
  .ofEnds (fun m r m' => m.Balanced inScope ∅ m' ∧ V.Holds m r m')
    (fun m _ => ⟨.of_callStacks_eq rfl, V.ends (V.idle rfl (.refl m)) nofun⟩)
    (fun m _ _ => ⟨.of_callStacks_eq rfl, V.ends (V.idle rfl (.refl m)) nofun⟩)
    (fun h h' => ⟨h.1.trans h'.1, V.precede h.2 h'.2⟩)
    fun h => ⟨h.1, V.ends h.2 fun _ he => congrArg _ (Except.error.inj he)⟩

theorem excuses (V : Verdict) : (V.judgement inScope).Excuses := fun _ _ m =>
  ⟨.of_callStacks_eq rfl, V.ends (V.idle rfl (.refl m)) nofun⟩

theorem forgets (V : Verdict) : (V.judgement inScope).Forgets := by
  intro α a m h
  show m.Balanced inScope ∅ _ ∧ V.Holds m ((Effect.outcome a).ending m) ((Effect.outcome a).after m)
  rw [Effect.ending_of_ok (Effect.outcome_eq a m), Effect.after_outcome]
  exact ⟨h.1, V.ends h.2 nofun⟩

end Verdict

/-- Registering cleanups keeps the roots of the running calls. -/
theorem Machine.Balanced.callRoots_subset {inScope : Bool} {places : Set Nat} {m m' : Machine}
    (h : m.Balanced inScope places m') : m.callRoots ⊆ m'.callRoots := by
  obtain ⟨cs, hcs⟩ := h.frames
  exact callRoots_subset_of_register hcs h.targets h.inFlight

namespace Effect

open Judgement

/-- Whether an effect is balanced and a verdict holds of all its runs. -/
def Earns (V : Verdict) (inScope : Bool) (a : Effect α) : Prop := (V.judgement inScope).Meets a

variable {α β : Type} {V : Verdict} {inScope : Bool} {a : Effect α} {m : Machine}

theorem Earns.steady (ha : Earns V inScope a) : Steady inScope ∅ a := fun m => (ha m).1

theorem Earns.holds (ha : Earns V inScope a) (m : Machine) : V.Holds m (a.ending m) (a.after m) :=
  (ha m).2

/-! ### Handles -/

theorem earns_pin (v : Value) : Earns V true (pin v) := by
  have hc : ∀ m : Machine, m.Carries ((pin v).after m) := fun m => by
    refine ⟨rfl, rfl, rfl, ?_, List.Subset.refl _⟩
    show m.handles.toList <+: (m.handles.push v).toList
    rw [Array.toList_push]
    exact List.prefix_append _ _
  exact fun m => ⟨steady_pin v m, V.ends (V.idle rfl (hc m)) nofun⟩

def verdictScope (m : Machine) : (V.judgement inScope).Scope m where
  inner := V.judgement true
  pin := earns_pin
  close {_ a} ha := by
    have hclose := (steadyScope m : (Judgement.steady inScope ∅).Scope m).close
      (ha.1.mono id Set.subset_union_left)
    refine ⟨hclose, ?_⟩
    rw [ending_withHandles, after_withHandles]
    exact V.transport ha.2 rfl rfl (List.Subset.refl _) Machine.Carries.shrink

/-! ### Cleanups -/

/-- A current resource concerns nobody but the program that asks for it. -/
theorem withResource_eq (resource : Value) (a : Effect α) (m : Machine) :
    ∃ entered left,
      (withResource resource a).ending m = a.ending { m with session := entered } ∧
      (withResource resource a).after m =
        { a.after { m with session := entered } with session := left } := by
  let m₁ : Machine :=
    { m with session := { m.session with resources := resource :: m.session.resources } }
  have heq : withResource resource a m = resume (a.ending m₁) { a.after m₁ with
      session := { (a.after m₁).session with resources := (a.after m₁).session.resources.tail } } :=
    outcome_bind a _ m₁
  exact ⟨m₁.session, _, (ending_congr heq).trans (ending_resume _ _),
    (after_congr heq).trans (after_resume _ _)⟩

theorem Earns.withResource (ha : Earns V inScope a) (resource : Value) :
    Earns V inScope (withResource resource a) := by
  refine fun m => ⟨ha.steady.withResource resource m, ?_⟩
  obtain ⟨entered, left, hend, hafter⟩ := withResource_eq resource a m
  rw [hend, hafter]
  exact V.transport (ha.holds _) rfl rfl (List.Subset.refl _) fun h =>
    ⟨h.classes_eq, h.symbols_eq, h.globals_eq, h.handles_le, h.calls_subset⟩

/-- What runs with values in flight has them as roots. -/
theorem Earns.landed (ha : Earns V false a) (values : List Value) (m : Machine) :
    V.Holds m (a.ending (flying m values)) (landed m (a.after (flying m values))) := by
  have hcalls : m.callRoots ⊆ (Observer.landed m (a.after (flying m values))).callRoots := by
    have hb := (ha.steady.withInFlight values m).callRoots_subset
    rwa [after_of_ok (withInFlight_eq values a m)] at hb
  exact V.transport (ha.holds (flying m values)) rfl rfl
    (fun v hv => mem_roots_flying.mpr (Or.inl hv)) fun hc =>
      ⟨hc.classes_eq, hc.symbols_eq, hc.globals_eq, hc.handles_le, hcalls⟩

theorem earns_runCleanup {run : Program → Effect Value} {c : Cleanup}
    (hrun : Earns V false (run c.program)) : Earns V false (runCleanup run c) := by
  unfold runCleanup
  split
  · exact (hrun.withResource c.resource).bind fun _ => meets_pure ()
  · exact hrun.bind fun _ => meets_pure ()

theorem earns_addCleanup (c : Cleanup) : Earns V inScope (addCleanup c) := by
  refine fun m => ⟨steady_addCleanup c m, ?_⟩
  have hsteady : (addCleanup c).Steady inScope ∅ := steady_addCleanup c
  have hcalls := (hsteady m).callRoots_subset
  cases hframes : m.frames with
  | nil =>
    have heq : addCleanup c m = fault .noActiveFrame m := addCleanup_of_nil hframes c
    rw [ending_congr heq, after_congr heq]
    exact (V.excuses _ m : (V.judgement inScope).At _ m).2
  | cons f rest =>
    have hadd := addCleanup_of_cons hframes c
    rw [after_of_ok hadd] at hcalls
    rw [ending_of_ok hadd, after_of_ok hadd]
    exact V.idle rfl ⟨rfl, rfl, rfl, List.prefix_rfl, hcalls⟩

/-! ### Frames and rescues -/

theorem roots_subset_entered (kind : FrameKind) (name : String) (receiver : Value) (m : Machine) :
    m.roots ⊆ (entered kind name receiver m).roots := by
  have hcalls : m.callRoots ⊆ (entered kind name receiver m).callRoots := by
    intro v hv
    simp only [Machine.callRoots, entered, List.reverse_cons, List.flatMap_append, List.mem_append] at hv ⊢
    tauto
  exact Machine.Carries.roots_subset ⟨rfl, rfl, rfl, List.prefix_rfl, hcalls⟩

/-- The body of a call, seen from where its frame is gone. -/
theorem Earns.left (ha : Earns V false a) (kind : FrameKind) (name : String) (receiver : Value)
    (m : Machine) : V.Holds m (a.ending (entered kind name receiver m))
      { a.after (entered kind name receiver m) with frames := m.frames } := by
  have hb := ha.steady (entered kind name receiver m)
  have hcalls : m.callRoots ⊆
      ({ a.after (entered kind name receiver m) with frames := m.frames } : Machine).callRoots :=
    callRoots_subset_of_register (register_nil _).symm hb.targets hb.inFlight
  exact V.transport (ha.holds (entered kind name receiver m)) rfl rfl
    (roots_subset_entered kind name receiver m) fun hc =>
      ⟨hc.classes_eq, hc.symbols_eq, hc.globals_eq, hc.handles_le, hcalls⟩

theorem Earns.handle {handler : Value → Effect α} {exc : Value} (hhandler : Earns V false (handler exc)) :
    Earns V false (handle exc handler) := by
  refine fun m => ⟨hhandler.steady.handle m, ?_⟩
  have h := hhandler.landed [exc] { m with unwindState := .handled }
  have hset : ∀ (state : UnwindState) (r : Except Unwind α) (m₁ : Machine),
      V.Holds { m with unwindState := .handled } r m₁ → V.Holds m r { m₁ with unwindState := state } :=
    fun state r m₁ h => V.transport h rfl rfl (List.Subset.refl _) fun hc =>
      ⟨hc.classes_eq, hc.symbols_eq, hc.globals_eq, hc.handles_le, hc.calls_subset⟩
  have heq := handle_eq exc handler m
  rw [ending_congr heq, after_congr heq]
  generalize (handler exc).ending _ = r at *
  generalize Observer.landed _ _ = m₁ at *
  rcases r with (exc' | f) | x
  · exact hset .unwinding _ m₁ h
  · exact hset m₁.unwindState _ m₁ h
  · exact hset .running _ m₁ h

theorem roots_subset_guarded (classes : List Value) (m : Machine) :
    m.roots ⊆ (guarded classes m).roots := by
  have hcalls : m.callRoots ⊆ (guarded classes m).callRoots := by
    intro v hv
    simp only [Machine.callRoots, guarded, List.reverse_cons, List.flatMap_append, List.mem_append] at hv ⊢
    tauto
  exact Machine.Carries.roots_subset ⟨rfl, rfl, rfl, List.prefix_rfl, hcalls⟩

theorem Earns.rescue {body : Effect α} {handler : Value → Effect α} (hbody : Earns V false body)
    (hhandler : ∀ exc, Earns V false (handler exc)) (classes : List Value) :
    Earns V false (rescue classes body handler) := by
  refine fun m => ⟨hbody.steady.rescue (fun exc => (hhandler exc).steady) classes m, ?_⟩
  have h := hbody.holds (guarded classes m)
  have hb := hbody.steady.balanced (guarded classes m)
  have heq := rescue_eq classes body handler m hb.targets
  rw [ending_congr heq, after_congr heq]
  generalize body.ending (guarded classes m) = result at *
  generalize body.after (guarded classes m) = m₁ at *
  obtain ⟨cs, hcs⟩ := hb.frames
  have hcalls : m.callRoots ⊆ ({ m₁ with targets := m.targets } : Machine).callRoots :=
    callRoots_subset_of_register hcs rfl hb.inFlight
  have hleft : V.Holds m result { m₁ with targets := m.targets } :=
    V.transport h rfl rfl (roots_subset_guarded classes m) fun hc =>
      ⟨hc.classes_eq, hc.symbols_eq, hc.globals_eq, hc.handles_le, hcalls⟩
  generalize ({ m₁ with targets := m.targets } : Machine) = m₂ at *
  dsimp only
  rcases result with (exc | f) | x
  · have hask : ask (·.exceptionMatches exc classes) m₂ = .ok (m₂.exceptionMatches exc classes) m₂ := rfl
    have hconclude : concludeRescue classes handler (.error (.raise exc)) m₂ = _ := bind_of_ok hask
    rw [ending_congr hconclude, after_congr hconclude]
    cases m₂.exceptionMatches exc classes with
    | error f => exact V.precede hleft (V.excuses f m₂ : (V.judgement false).At _ m₂).2
    | ok accepted =>
      cases accepted with
      | true => exact V.precede hleft ((hhandler exc).handle.holds m₂)
      | false => exact hleft
  · exact hleft
  · exact hleft

end Effect

end ObjectMachine
