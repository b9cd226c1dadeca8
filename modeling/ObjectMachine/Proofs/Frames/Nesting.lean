import Mathlib.Tactic
import ObjectMachine.Proofs.Frames.Balance
import ObjectMachine.Proofs.Frames.Resources

/-! Frames and rescues nest.

A body that is balanced finds its frame, or its target, on top when it ends, and the frame or the
target is taken off whatever the end was.  So frames, cleanups and rescues around balanced code are
balanced again.  A cleanup runs when its frame is gone, and what it registers goes to the frame
around. -/

namespace ObjectMachine

open Observer (flying landed)

namespace Effect

open Judgement

variable {inScope : Bool} {places : Set Nat}

/-! ### Values in flight -/

theorem withInFlight_eq (values : List Value) (a : Effect α) (m : Machine) :
    withInFlight values a m =
      .ok (a.ending (flying m values)) (landed m (a.after (flying m values))) :=
  outcome_bind a _ (flying m values)

theorem Steady.withInFlight {a : Effect α} (ha : Steady inScope places a) (values : List Value) :
    Steady inScope places (withInFlight values a) := by
  intro m
  have h := ha (flying m values)
  show m.Balanced inScope places ((Effect.withInFlight values a).after m)
  rw [after_of_ok (withInFlight_eq values a m)]
  exact ⟨h.size_le, h.size_eq, h.slot, h.frames, h.targets, landed_inFlight h.inFlight⟩

theorem Steady.withResource {a : Effect α} (ha : Steady inScope places a) (resource : Value) :
    Steady inScope places (withResource resource a) :=
  (steady_setSession _).bind fun _ => ha.outcome.bind fun r =>
    (steady_setSession _).bind fun _ => (meets_resume_ofRel r)

/-! ### Frames -/

theorem steady_replaceOutcome (raised : Unwind) (result : Except Unwind α) :
    Steady inScope places (replaceOutcome raised result) := by
  rcases result with (earlier | f) | x
  · cases raised with
    | raise replacement => exact (steady_heedless.chainContext _ _).bind fun _ => meets_pure _
    | fatal f => exact (meets_pure _).bind fun _ => meets_pure _
  · exact meets_pure _
  · exact meets_pure _

variable {run : Program → Effect Value}

theorem steady_runCleanup (hrun : ∀ p, Steady false ∅ (run p)) (c : Cleanup) :
    Steady inScope places (runCleanup run c) := by
  unfold runCleanup
  split
  · exact ((hrun c.program).lift.withResource c.resource).bind fun _ => meets_pure ()
  · exact (hrun c.program).lift.bind fun _ => meets_pure ()

theorem steady_runCleanups [Rooted α] (hrun : ∀ p, Steady false ∅ (run p)) :
    ∀ (cleanups : List Cleanup) (result : Except Unwind α),
      Steady inScope places (runCleanups run cleanups result)
  | [], result => meets_pure _
  | c :: rest, result => by
    refine ((steady_runCleanup hrun c).withInFlight _).bind fun ended => ?_
    cases ended with
    | ok _ => exact steady_runCleanups hrun rest result
    | error raised =>
      exact (steady_replaceOutcome raised result).bind fun result =>
        steady_runCleanups hrun rest result

/-- The machine after a frame was opened. -/
def entered (kind : FrameKind) (name : String) (receiver : Value) (m : Machine) : Machine :=
  { m with frames := { kind := kind, name := name, receiver := receiver } :: m.frames }

theorem callFrame_eq [Rooted α] (kind : FrameKind) (name : String) (receiver : Value)
    (body : Effect α) (m : Machine) : callFrame run kind name receiver body m =
      leaveFrame run (body.ending (entered kind name receiver m))
        (body.after (entered kind name receiver m)) :=
  outcome_bind body _ (entered kind name receiver m)

/-- A balanced body ends with its own frame on top of those that were there before. -/
theorem Steady.frames_after_body {body : Effect α} (hbody : Steady inScope places body)
    (kind : FrameKind) (name : String) (receiver : Value) (m : Machine) :
    ∃ f, (body.after (entered kind name receiver m)).frames = f :: m.frames := by
  obtain ⟨cs, hcs⟩ := (hbody (entered kind name receiver m)).frames
  exact ⟨_, hcs⟩

theorem leaveFrame_of_cons [Rooted α] {m : Machine} {f : Frame} {rest : List Frame}
    (hframes : m.frames = f :: rest) (result : Except Unwind α) : leaveFrame run result m =
      (runCleanups run f.cleanups result >>= fun r => resume r) { m with frames := rest } := by
  have hask : ask (·.frames) m = .ok (f :: rest) m := by rw [ask, hframes]
  rw [leaveFrame, bind_of_ok hask]
  rfl

theorem Steady.callFrame [Rooted α] (hrun : ∀ p, Steady false ∅ (run p)) {body : Effect α}
    (hbody : Steady inScope places body) (kind : FrameKind) (name : String) (receiver : Value) :
    Steady inScope places (callFrame run kind name receiver body) := by
  intro m
  have h := hbody (entered kind name receiver m)
  obtain ⟨f, hframes⟩ := hbody.frames_after_body kind name receiver m
  have hleft : m.Balanced inScope places
      { body.after (entered kind name receiver m) with frames := m.frames } :=
    ⟨h.size_le, h.size_eq, h.slot, ⟨[], (register_nil _).symm⟩, h.targets, h.inFlight⟩
  show m.Balanced inScope places ((Effect.callFrame run kind name receiver body).after m)
  rw [after, callFrame_eq, leaveFrame_of_cons hframes]
  exact hleft.trans (((steady_runCleanups hrun _ _).bind fun r => (meets_resume_ofRel r)) _)

/-- Cleanups make no answer of anything else. -/
theorem eq_ok_of_runCleanups [Rooted α] : ∀ (cleanups : List Cleanup) {result : Except Unwind α}
    {m m' : Machine} {x : α}, runCleanups run cleanups result m = .ok (.ok x) m' → result = .ok x
  | [], result, m, m', x, h => (EStateM.Result.ok.inj h).1
  | c :: rest, result, m, m', x, h => by
    rw [runCleanups, bind_of_ok (withInFlight_eq _ _ m)] at h
    generalize (runCleanup run c).ending _ = ended at h
    cases ended with
    | ok _ => exact eq_ok_of_runCleanups rest h
    | error raised =>
      obtain ⟨replaced, m₁, hreplace, hrest⟩ := exists_of_bind_eq_ok h
      obtain rfl := eq_ok_of_runCleanups rest hrest
      rcases result with (earlier | f) | y
      · cases raised with
        | raise replacement =>
          obtain ⟨_, m₂, -, hpure⟩ := exists_of_bind_eq_ok hreplace
          cases (EStateM.Result.ok.inj hpure).1
        | fatal f => cases (EStateM.Result.ok.inj hreplace).1
      · cases (EStateM.Result.ok.inj hreplace).1
      · cases (EStateM.Result.ok.inj hreplace).1

/-- The answer of a call is that of its body. -/
theorem exists_of_callFrame_eq_ok [Rooted α] (hrun : ∀ p, Steady false ∅ (run p)) {kind : FrameKind}
    {name : String} {receiver : Value} {body : Effect α} {m m' : Machine} {x : α}
    (h : callFrame run kind name receiver body m = .ok x m') :
    ∃ m₁, body (entered kind name receiver m) = .ok x m₁ ∧ m₁.handles.size ≤ m'.handles.size := by
  rw [callFrame_eq] at h
  cases hframes : (body.after (entered kind name receiver m)).frames with
  | nil =>
    have hask : ask (·.frames) (body.after (entered kind name receiver m)) =
      .ok [] (body.after (entered kind name receiver m)) := by rw [ask, hframes]
    rw [leaveFrame, bind_of_ok hask] at h
    cases h
  | cons f rest =>
    rw [leaveFrame_of_cons hframes] at h
    obtain ⟨r, m₂, hcleanups, hresume⟩ := exists_of_bind_eq_ok h
    cases r with
    | error u => cases hresume
    | ok y =>
      obtain ⟨rfl, rfl⟩ := EStateM.Result.ok.inj hresume
      have hsteady : Steady false ∅ (runCleanups run f.cleanups
        (body.ending (entered kind name receiver m))) := steady_runCleanups hrun _ _
      have hsize := (hsteady { body.after (entered kind name receiver m) with frames := rest }).size_le
      rw [after_of_ok hcleanups] at hsize
      exact ⟨_, eq_ok_of_ending (eq_ok_of_runCleanups _ hcleanups), hsize⟩

theorem addCleanup_of_nil {m : Machine} (hframes : m.frames = []) (c : Cleanup) :
    addCleanup c m = .error (.fatal .noActiveFrame) m := by
  have hask : ask (·.frames) m = .ok [] m := by rw [ask, hframes]
  exact bind_of_ok hask

theorem addCleanup_of_cons {m : Machine} {f : Frame} {rest : List Frame}
    (hframes : m.frames = f :: rest) (c : Cleanup) : addCleanup c m =
      .ok () { m with frames := { f with cleanups := c :: f.cleanups } :: rest } := by
  have hask : ask (·.frames) m = .ok (f :: rest) m := by rw [ask, hframes]
  exact bind_of_ok hask

theorem steady_addCleanup (c : Cleanup) : Steady inScope places (addCleanup c) := by
  intro m
  show m.Balanced inScope places ((addCleanup c).after m)
  cases hframes : m.frames with
  | nil =>
    rw [after_of_error (addCleanup_of_nil hframes c)]
    exact .of_callStacks_eq rfl
  | cons f rest =>
    rw [after_of_ok (addCleanup_of_cons hframes c)]
    refine ⟨le_rfl, fun _ => rfl, fun _ _ _ => rfl, ⟨[c], ?_⟩, rfl, rfl⟩
    rw [hframes]
    rfl

/-! ### Rescues -/

theorem Steady.handle {handler : Value → Effect α} {exc : Value}
    (hhandler : Steady inScope places (handler exc)) :
    Steady inScope places (handle exc handler) := by
  refine (steady_setUnwindState _).bind fun _ => (hhandler.withInFlight _).bind fun r => ?_
  rcases r with (exc | f) | x
  · exact (steady_setUnwindState _).bind fun _ => meets_resume_ofRel _
  · exact meets_resume_ofRel _
  · exact (steady_setUnwindState _).bind fun _ => meets_resume_ofRel _

/-- The machine after a rescue was opened. -/
def guarded (classes : List Value) (m : Machine) : Machine :=
  { m with targets := ⟨classes, m.frames.length⟩ :: m.targets }

/-- What a rescue makes of the end of its body. -/
def concludeRescue (classes : List Value) (handler : Value → Effect α) :
    Except Unwind α → Effect α
  | .error (.raise exc) => do
    if ← ofExcept (← ask (·.exceptionMatches exc classes)) then handle exc handler
    else throw (.raise exc)
  | result => resume result

theorem rescue_eq (classes : List Value) (body : Effect α) (handler : Value → Effect α)
    (m : Machine) {target : UnwindTarget} {rest : List UnwindTarget}
    (htargets : (body.after (guarded classes m)).targets = target :: rest) :
    rescue classes body handler m =
      concludeRescue target.classes handler (body.ending (guarded classes m))
        { body.after (guarded classes m) with targets := rest } := by
  have hbody : rescue classes body handler m = _ := outcome_bind body _ (guarded classes m)
  have hask : ask (·.targets) (body.after (guarded classes m)) =
    .ok (target :: rest) (body.after (guarded classes m)) := by rw [ask, htargets]
  rw [hbody, bind_of_ok hask]
  dsimp only
  generalize body.ending (guarded classes m) = result
  rcases result with (exc | f) | x
  · rfl
  · rfl
  · rfl

theorem steady_concludeRescue {handler : Value → Effect α}
    (hhandler : ∀ exc, Steady inScope places (handler exc)) (classes : List Value)
    (result : Except Unwind α) : Steady inScope places (concludeRescue classes handler result) := by
  rcases result with (exc | f) | x
  · refine (meets_ask _).bind fun found => (steady_excuses.ofExcept found).bind fun accepted => ?_
    cases accepted with
    | true => exact (hhandler exc).handle
    | false => exact (meets_throw_ofRel _)
  · exact meets_throw_ofRel _
  · exact meets_pure _

theorem Steady.rescue {body : Effect α} {handler : Value → Effect α}
    (hbody : Steady inScope places body) (hhandler : ∀ exc, Steady inScope places (handler exc))
    (classes : List Value) : Steady inScope places (rescue classes body handler) := by
  intro m
  have h := hbody (guarded classes m)
  have hleft : m.Balanced inScope places
      { body.after (guarded classes m) with targets := m.targets } :=
    ⟨h.size_le, h.size_eq, h.slot, h.frames, rfl, h.inFlight⟩
  show m.Balanced inScope places ((Effect.rescue classes body handler).after m)
  rw [after, rescue_eq classes body handler m h.targets]
  exact hleft.trans ((steady_concludeRescue hhandler _ _) _)

theorem exists_of_handle_eq_ok {exc : Value} {handler : Value → Effect α} {m m' : Machine} {x : α}
    (h : handle exc handler m = .ok x m') :
    ∃ m₁ m₂, handler exc m₁ = .ok x m₂ ∧ m₁.handles = m.handles ∧ m'.handles = m₂.handles := by
  have hset : update (fun m => { m with unwindState := .handled }) m =
    .ok () { m with unwindState := .handled } := rfl
  rw [handle, bind_of_ok hset, bind_of_ok (withInFlight_eq _ _ _)] at h
  cases hend : (handler exc).ending (flying { m with unwindState := .handled } [exc]) with
  | ok y =>
    rw [hend] at h
    obtain ⟨rfl, rfl⟩ := EStateM.Result.ok.inj h
    exact ⟨_, _, eq_ok_of_ending hend, rfl, rfl⟩
  | error u =>
    rw [hend] at h
    cases u with
    | raise exc => cases h
    | fatal f => cases h

theorem exists_of_concludeRescue_eq_ok {classes : List Value} {handler : Value → Effect α}
    {result : Except Unwind α} {m m' : Machine} {x : α}
    (h : concludeRescue classes handler result m = .ok x m') :
    result = .ok x ∧ m' = m ∨
      ∃ exc m₁ m₂, handler exc m₁ = .ok x m₂ ∧ m₁.handles = m.handles ∧ m'.handles = m₂.handles := by
  rcases result with (exc | f) | y
  · obtain ⟨found, m₁, hask, h⟩ := exists_of_bind_eq_ok h
    obtain ⟨-, rfl⟩ := EStateM.Result.ok.inj hask
    obtain ⟨accepted, m₂, haccepted, h⟩ := exists_of_bind_eq_ok h
    cases found with
    | error f => cases haccepted
    | ok b =>
      obtain ⟨-, rfl⟩ := EStateM.Result.ok.inj haccepted
      cases accepted with
      | false => cases h
      | true => exact Or.inr ⟨exc, exists_of_handle_eq_ok h⟩
  · cases h
  · obtain ⟨rfl, rfl⟩ := EStateM.Result.ok.inj h
    exact Or.inl ⟨rfl, rfl⟩

/-- The answer of a rescue is that of its body or of its handler. -/
theorem exists_of_rescue_eq_ok {body : Effect α} {handler : Value → Effect α}
    (hbody : Steady true places body) {classes : List Value} {m m' : Machine} {x : α}
    (h : rescue classes body handler m = .ok x m') :
    (∃ m₁, body (guarded classes m) = .ok x m₁ ∧ m₁.handles.size ≤ m'.handles.size) ∨
      ∃ exc m₁ m₂, handler exc m₁ = .ok x m₂ ∧ m.handles.size ≤ m₁.handles.size ∧
        m₂.handles.size ≤ m'.handles.size := by
  have hb := hbody (guarded classes m)
  have hsize : m.handles.size ≤ (body.after (guarded classes m)).handles.size := hb.size_le
  rw [rescue_eq classes body handler m hb.targets] at h
  rcases exists_of_concludeRescue_eq_ok h with ⟨hend, rfl⟩ | ⟨exc, m₁, m₂, hhandler, hentry, hleft⟩
  · exact Or.inl ⟨_, eq_ok_of_ending hend, le_rfl⟩
  · exact Or.inr ⟨exc, m₁, m₂, hhandler, hentry ▸ hsize, hleft ▸ le_rfl⟩

/-! ### Boundaries -/

/-- What is told of the end of a body in a boundary frame. -/
def terminate : Except Unwind Value → Effect (Termination Value)
  | .ok v => return .completed v
  | .error (.raise exc) => do
    let cls ← ask (·.typeName exc)
    let message ← ask (·.exceptionMessage exc)
    let trace ← ask (·.stackTrace exc)
    record (.unhandled cls message trace)
    update fun m => { m with unwindState := .running }
    return .unhandled cls message trace
  | .error (.fatal f) => do
    record (.aborted f)
    return .aborted f

theorem execute_eq (run : Program → Effect Value) (name : String) (body : Effect Value) :
    execute run name body = outcome (callFrame run .finish name .nil body) >>= terminate := rfl

theorem steady_terminate (r : Except Unwind Value) : Steady inScope places (terminate r) := by
  rcases r with (exc | f) | v
  · exact Idle.steady fun _ => rfl
  · exact (steady_heedless.record _).bind fun _ => meets_pure _
  · exact meets_pure _

end Effect

end ObjectMachine
