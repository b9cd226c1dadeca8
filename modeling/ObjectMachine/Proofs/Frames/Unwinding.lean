import Mathlib.Tactic
import ObjectMachine.Proofs.Frames.Control
import ObjectMachine.Proofs.Frames.Matching

/-! The contract of unwinding.

`Unwinds` says what the record of a run looks like: the cleanups of a frame run when it is left, each
once and the latest first, after everything that was opened inside; a handler runs after its body is
through, if the body ended with an exception that the rescue accepts, and only then; and
`frameResult` is what becomes of a frame.  A cleanup may register further cleanups.  Its own frame is
gone by then, so they belong to the frame around. -/

namespace ObjectMachine

/-! ### What becomes of a frame -/

/-- The first fault among some ends. -/
def firstFault? : List (Except Unwind Unit) → Option Fault
  | [] => none
  | .error (.fatal f) :: _ => some f
  | _ :: rest => firstFault? rest

/-- The last exception among some ends. -/
def lastRaised? : List (Except Unwind Unit) → Option Value
  | [] => none
  | .error (.raise exc) :: rest => (lastRaised? rest).or (some exc)
  | _ :: rest => lastRaised? rest

/-- How a frame is left: with the first fault of its body and its cleanups, else with the last
exception of its cleanups, else as the body ended. -/
def frameResult (body : Except Unwind α) (cleanups : List (Except Unwind Unit)) : Except Unwind α :=
  match firstFault? (body.map (fun _ => ()) :: cleanups) with
  | some f => .error (.fatal f)
  | none =>
    match lastRaised? cleanups with
    | some exc => .error (.raise exc)
    | none => body

/-- What a cleanup that failed makes of the end so far. -/
def supersede (raised : Unwind) : Except Unwind α → Except Unwind α
  | .error (.fatal f) => .error (.fatal f)
  | _ => .error raised

theorem frameResult_nil (body : Except Unwind α) : frameResult body [] = body := by
  rcases body with (exc | f) | x
  · rfl
  · rfl
  · rfl

theorem frameResult_ok (body : Except Unwind α) (ends : List (Except Unwind Unit)) :
    frameResult body (.ok () :: ends) = frameResult body ends := by
  rcases body with (exc | f) | x
  · rfl
  · rfl
  · rfl

theorem frameResult_error (body : Except Unwind α) (raised : Unwind)
    (ends : List (Except Unwind Unit)) :
    frameResult body (.error raised :: ends) = frameResult (supersede raised body) ends := by
  cases raised with
  | fatal f =>
    rcases body with (exc | g) | x
    · rfl
    · rfl
    · rfl
  | raise exc =>
    have hlast : lastRaised? (.error (.raise exc) :: ends) = (lastRaised? ends).or (some exc) := rfl
    rcases body with (earlier | g) | x
    · simp only [frameResult, supersede, Except.map, firstFault?, hlast]
      cases lastRaised? ends <;> rfl
    · rfl
    · simp only [frameResult, supersede, Except.map, firstFault?, hlast]
      cases lastRaised? ends <;> rfl

/-! ### The contract -/

/-- A cleanup that ran: the machine it was called on, what was seen then, the cleanups it registered
on the frame around, and its end. -/
structure CleanupRun : Type 1 where
  cleanup : Cleanup
  called : Machine
  marks : List Mark
  registered : List Cleanup
  ending : Except Unwind Unit

/-- The marks of a cleanup that ran. -/
def CleanupRun.trace (r : CleanupRun) : List Mark :=
  .called r.cleanup r.called :: r.marks ++ [.returned r.ending]

/-- The marks of a run, and the cleanups it registered on the frame it started in. -/
inductive Unwinds : List Mark → List Cleanup → Prop where
  | nothing : Unwinds [] []
  | andThen {first next : List Mark} {cs cs' : List Cleanup} (hfirst : Unwinds first cs)
      (hnext : Unwinds next cs') : Unwinds (first ++ next) (cs ++ cs')
  | registered (c : Cleanup) : Unwinds [.registered c] [c]
  /-- The cleanups registered on a frame run when it is left, in reverse order. -/
  | frame {α : Type} {ended left : Except Unwind α} {body : List Mark} {cs : List Cleanup}
      {runs : List CleanupRun} (hbody : Unwinds body cs)
      (hruns : ∀ r ∈ runs, Unwinds r.marks r.registered)
      (horder : runs.map (·.cleanup) = cs.reverse)
      (hleft : left = frameResult ended (runs.map (·.ending))) :
      Unwinds (.opened :: body ++ .ended ended :: runs.flatMap CleanupRun.trace ++ [.left left])
        (runs.flatMap (·.registered))
  /-- A rescue lets everything pass but an exception that it accepts. -/
  | passed {α : Type} {reached : Except Unwind α} {m : Machine} {classes : List Value}
      {body : List Mark} {cs : List Cleanup} (hbody : Unwinds body cs)
      (hnot : ∀ exc, reached = .error (.raise exc) → ¬ m.Accepts classes exc) :
      Unwinds (.guarded classes :: body ++ [.reached reached m, .rescued reached]) cs
  /-- If it accepts the exception, the handler runs, after its body is through. -/
  | handled {α : Type} {left : Except Unwind α} {m : Machine} {classes : List Value} {exc : Value}
      {body handler : List Mark} {cs cs' : List Cleanup} (hbody : Unwinds body cs)
      (haccepts : m.Accepts classes exc) (hhandler : Unwinds handler cs') :
      Unwinds (.guarded classes :: body ++ .reached (.error (.raise exc) : Except Unwind α) m ::
        .handling exc :: handler ++ [.rescued left]) (cs ++ cs')
  /-- Whether it does cannot be told if the class of the exception has lost its way to the root. -/
  | untraceable {α : Type} {m : Machine} {classes : List Value} {exc : Value} {f : Fault}
      {body : List Mark} {cs : List Cleanup} (hbody : Unwinds body cs) (hlost : ¬ m.Traceable exc) :
      Unwinds (.guarded classes :: body ++ [.reached (.error (.raise exc) : Except Unwind α) m,
        .rescued (.error (.fatal f) : Except Unwind α)]) cs

/-- The cleanups registered in a run, on whichever frame. -/
def registrations (marks : List Mark) : List Cleanup :=
  marks.filterMap fun | .registered c => some c | _ => none

/-- The cleanups called in a run. -/
def calls (marks : List Mark) : List Cleanup :=
  marks.filterMap fun | .called c _ => some c | _ => none

/-- Every cleanup that was registered has been called once or is pending. -/
def Settled (marks : List Mark) (pending : List Cleanup) : Prop :=
  (registrations marks).Perm (calls marks ++ pending)

@[simp]
theorem registrations_append (ks ks' : List Mark) :
    registrations (ks ++ ks') = registrations ks ++ registrations ks' := List.filterMap_append

@[simp]
theorem calls_append (ks ks' : List Mark) : calls (ks ++ ks') = calls ks ++ calls ks' :=
  List.filterMap_append

theorem settled_iff {ks : List Mark} {cs : List Cleanup} :
    Settled ks cs ↔ (registrations ks : Multiset Cleanup) = calls ks + cs := by
  rw [Settled, ← Multiset.coe_eq_coe, Multiset.coe_add]

theorem Settled.append {ks ks' : List Mark} {cs cs' : List Cleanup} (h : Settled ks cs)
    (h' : Settled ks' cs') : Settled (ks ++ ks') (cs ++ cs') := by
  rw [settled_iff] at *
  rw [registrations_append, calls_append, ← Multiset.coe_add, ← Multiset.coe_add,
    ← Multiset.coe_add, h, h', add_add_add_comm]

/-- Cleanups that ran one after the other: each was called, and what it registered is pending. -/
theorem settled_runs : ∀ runs : List CleanupRun, (∀ r ∈ runs, Settled r.marks r.registered) →
    (registrations (runs.flatMap CleanupRun.trace) : Multiset Cleanup) + runs.map (·.cleanup) =
      calls (runs.flatMap CleanupRun.trace) + runs.flatMap (·.registered)
  | [], _ => rfl
  | r :: rest, h => by
    have hr := settled_iff.mp (h r List.mem_cons_self)
    have hrest := settled_runs rest fun r hr => h r (List.mem_cons_of_mem _ hr)
    have hregistered : registrations r.trace = registrations r.marks := by
      simp [CleanupRun.trace, registrations]
    have hcalls : calls r.trace = r.cleanup :: calls r.marks := by simp [CleanupRun.trace, calls]
    rw [List.flatMap_cons, List.flatMap_cons, List.map_cons, registrations_append, calls_append,
      hregistered, hcalls]
    simp only [← Multiset.coe_add, ← Multiset.cons_coe, ← Multiset.singleton_add, hr]
    calc (↑(calls r.marks) + ↑r.registered + ↑(registrations (rest.flatMap CleanupRun.trace)) +
          ({r.cleanup} + ↑(rest.map (·.cleanup))) : Multiset Cleanup)
        = {r.cleanup} + ↑(calls r.marks) + ↑r.registered +
          (↑(registrations (rest.flatMap CleanupRun.trace)) + ↑(rest.map (·.cleanup))) := by abel
      _ = {r.cleanup} + ↑(calls r.marks) + ↑(calls (rest.flatMap CleanupRun.trace)) +
          (↑r.registered + ↑(rest.flatMap (·.registered))) := by rw [hrest]; abel

/-- Nothing that was registered is forgotten or called twice. -/
theorem Unwinds.settled {ks : List Mark} {cs : List Cleanup} (h : Unwinds ks cs) :
    Settled ks cs := by
  induction h with
  | nothing => exact .nil
  | andThen _ _ ih ih' => exact ih.append ih'
  | registered c => exact .refl _
  | @frame α ended left body cs runs _ _ horder _ ih ihruns =>
    have hruns := settled_runs runs ihruns
    have hcs : (cs : Multiset Cleanup) = runs.map (·.cleanup) := by
      rw [horder, Multiset.coe_reverse]
    have hregistered : registrations (.opened :: body ++ .ended ended :: runs.flatMap CleanupRun.trace ++
        [.left left]) = registrations body ++ registrations (runs.flatMap CleanupRun.trace) := by
      simp [registrations]
    have hcalls : calls (.opened :: body ++ .ended ended :: runs.flatMap CleanupRun.trace ++ [.left left]) =
        calls body ++ calls (runs.flatMap CleanupRun.trace) := by
      simp [calls]
    rw [settled_iff] at ih ⊢
    rw [hregistered, hcalls, ← Multiset.coe_add, ← Multiset.coe_add, ih, hcs]
    calc (↑(calls body) + ↑(runs.map (·.cleanup)) + ↑(registrations (runs.flatMap CleanupRun.trace)) :
          Multiset Cleanup)
        = ↑(calls body) + (↑(registrations (runs.flatMap CleanupRun.trace)) + ↑(runs.map (·.cleanup))) := by
          abel
      _ = ↑(calls body) + ↑(calls (runs.flatMap CleanupRun.trace)) + ↑(runs.flatMap (·.registered)) := by
          rw [hruns, add_assoc]
  | passed _ _ ih => simpa [Settled, registrations, calls] using ih
  | handled _ _ _ ih ih' =>
    have h := ih.append ih'
    simpa [Settled, registrations, calls] using h
  | untraceable _ _ ih => simpa [Settled, registrations, calls] using ih

/-! ### Runs follow it -/

/-- Puts cleanups on the innermost frame. -/
def register (cs : List Cleanup) : List Frame → List Frame
  | [] => []
  | f :: rest => { f with cleanups := cs.reverse ++ f.cleanups } :: rest

theorem register_nil (frames : List Frame) : register [] frames = frames := by
  cases frames <;> rfl

theorem register_append (cs cs' : List Cleanup) (frames : List Frame) :
    register (cs ++ cs') frames = register cs' (register cs frames) := by
  cases frames with
  | nil => rfl
  | cons f rest => simp [register]

/-- A run that has kept to the contract: the cleanups it registered are on the innermost frame, all
other frames and the open rescues are as they were. -/
structure Follows (m : Machine) (o : Observed α) (cs : List Cleanup) : Prop where
  unwinds : Unwinds o.marks cs
  frames : o.machine.frames = register cs m.frames
  targets : o.machine.targets = m.targets
  nowhere : m.frames = [] → cs = []

/-- Whether every run of an observer keeps to the contract. -/
def Observer.Obeys (a : Observer α) : Prop := ∀ m, ∃ cs, Follows m (a m) cs

namespace Observer

theorem obeys_lift {a : Effect α} (ha : a.Level) : Obeys (lift a) := by
  intro m
  obtain ⟨hframes, htargets⟩ := ha m
  refine ⟨[], ?_⟩
  cases h : a m with
  | ok x m' =>
    rw [Effect.after_of_ok h] at hframes htargets
    rw [lift, h]
    exact ⟨.nothing, hframes.trans (register_nil _).symm, htargets, fun _ => rfl⟩
  | error u m' =>
    rw [Effect.after_of_error h] at hframes htargets
    rw [lift, h]
    exact ⟨.nothing, hframes.trans (register_nil _).symm, htargets, fun _ => rfl⟩

theorem follows_andThen {m : Machine} {o : Observed α} {o' : Observed β} {cs cs' : List Cleanup}
    (h : Follows m o cs) (h' : Follows o.machine o' cs') :
    Follows m (o'.precede o.marks) (cs ++ cs') := by
  refine ⟨h.unwinds.andThen h'.unwinds, ?_, h'.targets.trans h.targets, fun hnil => ?_⟩
  · show o'.machine.frames = _
    rw [h'.frames, h.frames, register_append]
  · have hcs := h.nowhere hnil
    rw [hcs, h'.nowhere (by rw [h.frames, hnil]; rfl)]
    rfl

theorem Obeys.bind {a : Observer α} {f : α → Observer β} (ha : Obeys a) (hf : ∀ x, Obeys (f x)) :
    Obeys (a >>= f) := by
  intro m
  obtain ⟨cs, h⟩ := ha m
  cases he : (a m).ending with
  | ok x =>
    obtain ⟨cs', h'⟩ := hf x (a m).machine
    rw [bind_of_ok he]
    exact ⟨cs ++ cs', follows_andThen h h'⟩
  | error u =>
    rw [bind_of_error he]
    exact ⟨cs, h.unwinds, h.frames, h.targets, h.nowhere⟩

theorem Obeys.outcome {a : Observer α} (ha : Obeys a) : Obeys (outcome a) := by
  intro m
  obtain ⟨cs, h⟩ := ha m
  exact ⟨cs, h.unwinds, h.frames, h.targets, h.nowhere⟩

theorem obeys_addCleanup (c : Cleanup) : Obeys (addCleanup c) := by
  intro m
  cases hframes : m.frames with
  | nil =>
    have heq : addCleanup c m = { ending := .error (.fatal .noActiveFrame), machine := m } := by
      cases m
      cases hframes
      rfl
    rw [heq]
    exact ⟨[], .nothing, (register_nil _).symm, rfl, fun _ => rfl⟩
  | cons f rest =>
    have heq : addCleanup c m =
        ⟨.ok (), { m with frames := register [c] m.frames }, [.registered c]⟩ := by
      cases m
      cases hframes
      rfl
    rw [heq]
    exact ⟨[c], .registered c, rfl, rfl, fun hnil => by simp [hframes] at hnil⟩

/-! ### One step at a time -/

theorem lift_ask_bind (g : Machine → α) (f : α → Observer β) (m : Machine) :
    (lift (Effect.ask g) >>= f) m = f (g m) m := rfl

theorem lift_update_bind (g : Machine → Machine) (f : Unit → Observer β) (m : Machine) :
    (lift (Effect.update g) >>= f) m = f () (g m) := rfl

theorem mark_bind (k : Machine → Mark) (f : Unit → Observer β) (m : Machine) :
    (mark k >>= f) m = (f () m).precede [k m] := rfl

theorem outcome_bind (a : Observer α) (f : Except Unwind α → Observer β) (m : Machine) :
    (outcome a >>= f) m = (f (a m).ending (a m).machine).precede (a m).marks := rfl

theorem lift_bind_of_ok {a : Effect α} {m m' : Machine} {x : α} (h : a m = .ok x m')
    (f : α → Observer β) : (lift a >>= f) m = f x m' := by
  have hlift : lift a m = { ending := .ok x, machine := m' } := by rw [lift, h]
  rw [bind_of_ok (congrArg Observed.ending hlift), hlift]
  rfl

theorem lift_resume (r : Except Unwind α) (m : Machine) :
    lift (Effect.resume r) m = { ending := r, machine := m } := by
  cases r <;> rfl

/-- The machine with values in flight. -/
def flying (m : Machine) (values : List Value) : Machine :=
  { m with inFlight := values.reverse ++ m.inFlight }

/-- The machine after the values that were in flight are gone. -/
def landed (m m' : Machine) : Machine :=
  { m' with inFlight := m'.inFlight.drop (m'.inFlight.length - m.inFlight.length) }

theorem withInFlight_eq (values : List Value) (a : Observer α) (m : Machine) :
    let o := a (flying m values)
    withInFlight values a m = ⟨.ok o.ending, landed m o.machine, o.marks⟩ := by
  intro o
  unfold withInFlight
  rw [lift_ask_bind, lift_update_bind, outcome_bind, lift_update_bind]
  show Observed.mk _ _ (_ ++ []) = _
  rw [List.append_nil]
  rfl

theorem obeys_pure (x : α) : Obeys (pure x) := obeys_lift (Judgement.meets_pure x)

theorem obeys_runCleanup {run : Program → Observer Value} (hrun : ∀ p, Obeys (run p)) (c : Cleanup) :
    Obeys (runCleanup run c) := by
  unfold runCleanup withResource
  split
  · refine Obeys.bind ?_ fun _ => obeys_pure ()
    refine Obeys.bind (obeys_lift fun _ => ⟨rfl, rfl⟩) fun _ => ?_
    refine (hrun c.program).outcome.bind fun r => ?_
    exact Obeys.bind (obeys_lift fun _ => ⟨rfl, rfl⟩) fun _ => obeys_lift (Judgement.meets_resume_ofRel r)
  · exact (hrun c.program).bind fun _ => obeys_pure ()

theorem exists_chainContext (replacement earlier : Value) (m : Machine) :
    ∃ m', Effect.chainContext replacement earlier m = .ok () m' := by
  unfold Effect.chainContext
  split
  · exact ⟨m, rfl⟩
  have hask : Effect.ask (·.heap.read? Facet.exception replacement) m =
    .ok (m.heap.read? Facet.exception replacement) m := rfl
  rw [Effect.bind_of_ok hask]
  cases hread : m.heap.read? Facet.exception replacement with
  | none => exact ⟨m, rfl⟩
  | some e =>
    dsimp only
    split
    · obtain ⟨o, ho, hbody⟩ := Option.bind_eq_some_iff.mp hread
      have hok := Effect.read_of_ok (Heap.read_eq_ok_iff.mpr ⟨o, ho, hbody⟩)
      have hwrite : ∀ g, Effect.write Facet.exception replacement g m =
        .ok () { m with heap := m.heap.modify Facet.exception replacement g } :=
          fun _ => Effect.bind_of_ok hok
      exact ⟨_, Effect.bind_of_ok (hwrite _)⟩
    · exact ⟨m, rfl⟩

/-- A failed cleanup replaces the end so far, unless that is a fault. -/
theorem exists_replaceOutcome (raised : Unwind) (result : Except Unwind α) (m : Machine) :
    ∃ m', Effect.replaceOutcome raised result m = .ok (supersede raised result) m' ∧
      m'.frames = m.frames ∧ m'.targets = m.targets := by
  rcases result with (earlier | f) | x
  · cases raised with
    | raise replacement =>
      obtain ⟨m', hm'⟩ := exists_chainContext replacement earlier m
      obtain ⟨hframes, htargets⟩ := Effect.level_heedless.chainContext replacement earlier m
      rw [Effect.after_of_ok hm'] at hframes htargets
      exact ⟨m', Effect.bind_of_ok hm', hframes, htargets⟩
    | fatal f => exact ⟨m, rfl, rfl, rfl⟩
  · exact ⟨m, rfl, rfl, rfl⟩
  · exact ⟨m, rfl, rfl, rfl⟩

/-- What is seen of cleanups that run one after the other. -/
structure Ran (cleanups : List Cleanup) (result : Except Unwind α) (m : Machine)
    (o : Observed (Except Unwind α)) (runs : List CleanupRun) : Prop where
  ending : o.ending = .ok (frameResult result (runs.map (·.ending)))
  marks : o.marks = runs.flatMap CleanupRun.trace
  order : runs.map (·.cleanup) = cleanups
  unwinds : ∀ r ∈ runs, Unwinds r.marks r.registered
  frames : o.machine.frames = register (runs.flatMap (·.registered)) m.frames
  targets : o.machine.targets = m.targets
  nowhere : m.frames = [] → runs.flatMap (·.registered) = []

theorem Ran.cons {rest : List Cleanup} {result result' : Except Unwind α} {m m' : Machine}
    {o : Observed (Except Unwind α)} {runs : List CleanupRun} (r : CleanupRun)
    (hr : Unwinds r.marks r.registered) (hnowhere : m.frames = [] → r.registered = [])
    (hframes : m'.frames = register r.registered m.frames) (htargets : m'.targets = m.targets)
    (hresult : frameResult result (r.ending :: runs.map (·.ending)) =
      frameResult result' (runs.map (·.ending))) (h : Ran rest result' m' o runs) :
    Ran (r.cleanup :: rest) result m (o.precede r.trace) (r :: runs) := by
  refine ⟨h.ending.trans (congrArg _ hresult.symm), ?_, ?_, ?_, ?_, ?_, fun hnil => ?_⟩
  · rw [List.flatMap_cons, Observed.precede, h.marks]
  · rw [List.map_cons, h.order]
  · intro r' hr'
    rcases List.mem_cons.mp hr' with rfl | hr'
    · exact hr
    · exact h.unwinds r' hr'
  · show o.machine.frames = _
    rw [List.flatMap_cons, h.frames, hframes, register_append]
  · exact h.targets.trans htargets
  · rw [List.flatMap_cons, hnowhere hnil, h.nowhere (by rw [hframes, hnil]; rfl)]
    rfl

/-- The first cleanup runs, and the rest go on with what it makes of the end so far. -/
theorem runCleanups_cons [Rooted α] (run : Program → Observer Value) (c : Cleanup)
    (rest : List Cleanup) (result : Except Unwind α) (m : Machine) :
    let called := flying m (outcomeRoots result ++ [c.resource])
    let o := runCleanup run c called
    let next : Observer (Except Unwind α) := match o.ending with
      | .ok _ => runCleanups run rest result
      | .error raised => lift (Effect.replaceOutcome raised result) >>= runCleanups run rest
    runCleanups run (c :: rest) result m =
      (next (landed m o.machine)).precede (.called c called :: o.marks ++ [.returned o.ending]) := by
  intro called o next
  rw [runCleanups, bind_of_ok (congrArg Observed.ending (withInFlight_eq _ _ m)), withInFlight_eq,
    mark_bind, Observed.precede_precede]
  rfl

theorem exists_ran [Rooted α] {run : Program → Observer Value} (hrun : ∀ p, Obeys (run p)) :
    ∀ (cleanups : List Cleanup) (result : Except Unwind α) (m : Machine), ∃ runs : List CleanupRun,
      Ran cleanups result m (runCleanups run cleanups result m) runs
  | [], result, m =>
    ⟨[], congrArg _ (frameResult_nil result).symm, rfl, rfl, fun _ hr => absurd hr List.not_mem_nil,
      (register_nil _).symm, rfl, fun _ => rfl⟩
  | c :: rest, result, m => by
    let called := flying m (outcomeRoots result ++ [c.resource])
    let o := runCleanup run c called
    obtain ⟨cs, h⟩ : ∃ cs, Follows called o cs := obeys_runCleanup hrun c called
    have hnowhere : m.frames = [] → cs = [] := h.nowhere
    have hframes : (landed m o.machine).frames = register cs m.frames := h.frames
    have htargets : (landed m o.machine).targets = m.targets := h.targets
    rw [runCleanups_cons]
    cases hending : o.ending with
    | ok x =>
      obtain ⟨runs, hran⟩ := exists_ran hrun rest result (landed m o.machine)
      exact ⟨_, hran.cons ⟨c, called, o.marks, cs, .ok x⟩ h.unwinds hnowhere hframes htargets
        (frameResult_ok result _)⟩
    | error raised =>
      obtain ⟨m', hm', hframes', htargets'⟩ :=
        exists_replaceOutcome raised result (landed m o.machine)
      obtain ⟨runs, hran⟩ := exists_ran hrun rest (supersede raised result) m'
      dsimp only
      rw [lift_bind_of_ok hm']
      exact ⟨_, hran.cons ⟨c, called, o.marks, cs, .error raised⟩ h.unwinds hnowhere
        (hframes'.trans hframes) (htargets'.trans htargets) (frameResult_error result raised _)⟩

/-- Leaving a frame: its cleanups run, and their outcome is the frame's. -/
theorem leaveFrame_cons [Rooted α] (run : Program → Observer Value) (result : Except Unwind α)
    {m : Machine} {f : Frame} {rest : List Frame} (hframes : m.frames = f :: rest)
    {o : Observed (Except Unwind α)} {left : Except Unwind α}
    (ho : runCleanups run f.cleanups result { m with frames := rest } = o)
    (hleft : o.ending = .ok left) :
    leaveFrame run result m =
      { ending := left, machine := o.machine, marks := o.marks ++ [.left left] } := by
  rw [leaveFrame, lift_ask_bind, hframes]
  dsimp only
  rw [lift_update_bind]
  subst ho
  rw [bind_of_ok hleft, mark_bind, lift_resume]
  rfl

theorem Obeys.callFrame [Rooted α] {run : Program → Observer Value} (hrun : ∀ p, Obeys (run p))
    (kind : FrameKind) (name : String) (receiver : Value) {body : Observer α} (hbody : Obeys body) :
    Obeys (callFrame run kind name receiver body) := by
  intro m
  let frame : Frame := { kind := kind, name := name, receiver := receiver }
  obtain ⟨cs, h⟩ := hbody { m with frames := frame :: m.frames }
  let o := body { m with frames := frame :: m.frames }
  -- the new frame had no cleanups, so it has those that the body registered
  have hframes : o.machine.frames = { frame with cleanups := cs.reverse } :: m.frames := by
    rw [h.frames, register, List.append_nil]
  obtain ⟨runs, hran⟩ := exists_ran hrun cs.reverse o.ending { o.machine with frames := m.frames }
  have heq : Observer.callFrame run kind name receiver body m =
      (leaveFrame run o.ending o.machine).precede (.opened :: o.marks ++ [.ended o.ending]) := by
    rw [Observer.callFrame, lift_update_bind, mark_bind, outcome_bind, mark_bind,
      Observed.precede_precede, Observed.precede_precede]
    rfl
  rw [heq, leaveFrame_cons run o.ending hframes rfl hran.ending]
  refine ⟨_, ?_, hran.frames, hran.targets.trans h.targets, hran.nowhere⟩
  have hunwinds := Unwinds.frame h.unwinds hran.unwinds hran.order
    (rfl : frameResult o.ending _ = frameResult o.ending _)
  simpa [Observed.precede, hran.marks] using hunwinds

theorem exists_handle (exc : Value) (handler : Value → Observer α) (m : Machine) :
    let o := handler exc (flying { m with unwindState := .handled } [exc])
    ∃ m', handle exc handler m =
        { ending := o.ending, machine := m', marks := .handling exc :: o.marks } ∧
      m'.frames = o.machine.frames ∧ m'.targets = o.machine.targets := by
  intro o
  let m' := landed { m with unwindState := .handled } o.machine
  have hflight : withInFlight [exc] (mark (fun _ => .handling exc) >>= fun _ => handler exc)
      { m with unwindState := .handled } =
        { ending := .ok o.ending, machine := m', marks := .handling exc :: o.marks } := by
    rw [withInFlight_eq, mark_bind]
    rfl
  unfold handle
  rw [lift_update_bind, bind_of_ok (congrArg Observed.ending hflight), hflight]
  rcases o.ending with (exc' | f) | x
  · refine ⟨{ m' with unwindState := .unwinding }, ?_, rfl, rfl⟩
    simp [lift_update_bind, lift_resume, Observed.precede]
  · refine ⟨m', ?_, rfl, rfl⟩
    show (lift (Effect.resume (.error (.fatal f))) m').precede _ = _
    simp [lift_resume, Observed.precede]
  · refine ⟨{ m' with unwindState := .running }, ?_, rfl, rfl⟩
    simp [lift_update_bind, lift_resume, Observed.precede]

/-- The three things that a rescue can make of the end of its body. -/
theorem answer_cases (classes : List Value) (handler : Value → Observer α) (r : Except Unwind α)
    (m : Machine) :
    (answer classes handler r m = { ending := r, machine := m } ∧
      ∀ exc, r = .error (.raise exc) → ¬ m.Accepts classes exc) ∨
    ∃ exc, r = .error (.raise exc) ∧
      ((m.Accepts classes exc ∧ answer classes handler r m = handle exc handler m) ∨
        ∃ f, ¬ m.Traceable exc ∧
          answer classes handler r m = { ending := .error (.fatal f), machine := m }) := by
  rcases r with (exc | f) | x
  · have hasked : ∀ found, m.exceptionMatches exc classes = found →
        answer classes handler (.error (.raise exc)) m = (lift (Effect.ofExcept found) >>= fun b =>
          if b = true then handle exc handler else lift (throw (.raise exc))) m := by
      rintro _ rfl
      rfl
    cases hmatch : m.exceptionMatches exc classes with
    | error f =>
      refine Or.inr ⟨exc, rfl, Or.inr ⟨f, fun htrace => ?_, ?_⟩⟩
      · obtain ⟨b, hb⟩ := htrace.exists_exceptionMatches classes
        rw [hmatch] at hb
        cases hb
      · exact hasked _ hmatch
    | ok b =>
      have haccepts := Machine.exceptionMatches_eq_ok hmatch
      cases b with
      | true => exact Or.inr ⟨exc, rfl, Or.inl ⟨haccepts.mp rfl, hasked _ hmatch⟩⟩
      | false =>
        refine Or.inl ⟨hasked _ hmatch, fun exc' hexc haccept => ?_⟩
        obtain rfl := Unwind.raise.inj (Except.error.inj hexc)
        simpa using haccepts.mpr haccept
  · exact Or.inl ⟨rfl, nofun⟩
  · exact Or.inl ⟨rfl, nofun⟩

/-- A rescue whose body has kept the open rescues. -/
theorem rescue_eq (classes : List Value) (body : Observer α) (handler : Value → Observer α)
    {m : Machine} {o : Observed α}
    (ho : body { m with targets := ⟨classes, m.frames.length⟩ :: m.targets } = o)
    (htargets : o.machine.targets = ⟨classes, m.frames.length⟩ :: m.targets) :
    let m' : Machine := { o.machine with targets := m.targets }
    let left := answer classes handler o.ending m'
    rescue classes body handler m = ⟨left.ending, left.machine,
      .guarded classes :: o.marks ++ .reached o.ending m' :: left.marks ++ [.rescued left.ending]⟩ := by
  intro m' left
  subst ho
  rw [rescue, lift_update_bind, mark_bind, outcome_bind, lift_ask_bind, htargets]
  dsimp only
  rw [lift_update_bind, mark_bind, outcome_bind, mark_bind, lift_resume]
  simp only [Observed.precede, List.append_nil, List.cons_append, List.append_assoc,
    List.nil_append]
  rfl

theorem Obeys.rescue (classes : List Value) {body : Observer α} {handler : Value → Observer α}
    (hbody : Obeys body) (hhandler : ∀ exc, Obeys (handler exc)) :
    Obeys (rescue classes body handler) := by
  intro m
  obtain ⟨cs, h⟩ := hbody { m with targets := ⟨classes, m.frames.length⟩ :: m.targets }
  rw [rescue_eq classes body handler rfl h.targets]
  generalize body { m with targets := ⟨classes, m.frames.length⟩ :: m.targets } = o at h ⊢
  let m' : Machine := { o.machine with targets := m.targets }
  have hframes : m'.frames = register cs m.frames := h.frames
  have hnowhere : m.frames = [] → cs = [] := h.nowhere
  rcases answer_cases classes handler o.ending m' with ⟨heq, hnot⟩ | ⟨exc, hexc, hcases⟩
  · rw [heq]
    refine ⟨cs, ?_, hframes, rfl, hnowhere⟩
    simpa using Unwinds.passed h.unwinds hnot
  rcases hcases with ⟨haccepts, heq⟩ | ⟨f, hlost, heq⟩
  · obtain ⟨m'', hhandle, hframes', htargets'⟩ := exists_handle exc handler m'
    obtain ⟨cs', h'⟩ := hhandler exc (flying { m' with unwindState := .handled } [exc])
    rw [heq, hhandle, hexc]
    refine ⟨cs ++ cs', ?_, ?_, htargets'.trans h'.targets, fun hnil => ?_⟩
    · simpa using Unwinds.handled h.unwinds haccepts h'.unwinds
    · show m''.frames = _
      rw [hframes', h'.frames, register_append]
      exact congrArg (register cs') hframes
    · have hcs' := h'.nowhere (show m'.frames = [] by rw [hframes, hnil]; rfl)
      rw [hnowhere hnil, hcs']
      rfl
  · rw [heq, hexc]
    refine ⟨cs, ?_, hframes, rfl, hnowhere⟩
    simpa using Unwinds.untraceable h.unwinds hlost

end Observer

namespace Control

theorem obeys_observe {run : Program → Observer Value} (hrun : ∀ p, (run p).Obeys)
    (program : Control α) : (program.observe run).Obeys := by
  induction program with
  | other a level => exact Observer.obeys_lift level
  | raise exc => exact Observer.obeys_lift (Effect.level_raises.raiseValue exc)
  | andThen first next ihfirst ihnext => exact ihfirst.bind ihnext
  | attempt body ih => exact ih.outcome
  | frame kind name receiver body ih => exact ih.callFrame hrun kind name receiver
  | addCleanup c => exact Observer.obeys_addCleanup c
  | ensure body cleanup ih =>
    exact ((Observer.obeys_addCleanup _).bind fun _ => ih).callFrame hrun .native "ensure" .nil
  | rescue classes body handler ihbody ihhandler => exact ihbody.rescue classes ihhandler

theorem obeys_observeTo (decode : Program → Control Value) :
    ∀ (depth : Nat) (p : Program), (observeTo decode depth p).Obeys
  | 0, _ => Observer.obeys_lift (Judgement.meets_fault nofun)
  | depth + 1, p => obeys_observe (obeys_observeTo decode depth) (decode p)

/-- Programs nest frames, cleanups, rescues and raises in any way, also in cleanups and handlers.
However a program and its parts end, the record of the run, which is the run of the machine, keeps to
the contract of unwinding.  Every cleanup that was registered has been called once, or is still on
the frame the program started in; nothing else has become of the frames and the open rescues. -/
theorem unwinding_contract (decode : Program → Control Value) (depth : Nat) (program : Control α)
    (m : Machine) :
    let observer := program.observe (observeTo decode depth)
    observer.erase = program.denote (denoteTo decode depth) ∧
    ∃ pending, Unwinds (observer m).marks pending ∧ Settled (observer m).marks pending ∧
      (observer m).machine.frames = register pending m.frames ∧ (m.frames = [] → pending = []) ∧
      (observer m).machine.targets = m.targets := by
  intro observer
  refine ⟨?_, ?_⟩
  · rw [erase_observe]
    congr 1
    funext p
    exact erase_observeTo decode depth p
  · obtain ⟨pending, h⟩ := obeys_observe (obeys_observeTo decode depth) program m
    exact ⟨pending, h.unwinds, h.unwinds.settled, h.frames, h.nowhere, h.targets⟩

end Control

end ObjectMachine
