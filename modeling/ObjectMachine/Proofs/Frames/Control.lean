import Mathlib.Tactic
import ObjectMachine.Frames
import ObjectMachine.Proofs.Machine.Judgements

/-! Programs of frames, cleanups and rescues, and what can be observed when they run.

A program nests frames, cleanups, rescues and raises in any way around steps that leave the chain of
frames alone.  `denote` runs it with the operations of the machine.  `observe` runs it too and keeps a
record: which cleanups were registered, which ran and how they ended, which handlers ran.  Both run
the same steps in the same order, so they end the same way on the same machine (`erase_observe`). -/

namespace ObjectMachine

open Effect

/-! ### Effects that leave the chain of frames alone -/

/-- That the frames and the open rescues stay as they are. -/
def Judgement.level : Judgement :=
  .ofRel (fun m m' => m'.frames = m.frames ∧ m'.targets = m.targets) (fun _ => ⟨rfl, rfl⟩)
    fun _ _ _ h h' => ⟨h'.1.trans h.1, h'.2.trans h.2⟩

/-- Whether an effect leaves the frames and the open rescues as they are. -/
def Effect.Level (a : Effect α) : Prop := Judgement.level.Meets a

namespace Effect

open Judgement

theorem level_heedless : Judgement.level.Heedless := heedless_ofRel fun _ _ _ _ => ⟨rfl, rfl⟩

theorem level_raises : Judgement.level.Raises where
  makes := level_heedless.makes
  captureTrace := meets_captureTrace (scopeOfRel fun _ _ => ⟨rfl, rfl⟩) fun _ => level_heedless.makes
  throwException := meets_throwException_ofRel fun _ => ⟨rfl, rfl⟩

end Effect

/-! ### Records -/

/-- What can be seen of frames and rescues while they run. -/
inductive Mark : Type 1 where
  /-- A frame was opened. -/
  | opened
  /-- A cleanup was registered on the innermost frame. -/
  | registered (c : Cleanup)
  /-- The body of a frame ended. -/
  | ended {α : Type} (r : Except Unwind α)
  /-- A cleanup was called on a machine. -/
  | called (c : Cleanup) (m : Machine)
  /-- The cleanup ended. -/
  | returned (r : Except Unwind Unit)
  /-- The frame was left. -/
  | left {α : Type} (r : Except Unwind α)
  /-- A rescue was opened. -/
  | guarded (classes : List Value)
  /-- The body of a rescue ended and left a machine. -/
  | reached {α : Type} (r : Except Unwind α) (m : Machine)
  /-- The handler was called. -/
  | handling (exc : Value)
  /-- The rescue was left. -/
  | rescued {α : Type} (r : Except Unwind α)

/-- How a run ended, the machine it left, and the marks it made, in the order of time. -/
structure Observed (α : Type) : Type 1 where
  ending : Except Unwind α
  machine : Machine
  marks : List Mark := []

/-- What is observed when marks have been made before. -/
def Observed.precede (o : Observed α) (before : List Mark) : Observed α :=
  { o with marks := before ++ o.marks }

theorem Observed.precede_precede (o : Observed α) (ks ks' : List Mark) :
    (o.precede ks').precede ks = o.precede (ks ++ ks') := by
  rw [precede, precede, precede, List.append_assoc]

/-- An effect that keeps a record. -/
def Observer (α : Type) : Type 1 := Machine → Observed α

namespace Observer

/-- The effect without its record. -/
def erase (a : Observer α) : Effect α := fun m =>
  match (a m).ending with
  | .ok x => .ok x (a m).machine
  | .error u => .error u (a m).machine

/-- An effect of which nothing is recorded. -/
def lift (a : Effect α) : Observer α := fun m =>
  match a m with
  | .ok x m' => { ending := .ok x, machine := m' }
  | .error u m' => { ending := .error u, machine := m' }

instance : Monad Observer where
  pure x m := { ending := .ok x, machine := m }
  bind a f m :=
    match (a m).ending with
    | .ok x => (f x (a m).machine).precede (a m).marks
    | .error u => { a m with ending := .error u }

/-- Makes a mark that may tell of the machine. -/
def mark (k : Machine → Mark) : Observer Unit := fun m =>
  { ending := .ok (), machine := m, marks := [k m] }

/-- Runs an effect and hands over how it ended. -/
def outcome (a : Observer α) : Observer (Except Unwind α) := fun m =>
  { ending := .ok (a m).ending, machine := (a m).machine, marks := (a m).marks }

/-! ### Frames, cleanups and rescues with their marks -/

def withInFlight (values : List Value) (a : Observer α) : Observer (Except Unwind α) := do
  let mark ← lift (ask (·.inFlight.length))
  lift (update fun m => { m with inFlight := values.reverse ++ m.inFlight })
  let result ← outcome a
  lift (update fun m => { m with inFlight := m.inFlight.drop (m.inFlight.length - mark) })
  return result

def withResource (resource : Value) (a : Observer α) : Observer α := do
  lift (update fun m =>
    { m with session := { m.session with resources := resource :: m.session.resources } })
  let result ← outcome a
  lift (update fun m => { m with session := { m.session with resources := m.session.resources.tail } })
  lift (resume result)

def runCleanup (run : Program → Observer Value) (c : Cleanup) : Observer Unit := do
  let _ ← if c.exposed then withResource c.resource (run c.program) else run c.program

def runCleanups [Rooted α] (run : Program → Observer Value) :
    List Cleanup → Except Unwind α → Observer (Except Unwind α)
  | [], result => pure result
  | c :: rest, result => do
    let ended ← withInFlight (outcomeRoots result ++ [c.resource]) do
      mark (.called c)
      runCleanup run c
    mark fun _ => .returned ended
    match ended with
    | .ok _ => runCleanups run rest result
    | .error raised => do
      let result ← lift (replaceOutcome raised result)
      runCleanups run rest result

def leaveFrame [Rooted α] (run : Program → Observer Value) (result : Except Unwind α) :
    Observer α := do
  match ← lift (ask (·.frames)) with
  | [] => lift (fault .noActiveFrame)
  | frame :: rest =>
    lift (update fun m => { m with frames := rest })
    let result ← runCleanups run frame.cleanups result
    mark fun _ => .left result
    lift (resume result)

def callFrame [Rooted α] (run : Program → Observer Value) (kind : FrameKind) (name : String)
    (receiver : Value) (body : Observer α) : Observer α := do
  lift (update fun m =>
    { m with frames := { kind := kind, name := name, receiver := receiver } :: m.frames })
  mark fun _ => .opened
  let result ← outcome body
  mark fun _ => .ended result
  leaveFrame run result

def addCleanup (c : Cleanup) : Observer Unit := do
  lift (Effect.addCleanup c)
  mark fun _ => .registered c

def ensure [Rooted α] (run : Program → Observer Value) (body : Observer α) (cleanup : Program) :
    Observer α :=
  callFrame run .native "ensure" .nil do
    addCleanup ⟨.nil, cleanup, false⟩
    body

def handle (exc : Value) (handler : Value → Observer α) : Observer α := do
  lift (update fun m => { m with unwindState := .handled })
  let result ← withInFlight [exc] do
    mark fun _ => .handling exc
    handler exc
  match result with
  | .ok _ => lift (update fun m => { m with unwindState := .running })
  | .error (.raise _) => lift (update fun m => { m with unwindState := .unwinding })
  | .error (.fatal _) => pure ()
  lift (resume result)

/-- What a rescue makes of the end of its body. -/
def answer (classes : List Value) (handler : Value → Observer α) : Except Unwind α → Observer α
  | .error (.raise exc) => do
    if ← lift (do ofExcept (← ask (·.exceptionMatches exc classes))) then handle exc handler
    else lift (throw (.raise exc))
  | result => lift (resume result)

def rescue (classes : List Value) (body : Observer α) (handler : Value → Observer α) :
    Observer α := do
  lift (update fun m => { m with targets := ⟨classes, m.frames.length⟩ :: m.targets })
  mark fun _ => .guarded classes
  let result ← outcome body
  match ← lift (ask (·.targets)) with
  | [] => lift (fault (.other "rescue target vanished"))
  | target :: rest =>
    lift (update fun m => { m with targets := rest })
    mark (.reached result)
    let left ← outcome (answer target.classes handler result)
    mark fun _ => .rescued left
    lift (resume left)

/-! ### Nothing but the record is added -/

@[simp]
theorem erase_lift (a : Effect α) : (lift a).erase = a := by
  funext m
  unfold erase lift
  cases a m <;> rfl

@[simp]
theorem erase_pure (x : α) : (pure x : Observer α).erase = pure x := rfl

@[simp]
theorem erase_mark (k : Machine → Mark) : (mark k).erase = pure () := rfl

theorem erase_of_ok {a : Observer α} {m : Machine} {x : α} (h : (a m).ending = .ok x) :
    a.erase m = .ok x (a m).machine := by rw [erase, h]

theorem erase_of_error {a : Observer α} {m : Machine} {u : Unwind} (h : (a m).ending = .error u) :
    a.erase m = .error u (a m).machine := by rw [erase, h]

theorem bind_of_ok {a : Observer α} {f : α → Observer β} {m : Machine} {x : α}
    (h : (a m).ending = .ok x) : (a >>= f) m = (f x (a m).machine).precede (a m).marks := by
  show (match (a m).ending with
    | .ok x => (f x (a m).machine).precede (a m).marks
    | .error u => { a m with ending := .error u } : Observed β) = _
  rw [h]

theorem bind_of_error {a : Observer α} {f : α → Observer β} {m : Machine} {u : Unwind}
    (h : (a m).ending = .error u) : (a >>= f) m = { a m with ending := .error u } := by
  show (match (a m).ending with
    | .ok x => (f x (a m).machine).precede (a m).marks
    | .error u => { a m with ending := .error u } : Observed β) = _
  rw [h]

@[simp]
theorem erase_bind (a : Observer α) (f : α → Observer β) :
    (a >>= f).erase = a.erase >>= fun x => (f x).erase := by
  funext m
  cases h : (a m).ending with
  | ok x =>
    rw [Effect.bind_of_ok (erase_of_ok h)]
    unfold erase
    rw [bind_of_ok h]
    rfl
  | error u =>
    rw [Effect.bind_of_error (erase_of_error h)]
    unfold erase
    rw [bind_of_error h]

@[simp]
theorem erase_outcome (a : Observer α) : (outcome a).erase = Effect.outcome a.erase := by
  funext m
  cases h : (a m).ending with
  | ok x => rw [Effect.outcome, erase_of_ok h, erase, outcome, h]
  | error u => rw [Effect.outcome, erase_of_error h, erase, outcome, h]

@[simp]
theorem erase_withInFlight (values : List Value) (a : Observer α) :
    (withInFlight values a).erase = Effect.withInFlight values a.erase := by
  simp [withInFlight, Effect.withInFlight]

@[simp]
theorem erase_withResource (resource : Value) (a : Observer α) :
    (withResource resource a).erase = Effect.withResource resource a.erase := by
  simp [withResource, Effect.withResource]

@[simp]
theorem erase_runCleanup (run : Program → Observer Value) (c : Cleanup) :
    (runCleanup run c).erase = Effect.runCleanup (fun p => (run p).erase) c := by
  unfold runCleanup Effect.runCleanup
  cases c.exposed <;> simp

theorem erase_runCleanups [Rooted α] (run : Program → Observer Value) :
    ∀ (cleanups : List Cleanup) (result : Except Unwind α),
      (runCleanups run cleanups result).erase =
        Effect.runCleanups (fun p => (run p).erase) cleanups result
  | [], result => rfl
  | c :: rest, result => by
    simp only [runCleanups, Effect.runCleanups, erase_bind, erase_withInFlight, erase_mark,
      erase_runCleanup, pure_bind]
    congr 1
    funext ended
    cases ended with
    | ok x => exact erase_runCleanups run rest result
    | error raised =>
      simp only [erase_bind, erase_lift]
      congr 1
      funext result
      exact erase_runCleanups run rest result

theorem erase_leaveFrame [Rooted α] (run : Program → Observer Value) (result : Except Unwind α) :
    (leaveFrame run result).erase = Effect.leaveFrame (fun p => (run p).erase) result := by
  simp only [leaveFrame, Effect.leaveFrame, erase_bind, erase_lift]
  congr 1
  funext frames
  cases frames with
  | nil => simp
  | cons frame rest => simp [erase_runCleanups]

theorem erase_callFrame [Rooted α] (run : Program → Observer Value) (kind : FrameKind)
    (name : String) (receiver : Value) (body : Observer α) :
    (callFrame run kind name receiver body).erase =
      Effect.callFrame (fun p => (run p).erase) kind name receiver body.erase := by
  simp [callFrame, Effect.callFrame, erase_leaveFrame]

theorem erase_addCleanup (c : Cleanup) : (addCleanup c).erase = Effect.addCleanup c := by
  simp [addCleanup]

theorem erase_ensure [Rooted α] (run : Program → Observer Value) (body : Observer α)
    (cleanup : Program) :
    (ensure run body cleanup).erase =
      Effect.ensure (fun p => (run p).erase) body.erase cleanup := by
  simp [ensure, Effect.ensure, erase_callFrame, erase_addCleanup]

theorem erase_handle (exc : Value) (handler : Value → Observer α) :
    (handle exc handler).erase = Effect.handle exc fun exc => (handler exc).erase := by
  simp only [handle, Effect.handle, erase_bind, erase_lift, erase_withInFlight, erase_mark, pure_bind]
  congr 1
  funext _
  congr 1
  funext result
  rcases result with (exc | f) | x
  · simp
  · simp
  · simp

theorem erase_rescue (classes : List Value) (body : Observer α) (handler : Value → Observer α) :
    (rescue classes body handler).erase =
      Effect.rescue classes body.erase fun exc => (handler exc).erase := by
  simp only [rescue, Effect.rescue, erase_bind, erase_lift, erase_outcome, erase_mark, pure_bind]
  congr 1
  funext _
  congr 1
  funext result
  congr 1
  funext targets
  cases targets with
  | nil => simp
  | cons target rest =>
    simp only [erase_bind, erase_lift, erase_outcome, erase_mark, pure_bind, outcome_bind_resume]
    congr 1
    funext _
    rcases result with (exc | f) | x
    · simp only [answer, erase_bind, erase_lift, bind_assoc]
      congr 1
      funext accepted
      congr 1
      funext b
      cases b with
      | true => simp [erase_handle]
      | false => simp
    · simp [answer]
    · simp [answer]

end Observer

/-! ### Programs -/

/-- A program of frames, cleanups and rescues. -/
inductive Control : Type → Type 1 where
  /-- A step that leaves the chain of frames alone. -/
  | other {α : Type} (a : Effect α) (level : a.Level) : Control α
  | raise {α : Type} (exc : Value) : Control α
  | andThen {α β : Type} (first : Control α) (next : α → Control β) : Control β
  /-- A program whose end is looked at. -/
  | attempt {α : Type} (body : Control α) : Control (Except Unwind α)
  | frame {α : Type} [Rooted α] (kind : FrameKind) (name : String) (receiver : Value)
      (body : Control α) : Control α
  | addCleanup (c : Cleanup) : Control Unit
  | ensure {α : Type} [Rooted α] (body : Control α) (cleanup : Program) : Control α
  | rescue {α : Type} (classes : List Value) (body : Control α) (handler : Value → Control α) :
      Control α

namespace Control

/-- Runs a program with the operations of the machine. -/
def denote (run : Program → Effect Value) : Control α → Effect α
  | .other a _ => a
  | .raise exc => raiseValue exc
  | .andThen first next => first.denote run >>= fun x => (next x).denote run
  | .attempt body => outcome (body.denote run)
  | @frame _ _ kind name receiver body => callFrame run kind name receiver (body.denote run)
  | .addCleanup c => Effect.addCleanup c
  | @ensure _ _ body cleanup => Effect.ensure run (body.denote run) cleanup
  | .rescue classes body handler =>
    Effect.rescue classes (body.denote run) fun exc => (handler exc).denote run

/-- Runs a program and keeps a record. -/
def observe (run : Program → Observer Value) : Control α → Observer α
  | .other a _ => .lift a
  | .raise exc => .lift (raiseValue exc)
  | .andThen first next => first.observe run >>= fun x => (next x).observe run
  | .attempt body => .outcome (body.observe run)
  | @frame _ _ kind name receiver body => .callFrame run kind name receiver (body.observe run)
  | .addCleanup c => .addCleanup c
  | @ensure _ _ body cleanup => .ensure run (body.observe run) cleanup
  | .rescue classes body handler =>
    .rescue classes (body.observe run) fun exc => (handler exc).observe run

theorem erase_observe (run : Program → Observer Value) (program : Control α) :
    (program.observe run).erase = program.denote fun p => (run p).erase := by
  induction program with
  | other a level => exact Observer.erase_lift a
  | raise exc => exact Observer.erase_lift (raiseValue exc)
  | andThen first next ihfirst ihnext => simp [observe, denote, ihfirst, ihnext]
  | attempt body ih => simp [observe, denote, ih]
  | frame kind name receiver body ih => simp [observe, denote, Observer.erase_callFrame, ih]
  | addCleanup c => exact Observer.erase_addCleanup c
  | ensure body cleanup ih => simp [observe, denote, Observer.erase_ensure, ih]
  | rescue classes body handler ihbody ihhandler =>
    simp [observe, denote, Observer.erase_rescue, ihbody, ihhandler]

/-- Runs stored programs, nested to a depth; `decode` says what each of them does. -/
def denoteTo (decode : Program → Control Value) : Nat → Program → Effect Value
  | 0, _ => fault .depthExceeded
  | depth + 1, p => (decode p).denote (denoteTo decode depth)

/-- The same with a record. -/
def observeTo (decode : Program → Control Value) : Nat → Program → Observer Value
  | 0, _ => .lift (fault .depthExceeded)
  | depth + 1, p => (decode p).observe (observeTo decode depth)

theorem erase_observeTo (decode : Program → Control Value) :
    ∀ (depth : Nat) (p : Program), (observeTo decode depth p).erase = denoteTo decode depth p
  | 0, p => Observer.erase_lift _
  | depth + 1, p => by
    rw [observeTo, denoteTo, erase_observe]
    congr 1
    funext q
    exact erase_observeTo decode depth q

end Control

end ObjectMachine
