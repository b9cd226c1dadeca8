import ObjectMachine.Classes

/-! Frames, cleanups and rescues.

Raising travels up by itself; this module does the bookkeeping around it.  A frame's cleanups run,
the latest first, however its body ends.  A rescue selects exceptions by class and never sees a
fault.  `run` is what evaluates the program of a cleanup. -/

namespace ObjectMachine

/-- Results whose values are kept alive while a frame's cleanups run. -/
class Rooted (α : Type) where
  roots : α → List Value

instance : Rooted Value := ⟨fun v => [v]⟩

instance [Rooted α] : Rooted (Option α) := ⟨fun o => (o.map Rooted.roots).getD []⟩

instance [Rooted α] : Rooted (List α) := ⟨fun l => l.flatMap Rooted.roots⟩

instance [Rooted α] [Rooted β] : Rooted (α × β) := ⟨fun p => Rooted.roots p.1 ++ Rooted.roots p.2⟩

instance : Rooted Nat := ⟨fun _ => []⟩

instance : Rooted Unit := ⟨fun _ => []⟩

/-- The values an outcome keeps alive: those of the result, or the exception on its way. -/
def outcomeRoots [Rooted α] : Except Unwind α → List Value
  | .ok a => Rooted.roots a
  | .error (.raise exc) => [exc]
  | .error (.fatal _) => []

namespace Effect

/-- Runs an effect while the given values are in flight. -/
def withInFlight (values : List Value) (a : Effect α) : Effect (Except Unwind α) := do
  let mark ← ask (·.inFlight.length)
  update fun m => { m with inFlight := values.reverse ++ m.inFlight }
  let result ← outcome a
  update fun m => { m with inFlight := m.inFlight.drop (m.inFlight.length - mark) }
  return result

/-- Runs an effect while a resource is the current one. -/
def withResource (resource : Value) (a : Effect α) : Effect α := do
  update fun m => { m with session := { m.session with resources := resource :: m.session.resources } }
  let result ← outcome a
  update fun m => { m with session := { m.session with resources := m.session.resources.tail } }
  resume result

/-- Runs a cleanup. -/
def runCleanup (run : Program → Effect Value) (c : Cleanup) : Effect Unit := do
  let _ ← if c.exposed then withResource c.resource (run c.program) else run c.program

/-- Makes `earlier` the context of `replacement`, unless that already has one. -/
def chainContext (replacement earlier : Value) : Effect Unit := do
  if replacement == earlier then return
  match ← ask (·.heap.read? Facet.exception replacement) with
  | none => return
  | some e =>
    if e.context.isNil then
      write Facet.exception replacement fun e => { e with context := earlier }
      record (.chained replacement earlier)

/-- What a failed cleanup makes of the outcome so far: a fault stays, an exception becomes the
context of the one that replaces it. -/
def replaceOutcome (raised : Unwind) : Except Unwind α → Effect (Except Unwind α)
  | .error (.fatal f) => return .error (.fatal f)
  | .error (.raise earlier) => do
    match raised with
    | .raise replacement => chainContext replacement earlier
    | .fatal _ => pure ()
    return .error raised
  | .ok _ => return .error raised

/-- Runs cleanups one after the other, each with the outcome so far and its resource in flight. -/
def runCleanups [Rooted α] (run : Program → Effect Value) :
    List Cleanup → Except Unwind α → Effect (Except Unwind α)
  | [], result => pure result
  | c :: rest, result => do
    match ← withInFlight (outcomeRoots result ++ [c.resource]) (runCleanup run c) with
    | .ok _ => runCleanups run rest result
    | .error raised => do
      let result ← replaceOutcome raised result
      runCleanups run rest result

/-- Leaves the innermost frame. -/
def leaveFrame [Rooted α] (run : Program → Effect Value) (result : Except Unwind α) : Effect α := do
  match ← ask (·.frames) with
  | [] => fault .noActiveFrame
  | frame :: rest =>
    update fun m => { m with frames := rest }
    let result ← runCleanups run frame.cleanups result
    resume result

/-- Runs a body in a frame of its own. -/
def callFrame [Rooted α] (run : Program → Effect Value) (kind : FrameKind) (name : String)
    (receiver : Value) (body : Effect α) : Effect α := do
  update fun m => { m with frames := { kind := kind, name := name, receiver := receiver } :: m.frames }
  let result ← outcome body
  leaveFrame run result

/-- Registers a cleanup on the innermost frame. -/
def addCleanup (c : Cleanup) : Effect Unit := do
  match ← ask (·.frames) with
  | [] => fault .noActiveFrame
  | frame :: rest =>
    update fun m => { m with frames := { frame with cleanups := c :: frame.cleanups } :: rest }

/-- Runs a body, then a cleanup, however the body ends. -/
def ensure [Rooted α] (run : Program → Effect Value) (body : Effect α) (cleanup : Program) :
    Effect α :=
  callFrame run .native "ensure" .nil do
    addCleanup ⟨.nil, cleanup, false⟩
    body

/-- Runs the handler of a caught exception. -/
def handle (exc : Value) (handler : Value → Effect α) : Effect α := do
  update fun m => { m with unwindState := .handled }
  let result ← withInFlight [exc] (handler exc)
  match result with
  | .ok _ => update fun m => { m with unwindState := .running }
  | .error (.raise _) => update fun m => { m with unwindState := .unwinding }
  | .error (.fatal _) => pure ()
  resume result

/-- Runs a body; an exception of one of the classes goes to the handler. -/
def rescue (classes : List Value) (body : Effect α) (handler : Value → Effect α) : Effect α := do
  update fun m => { m with targets := ⟨classes, m.frames.length⟩ :: m.targets }
  let result ← outcome body
  match ← ask (·.targets) with
  | [] => fault (.other "rescue target vanished")
  | target :: rest =>
    update fun m => { m with targets := rest }
    match result with
    | .error (.raise exc) =>
      if ← ofExcept (← ask (·.exceptionMatches exc target.classes)) then handle exc handler
      else throw (.raise exc)
    | result => resume result

/-- Runs a body in a boundary frame and tells how it ended. -/
def execute (run : Program → Effect Value) (name : String) (body : Effect Value) :
    Effect (Termination Value) := do
  match ← outcome (callFrame run .finish name .nil body) with
  | .ok v => return .completed v
  | .error (.raise exc) =>
    let cls ← ask (·.typeName exc)
    let message ← ask (·.exceptionMessage exc)
    let trace ← ask (·.stackTrace exc)
    record (.unhandled cls message trace)
    update fun m => { m with unwindState := .running }
    return .unhandled cls message trace
  | .error (.fatal f) =>
    record (.aborted f)
    return .aborted f

end Effect

end ObjectMachine
