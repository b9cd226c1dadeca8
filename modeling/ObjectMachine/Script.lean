import ObjectMachine.Program.Evaluate
import ObjectMachine.Bootstrap

/-! Scripts: lists of programs run one after the other on one machine. -/

namespace ObjectMachine

/-- How a step failed, as seen from outside. -/
inductive Failure where
  | raised (className message : String) (trace : List String) (context : Option View)
  | fatal (fault : Fault)

/-- What a step showed: its outcome and its reports. -/
structure StepResult where
  outcome : Except Failure View
  reports : List Report

/-- What a script showed. -/
structure ScriptResult where
  steps : List StepResult
  unwindState : UnwindState
  frameDepth : Nat
  targetDepth : Nat
  handleDepth : Nat
  events : List Event

namespace Machine

/-- A failure as seen from outside; the context counts as one level down. -/
def failure (m : Machine) : Unwind → Failure
  | .raise exc => .raised (m.typeName exc) (m.exceptionMessage exc) (m.stackTrace exc)
      ((m.exceptionContext? exc).map (m.viewTo (viewDepth - 1)))
  | .fatal f => .fatal f

/-- Runs an effect and pictures its outcome. -/
def observe (m : Machine) (a : Effect Value) : Except Failure View × Machine :=
  match a m with
  | .ok v m => (.ok (m.view v), m)
  | .error e m => (.error (m.failure e), m)

/-- A machine with its registers open. -/
def withRegisters (settings : HeapSettings) : Machine :=
  Effect.openRegisters.after (Machine.new settings)

end Machine

namespace Script

/-- Runs one step and takes its reports. -/
def runStep (m : Machine) (p : Program) : StepResult × Machine :=
  let (outcome, m) := m.observe (p.eval Calls.top)
  let reports := m.session.reports.toList
  (⟨outcome, reports⟩, { m with session := { m.session with reports := #[] } })

/-- Runs steps one after the other. -/
def runSteps : Machine → List Program → List StepResult × Machine
  | m, [] => ([], m)
  | m, p :: rest =>
    let (result, m) := runStep m p
    let (results, m) := runSteps m rest
    (result :: results, m)

/-- Runs a script on a new machine. -/
def run (settings : HeapSettings) (steps : List Program) : ScriptResult :=
  let (results, m) := runSteps (Machine.withRegisters settings) steps
  { steps := results
    unwindState := m.unwindState
    frameDepth := m.frames.length
    targetDepth := m.targets.length
    handleDepth := m.handles.size
    events := m.events.toList }

/-- The text of a value through its own `to_s`. -/
def displayed (m : Machine) (v : Value) : Except Failure String :=
  match Calls.top.display v m with
  | .ok s _ => .ok s
  | .error e m => .error (m.failure e)

/-- The answer to a message: a picture of the result and, unless that is too large an integer, its
text. -/
structure Reply where
  view : View
  text : Option (Except Failure String)

/-- The reply with a result. -/
def reply (m : Machine) (v : Value) : Reply :=
  match m.view v with
  | .hugeBig bits hash cls => ⟨.hugeBig bits hash cls, none⟩
  | view => ⟨view, some (displayed m v)⟩

/-- Sends one message on a new machine. -/
def send (settings : HeapSettings) (receiver : Program) (name : String) (args : List Program) :
    Except Failure Reply :=
  let call := Program.apply (.object (.call name)) (receiver :: args)
  match call.eval Calls.top (Machine.withRegisters settings) with
  | .ok v m => .ok (reply m v)
  | .error e m => .error (m.failure e)

/-- Runs one effect on a new machine. -/
def runEffect (a : Effect Value) : Except Failure View := ((Machine.new {}).observe a).1

end Script

end ObjectMachine
