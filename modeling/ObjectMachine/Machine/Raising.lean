import ObjectMachine.Machine.Allocation

/-! Raising exceptions.  An exception gets its stack trace, the names of the open frames from the
innermost on, when it is first raised. -/

namespace ObjectMachine.Effect

/-- Adds a line to a trace. -/
def pushTraceLines (trace : Value) : List String → Effect Unit
  | [] => pure ()
  | name :: names => do
    let line ← newText name
    write Facet.array trace (·.push line)
    pushTraceLines trace names

/-- Stores the names of the open frames in an exception. -/
def captureTrace (exc : Value) : Effect Unit := do
  let names ← ask (·.frameNames)
  withHandles do
    let _ ← pin exc
    let trace ← newArray []
    let _ ← pin trace
    pushTraceLines trace names
    write Facet.exception exc fun e => { e with stackTrace := trace }

/-- Sends an exception on its way. -/
def throwException (exc : Value) : Effect α := do
  update fun m => { m with unwindState := .unwinding }
  throw (.raise exc)

/-- Raises a new exception of a built-in class. -/
def raiseError (kind : ErrorKind) (message : String) : Effect α := do
  let exc ← newException (← classValue (.error kind)) message
  captureTrace exc
  throwException exc

/-- Raises a value; a type error if it is no exception. -/
def raiseValue (exc : Value) : Effect α := do
  match ← ask (·.heap.read Facet.exception exc) with
  | .ok e =>
    if e.stackTrace.isNil then captureTrace exc
    throwException exc
  | .error _ =>
    let found ← ask (·.typeName exc)
    raiseError .typeError s!"exceptions must derive from Exception, not {found}"

end ObjectMachine.Effect

namespace ObjectMachine.Machine

/-- The message of an exception; empty if it has none. -/
def exceptionMessage (m : Machine) (exc : Value) : String :=
  ((m.heap.read? Facet.exception exc).bind fun e => m.heap.read? Facet.text e.message).getD ""

/-- The exception that was on its way when a cleanup raised this one. -/
def exceptionContext? (m : Machine) (exc : Value) : Option Value :=
  ((m.heap.read? Facet.exception exc).map (·.context)).filter (!·.isNil)

/-- The frame names in an exception's trace. -/
def stackTrace (m : Machine) (exc : Value) : List String :=
  match (m.heap.read? Facet.exception exc).bind fun e => m.heap.read? Facet.array e.stackTrace with
  | some lines => lines.toList.filterMap (m.heap.read? Facet.text)
  | none => []

end ObjectMachine.Machine

namespace ObjectMachine.Effect

/-- Drops an exception that nobody will handle. -/
def discardException (exc : Value) (context : String) : Effect Unit := do
  let cls ← ask (·.typeName exc)
  let message ← ask (·.exceptionMessage exc)
  record (.discarded context cls message)
  update fun m => { m with unwindState := .running }

end ObjectMachine.Effect
