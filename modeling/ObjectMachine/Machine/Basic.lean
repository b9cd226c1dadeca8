import ObjectMachine.BuiltinClass
import ObjectMachine.Heap.Collect
import ObjectMachine.Machine.Event
import ObjectMachine.Number.Basic
import ObjectMachine.Report

/-! The machine: the heap, the built-in classes, the symbols, and the state of native calls.

An `Effect` is an operation of the machine.  It may fail, and a failing effect keeps the changes it
has made so far. -/

namespace ObjectMachine

/-- The symbols: a table from names to symbols on the heap, and the names by number. -/
structure SymbolTable where
  table : Value := .absent
  names : Array String := #[]

/-- What is to be done when a frame is left. The program sees the resource if it is exposed. -/
structure Cleanup where
  resource : Value
  program : Program
  exposed : Bool

/-- A frame of the native call chain; its cleanups stand the latest first. -/
structure Frame where
  kind : FrameKind
  name : String
  receiver : Value
  cleanups : List Cleanup := []

/-- An open rescue: the classes it accepts, and the depth of frames at which it was opened. -/
structure UnwindTarget where
  classes : List Value
  frameDepth : Nat

/-- A running call of a programmed method. -/
structure Activation where
  receiver : Value
  arguments : List Value

/-- What programs keep beside the heap: the register array and the names of its places, values that
are not roots, running calls and cleanups, the reports made, and how many entries the command line has
visited. -/
structure Session where
  registers : Value := .absent
  registerNames : List String := []
  weak : List (String × Value) := []
  activations : List Activation := []
  resources : List Value := []
  reports : Array Report := #[]
  visits : Nat := 0

/-- The machine.  The stacks of frames, targets and values in flight have their latest element in
front; handles are numbered from the bottom. -/
structure Machine where
  heap : Heap
  classes : Array Value := #[]
  symbols : SymbolTable := {}
  globals : Value := .absent
  handles : Array Value := #[]
  frames : List Frame := []
  targets : List UnwindTarget := []
  inFlight : List Value := []
  unwindState : UnwindState := .running
  events : Array Event := #[]
  session : Session := {}

namespace Machine

/-- The value of a built-in class. -/
def classValue (m : Machine) (c : BuiltinClass) : Value := m.classes.getD c.index .absent

/-- Every value outside the heap that keeps objects alive, in the order of visiting. -/
def roots (m : Machine) : List Value :=
  m.classes.toList ++ [m.symbols.table, m.globals] ++ m.handles.toList
    ++ m.frames.reverse.flatMap (fun f => f.receiver :: f.cleanups.reverse.map (·.resource))
    ++ m.targets.reverse.flatMap (·.classes)
    ++ m.inFlight.reverse

/-- The name of a symbol. -/
def symbolName? (m : Machine) (v : Value) : Option String := v.symbol?.bind (m.symbols.names[·]?)

/-- The name of a class, for diagnostics. -/
def className (m : Machine) (cls : Value) : String :=
  (((m.heap.read? Facet.cls cls).bind fun c => m.symbolName? c.name)).getD "?"

/-- The class of a value, immediates included. -/
def classOf (m : Machine) (v : Value) : Except Fault Value :=
  if v.isFixnum then .ok (m.classValue .fixnum)
  else if v.isRef then (m.heap.get v).map (·.cls)
  else if v.isSymbol then .ok (m.classValue .symbol)
  else if v.isNil then .ok (m.classValue .nil)
  else if v.isBool then .ok (m.classValue .bool)
  else .error (.other s!"{v.debug} has no class")

/-- The name of a value's class, for diagnostics. -/
def typeName (m : Machine) (v : Value) : String :=
  match m.classOf v with
  | .ok cls => m.className cls
  | .error _ => "?"

/-- The names of the frames, innermost first. -/
def frameNames (m : Machine) : List String := m.frames.map (·.name)

/-- Classifies a value as a number. -/
def number? (m : Machine) (v : Value) : Option Number :=
  match v.fixnum? with
  | some n => some (.fixed n)
  | none =>
    match m.heap.read? Facet.float v with
    | some x => some (.float x)
    | none => (m.heap.read? Facet.bignum v).map .big

end Machine

/-- An operation of the machine. -/
abbrev Effect (α : Type) := EStateM Unwind Machine α

namespace Effect

/-- Fails with a fault. -/
def fault (f : Fault) : Effect α := throw (.fatal f)

/-- The value of a computation that may end in a fault. -/
def ofExcept : Except Fault α → Effect α
  | .ok a => pure a
  | .error f => fault f

/-- Asks the machine. -/
def ask (f : Machine → α) : Effect α := fun m => .ok (f m) m

/-- Changes the machine. -/
def update (f : Machine → Machine) : Effect Unit := fun m => .ok () (f m)

/-- The machine that an effect leaves behind, however it ends. -/
def after (a : Effect α) (m : Machine) : Machine :=
  match a m with
  | .ok _ m' => m'
  | .error _ m' => m'

/-- Runs an effect and hands over how it ended. -/
def outcome (a : Effect α) : Effect (Except Unwind α) := fun m =>
  match a m with
  | .ok v m => .ok (.ok v) m
  | .error e m => .ok (.error e) m

/-- Ends the way a finished effect did. -/
def resume : Except Unwind α → Effect α
  | .ok a => pure a
  | .error e => throw e

/-- Records an event. -/
def record (e : Event) : Effect Unit := update fun m => { m with events := m.events.push e }

/-- Adds a report. -/
def report (r : Report) : Effect Unit :=
  update fun m => { m with session := { m.session with reports := m.session.reports.push r } }

/-- The data of an object of the facet's kind. -/
def read (facet : Facet α) (v : Value) : Effect α := fun m =>
  match m.heap.read facet v with
  | .ok a => .ok a m
  | .error f => .error (.fatal f) m

/-- Changes the data of an object of the facet's kind. -/
def write (facet : Facet α) (v : Value) (f : α → α) : Effect Unit := do
  let _ ← read facet v
  update fun m => { m with heap := m.heap.modify facet v f }

/-! ### Handles -/

/-- Keeps a value alive until the innermost scope ends; gives the place of the handle. -/
def pin (v : Value) : Effect Nat := fun m =>
  .ok m.handles.size { m with handles := m.handles.push v }

/-- Overwrites a handle. -/
def setHandle (place : Nat) (v : Value) : Effect Unit :=
  update fun m => { m with handles := m.handles.setIfInBounds place v }

/-- The value in a handle. -/
def getHandle (place : Nat) : Effect Value := ask fun m => m.handles.getD place .absent

/-- Runs an effect in a scope of its own: the handles it makes are gone afterwards, however it
ends. -/
def withHandles (a : Effect α) : Effect α := do
  let base ← ask (·.handles.size)
  let result ← outcome a
  update fun m => { m with handles := m.handles.shrink base }
  resume result

/-- Keeps all of the values alive until the innermost scope ends. -/
def pinAll : List Value → Effect Unit
  | [] => pure ()
  | v :: vs => do
    let _ ← pin v
    pinAll vs

end Effect

end ObjectMachine
