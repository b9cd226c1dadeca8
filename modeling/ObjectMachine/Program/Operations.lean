import ObjectMachine.Dispatch
import ObjectMachine.Program.Registers
import ObjectMachine.Text.Quoted

/-! What the operations of programs do with their operands. -/

namespace ObjectMachine

namespace Effect

/-- The fault of an operation with the wrong number of operands. -/
def malformed : Effect α := fault (.other "malformed operation")

/-- An absent value as `absent`. -/
def orAbsent (o : Option Value) : Value := o.getD .absent

end Effect

open Effect

/-- Operations on objects and classes. -/
def ObjectOp.perform (calls : Calls) : ObjectOp → List Value → Effect Value
  | .same, [a, b] => return .ofBool (a == b)
  | .truthy, [v] => return .ofBool v.isTruthy
  | .call name, receiver :: args => calls.callMethod receiver name args
  | .primitive p, receiver :: args => p.perform calls receiver args
  | .display, [v] => do
    report (.text (← calls.display v))
    return v
  | .instantiate, [cls] => Effect.instantiate cls
  | .newClass name, [superclass] => Effect.newClass name superclass
  | .findMethod, [cls, selector] => do return orAbsent (← Effect.findMethod cls selector)
  | .isSubclass, [a, b] => do return .ofBool (← ofExcept (← ask (·.isSubclass a b)))
  | .isInstance, [v, cls] => do return .ofBool (← ofExcept (← ask (·.isInstance v cls)))
  | .classOf, [v] => Effect.classOf v
  | .typeName, [v] => do
    report (.text (← ask (·.typeName v)))
    return .nil
  | .className, [cls] => do
    report (.text (← ask (·.className cls)))
    return .nil
  | .getAttribute name, [o] => Effect.getAttribute o name
  | .setAttribute name, [o, v] => do
    Effect.setAttribute o name v
    return .nil
  | .setGlobal name, [v] => do
    Effect.setGlobal name v
    return .nil
  | .symbolCount, [] => do
    report (.count (← ask (·.symbols.names.size)))
    return .nil
  | .symbolId, [v] => return orAbsent (v.symbol?.map .ofNat)
  | .array, items => newArray items
  | _, _ => malformed

/-- Breaks a table: the last linked entry gets a link to an entry that is no more. -/
def Table.dangle (t : Table) : Table :=
  match t.entryIds.getLast? with
  | none => t
  | some last =>
    let id := t.nextId
    match (t.prepend 0 .nil .nil).unlink id with
    | .ok (_, t) => t.adjust last fun e => { e with next := some id }
    | .error _ => t

namespace Effect

/-- Enough steps to bring an iterator to its end: the rest of its chain, the chains of the later bins
(which may hold the first one again when the table grew in between), and the end itself. -/
def drainFuel (iter : Value) : Effect Nat :=
  ask fun m => ((m.heap.read? Facet.iterator iter).bind fun i =>
    (m.heap.read? Facet.table i.table).map fun t => 2 * t.slots.size + 1).getD 1

/-- Reports every mapping up to the end of an iterator; counts them. -/
def drain (iter : Value) : Nat → Nat → Effect Nat
  | 0, n => pure n
  | fuel + 1, n => do
    if ← Dictionary.next iter then
      let key ← Dictionary.currentKey iter
      let v ← Dictionary.currentValue iter
      report (.mapping (← ask (·.view key)) (← ask (·.view v)))
      drain iter fuel (n + 1)
    else return n

end Effect

/-- Operations on tables and iterators. -/
def TableOp.perform (calls : Calls) : TableOp → List Value → Effect Value
  | .new strategy bins, [] => newTable strategy bins
  | .insert, [t, k, v] => do return .ofBool (← Dictionary.insert calls.keys t k v)
  | .add, [t, k, v] => do
    Dictionary.add calls.keys t k v
    return .nil
  | .lookup, [t, k] => do return orAbsent (← Dictionary.lookup calls.keys t k)
  | .delete, [t, k] => do return orAbsent (← Dictionary.delete calls.keys t k)
  | .deleteSafe, [t, k] => do return orAbsent (← Dictionary.deleteSafe calls.keys t k)
  | .fetch, [t, k] => calls.fetch t k
  | .lookupText text, [t] => do return orAbsent (← Dictionary.lookupText t text)
  | .cleanup, [t] => do return .ofNat (← Dictionary.cleanupSafe t)
  | .size, [t] => do return .ofNat (← Dictionary.size t)
  | .copy, [t] => Dictionary.copy t
  | .dump, [t] => do
    report (.text (← Dictionary.dump t))
    return .nil
  | .info, [t] => do
    let table ← read Facet.table t
    report (.table table.debug table.stamp table.needsGrow)
    return .nil
  | .dangle, [t] => do
    write Facet.table t (·.dangle)
    return .nil
  | .iterator, [t] => Dictionary.iterator t
  | .next, [i] => do return .ofBool (← Dictionary.next i)
  | .currentKey, [i] => Dictionary.currentKey i
  | .currentValue, [i] => Dictionary.currentValue i
  | .drain, [i] => do return .ofNat (← Effect.drain i (← drainFuel i) 0)
  | .restamp, [i] => do
    let stamp := (← read Facet.table (← read Facet.iterator i).table).stamp
    write Facet.iterator i fun body => { body with stamp := stamp }
    return .nil
  | _, _ => malformed

/-- Diagnostic text of a frame. -/
def Frame.debug (f : Frame) : String :=
  "Frame \x7b kind: " ++ f.kind.name ++ ", name: " ++ Text.quoted f.name ++ ", receiver: "
    ++ f.receiver.debug ++ ", cleanups: " ++ Digits.ofNat 10 f.cleanups.length ++ " \x7d"

/-- Operations on exceptions and frames. -/
def FrameOp.perform : FrameOp → List Value → Effect Value
  | .raise kind message, [] => raiseError kind message
  | .throw, [v] => raiseValue v
  | .fatal message, [] => fault (.other message)
  | .exception message, [cls] => newException cls message
  | .matches, exc :: classes => do
    return .ofBool (← ofExcept (← ask (·.exceptionMatches exc classes)))
  | .discard context, [exc] => do
    discardException exc context
    return .nil
  | .inspect, [exc] => do
    report (← ask fun m => .exception (m.exceptionMessage exc) (m.stackTrace exc)
      ((m.exceptionContext? exc).map m.view))
    return .nil
  | .state, [] => do
    report (← ask fun m => .state m.unwindState m.frameNames
      (m.targets.reverse.map fun t => (t.classes.length, t.frameDepth)))
    return .nil
  | .frameInfo, [] => do
    report (.frame ((← ask (·.frames.head?)).map Frame.debug))
    return .nil
  | .depth, [] => do
    report (← ask fun m => .depths m.frames.length m.handles.size)
    return .nil
  | _, _ => malformed

/-- Adds an amount to a fixnum and leaves other values alone. -/
def addToFixnum (amount : Int) (v : Value) : Value :=
  match v.fixnum? with
  | some n => .ofInt (n + amount)
  | none => v

namespace Effect

/-- Reports what the last collection did. -/
def reportCollection : Effect Unit := do
  report (← ask fun m => .collection m.heap.counts.collections m.heap.counts.marked
    m.heap.counts.freed m.heap.live)

/-- The object of a value that has to be a live reference. -/
def getObject (v : Value) : Effect Object := do ofExcept (← ask (·.heap.get v))

/-- Diagnostic text of a value; a method shows its body. -/
def debugText (m : Machine) (v : Value) : String :=
  match m.heap.read? Facet.native v with
  | some method => method.debug (Text.quoted method.name)
  | none => v.debug

end Effect

/-- Operations on the heap. -/
def HeapOp.perform : HeapOp → List Value → Effect Value
  | .collect, [] => do
    collectGarbage
    reportCollection
    return .nil
  | .statistics, [] => do
    reportCollection
    return .nil
  | .enable on, [] => do
    update fun m => { m with heap := { m.heap with enabled := on } }
    return .nil
  | .shouldCollect, [] => do return .ofBool (← ask (·.heap.shouldCollect))
  | .isLive, [v] => do return .ofBool (← ask (·.heap.isLive v))
  | .kind, [v] => do
    report (.text (← getObject v).kind.name)
    return .nil
  | .debug, [v] => do
    report (.text (← ask (debugText · v)))
    return .nil
  | .serial, [v] => do return .ofNat (← getObject v).serial
  | .flags change flag, [v] => do
    let _ ← getObject v
    update fun m => { m with heap := m.heap.modifyObject v fun o =>
      { o with flags := o.flags.change change flag } }
    let o ← getObject v
    report (.flags o.flags.byte (o.flags.has flag))
    return .nil
  | .edges, [v] => do
    report (.texts ((← getObject v).edges.map Value.debug))
    return .nil
  | .addToEdges amount, [v] => do
    let _ ← getObject v
    update fun m => { m with heap := m.heap.modifyObject v (Object.mapEdges (addToFixnum amount)) }
    return v
  | .roots, [] => do
    let roots ← ask (·.roots)
    report (.roots roots.length (roots.filter (·.isRef)).length)
    return .nil
  | _, _ => malformed

/-- Performs an operation on its operands. -/
def Operation.perform (calls : Calls) : Operation → List Value → Effect Value
  | .object op => op.perform calls
  | .table op => op.perform calls
  | .frame op => op.perform
  | .heap op => op.perform

end ObjectMachine
