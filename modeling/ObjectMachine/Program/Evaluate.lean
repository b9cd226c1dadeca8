import ObjectMachine.Program.Operations

/-! Running programs.

Evaluation goes down the program; messages and stored programs go through `Calls`.  The loop is
closed by `Calls.toDepth`: one level of calls is one step down, and a machine that is out of depth
fails with a fault. -/

namespace ObjectMachine

open Effect

/-- What the value of a visitor's program asks for. -/
def Dictionary.Visit.ofValue (v : Value) : Dictionary.Visit :=
  match v.fixnum? with
  | some 1 => .stop
  | some 2 => .delete
  | some 3 => .check
  | _ => .proceed

/-- Runs an effect for the numbers from `start` on. -/
def forCount (body : Nat → Effect Unit) : Nat → Nat → Effect Unit
  | 0, _ => pure ()
  | remaining + 1, start => do
    body start
    forCount body remaining (start + 1)

namespace Program

mutual

/-- Runs a program. -/
def eval (calls : Calls) : Program → Effect Value
  | .constant v => pure v
  | .text s => newText s
  | .bignum n => newBignum n
  | .integer n => newInteger n
  | .float x => newFloat x
  | .symbol name => intern name
  | .register name => getRegister name
  | .global name => do return orAbsent (← getGlobal name)
  | .weak name => getWeak name
  | .self => Effect.self
  | .argument index => selfArgument index
  | .resource => currentResource
  | .sequence steps => evalSteps calls .nil steps
  | .branch condition yes no => do
    if (← eval calls condition).isTruthy then eval calls yes else eval calls no
  | .iterate count target body => do
    forCount (fun i => do
      Effect.setRegister target (.ofNat i)
      let _ ← eval calls body) count 0
    return .nil
  | .setRegister name body => do
    let v ← eval calls body
    Effect.setRegister name v
    return v
  | .setWeak name body => do
    let v ← eval calls body
    Effect.setWeak name v
    return v
  | .note content => do
    report (.note content)
    return .nil
  | .observe body => do
    let v ← eval calls body
    reportView v
    return v
  | .apply op operands => withHandles do
    let vs ← evalOperands calls operands
    op.perform calls vs
  | .defineMethod cls name arity body => withHandles do
    let c ← eval calls cls
    let _ ← pin c
    Effect.defineMethod c ⟨name, arity, .program body⟩
    return .nil
  | .forEach table keyRegister valueRegister body => withHandles do
    let t ← eval calls table
    let _ ← pin t
    let complete ← Dictionary.forEach calls.patience t fun key v => do
      Effect.setRegister keyRegister key
      Effect.setRegister valueRegister v
      return .ofValue (← eval calls body)
    return .ofBool complete
  | .frame kind name receiver body => withHandles do
    let r ← eval calls receiver
    let _ ← pin r
    callFrame calls.run kind name r (eval calls body)
  | .frameValues name items => do
    let vs ← callFrame calls.run .native name .nil (withHandles (evalOperands calls items))
    report (← ask fun m => .values (vs.map m.view))
    return .nil
  | .frameOption name body => do
    let o ← callFrame calls.run .native name .nil do
      let v ← eval calls body
      return if v.isAbsent then none else some v
    report (← ask fun m => .option (o.map m.view))
    return .nil
  | .framePair name body => do
    let (depth, v) ← callFrame calls.run .native name .nil do
      let v ← eval calls body
      return (← ask (·.frames.length), v)
    report (← ask fun m => .depthAndValue depth (m.view v))
    return .nil
  | .cleanup guarded body => withHandles do
    let r ← eval calls guarded
    let _ ← pin r
    addCleanup ⟨r, body, true⟩
    return .nil
  | .ensure body last => Effect.ensure calls.run (eval calls body) last
  | .rescue classes body target handler => withHandles do
    let cs ← evalOperands calls classes
    Effect.rescue cs (eval calls body) fun exc => do
      Effect.setRegister target exc
      eval calls handler
  | .execute name body => do
    let t ← Effect.execute calls.run name (eval calls body)
    report (← ask fun m => .termination (t.map m.view))
    match t with
    | .completed v => return v
    | _ => return .absent
  | .scope items body => withHandles do
    let vs ← evalOperands calls items
    let top ← ask (·.handles.size)
    report (.scope vs.length)
    let v ← eval calls body
    if vs.isEmpty then return v
    else
      setHandle (top - 1) v
      getHandle (top - 1)

/-- Runs operands from left to right and keeps each result alive from then on. -/
def evalOperands (calls : Calls) : List Program → Effect (List Value)
  | [] => pure []
  | p :: rest => do
    let v ← eval calls p
    let _ ← pin v
    let vs ← evalOperands calls rest
    return v :: vs

/-- Runs programs one after the other; the value is the last one's. -/
def evalSteps (calls : Calls) (last : Value) : List Program → Effect Value
  | [] => pure last
  | p :: rest => do
    let v ← eval calls p
    evalSteps calls v rest

end

end Program

/-- The calls of a machine that can nest `depth` of them. -/
def Calls.toDepth : Nat → Calls
  | 0 => .exhausted
  | depth + 1 =>
    { send := fun receiver name args => (Calls.toDepth depth).callMethod receiver name args
      run := fun p => p.eval (Calls.toDepth depth)
      patience := depth + 1 }

/-- How deep calls may nest: far deeper than memory allows. -/
def callDepth : Nat := 1000000000

/-- The calls of a fresh machine. -/
def Calls.top : Calls := Calls.toDepth callDepth

end ObjectMachine
