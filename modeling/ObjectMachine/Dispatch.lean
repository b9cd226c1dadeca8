import ObjectMachine.Primitive.Perform

/-! Sending messages: finding the method of the receiver's class, checking the number of arguments,
and running the method in a frame of its own. -/

namespace ObjectMachine.Calls

open Effect

/-- Runs a programmed method. -/
def activate (calls : Calls) (receiver : Value) (args : List Value) (body : Program) :
    Effect Value := do
  update fun m => { m with session :=
    { m.session with activations := ⟨receiver, args⟩ :: m.session.activations } }
  let result ← outcome (calls.run body)
  update fun m => { m with session :=
    { m.session with activations := m.session.activations.tail } }
  resume result

/-- Runs the code of a method. -/
def invoke (calls : Calls) (receiver : Value) (args : List Value) : Code → Effect Value
  | .primitive p => p.perform calls receiver args
  | .program body => calls.activate receiver args body

/-- Sends a message; receiver and arguments are kept alive for the time of the call. -/
def callMethod (calls : Calls) (receiver : Value) (name : String) (args : List Value) :
    Effect Value :=
  withHandles do
    pinAll (receiver :: args)
    let selector ← intern name
    let cls ← classOf receiver
    match ← findMethod cls selector with
    | none => noAttribute (← ask (·.className cls)) name
    | some method =>
      let native ← read Facet.native method
      if args.length ≠ native.arity then
        let arity := Digits.ofNat 10 native.arity
        let given := Digits.ofNat 10 args.length
        raiseError .argumentError s!"{name}() takes exactly {arity} argument(s) ({given} given)"
      else
        let className ← ask (·.className cls)
        callFrame calls.run .method s!"{className}#{name}" receiver
          (calls.invoke receiver args native.code)

end ObjectMachine.Calls
