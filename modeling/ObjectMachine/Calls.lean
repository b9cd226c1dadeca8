import ObjectMachine.Frames
import ObjectMachine.Number.Arithmetic
import ObjectMachine.Number.Literal

/-! Calls into programs.

Methods run programs, programs send messages, and so do the keys of value tables.  `Calls` is what
the parts of the machine know of this loop: how to send a message and how to run a stored program.
Every definition takes its `Calls` from outside; the loop is closed once, by depth. -/

namespace ObjectMachine

/-- How messages are sent and stored programs are run one level further down. `patience` is what a
search may spend on a table that changes under it. -/
structure Calls where
  send : Value → String → List Value → Effect Value
  run : Program → Effect Value
  patience : Nat

namespace Calls

open Effect

/-- The calls of a machine at the end of its depth: nothing can be called any more. -/
def exhausted : Calls where
  send _ _ _ := fault .depthExceeded
  run _ := fault .depthExceeded
  patience := 0

/-- Keys that hash and compare by their own methods.  An exception raised by `==` is dropped and
counts as a difference. -/
def valueKeys (calls : Calls) : Keys where
  hash key := do
    match (← calls.send key "hash" []).fixnum? with
    | some n => return UInt64.ofInt n
    | none => raiseError .typeError "hash() must return Fixnum"
  equal key other := do
    match ← outcome (calls.send key "==" [other]) with
    | .ok v => return v.isTruthy
    | .error (.raise exc) => do
      discardException exc "key comparison"
      return false
    | .error (.fatal f) => fault f
  patience := calls.patience

/-- The meaning of strategies. -/
def keys (calls : Calls) : KeyMeaning
  | .symbol => Keys.symbol
  | .text => Keys.text
  | .value => calls.valueKeys
  | .residue modulus => Keys.residue modulus

/-- Renders a value through its `to_s` method. -/
def display (calls : Calls) (v : Value) : Effect String := do
  let text ← calls.send v "to_s" []
  match ← ask (·.heap.read? Facet.text text) with
  | some s => return s
  | none => raiseError .typeError "to_s must return String"

/-- The record of a key; a miss raises a key error with the key's text. -/
def fetch (calls : Calls) (table key : Value) : Effect Value := do
  match ← Dictionary.lookup calls.keys table key with
  | some v => return v
  | none => raiseError .keyError (← calls.display key)

end Calls

end ObjectMachine
