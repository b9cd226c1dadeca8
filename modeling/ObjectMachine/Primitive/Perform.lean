import ObjectMachine.Primitive.Numeric

/-! What the built-in methods do. -/

namespace ObjectMachine

namespace Effect

def objectHash (receiver : Value) : Effect Value := do
  if receiver.isRef then
    let o ← ofExcept (← ask (·.heap.get receiver))
    return .ofInt (Number.foldWord (UInt64.ofNat o.serial))
  else return .ofInt (Number.foldWord (receiver.word / 4))

def objectText (receiver : Value) : Effect Value := do
  let name ← ask (·.typeName receiver)
  if receiver.isRef then
    let o ← ofExcept (← ask (·.heap.get receiver))
    newText ("#<" ++ name ++ ":0x" ++ Digits.ofNat 16 o.serial ++ ">")
  else newText ("#<" ++ name ++ ">")

def objectKindOf (receiver : Value) (args : List Value) : Effect Value := do
  let cls ← argument args 0
  match ← ask (·.heap.read? Facet.cls cls) with
  | none =>
    let found ← ask (·.typeName cls)
    raiseError .typeError s!"kind_of?() argument must be a Class, not {found}"
  | some _ => return .ofBool (← ofExcept (← ask (·.isInstance receiver cls)))

def stringEqual (receiver : Value) (args : List Value) : Effect Value := do
  let other ← argument args 0
  let text ← read Facet.text receiver
  return .ofBool ((← ask (·.heap.read? Facet.text other)) == some text)

def stringConcat (receiver : Value) (args : List Value) : Effect Value := do
  let other ← argument args 0
  match ← ask (·.heap.read? Facet.text other) with
  | none => unsupportedOperands "+" receiver other
  | some rhs => newText ((← read Facet.text receiver) ++ rhs)

/-- The item at an index; negative ones count from the end. -/
def arrayAt (receiver : Value) (args : List Value) : Effect Value := do
  let index ← argument args 0
  match index.fixnum? with
  | none =>
    let found ← ask (·.typeName index)
    raiseError .typeError s!"array indices must be Fixnum, not {found}"
  | some i =>
    let items ← read Facet.array receiver
    let place := if i < 0 then i + items.size else i
    match if place < 0 then none else items[place.toNat]? with
    | some item => return item
    | none => raiseError .indexError "array index out of range"

def exceptionText (receiver : Value) : Effect Value := do
  let message := (← read Facet.exception receiver).message
  match ← ask (·.heap.read? Facet.text message) with
  | some _ => return message
  | none => newText ""

end Effect

open Effect in
/-- Runs a built-in method. -/
def Primitive.perform (calls : Calls) (p : Primitive) (receiver : Value) (args : List Value) :
    Effect Value :=
  match p with
  | .compare c => compareNumbers c receiver args
  | .numberHash => Effect.numberHash receiver
  | .fixnumBinary op => Effect.fixnumBinary op receiver args
  | .fixnumNegate => do newInteger (-Fixnum.wide (← expectFixnum receiver)).toInt
  | .fixnumIdentity => do
    let _ ← expectFixnum receiver
    return receiver
  | .fixnumInvert => do return .ofInt (~~~Fixnum.word (← expectFixnum receiver)).toInt
  | .fixnumText => do newText (Digits.ofInt (← expectFixnum receiver))
  | .bignumBinary op => Effect.bignumBinary op receiver args
  | .bignumNegate => do newInteger (-(← read Facet.bignum receiver))
  | .bignumIdentity => do
    let _ ← read Facet.bignum receiver
    return receiver
  | .bignumInvert => do newInteger (-(← read Facet.bignum receiver) - 1)
  | .bignumText => do newText (Digits.ofInt (← read Facet.bignum receiver))
  | .floatBinary op => Effect.floatBinary op receiver args
  | .floatNegate => do newFloat (← read Facet.float receiver).negate
  | .floatIdentity => do
    let _ ← read Facet.float receiver
    return receiver
  | .floatText => do newText (← read Facet.float receiver).text
  | .objectEqual => do return .ofBool (receiver == (← argument args 0))
  | .objectNotEqual => do
    let other ← argument args 0
    return .ofBool (!(← calls.send receiver "==" [other]).isTruthy)
  | .objectHash => Effect.objectHash receiver
  | .objectText => Effect.objectText receiver
  | .objectClass => classOf receiver
  | .objectKindOf => Effect.objectKindOf receiver args
  | .classNew => instantiate receiver
  | .className => do newText (← ask (·.className receiver))
  | .nilText => newText "nil"
  | .boolText => newText (if receiver.isTruthy then "true" else "false")
  | .symbolText => do newText ((← ask (·.symbolName? receiver)).getD "")
  | .stringEqual => Effect.stringEqual receiver args
  | .stringHash => do
    return .ofInt (Number.foldWord (textHash (← read Facet.text receiver)))
  | .stringText => do
    let _ ← read Facet.text receiver
    return receiver
  | .stringConcat => Effect.stringConcat receiver args
  | .stringSize => do return .ofNat (← read Facet.text receiver).length
  | .stringToNumber => do parseNumber (← read Facet.text receiver)
  | .arraySize => do return .ofNat (← read Facet.array receiver).size
  | .arrayAt => Effect.arrayAt receiver args
  | .arrayPush => do
    let item ← argument args 0
    write Facet.array receiver (·.push item)
    return receiver
  | .dictFetch => do calls.fetch receiver (← argument args 0)
  | .dictStore => do
    let v ← argument args 1
    let _ ← Dictionary.insert calls.keys receiver (← argument args 0) v
    return v
  | .dictGet => do
    return (← Dictionary.lookup calls.keys receiver (← argument args 0)).getD .nil
  | .dictInclude => do
    return .ofBool (← Dictionary.lookup calls.keys receiver (← argument args 0)).isSome
  | .dictDelete => do
    return (← Dictionary.delete calls.keys receiver (← argument args 0)).getD .nil
  | .dictSize => do return .ofNat (← Dictionary.size receiver)
  | .exceptionText => Effect.exceptionText receiver
  | .exceptionMessage => do return (← read Facet.exception receiver).message

end ObjectMachine
