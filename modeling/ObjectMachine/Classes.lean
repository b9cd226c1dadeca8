import ObjectMachine.Symbols

/-! Classes, methods and attributes. -/

namespace ObjectMachine

namespace Machine

/-- Whether `ancestor` is met on the way from `cursor` up to the root. -/
def subclassFrom (m : Machine) (ancestor : Value) : Nat → Value → Except Fault Bool
  | 0, _ => .error .depthExceeded
  | fuel + 1, cursor =>
    if cursor.isNil then .ok false
    else if cursor == ancestor then .ok true
    else match m.heap.read Facet.cls cursor with
      | .error f => .error f
      | .ok c => subclassFrom m ancestor fuel c.superclass

/-- Whether a class is `ancestor` or below it. -/
def isSubclass (m : Machine) (cls ancestor : Value) : Except Fault Bool :=
  m.subclassFrom ancestor (m.heap.slots.size + 2) cls

/-- Whether the class of a value is `cls` or below it. -/
def isInstance (m : Machine) (v cls : Value) : Except Fault Bool :=
  match m.classOf v with
  | .error f => .error f
  | .ok own => m.isSubclass own cls

/-- Whether an exception is an instance of one of the classes. -/
def matchesAny (m : Machine) (exc : Value) : List Value → Except Fault Bool
  | [] => .ok false
  | cls :: rest =>
    match m.isInstance exc cls with
    | .error f => .error f
    | .ok true => .ok true
    | .ok false => m.matchesAny exc rest

/-- Whether a rescue for these classes accepts an exception; no classes stand for all. -/
def exceptionMatches (m : Machine) (exc : Value) (classes : List Value) : Except Fault Bool :=
  if classes.isEmpty then .ok true else m.matchesAny exc classes

/-- The attribute table of a plain object or an exception, `absent` while it has none. -/
def attributes? (m : Machine) (v : Value) : Option Value :=
  (m.heap.get? v).bind fun o =>
    match o.body with
    | .plain attributes => some attributes
    | .exception e => some e.attributes
    | _ => none

end Machine

namespace Effect

def classOf (v : Value) : Effect Value := do ofExcept (← ask (·.classOf v))

/-- A class below `superclass`; its instances have the same kind of body. -/
def newClass (name : String) (superclass : Value) : Effect Value :=
  withHandles do
    let _ ← pin superclass
    let instanceKind := (← read Facet.cls superclass).instanceKind
    let name ← intern name
    let methods ← newTable .symbol 0
    alloc (← classValue .cls) (.cls
      { name := name, superclass := superclass, methods := methods, instanceKind := instanceKind })

/-- Gives a class a method of its own. -/
def defineMethod (cls : Value) (method : NativeMethod) : Effect Unit :=
  withHandles do
    let _ ← pin cls
    let selector ← intern method.name
    let methods := (← read Facet.cls cls).methods
    let object ← alloc (← classValue .nativeFunction) (.native method)
    let _ ← Dictionary.insert (fun _ => Keys.symbol) methods selector object

/-- Gives a class a list of built-in methods. -/
def definePrimitives (cls : Value) : List PrimitiveMethod → Effect Unit
  | [] => pure ()
  | p :: rest => do
    defineMethod cls ⟨p.name, p.arity, .primitive p.primitive⟩
    definePrimitives cls rest

/-- Looks a selector up from a class on upwards. -/
def findMethodFrom (selector : Value) : Nat → Value → Effect (Option Value)
  | 0, _ => fault .depthExceeded
  | fuel + 1, cursor =>
    if cursor.isNil then pure none
    else do
      let c ← read Facet.cls cursor
      match ← Dictionary.lookup (fun _ => Keys.symbol) c.methods selector with
      | some method => return some method
      | none => findMethodFrom selector fuel c.superclass

/-- The method of a selector in a class or the nearest class above that has one. -/
def findMethod (cls selector : Value) : Effect (Option Value) := do
  let fuel ← ask (·.heap.slots.size + 2)
  findMethodFrom selector fuel cls

/-- The body of a new instance, by the kind of its class. -/
def instanceBody? : Option ObjectKind → Option Body
  | some .plain => some (.plain .absent)
  | some .exception => some (.exception {})
  | some .text => some (.text "")
  | some .array => some (.array #[])
  | some .table => some (.table (Table.new .value 0))
  | _ => none

/-- A new instance of a class. -/
def instantiate (cls : Value) : Effect Value := do
  match instanceBody? (← read Facet.cls cls).instanceKind with
  | some body => alloc cls body
  | none =>
    let name ← ask (·.className cls)
    raiseError .typeError s!"cannot create '{name}' instances"

/-- Puts an attribute table in place. -/
def setAttributes (object attributes : Value) : Effect Unit := do
  match ← ask (·.attributes? object) with
  | none => fault (.staleReference object)
  | some _ =>
    update fun m => { m with heap := m.heap.modifyObject object fun o =>
      { o with body := match o.body with
          | .plain _ => .plain attributes
          | .exception e => .exception { e with attributes := attributes }
          | body => body } }

/-- Sets an attribute; the attribute table is made on the first write. -/
def setAttribute (object : Value) (name : String) (v : Value) : Effect Unit :=
  withHandles do
    pinAll [object, v]
    let key ← intern name
    match ← ask (·.attributes? object) with
    | none =>
      let found ← ask (·.typeName object)
      raiseError .typeError s!"cannot set attribute '{name}' on '{found}' object"
    | some attributes =>
      let table ← if attributes.isAbsent then do
          let fresh ← newTable .symbol 0
          setAttributes object fresh
          pure fresh
        else pure attributes
      let _ ← Dictionary.insert (fun _ => Keys.symbol) table key v

/-- The error of an attribute that is not there. -/
def noAttribute (typeName name : String) : Effect α :=
  raiseError .attributeError s!"'{typeName}' object has no attribute '{name}'"

/-- The value of an attribute. -/
def getAttribute (object : Value) (name : String) : Effect Value := do
  let key ← withHandles do
    let _ ← pin object
    intern name
  let attributes := (← ask (·.attributes? object)).getD .absent
  let found ← if attributes.isAbsent then pure none
    else Dictionary.lookup (fun _ => Keys.symbol) attributes key
  match found with
  | some v => return v
  | none => noAttribute (← ask (·.typeName object)) name

end Effect

end ObjectMachine
