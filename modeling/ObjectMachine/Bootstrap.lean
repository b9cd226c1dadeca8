import ObjectMachine.Dispatch

/-! Bootstrap: a machine with its class graph, symbols, globals and built-in methods.

Nothing is rooted until the classes are in place, so the heap does not collect meanwhile. -/

namespace ObjectMachine

namespace Bootstrap

open Effect

/-- Stores the classes, each below its superclass and none with a class of its own yet. -/
def storeClasses : List BuiltinClass → Effect Unit
  | [] => pure ()
  | c :: rest => do
    let superclass ← match c.superclass with
      | some s => classValue s
      | none => pure .nil
    let v ← store .nil (.cls { superclass := superclass, instanceKind := c.instanceKind })
    update fun m => { m with classes := m.classes.push v }
    storeClasses rest

/-- Makes every class an instance of the class of classes. -/
def setClasses : List BuiltinClass → Effect Unit
  | [] => pure ()
  | c :: rest => do
    let v ← classValue c
    let cls ← classValue .cls
    update fun m => { m with heap := m.heap.modifyObject v fun o => { o with cls := cls } }
    setClasses rest

/-- Gives every class its method table and its name. -/
def nameClasses : List BuiltinClass → Effect Unit
  | [] => pure ()
  | c :: rest => do
    let methods ← newTable .symbol 0
    let name ← intern c.name
    write Facet.cls (← classValue c) fun body => { body with methods := methods, name := name }
    nameClasses rest

/-- Binds every class to its global name. -/
def bindClasses : List BuiltinClass → Effect Unit
  | [] => pure ()
  | c :: rest => do
    setGlobal c.name (← classValue c)
    bindClasses rest

/-- Which list of built-in methods each class gets, in the order of installation. -/
def installation : List (BuiltinClass × PrimitiveList) :=
  [(.object, .object), (.cls, .cls), (.nil, .nil), (.bool, .bool), (.symbol, .symbol),
    (.string, .string), (.array, .array), (.dict, .dict), (.error .exception, .exception),
    (.fixnum, .comparison), (.bignum, .comparison), (.float, .comparison), (.fixnum, .fixnum),
    (.bignum, .bignum), (.float, .float)]

/-- Installs the built-in methods. -/
def install : List (BuiltinClass × PrimitiveList) → Effect Unit
  | [] => pure ()
  | (c, l) :: rest => do
    definePrimitives (← classValue c) l.methods
    install rest

/-- The whole bootstrap. -/
def boot : Effect Unit := do
  update fun m => { m with heap := { m.heap with enabled := false } }
  storeClasses BuiltinClass.all
  setClasses BuiltinClass.all
  let symbols ← store (← classValue .dict) (.table (Table.new .text 0))
  update fun m => { m with symbols := { m.symbols with table := symbols } }
  nameClasses BuiltinClass.all
  let globals ← newTable .symbol 0
  update fun m => { m with globals := globals }
  bindClasses BuiltinClass.all
  install installation
  update fun m => { m with heap := { m.heap with allocated := 0, enabled := true } }
  record (.bootstrapped BuiltinClass.all.length (← ask (·.heap.live)))

end Bootstrap

/-- A machine that is ready to run. -/
def Machine.new (settings : HeapSettings) : Machine :=
  Bootstrap.boot.after { heap := { settings := settings } }

end ObjectMachine
