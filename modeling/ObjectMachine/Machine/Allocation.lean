import ObjectMachine.Machine.Basic

/-! Allocation.  An object under construction counts as a root: when the heap asks for a collection
first, its class and the values of its body survive it. -/

namespace ObjectMachine

/-- Collects with additional roots. -/
def Machine.collectWith (m : Machine) (pending : List Value) : Machine :=
  let (heap, stale) := m.heap.collect (m.roots ++ pending)
  { m with
    heap := heap
    events := (m.events ++ (stale.map Event.staleSkipped).toArray).push
      (.collected heap.counts.collections heap.counts.marked heap.counts.freed heap.live) }

namespace Effect

/-- Collects now. -/
def collectGarbage : Effect Unit := update (·.collectWith [])

/-- Stores an object without collecting. -/
def store (cls : Value) (body : Body) : Effect Value := fun m =>
  let v := m.heap.nextReference
  .ok v { m with heap := m.heap.insert cls body }

/-- Makes an object, collecting first when the heap asks for it. -/
def alloc (cls : Value) (body : Body) : Effect Value := do
  if ← ask (·.heap.shouldCollect) then update (·.collectWith (cls :: body.edges))
  store cls body

/-- The value of a built-in class. -/
def classValue (c : BuiltinClass) : Effect Value := ask (·.classValue c)

def newText (s : String) : Effect Value := do alloc (← classValue .string) (.text s)

def newFloat (x : Binary64) : Effect Value := do alloc (← classValue .float) (.float x)

/-- Boxes an integer even if it would fit a fixnum. -/
def newBignum (n : Int) : Effect Value := do alloc (← classValue .bignum) (.bignum n)

def newArray (items : List Value) : Effect Value := do
  alloc (← classValue .array) (.array items.toArray)

def newTable (strategy : Strategy) (size : Nat) : Effect Value := do
  alloc (← classValue .dict) (.table (Table.new strategy size))

/-- The value of an integer: a fixnum if it fits, else a bignum. -/
def newInteger (n : Int) : Effect Value :=
  match Value.ofInt? n with
  | some v => pure v
  | none => newBignum n

/-- An exception of a class with a message, not raised yet. -/
def newException (cls : Value) (message : String) : Effect Value := do
  let text ← newText message
  alloc cls (.exception { message := text })

end Effect

end ObjectMachine
