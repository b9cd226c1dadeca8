import ObjectMachine.Program.Basic

/-! Objects: a header and a body.

The edges of an object are its class and the values its body holds, in a fixed order; the collector
follows exactly these. -/

namespace ObjectMachine

/-- What a method runs. -/
inductive Code where
  | primitive (p : Primitive)
  | program (p : Program)

/-- A method as a class's method table holds it. -/
structure NativeMethod where
  name : String
  arity : Nat
  code : Code

/-- Diagnostic text of a method. -/
def NativeMethod.debug (m : NativeMethod) (quoted : String) : String :=
  "NativeMethod \x7b name: " ++ quoted ++ ", arity: " ++ Digits.ofNat 10 m.arity ++ " \x7d"

/-- The body of a class. `instanceKind` is the kind of body its instances get, if it has any. -/
structure ClassBody where
  name : Value := .absent
  superclass : Value := .nil
  methods : Value := .absent
  instanceKind : Option ObjectKind := some .plain

/-- The body of an exception.  The trace is `nil` until the exception is first raised. -/
structure ExceptionBody where
  message : Value := .nil
  stackTrace : Value := .nil
  context : Value := .nil
  attributes : Value := .absent

/-- The body of an external iterator over a table. -/
structure IteratorBody where
  table : Value
  position : Table.Position
  stamp : UInt64

/-- The bodies of objects, one constructor a kind. -/
inductive Body where
  | plain (attributes : Value)
  | cls (c : ClassBody)
  | text (s : String)
  | array (items : Array Value)
  | table (t : Table)
  | iterator (i : IteratorBody)
  | bignum (n : Int)
  | float (x : Binary64)
  | exception (e : ExceptionBody)
  | native (m : NativeMethod)

namespace Body

/-- The kind of a body. -/
def kind : Body → ObjectKind
  | .plain _ => .plain
  | .cls _ => .cls
  | .text _ => .text
  | .array _ => .array
  | .table _ => .table
  | .iterator _ => .iterator
  | .bignum _ => .bignum
  | .float _ => .float
  | .exception _ => .exception
  | .native _ => .native

/-- The values a body holds, in tracing order. -/
def edges : Body → List Value
  | .plain attributes => [attributes]
  | .cls c => [c.name, c.superclass, c.methods]
  | .array items => items.toList
  | .table t => t.slab.flatMap fun e => [e.key, e.record]
  | .iterator i => [i.table]
  | .exception e => [e.message, e.stackTrace, e.context, e.attributes]
  | .text _ | .bignum _ | .float _ | .native _ => []

/-- Goes over the values a body holds, in tracing order. -/
@[specialize] def foldEdges (f : β → Value → β) (init : β) : Body → β
  | .plain attributes => f init attributes
  | .cls c => f (f (f init c.name) c.superclass) c.methods
  | .array items => items.foldl f init
  | .table t => t.slots.foldl (fun b slot =>
      match slot.entry with
      | some e => f (f b e.key) e.record
      | none => b) init
  | .iterator i => f init i.table
  | .exception e => f (f (f (f init e.message) e.stackTrace) e.context) e.attributes
  | .text _ | .bignum _ | .float _ | .native _ => init

/-- Going over the values is going over the list of them. -/
theorem foldEdges_eq_foldl (f : β → Value → β) (init : β) (b : Body) :
    b.foldEdges f init = b.edges.foldl f init := by
  cases b with
  | array items => simp [foldEdges, edges]
  | table t =>
    simp only [foldEdges, edges, Table.slab, ← Array.foldl_toList]
    induction t.slots.toList generalizing init with
    | nil => rfl
    | cons slot rest ih => cases h : slot.entry <;> simp [h, ih]
  | _ => rfl

/-- How many values a body holds. -/
def edgeCount : Body → Nat
  | .plain _ => 1
  | .cls _ => 3
  | .array items => items.size
  | .table t => 2 * t.slots.size
  | .iterator _ => 1
  | .exception _ => 4
  | .text _ | .bignum _ | .float _ | .native _ => 0

/-- Replaces every value a body holds. -/
def mapEdges (f : Value → Value) : Body → Body
  | .plain attributes => .plain (f attributes)
  | .cls c => .cls { c with name := f c.name, superclass := f c.superclass, methods := f c.methods }
  | .array items => .array (items.map f)
  | .table t => .table { t with slots := t.slots.map fun slot =>
      { slot with entry := slot.entry.map fun e => { e with key := f e.key, record := f e.record } } }
  | .iterator i => .iterator { i with table := f i.table }
  | .exception e => .exception
      { message := f e.message, stackTrace := f e.stackTrace, context := f e.context,
        attributes := f e.attributes }
  | .text s => .text s
  | .bignum n => .bignum n
  | .float x => .float x
  | .native m => .native m

end Body

/-- One kind of body seen as the data it holds. -/
structure Facet (α : Type) where
  kind : ObjectKind
  get? : Body → Option α
  put : α → Body

namespace Facet

def plain : Facet Value := ⟨.plain, fun | .plain v => some v | _ => none, .plain⟩

def cls : Facet ClassBody := ⟨.cls, fun | .cls c => some c | _ => none, .cls⟩

def text : Facet String := ⟨.text, fun | .text s => some s | _ => none, .text⟩

def array : Facet (Array Value) := ⟨.array, fun | .array a => some a | _ => none, .array⟩

def table : Facet Table := ⟨.table, fun | .table t => some t | _ => none, .table⟩

def iterator : Facet IteratorBody :=
  ⟨.iterator, fun | .iterator i => some i | _ => none, .iterator⟩

def bignum : Facet Int := ⟨.bignum, fun | .bignum n => some n | _ => none, .bignum⟩

def float : Facet Binary64 := ⟨.float, fun | .float x => some x | _ => none, .float⟩

def exception : Facet ExceptionBody :=
  ⟨.exception, fun | .exception e => some e | _ => none, .exception⟩

def native : Facet NativeMethod := ⟨.native, fun | .native m => some m | _ => none, .native⟩

end Facet

/-- The two flags of a header. -/
structure Flags where
  marked : Bool := false
  frozen : Bool := false
  deriving DecidableEq

namespace Flags

/-- The flags as a byte, `marked` lowest. -/
def byte (f : Flags) : Nat := f.marked.toNat + 2 * f.frozen.toNat

def has (f : Flags) : Flag → Bool
  | .marked => f.marked
  | .frozen => f.frozen

def change (f : Flags) : FlagChange → Flag → Flags
  | .add, .marked => { f with marked := true }
  | .add, .frozen => { f with frozen := true }
  | .remove, .marked => { f with marked := false }
  | .remove, .frozen => { f with frozen := false }
  | .keep, _ => f

end Flags

/-- An object: its class, its flags, its serial number and its body. -/
structure Object where
  cls : Value
  flags : Flags := {}
  serial : Nat
  body : Body

namespace Object

def kind (o : Object) : ObjectKind := o.body.kind

/-- The values an object holds: its class, then those of its body. -/
def edges (o : Object) : List Value := o.cls :: o.body.edges

/-- Goes over the values an object holds, in tracing order. -/
@[specialize] def foldEdges (f : β → Value → β) (init : β) (o : Object) : β :=
  o.body.foldEdges f (f init o.cls)

/-- Replaces every value an object holds. -/
def mapEdges (f : Value → Value) (o : Object) : Object :=
  { o with cls := f o.cls, body := o.body.mapEdges f }

end Object

end ObjectMachine
