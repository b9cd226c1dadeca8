import ObjectMachine.Machine.Raising
import ObjectMachine.Number.Integer

/-! Pictures of values.  Taking one allocates nothing and stops six levels down. -/

namespace ObjectMachine.Machine

/-- How deep a picture goes. -/
def viewDepth : Nat := 6

/-- The greatest number of bits with which an integer is shown in full. -/
def viewBits : Nat := 20000

/-- The name of an object's class, where it differs from the name of the object's kind. -/
def classLabel (m : Machine) (o : Object) : Option String :=
  let name := m.className o.cls
  if name == o.kind.name then none else some name

/-- The pairs of an attribute table; none while there is no table. -/
def attributePairs? (m : Machine) (attributes : Value) : Option (List (Value × Value)) :=
  (m.heap.read? Facet.table attributes).map (·.entries)

/-- The picture of an object that holds no other values. -/
def leafView? (o : Object) (label : Option String) : Option View :=
  match o.body with
  | .bignum n =>
    let bits := Integer.bits n
    some (if viewBits < bits then .hugeBig bits (Number.bigHash n) label else .big n label)
  | .float x => some (.float x label)
  | _ => none

/-- The picture of an object, given how its contents are pictured. -/
def objectView (m : Machine) (inner : Value → View) (o : Object) (label : Option String) : View :=
  let pairs (ps : List (Value × Value)) := ps.map fun p => (inner p.1, inner p.2)
  match o.body with
  | .plain attributes => .plain ((m.attributePairs? attributes).map pairs) label
  | .cls c => .cls ((m.symbolName? c.name).getD "?") label
  | .text s => .text s label
  | .array items => .array (items.toList.map inner) label
  | .table t => .dict (pairs t.entries) t.strategy.name t.bins.size t.count label
  | .iterator _ => .iterator label
  | .bignum n => .big n label
  | .float x => .float x label
  | .exception e =>
    .exception (inner e.message)
      (((m.heap.read? Facet.array e.stackTrace).map
        fun lines => lines.toList.filterMap (m.heap.read? Facet.text)).getD [])
      (inner e.context) ((m.attributePairs? e.attributes).map pairs) label
  | .native n => .native n.name n.arity label

/-- The picture of a value that is no reference. -/
def immediateView (m : Machine) (v : Value) : View :=
  match v.fixnum? with
  | some n => .fixnum n
  | none =>
    match v.bool? with
    | some b => .bool b
    | none =>
      if v.isNil then .nil
      else match v.symbol? with
        | some _ => .symbol ((m.symbolName? v).getD "")
        | none => .absent

/-- The picture of a value with `levels` levels left. -/
def viewTo (m : Machine) : Nat → Value → View
  | levels, v =>
    if v.isRef then
      match m.heap.get? v with
      | none => .stale
      | some o =>
        let label := m.classLabel o
        match leafView? o label with
        | some view => view
        | none =>
          match levels with
          | 0 => .deep o.kind
          | below + 1 => m.objectView (viewTo m below) o label
    else m.immediateView v

/-- The picture of a value. -/
def view (m : Machine) (v : Value) : View := m.viewTo viewDepth v

end ObjectMachine.Machine
