import ObjectMachine.Object

/-! The heap: an arena of slots.

A reference names a slot and the generation it had when the object was stored.  When an object is
freed its slot moves on to the next generation, so a reference that outlives its object is noticed
and never stands for a later tenant of the slot. -/

namespace ObjectMachine

/-- When the heap collects: after `threshold` allocations, or before every one. -/
structure HeapSettings where
  threshold : Nat := 4096
  stress : Bool := false
  deriving DecidableEq

/-- What is wrong with the settings, if anything. -/
def HeapSettings.problem? (s : HeapSettings) : Option String :=
  if s.threshold = 0 then some "gc_threshold must be > 0" else none

/-- A slot: its generation, and the object it holds. -/
structure Slot where
  generation : Nat
  object : Option Object
  deriving Inhabited

/-- What the last collection did, and how many there were. -/
structure CollectionCounts where
  collections : Nat := 0
  marked : Nat := 0
  freed : Nat := 0
  deriving DecidableEq

/-- The heap. `free` lists the slots to be used again, the one freed last in front. -/
structure Heap where
  settings : HeapSettings
  slots : Array Slot := #[]
  free : List Nat := []
  live : Nat := 0
  allocated : Nat := 0
  enabled : Bool := true
  nextSerial : Nat := 0
  counts : CollectionCounts := {}

namespace Heap

/-- Whether the next allocation has to collect first. -/
def shouldCollect (h : Heap) : Bool :=
  h.enabled && (h.settings.stress || h.settings.threshold ≤ h.allocated)

/-- The object of a slot at a generation. -/
def objectAt? (slots : Array Slot) (v : Value) : Option Object :=
  if v.isRef then
    match slots[v.slotIndex]? with
    | some slot => if slot.generation = v.slotGeneration then slot.object else none
    | none => none
  else none

/-- The object of a live reference. -/
def get? (h : Heap) (v : Value) : Option Object := objectAt? h.slots v

/-- The object of a value that has to be a live reference. -/
def get (h : Heap) (v : Value) : Except Fault Object :=
  if v.isRef then
    match h.get? v with
    | some o => .ok o
    | none => .error (.staleReference v)
  else .error (.notAReference v)

def isLive (h : Heap) (v : Value) : Bool := (h.get? v).isSome

/-- The data of an object that has to be of the facet's kind. -/
def read (h : Heap) (facet : Facet α) (v : Value) : Except Fault α :=
  match h.get v with
  | .error f => .error f
  | .ok o =>
    match facet.get? o.body with
    | some a => .ok a
    | none => .error (.kindMismatch facet.kind o.kind)

/-- The data of an object, if it is live and of the facet's kind. -/
def read? (h : Heap) (facet : Facet α) (v : Value) : Option α :=
  (h.get? v).bind fun o => facet.get? o.body

/-- Changes the object of a live reference. -/
def modifyObject (h : Heap) (v : Value) (f : Object → Object) : Heap :=
  if v.isRef then
    { h with slots := h.slots.modify v.slotIndex fun slot =>
        if slot.generation = v.slotGeneration then { slot with object := slot.object.map f } else slot }
  else h

/-- Changes the data of an object of the facet's kind. -/
def modify (h : Heap) (facet : Facet α) (v : Value) (f : α → α) : Heap :=
  h.modifyObject v fun o =>
    { o with body := match facet.get? o.body with
        | some a => facet.put (f a)
        | none => o.body }

/-- The reference the next object will get. -/
def nextReference (h : Heap) : Value :=
  match h.free with
  | index :: _ => .ofSlot index ((h.slots[index]?.map (·.generation)).getD 0)
  | [] => .ofSlot h.slots.size 0

/-- Stores an object; its reference is `nextReference`.  Never collects. -/
def insert (h : Heap) (cls : Value) (body : Body) : Heap :=
  let object : Object := { cls := cls, serial := h.nextSerial, body := body }
  let h := { h with
    nextSerial := h.nextSerial + 1, allocated := h.allocated + 1, live := h.live + 1 }
  match h.free with
  | index :: rest =>
    { h with
      slots := h.slots.modify index fun slot => { slot with object := some object }
      free := rest }
  | [] => { h with slots := h.slots.push ⟨0, some object⟩ }

end Heap

end ObjectMachine
