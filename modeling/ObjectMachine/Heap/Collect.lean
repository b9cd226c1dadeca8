import ObjectMachine.Heap.Basic

/-! Collection: marks what can be reached from the roots, then frees the rest.

Marking keeps a worklist, the reference found last in front, and a mark for every slot, so cycles
end.  An object whose header says `marked` beforehand counts as marked: it survives, and its edges
are not followed.  A stale reference on the way is skipped and remembered. -/

namespace ObjectMachine.Heap

/-- The state of marking: which slots are marked, how many objects were marked, and the stale
references met, the last one in front. -/
structure Marking where
  marks : Array Bool
  count : Nat := 0
  stale : List Value := []

/-- Puts a value on the worklist if it is a reference. -/
@[inline] def pushReference (worklist : List Value) (v : Value) : List Value :=
  if v.isRef then v :: worklist else worklist

/-- Whether the object in a slot is marked, now or beforehand. -/
def isMarked (marks : Array Bool) (index : Nat) (o : Object) : Bool :=
  o.flags.marked || marks.getD index false

/-- Takes references from the worklist until it is empty. -/
def mark (slots : Array Slot) : Nat → List Value → Marking → Marking
  | 0, _, m => m
  | _, [], m => m
  | fuel + 1, v :: rest, m =>
    match objectAt? slots v with
    | none => mark slots fuel rest { m with stale := v :: m.stale }
    | some o =>
      if isMarked m.marks v.slotIndex o then mark slots fuel rest m
      else mark slots fuel (o.foldEdges pushReference rest)
        { m with marks := m.marks.setIfInBounds v.slotIndex true, count := m.count + 1 }

/-- Enough steps to empty the worklist: every root and every edge is taken from it at most once. -/
def markFuel (h : Heap) (roots : List Value) : Nat :=
  h.slots.foldl (fun n slot =>
    match slot.object with
    | some o => n + o.body.edgeCount + 1
    | none => n) (roots.length + 1)

/-- Marks from the roots. -/
def markFrom (h : Heap) (roots : List Value) : Marking :=
  mark h.slots (h.markFuel roots) (roots.foldl pushReference [])
    { marks := Array.replicate h.slots.size false }

/-- Whether a slot holds an object that is not marked. -/
def isGarbage (marks : Array Bool) (index : Nat) (slot : Slot) : Bool :=
  match slot.object with
  | some o => !isMarked marks index o
  | none => false

/-- Clears the flag of a marked object and frees the slot of any other.  A slot whose generations
are used up is retired: it stays empty for good. -/
def sweepSlot (marks : Array Bool) (index : Nat) (slot : Slot) : Slot :=
  match slot.object with
  | none => slot
  | some o =>
    if isMarked marks index o then
      if o.flags.marked then
        { slot with object := some { o with flags := { o.flags with marked := false } } }
      else slot
    else if slot.generation < Value.maxGeneration then ⟨slot.generation + 1, none⟩
    else ⟨slot.generation, none⟩

/-- How many slots hold garbage. -/
def garbageCount (marks : Array Bool) (slots : Array Slot) : Nat :=
  slots.size.fold (fun i _ n => if isGarbage marks i slots[i] then n + 1 else n) 0

/-- The slots of garbage that can be used again, the last one in front, then those in `free`. -/
def pushReusable (marks : Array Bool) (slots : Array Slot) (free : List Nat) : List Nat :=
  slots.size.fold (fun i _ free =>
    if isGarbage marks i slots[i] && slots[i].generation < Value.maxGeneration then i :: free
    else free) free

/-- Marks from the roots and sweeps.  Also gives the stale references met, in order. -/
def collect (h : Heap) (roots : List Value) : Heap × List Value :=
  let m := h.markFrom roots
  let freed := garbageCount m.marks h.slots
  ({ h with
      slots := h.slots.mapIdx (sweepSlot m.marks)
      free := pushReusable m.marks h.slots h.free
      live := h.live - freed
      allocated := 0
      counts := { collections := h.counts.collections + 1, marked := m.count, freed := freed } },
    m.stale.reverse)

end ObjectMachine.Heap
