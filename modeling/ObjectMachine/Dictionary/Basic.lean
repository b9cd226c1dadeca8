import ObjectMachine.Dictionary.Keys

/-! Operations on the tables of the heap.

Computing a hash or comparing keys may run programs, which may allocate, collect, and change the
very table at work.  So table, key and record are pinned for the time of each operation, and every
step along a chain looks the entry up again. -/

namespace ObjectMachine.Dictionary

open Effect

/-- The meaning of a table's keys. -/
def keysOf (meaning : KeyMeaning) (table : Value) : Effect Keys := do
  return meaning (← read Facet.table table).strategy

/-- Whether a stored entry is the one looked for. -/
def isMatch (keys : Keys) (key : Value) (hash : UInt64) (e : Entry) : Effect Bool :=
  if e.hash == hash && !e.key.isAbsent then
    if e.key == key then pure true else keys.equal key e.key
  else pure false

/-- Looks for a key from `cursor` on. A link that died in the meantime ends the search. -/
def findFrom (keys : Keys) (table key : Value) (hash : UInt64) :
    Nat → Option EntryId → Effect (Option EntryId)
  | _, none => pure none
  | 0, some _ => fault .depthExceeded
  | fuel + 1, some id => do
    let t ← read Facet.table table
    match t.get? id with
    | none => do
      record .chainChanged
      return none
    | some e => do
      if ← isMatch keys key hash e then return some id
      else findFrom keys table key hash fuel e.next

/-- The first entry in the chain of `hash` whose key matches. -/
def find (keys : Keys) (table key : Value) (hash : UInt64) : Effect (Option EntryId) := do
  let t ← read Facet.table table
  let fuel := t.slots.size + 1 + keys.patience
  findFrom keys table key hash fuel (t.binHead (t.binOf hash))

/-- Adds an entry without looking for its key; the bins grow first if they are too few. -/
def addHashed (table : Value) (hash : UInt64) (key record : Value) : Effect Unit := do
  let t ← read Facet.table table
  if t.needsGrow then
    let old := t.bins.size
    let new := Table.primeAtLeast (old * 2)
    write Facet.table table (·.rehash new)
    Effect.record (.rehashed table old new)
  write Facet.table table (·.prepend hash key record)

/-- The record of a key. -/
def lookup (meaning : KeyMeaning) (table key : Value) : Effect (Option Value) :=
  withHandles do
    pinAll [table, key]
    let keys ← keysOf meaning table
    let hash ← keys.hash key
    match ← find keys table key hash with
    | none => return none
    | some id => return ((← read Facet.table table).get? id).map (·.record)

/-- Sets the record of a key and tells whether the key was there; an existing entry keeps its
key. -/
def insert (meaning : KeyMeaning) (table key record : Value) : Effect Bool :=
  withHandles do
    pinAll [table, key, record]
    let keys ← keysOf meaning table
    let hash ← keys.hash key
    let found ← find keys table key hash
    let t ← read Facet.table table
    match found.filter fun id => (t.get? id).isSome with
    | some id =>
      write Facet.table table (·.setRecord id record)
      return true
    | none =>
      addHashed table hash key record
      return false

/-- Adds a key that the caller knows to be absent. -/
def add (meaning : KeyMeaning) (table key record : Value) : Effect Unit :=
  withHandles do
    pinAll [table, key, record]
    let keys ← keysOf meaning table
    let hash ← keys.hash key
    addHashed table hash key record

/-- Removes a key and gives its record. -/
def delete (meaning : KeyMeaning) (table key : Value) : Effect (Option Value) :=
  withHandles do
    pinAll [table, key]
    let keys ← keysOf meaning table
    let hash ← keys.hash key
    match ← find keys table key hash with
    | none => return none
    | some id =>
      match (← read Facet.table table).unlink id with
      | .error how => fault (.corruptedTable how)
      | .ok (e, t) =>
        write Facet.table table fun _ => t
        return some e.record

/-- Removes a key but leaves a tombstone in its place, so that traversals on their way stay
valid. -/
def deleteSafe (meaning : KeyMeaning) (table key : Value) : Effect (Option Value) :=
  withHandles do
    pinAll [table, key]
    let keys ← keysOf meaning table
    let hash ← keys.hash key
    match ← find keys table key hash with
    | none => return none
    | some id =>
      match (← read Facet.table table).tombstone id with
      | none => return none
      | some (e, t) =>
        write Facet.table table fun _ => t
        return some e.record

/-- Unlinks every tombstone and tells how many there were. -/
def cleanupSafe (table : Value) : Effect Nat := do
  let t ← read Facet.table table
  let dead := t.tombstones
  let (failed, t) := t.unlinkAll dead
  write Facet.table table fun _ => t
  match failed with
  | some how => fault (.corruptedTable how)
  | none => return dead.length

/-- The number of keys. -/
def size (table : Value) : Effect Nat := do return (← read Facet.table table).count

/-- The mappings in iteration order. -/
def entries (table : Value) : Effect (List (Value × Value)) := do
  return (← read Facet.table table).entries

/-- Looks a text up from `cursor` on, in a table with text keys. -/
def findTextFrom (t : Table) (text : String) (hash : UInt64) :
    Nat → Option EntryId → Effect (Option Value)
  | _, none => pure none
  | 0, some _ => fault .depthExceeded
  | fuel + 1, some id =>
    match t.get? id with
    | none => fault (.corruptedTable .danglingLink)
    | some e => do
      let hit ← if e.hash == hash && !e.isTombstone then do
          pure ((← read Facet.text e.key) == text)
        else pure false
      if hit then return some e.record else findTextFrom t text hash fuel e.next

/-- The record of a text in a table with text keys; allocates nothing. -/
def lookupText (table : Value) (text : String) : Effect (Option Value) := do
  let t ← read Facet.table table
  if t.strategy == .text then
    let hash := textHash text
    findTextFrom t text hash (t.slots.size + 1) (t.binHead (t.binOf hash))
  else fault (.unsupportedStrategy t.strategy.name)

/-- A new table with the same class, strategy, bins and chains. -/
def copy (table : Value) : Effect Value := do
  let o ← ofExcept (← ask (·.heap.get table))
  let t ← read Facet.table table
  alloc o.cls (.table t)

/-- The bins and chains as text, which is recorded too. -/
def dump (table : Value) : Effect String := do
  let text := (← read Facet.table table).dump table
  record (.dumped text)
  return text

/-! ### Traversal -/

/-- What a visit wants done next. -/
inductive Visit where
  | proceed
  | stop
  | delete
  | check
  deriving DecidableEq

/-- The places that keep the key and the record being visited alive. -/
structure VisitHandles where
  key : Nat
  record : Nat

/-- Does what the visitor of a live entry asked for.  Gives the link to go on with, or the answer of
the traversal. -/
def afterVisit (table : Value) (id : EntryId) (action : Visit) :
    Effect (Option EntryId ⊕ Bool) := do
  let t ← read Facet.table table
  match t.get? id with
  | none => return .inr false
  | some current =>
    match action with
    | .proceed => return .inl current.next
    | .stop => return .inr true
    | .delete =>
      match t.unlink id with
      | .error how => fault (.corruptedTable how)
      | .ok (_, t) =>
        write Facet.table table fun _ => t
        return .inl current.next
    | .check =>
      if t.chainContains (t.binOf current.hash) id then return .inl current.next
      else return .inr false

/-- Visits from `cursor` in `bin` on. -/
def visitFrom (table : Value) (handles : VisitHandles) (visitor : Value → Value → Effect Visit) :
    Nat → Nat → Option EntryId → Effect Bool
  | 0, _, _ => fault .depthExceeded
  | fuel + 1, bin, none => do
    let t ← read Facet.table table
    if bin + 1 < t.bins.size then visitFrom table handles visitor fuel (bin + 1) (t.binHead (bin + 1))
    else return true
  | fuel + 1, bin, some id => do
    let t ← read Facet.table table
    match t.get? id with
    | none => return false
    | some e =>
      if e.isTombstone then visitFrom table handles visitor fuel bin e.next
      else do
        setHandle handles.key e.key
        setHandle handles.record e.record
        let action ← visitor e.key e.record
        match ← afterVisit table id action with
        | .inl next => visitFrom table handles visitor fuel bin next
        | .inr answer => return answer

/-- Visits every entry bin by bin.  The answer is false if the traversal was given up because the
table changed under it. -/
def forEach (patience : Nat) (table : Value) (visitor : Value → Value → Effect Visit) :
    Effect Bool :=
  withHandles do
    let _ ← pin table
    let key ← pin .nil
    let record ← pin .nil
    let t ← read Facet.table table
    let fuel := t.bins.size + t.slots.size + 1 + patience
    visitFrom table ⟨key, record⟩ visitor fuel 0 (t.binHead 0)

/-! ### External iterators -/

/-- An iterator in front of the first entry. -/
def iterator (table : Value) : Effect Value := do
  let stamp := (← read Facet.table table).stamp
  alloc (← classValue .dictIterator) (.iterator { table := table, position := .fresh, stamp := stamp })

/-- The table of an iterator, unless it changed since the iterator was made. -/
def checkedTable (i : IteratorBody) : Effect Table := do
  let t ← read Facet.table i.table
  if t.stamp == i.stamp then return t else fault .tableModifiedDuringIteration

/-- Moves on to the next entry; false at the end. -/
def next (iter : Value) : Effect Bool := do
  let i ← read Facet.iterator iter
  let t ← checkedTable i
  match t.advance i.position with
  | .error how => fault (.corruptedTable how)
  | .ok position =>
    write Facet.iterator iter fun i => { i with position := position }
    match position with
    | .at _ _ => return true
    | _ => return false

/-- The entry an iterator stands on. -/
def current (iter : Value) : Effect Entry := do
  let i ← read Facet.iterator iter
  let t ← checkedTable i
  match i.position with
  | .at _ id =>
    match t.get? id with
    | some e => return e
    | none => fault (.corruptedTable .iteratorEntryVanished)
  | _ => fault .iteratorNotPositioned

def currentKey (iter : Value) : Effect Value := do return (← current iter).key

def currentValue (iter : Value) : Effect Value := do return (← current iter).record

end ObjectMachine.Dictionary
