import ObjectMachine.Fault
import ObjectMachine.Table.Primes

/-! Chained hash tables over a slab.

`bins` holds the heads of the chains.  The entries live in `slots`, so that rehashing relinks them
without moving them, and an `EntryId` carries the generation of its slot, so that an id that
outlives its entry is told from one of the slot's later tenants.  A removal that must not disturb a
traversal leaves a tombstone: an entry in its place whose key is `absent`.

Indices and generations are natural numbers.  They stand for words of 32 and 64 bits, and are the same as
these as long as the slab has at most `2³²` places and none of them is reused `2⁶⁴` times: the index of an id
is below the number of places, and its generation is the number of ids the place had before. -/

namespace ObjectMachine

/-- How a table hashes and compares its keys. -/
inductive Strategy where
  | symbol
  | text
  | value
  | residue (modulus : Nat)
  deriving DecidableEq

/-- The name of a strategy in diagnostics. -/
def Strategy.name : Strategy → String
  | .symbol => "symbol"
  | .text => "string"
  | .value => "value"
  | .residue modulus => "mod" ++ Digits.ofNat 10 modulus

/-- Index of an entry in its slab, a word of 32 bits, with the generation of the slot, a word of 64. -/
structure EntryId where
  index : Nat
  generation : Nat
  deriving DecidableEq

/-- Diagnostic text of an id. -/
def EntryId.debug (id : EntryId) : String :=
  "EntryId \x7b index: " ++ Digits.ofNat 10 id.index ++ ", generation: "
    ++ Digits.ofNat 10 id.generation ++ " \x7d"

/-- A key with its cached hash, its record and the rest of its chain. -/
structure Entry where
  hash : UInt64
  key : Value
  record : Value
  next : Option EntryId
  deriving DecidableEq

/-- Whether the entry was removed in place. -/
def Entry.isTombstone (e : Entry) : Bool := e.key.isAbsent

/-- A place of the slab: empty, or holding the entry of the current generation.  The generation, a word of
64 bits, counts how often the place was vacated. -/
structure EntrySlot where
  generation : Nat
  entry : Option Entry
  deriving DecidableEq, Inhabited

/-- A chained hash table. `stamp` changes with every structural change, and `free` lists the empty places,
whose indices are words of 32 bits, with the one to be used next in front. -/
structure Table where
  strategy : Strategy
  bins : Array (Option EntryId)
  slots : Array EntrySlot
  free : List Nat
  count : Nat
  stamp : UInt64
  deriving DecidableEq

namespace Table

/-- Greatest average chain length before an insertion grows the bins. -/
def maxDensity : Nat := 5

/-- An empty table with room for `size` bins. -/
def new (strategy : Strategy) (size : Nat) : Table where
  strategy := strategy
  bins := Array.replicate (primeAtLeast (max size minBins)) none
  slots := #[]
  free := []
  count := 0
  stamp := 0

/-- The bin of a hash. -/
def binOf (t : Table) (hash : UInt64) : Nat := hash.toNat % t.bins.size

/-- The head of a chain. -/
def binHead (t : Table) (bin : Nat) : Option EntryId := t.bins.getD bin none

/-- The entry of an id, unless it is dead. -/
def get? (t : Table) (id : EntryId) : Option Entry :=
  match t.slots[id.index]? with
  | some slot => if slot.generation = id.generation then slot.entry else none
  | none => none

/-- Changes the entry of an id; nothing happens if it is dead. -/
def adjust (t : Table) (id : EntryId) (f : Entry → Entry) : Table :=
  { t with slots := t.slots.modify id.index fun slot =>
      if slot.generation = id.generation then { slot with entry := slot.entry.map f } else slot }

/-- Overwrites the record of an id. -/
def setRecord (t : Table) (id : EntryId) (record : Value) : Table :=
  t.adjust id fun e => { e with record := record }

/-- Whether the next insertion must grow the table first. -/
def needsGrow (t : Table) : Bool := t.count + 1 > maxDensity * t.bins.size

/-! ### Chains -/

/-- The entries met from `cursor` on, up to the end of the chain or a dead link. -/
def chainFrom (t : Table) : Nat → Option EntryId → List (EntryId × Entry)
  | 0, _ => []
  | _, none => []
  | fuel + 1, some id =>
    match t.get? id with
    | none => []
    | some e => (id, e) :: chainFrom t fuel e.next

/-- The chain of a bin; no chain is longer than the slab. -/
def chain (t : Table) (bin : Nat) : List (EntryId × Entry) :=
  t.chainFrom t.slots.size (t.binHead bin)

/-- Whether the walk from `cursor` meets an id. -/
def reaches (t : Table) (id : EntryId) : Nat → Option EntryId → Bool
  | 0, _ => false
  | _, none => false
  | fuel + 1, some current =>
    current == id || reaches t id fuel ((t.get? current).bind (·.next))

/-- Whether an id can be reached from the head of a bin. -/
def chainContains (t : Table) (bin : Nat) (id : EntryId) : Bool :=
  t.reaches id (t.slots.size + 1) (t.binHead bin)

/-- Every linked entry, tombstones included, bin by bin. -/
def linked (t : Table) : List (EntryId × Entry) :=
  (List.range t.bins.size).flatMap t.chain

/-- The linked ids, tombstones included, bin by bin. -/
def entryIds (t : Table) : List EntryId := t.linked.map (·.1)

/-- The mappings of the table, in iteration order. -/
def entries (t : Table) : List (Value × Value) :=
  (t.linked.filter (!·.2.isTombstone)).map fun p => (p.2.key, p.2.record)

/-- Every stored entry in slab order. -/
def slab (t : Table) : List Entry := t.slots.toList.filterMap (·.entry)

/-! ### Structural changes -/

/-- The id the next entry will get. -/
def nextId (t : Table) : EntryId :=
  match t.free with
  | index :: _ => ⟨index, (t.slots[index]?.map (·.generation)).getD 0⟩
  | [] => ⟨t.slots.size, 0⟩

/-- Puts an entry into the slab at `nextId`. -/
def store (t : Table) (e : Entry) : Table :=
  match t.free with
  | index :: rest =>
    { t with slots := t.slots.modify index (fun slot => { slot with entry := some e }), free := rest }
  | [] => { t with slots := t.slots.push ⟨0, some e⟩ }

/-- Makes an id the head of a bin. -/
def setHead (t : Table) (bin : Nat) (head : Option EntryId) : Table :=
  { t with bins := t.bins.setIfInBounds bin head }

/-- Puts a new entry, whose id is `nextId`, in front of its chain. -/
def prepend (t : Table) (hash : UInt64) (key record : Value) : Table :=
  let bin := t.binOf hash
  let id := t.nextId
  let next := t.binHead bin
  let t := (t.store ⟨hash, key, record, next⟩).setHead bin (some id)
  { t with count := t.count + 1, stamp := t.stamp + 1 }

/-- Puts a stored entry in front of the chain its hash belongs to. -/
def relink (t : Table) (id : EntryId) : Table :=
  match t.get? id with
  | none => t
  | some e =>
    let bin := t.binOf e.hash
    let head := t.binHead bin
    (t.adjust id fun e => { e with next := head }).setHead bin (some id)

/-- Distributes the linked entries over `bins` new chains, in the order of the old ones. -/
def rehash (t : Table) (bins : Nat) : Table :=
  let ids := t.entryIds
  let t := ids.foldl relink { t with bins := Array.replicate bins none }
  { t with stamp := t.stamp + 1 }

/-- What stands before `id` in a chain: nothing for its head, and no answer if it is not there. -/
def predecessor? (id : EntryId) : Option EntryId → List EntryId → Option (Option EntryId)
  | _, [] => none
  | before, current :: rest =>
    if current = id then some before else predecessor? id (some current) rest

/-- Takes the entry of a live id out of the slab and frees its slot. -/
def release (t : Table) (id : EntryId) : Table :=
  { t with
    slots := t.slots.modify id.index fun slot => ⟨slot.generation + 1, none⟩
    free := id.index :: t.free }

/-- Leads the link to an entry past it. -/
def bypass (t : Table) (bin : Nat) (before : Option EntryId) (next : Option EntryId) : Table :=
  match before with
  | none => t.setHead bin next
  | some previous => t.adjust previous fun e => { e with next := next }

/-- Unlinks an entry and frees it. -/
def unlink (t : Table) (id : EntryId) : Except Corruption (Entry × Table) :=
  match t.get? id with
  | none => .error .unlinkOfDeadEntry
  | some e =>
    let bin := t.binOf e.hash
    match predecessor? id none ((t.chain bin).map (·.1)) with
    | none => .error .unreachableFromBin
    | some before =>
      let t := (t.bypass bin before e.next).release id
      .ok (e, { t with
        count := if e.isTombstone then t.count else t.count - 1
        stamp := t.stamp + 1 })

/-- Replaces key and record of a live entry with `absent` and leaves the chain alone. -/
def tombstone (t : Table) (id : EntryId) : Option (Entry × Table) :=
  match t.get? id with
  | none => none
  | some e =>
    if e.isTombstone then none
    else
      let t := t.adjust id fun e => { e with key := .absent, record := .absent }
      some (e, { t with count := t.count - 1 })

/-- Unlinks the listed entries one after the other, up to the first that cannot be unlinked. -/
def unlinkAll (t : Table) : List EntryId → Option Corruption × Table
  | [] => (none, t)
  | id :: rest =>
    match t.unlink id with
    | .ok (_, t) => t.unlinkAll rest
    | .error how => (some how, t)

/-- The linked tombstones. -/
def tombstones (t : Table) : List EntryId :=
  (t.linked.filter (·.2.isTombstone)).map (·.1)

/-! ### Cursors -/

/-- Where an external iterator stands. -/
inductive Position where
  | fresh
  | at (bin : Nat) (entry : EntryId)
  | done
  deriving DecidableEq

/-- The first entry from `cursor` on that is not a tombstone. -/
def seekChain (t : Table) : Nat → Option EntryId → Except Corruption (Option EntryId)
  | 0, _ => .ok none
  | _, none => .ok none
  | fuel + 1, some id =>
    match t.get? id with
    | none => .error .danglingLink
    | some e => if e.isTombstone then seekChain t fuel e.next else .ok (some id)

/-- The first position in the `remaining` bins from `bin` on. -/
def seekBins (t : Table) : Nat → Nat → Except Corruption Position
  | 0, _ => .ok .done
  | remaining + 1, bin =>
    match t.seekChain (t.slots.size + 1) (t.binHead bin) with
    | .error how => .error how
    | .ok (some id) => .ok (.at bin id)
    | .ok none => seekBins t remaining (bin + 1)

/-- The position after `p`. -/
def advance (t : Table) : Position → Except Corruption Position
  | .fresh => t.seekBins t.bins.size 0
  | .at bin id =>
    match t.get? id with
    | none => .error .iteratorEntryVanished
    | some e =>
      match t.seekChain (t.slots.size + 1) e.next with
      | .error how => .error how
      | .ok (some next) => .ok (.at bin next)
      | .ok none => t.seekBins (t.bins.size - (bin + 1)) (bin + 1)
  | .done => .ok .done

/-! ### Text -/

/-- Diagnostic text of a table. -/
def debug (t : Table) : String :=
  "Table \x7b strategy: \"" ++ t.strategy.name ++ "\", bins: " ++ Digits.ofNat 10 t.bins.size
    ++ ", entries: " ++ Digits.ofNat 10 t.count ++ " \x7d"

/-- One line for a chain: the bin right-aligned in five places, then its mappings. -/
def chainLine (bin : Nat) (chain : List (EntryId × Entry)) : String :=
  "  " ++ Digits.padded 5 ' ' (Digits.ofNat 10 bin) ++ ":"
    ++ String.join (chain.map fun p => " " ++ p.2.key.debug ++ " => " ++ p.2.record.debug ++ ";")
    ++ "\n"

/-- The bins and chains of the table `name`, empty bins left out. -/
def dump (t : Table) (name : Value) : String :=
  let header := "table " ++ name.debug ++ " [" ++ t.strategy.name ++ "]: "
    ++ Digits.ofNat 10 t.count ++ " entries in " ++ Digits.ofNat 10 t.bins.size ++ " bins\n"
  header ++ String.join ((List.range t.bins.size).map fun bin =>
    match t.chain bin with
    | [] => ""
    | chain => chainLine bin chain)

end Table

end ObjectMachine
