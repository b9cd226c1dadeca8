import Mathlib.Tactic
import ObjectMachine.Proofs.Heap.Identity
import ObjectMachine.Proofs.Machine.Tables
import ObjectMachine.Proofs.Table.FiniteMap

/-! The operations on a table are those of a finite map.

Beside the operations on a table of the heap stand those of an ideal table: a finite map from keys up
to equality to the key that was entered first and the record that was stored last, and the number of
removals whose tombstones are still there.  As long as the keys obey a law, every operation succeeds
with the answer of the ideal one and leaves a table that stands for the ideal one. -/

namespace ObjectMachine

/-- An operation on a table. -/
inductive Dictionary.Op where
  | insert (key record : Value)
  | add (key record : Value)
  | lookup (key : Value)
  | delete (key : Value)
  | deleteSafe (key : Value)
  | cleanup
  deriving DecidableEq

/-- What an operation answers. -/
inductive Dictionary.Answer where
  | present (there : Bool)
  | done
  | found (record : Option Value)
  | removed (n : Nat)
  deriving DecidableEq

/-- Performs an operation on a table of the heap. -/
def Dictionary.Op.perform (meaning : KeyMeaning) (table : Value) : Op → Effect Answer
  | .insert key record => do return .present (← Dictionary.insert meaning table key record)
  | .add key record => do
    Dictionary.add meaning table key record
    return .done
  | .lookup key => do return .found (← Dictionary.lookup meaning table key)
  | .delete key => do return .found (← Dictionary.delete meaning table key)
  | .deleteSafe key => do return .found (← Dictionary.deleteSafe meaning table key)
  | .cleanup => do return .removed (← Dictionary.cleanupSafe table)

/-! ### Ideal tables -/

/-- A finite map, and how many removals wait for a cleanup. -/
structure IdealTable (law : KeyLaw) where
  map : law.Map := ∅
  deferred : Nat := 0

namespace IdealTable

open Dictionary

variable {law : KeyLaw}

/-- The key that stands for a key, with its record. -/
def mapping? (s : IdealTable law) (key : Value) : Option (Value × Value) :=
  s.map.lookup (law.classOf key)

/-- Enters a mapping for a key. -/
def put (s : IdealTable law) (key : Value) (p : Value × Value) : IdealTable law :=
  { s with map := s.map.insert (law.classOf key) p }

/-- Takes the mapping of a key away. -/
def drop (s : IdealTable law) (key : Value) : IdealTable law :=
  { s with map := s.map.erase (law.classOf key) }

@[simp] theorem mapping?_empty (n : Nat) (key : Value) :
    (⟨∅, n⟩ : IdealTable law).mapping? key = none := Finmap.lookup_empty _

@[simp] theorem mapping?_mk (s : IdealTable law) (n : Nat) (key : Value) :
    (⟨s.map, n⟩ : IdealTable law).mapping? key = s.mapping? key := rfl

@[simp] theorem deferred_put (s : IdealTable law) (key : Value) (p : Value × Value) :
    (s.put key p).deferred = s.deferred := rfl

@[simp] theorem mapping?_put (s : IdealTable law) (a b : Value) (p : Value × Value) :
    (s.put a p).mapping? b = if law.equal b a then some p else s.mapping? b := by
  by_cases hab : law.classOf b = law.classOf a
  · rw [if_pos (KeyLaw.classOf_eq_iff.mp hab), mapping?, put]
    exact hab ▸ Finmap.lookup_insert s.map
  · rw [if_neg fun h => hab (KeyLaw.classOf_eq_iff.mpr h)]
    exact Finmap.lookup_insert_of_ne _ hab

@[simp] theorem mapping?_drop (s : IdealTable law) (a b : Value) :
    (s.drop a).mapping? b = if law.equal b a then none else s.mapping? b := by
  by_cases hab : law.classOf b = law.classOf a
  · rw [if_pos (KeyLaw.classOf_eq_iff.mp hab), mapping?, drop]
    exact hab ▸ Finmap.lookup_erase _ s.map
  · rw [if_neg fun h => hab (KeyLaw.classOf_eq_iff.mpr h)]
    exact Finmap.lookup_erase_ne hab

/-- Taking a key away that is not there changes nothing. -/
theorem drop_of_mapping?_eq_none {s : IdealTable law} {key : Value} (h : s.mapping? key = none) :
    s.drop key = s := by
  have hmap : s.map.erase (law.classOf key) = s.map := by
    refine Finmap.ext_lookup fun c => ?_
    by_cases hc : c = law.classOf key
    · rw [hc, Finmap.lookup_erase]
      exact h.symm
    · rw [Finmap.lookup_erase_ne hc]
  rw [drop, hmap]

/-- The answer to an operation. -/
def answer (s : IdealTable law) : Op → Answer
  | .insert key _ => .present (s.mapping? key).isSome
  | .add _ _ => .done
  | .lookup key => .found ((s.mapping? key).map (·.2))
  | .delete key => .found ((s.mapping? key).map (·.2))
  | .deleteSafe key => .found ((s.mapping? key).map (·.2))
  | .cleanup => .removed s.deferred

/-- The ideal table after an operation.  Inserting keeps the key that is there. -/
def next (s : IdealTable law) : Op → IdealTable law
  | .insert key record => s.put key (((s.mapping? key).map (·.1)).getD key, record)
  | .add key record => s.put key (key, record)
  | .lookup _ => s
  | .delete key => s.drop key
  | .deleteSafe key =>
    { s.drop key with deferred := s.deferred + if (s.mapping? key).isSome then 1 else 0 }
  | .cleanup => { s with deferred := 0 }

/-- Whether an operation may be performed: its key is in the domain, and an added one is absent. -/
def Admits (domain : Value → Prop) (s : IdealTable law) : Op → Prop
  | .insert key _ => domain key
  | .add key _ => domain key ∧ s.mapping? key = none
  | .lookup key => domain key
  | .delete key => domain key
  | .deleteSafe key => domain key
  | .cleanup => True

/-- The ideal table after a sequence of operations. -/
def run (s : IdealTable law) (ops : List Op) : IdealTable law := ops.foldl next s

/-- The answers to a sequence of operations. -/
def answers (s : IdealTable law) : List Op → List Answer
  | [] => []
  | op :: ops => s.answer op :: (s.next op).answers ops

/-- Whether the operations may be performed one after the other. -/
def AdmitsAll (domain : Value → Prop) (s : IdealTable law) : List Op → Prop
  | [] => True
  | op :: ops => s.Admits domain op ∧ (s.next op).AdmitsAll domain ops

end IdealTable

namespace Dictionary

open Effect

/-! ### Keys that obey a law -/

/-- Keys that obey a law: on the machines in scope, hash and equality of the keys in the domain answer
what the law says and leave the machine as it is.  What the operations do to a machine, handles,
events and changes of the table, does not leave the scope.  Keys whose methods are the same functions
on every machine have all machines in scope, and all values but `absent` as their domain. -/
structure Lawful (keys : Keys) (law : KeyLaw) (domain : Value → Prop) (scope : Machine → Prop)
    (table : Value) : Prop where
  ne_absent : ∀ {key}, domain key → key ≠ .absent
  hash_eq : ∀ {m key}, scope m → domain key → keys.hash key m = .ok (law.hash key) m
  equal_eq : ∀ {m key other}, scope m → domain key → domain other →
    keys.equal key other m = .ok (law.equal key other) m
  handles : ∀ {m : Machine} (places : Array Value), scope m → scope { m with handles := places }
  events : ∀ {m : Machine} (log : Array Event), scope m → scope { m with events := log }
  changes : ∀ {m : Machine} (f : Table → Table), scope m →
    scope { m with heap := m.heap.modify Facet.table table f }

/-- Text keys obey the law of their contents, as long as the texts are there. -/
theorem lawful_text {domain : Value → Prop} (hne : ∀ {key}, domain key → key ≠ .absent)
    (contents : Value → String) (table : Value) :
    Lawful Keys.text (.ofView contents textHash) domain
      (fun m => ∀ key, domain key → m.heap.read Facet.text key = .ok (contents key)) table where
  ne_absent := hne
  hash_eq hm hkey := bind_of_ok (read_of_ok (hm _ hkey))
  equal_eq {m key other} hm hkey hother := by
    unfold Keys.text
    by_cases heq : key = other
    · simp [heq, KeyLaw.ofView]
      rfl
    · simp only [beq_iff_eq, heq, if_false]
      refine (bind_of_ok (read_of_ok (hm key hkey))).trans ?_
      exact (bind_of_ok (read_of_ok (hm other hother))).trans rfl
  handles _ hm := hm
  events _ hm := hm
  changes f hm key hkey := Heap.read_text_modify_table (hm key hkey) f

/-- A machine in scope, with this table at the reference. -/
structure Holds (scope : Machine → Prop) (table : Value) (t : Table) (m : Machine) : Prop where
  inScope : scope m
  read_eq : m.heap.read Facet.table table = .ok t

/-- The effect succeeds with an answer and leaves a table. -/
def Yields (scope : Machine → Prop) (table : Value) (a : Effect α) (m : Machine) (x : α)
    (t : Table) : Prop := ∃ m', a m = .ok x m' ∧ Holds scope table t m'

section Yields

variable {scope : Machine → Prop} {table : Value} {t t' t'' : Table} {m : Machine}
  {a : Effect α} {f : α → Effect β} {x : α} {y : β}

theorem Yields.bind (ha : Yields scope table a m x t')
    (hf : ∀ m', Holds scope table t' m' → Yields scope table (f x) m' y t'') :
    Yields scope table (a >>= f) m y t'' := by
  obtain ⟨m', hx, hm'⟩ := ha
  obtain ⟨m'', hy, hm''⟩ := hf m' hm'
  exact ⟨m'', (bind_of_ok hx).trans hy, hm''⟩

theorem Holds.pure (hm : Holds scope table t m) (x : α) :
    Yields scope table (pure x) m x t := ⟨m, rfl, hm⟩

theorem Holds.read (hm : Holds scope table t m) :
    Yields scope table (read Facet.table table) m t t := ⟨m, read_of_ok hm.read_eq, hm⟩

variable {keys : Keys} {law : KeyLaw} {domain : Value → Prop}

theorem Lawful.write (hl : Lawful keys law domain scope table) (hm : Holds scope table t m)
    (g : Table → Table) : Yields scope table (write Facet.table table g) m () (g t) := by
  refine ⟨{ m with heap := m.heap.modify Facet.table table g }, ?_, hl.changes g hm.inScope, ?_⟩
  · exact bind_of_ok (read_of_ok hm.read_eq)
  · exact Heap.read_modify_table hm.read_eq g

theorem Lawful.record (hl : Lawful keys law domain scope table) (hm : Holds scope table t m)
    (e : Event) : Yields scope table (record e) m () t :=
  ⟨_, rfl, hl.events _ hm.inScope, hm.read_eq⟩

theorem Lawful.pinAll (hl : Lawful keys law domain scope table) :
    ∀ {m : Machine} (vs : List Value), Holds scope table t m →
      Yields scope table (pinAll vs) m () t
  | _, [], hm => hm.pure ()
  | m, v :: vs, hm => by
    have hpin : Yields scope table (pin v) m m.handles.size t :=
      ⟨_, rfl, hl.handles _ hm.inScope, hm.read_eq⟩
    exact hpin.bind fun m' hm' => Lawful.pinAll hl vs hm'

theorem Lawful.withHandles (hl : Lawful keys law domain scope table)
    (ha : Yields scope table a m x t) : Yields scope table (withHandles a) m x t := by
  obtain ⟨m', hx, hm'⟩ := ha
  refine ⟨{ m' with handles := m'.handles.shrink m.handles.size }, ?_,
    hl.handles _ hm'.inScope, hm'.read_eq⟩
  have houtcome : outcome a m = .ok (.ok x) m' := by rw [outcome, hx]
  have hbase : ask (fun m => m.handles.size) m = .ok m.handles.size m := rfl
  exact (bind_of_ok hbase).trans ((bind_of_ok houtcome).trans rfl)

/-! ### Searching -/

/-- Whether an entry has the key looked for. -/
def hasKey (law : KeyLaw) (key : Value) (e : Entry) : Bool :=
  e.hash == law.hash key && !e.key.isAbsent && law.equal key e.key

theorem hasKey_iff {key : Value} {e : Entry} : hasKey law key e = true ↔
    e.hash = law.hash key ∧ e.isTombstone = false ∧ law.equal key e.key = true := by
  simp [hasKey, Entry.isTombstone, and_assoc]

theorem Lawful.isMatch (hl : Lawful keys law domain scope table) (hm : Holds scope table t m)
    {key : Value} (hkey : domain key) {e : Entry} (he : e.isTombstone = false → domain e.key) :
    Yields scope table (isMatch keys key (law.hash key) e) m (hasKey law key e) t := by
  unfold Dictionary.isMatch hasKey
  cases hc : e.hash == law.hash key && !e.key.isAbsent with
  | false => exact hm.pure false
  | true =>
    have hd : e.isTombstone = false := by
      simpa [Entry.isTombstone] using (Bool.and_eq_true_iff.mp hc).2
    cases heq : e.key == key with
    | true =>
      rw [beq_iff_eq.mp heq, law.refl]
      exact hm.pure true
    | false => exact ⟨m, hl.equal_eq hm.inScope hkey (he hd), hm⟩

/-- Searching along a chain finds the first entry with the key. -/
theorem Lawful.findFrom (hl : Lawful keys law domain scope table) {key : Value}
    (hkey : domain key) (hkeys : ∀ id e, t.get? id = some e → e.isTombstone = false → domain e.key) :
    ∀ {m : Machine} {cursor : Option EntryId} {chain : List EntryId} {fuel : Nat},
      t.Leads cursor chain → chain.length ≤ fuel → Holds scope table t m →
      Yields scope table (findFrom keys table key (law.hash key) fuel cursor) m
        (chain.find? fun id => (t.get? id).any (hasKey law key)) t
  | m, cursor, [], fuel, hlead, _, hm => by
    obtain rfl : cursor = none := hlead
    rw [Dictionary.findFrom]
    exact hm.pure none
  | m, cursor, id :: chain, fuel + 1, ⟨hc, e, he, hlead⟩, hfuel, hm => by
    subst hc
    refine hm.read.bind fun m hm => ?_
    simp only [he]
    refine (hl.isMatch hm hkey (hkeys id e he)).bind fun m hm => ?_
    have hany : (t.get? id).any (hasKey law key) = hasKey law key e := by rw [he]; rfl
    cases hmatch : hasKey law key e with
    | true =>
      rw [List.find?_cons_of_pos (by rw [hany, hmatch])]
      exact hm.pure (some id)
    | false =>
      rw [List.find?_cons_of_neg (by rw [hany, hmatch]; simp)]
      exact hl.findFrom hkey hkeys hlead (Nat.le_of_succ_le_succ hfuel) hm

end Yields

/-! ### Tables that stand for ideal ones -/

/-- A table stands for an ideal one. -/
structure Models (strategy : Strategy) (law : KeyLaw) (domain : Value → Prop) (t : Table)
    (s : IdealTable law) : Prop where
  wellFormed : t.WellFormed
  strategy_eq : t.strategy = strategy
  represents : t.Represents law domain s.map
  deferred_eq : t.tombstones.length = s.deferred

variable {scope : Machine → Prop} {table : Value} {t t' : Table} {m : Machine} {keys : Keys}
  {law : KeyLaw} {domain : Value → Prop} {strategy : Strategy} {s : IdealTable law} {key : Value}

/-- A table that came from one that stands for an ideal table by a change. -/
theorem Models.change (hs : Models strategy law domain t s) (hc : t.Change t') {map : law.Map}
    (hr : t'.Represents law domain map) {n : Nat} (hn : t'.tombstones.length = n) :
    Models strategy law domain t' ⟨map, n⟩ :=
  ⟨hs.wellFormed.change hc, hc.strategy_eq.trans hs.strategy_eq, hr, hn⟩

theorem Models.rehash (hs : Models strategy law domain t s) {n : Nat} (hn : 1 ≤ n) :
    Models strategy law domain (t.rehash n) s := by
  have hchange : t.Change (t.rehash n) := .rehash hn
  have hcontent := t.content?_rehash n
  refine hs.change hchange ?_ ?_
  · exact hs.represents.congr fun id => Table.mapping?_congr (hcontent id)
  · rw [hs.wellFormed.length_tombstones_eq (hs.wellFormed.change hchange), hs.deferred_eq]
    intro id
    rw [Table.holdsTombstone, Table.holdsTombstone, hcontent]

theorem Models.prepend (hs : Models strategy law domain t s)
    (hl : Lawful keys law domain scope table) (hkey : domain key)
    (habsent : s.mapping? key = none) (record : Value) :
    Models strategy law domain (t.prepend (law.hash key) key record)
      (s.put key (key, record)) := by
  have hchange : t.Change (t.prepend (law.hash key) key record) :=
    .prepend (law.hash key) (hl.ne_absent hkey) record
  obtain ⟨chains, hc⟩ := hs.wellFormed
  have hfree : ∀ i ∈ t.free, t.Vacant i := fun i hi => (hc.free_vacant i).mp hi
  have hdead : t.content? t.nextId = none := by rw [Table.content?, Table.get?_nextId hfree]; rfl
  have hnone : t.mapping? t.nextId = none := by rw [Table.mapping?, hdead]; rfl
  refine hs.change hchange ?_ ?_
  · refine hs.represents.put (e := ⟨law.hash key, key, record, none⟩) hkey rfl (fun f hf => ?_)
      (fun j f hf hclass => ?_) (Table.mapping?_prepend hfree _ (hl.ne_absent hkey) record)
    · rw [hnone] at hf
      exact absurd hf (by simp)
    · have hthere := hs.represents.lookup_of_mapping hf hclass
      exact absurd (habsent.symm.trans hthere) (by simp)
  · rw [hs.wellFormed.length_tombstones_eq (hs.wellFormed.change hchange), hs.deferred_eq]
    intro id
    have hget := Table.get?_prepend hfree (law.hash key) key record id
    by_cases hid : id = t.nextId
    · rw [if_pos hid] at hget
      rw [Table.holdsTombstone_of_get? hget, Table.holdsTombstone, hid, hdead]
      simpa [Entry.isTombstone, Value.isAbsent] using hl.ne_absent hkey
    · rw [if_neg hid] at hget
      rw [Table.holdsTombstone, Table.holdsTombstone, Table.content?, Table.content?, hget]

theorem Models.setRecord (hs : Models strategy law domain t s) {id : EntryId} {e : Entry}
    (he : t.get? id = some e) (hd : e.isTombstone = false)
    (hclass : law.classOf e.key = law.classOf key) (record : Value) :
    Models strategy law domain (t.setRecord id record)
      (s.put key (e.key, record)) := by
  have hchange : t.Change (t.setRecord id record) := .setRecord id record
  have hmap := Table.mapping?_of_get? he hd
  refine hs.change hchange ?_ ?_
  · rw [← hclass]
    refine hs.represents.put (e := { e.content with record := record }) (hs.represents.lawful hmap).1
      (hs.represents.lawful hmap).2 (fun f hf => ?_) (fun j f hf hf' => ?_)
      (Table.mapping?_setRecord hmap record)
    · rw [hmap, Option.some.injEq] at hf
      rw [← hf]
    · exact hs.represents.unique hf hmap hf'
  · rw [hs.wellFormed.length_tombstones_eq (hs.wellFormed.change hchange), hs.deferred_eq]
    intro j
    rw [Table.holdsTombstone, Table.content?_setRecord he]
    by_cases hj : j = id
    · rw [if_pos hj, hj, Table.holdsTombstone_of_get? he]
      rfl
    · rw [if_neg hj]
      rfl

theorem Models.unlink (hs : Models strategy law domain t s) {id : EntryId} {e : Entry}
    (hd : e.isTombstone = false) (hclass : law.classOf e.key = law.classOf key)
    (ht : t.unlink id = .ok (e, t')) : Models strategy law domain t' (s.drop key) := by
  have hchange : t.Change t' := .unlink ht
  obtain ⟨chains, hc⟩ := hs.wellFormed
  obtain ⟨he, -, hcontent⟩ := hc.unlink ht
  refine hs.change hchange ?_ ?_
  · rw [← hclass, ← e.content_key]
    exact hs.represents.drop (Table.mapping?_of_get? he hd) (Table.mapping?_unlink hc ht)
  · rw [hs.wellFormed.length_tombstones_eq (hs.wellFormed.change hchange), hs.deferred_eq]
    intro j
    rw [Table.holdsTombstone, hcontent]
    by_cases hj : j = id
    · rw [if_pos hj, hj, Table.holdsTombstone_of_get? he, hd]
      rfl
    · rw [if_neg hj]
      rfl

theorem Models.tombstone (hs : Models strategy law domain t s) {id : EntryId} {e : Entry}
    (hclass : law.classOf e.key = law.classOf key) (ht : t.tombstone id = some (e, t')) :
    Models strategy law domain t'
      { s.drop key with deferred := s.deferred + 1 } := by
  have hchange : t.Change t' := .tombstone ht
  obtain ⟨he, hd, -⟩ := Table.tombstone_eq_some_iff.mp ht
  refine hs.change hchange ?_ ?_
  · rw [IdealTable.drop, ← hclass, ← e.content_key]
    exact hs.represents.drop (Table.mapping?_of_get? he hd) (Table.mapping?_tombstone ht)
  · rw [hs.wellFormed.length_tombstones_succ (a := id) (hs.wellFormed.change hchange),
      hs.deferred_eq]
    · rw [Table.holdsTombstone_of_get? he, hd]
    · intro j
      rw [Table.holdsTombstone, Table.content?_tombstone ht]
      by_cases hj : j = id
      · rw [if_pos hj, if_pos hj]
        rfl
      · rw [if_neg hj, if_neg hj]
        rfl

/-- What a search may find: the entry of a key that is there, or nothing for one that is not. -/
def Finds (t : Table) (s : IdealTable law) (key : Value) : Option EntryId → Prop
  | none => s.mapping? key = none
  | some id => ∃ e, t.get? id = some e ∧ e.isTombstone = false ∧
      law.classOf e.key = law.classOf key ∧ s.mapping? key = some (e.key, e.record)

theorem Models.find (hs : Models strategy law domain t s)
    (hl : Lawful keys law domain scope table) (hkey : domain key) :
    ∃ found, Finds t s key found ∧ ∀ m, Holds scope table t m →
      Yields scope table (find keys table key (law.hash key)) m found t := by
  obtain ⟨chains, hc⟩ := hs.wellFormed
  have hkeys : ∀ id e, t.get? id = some e → e.isTombstone = false → domain e.key :=
    fun id e he hd => (hs.represents.lawful (Table.mapping?_of_get? he hd)).1
  have hlead := hc.ends _ (hc.binOf_lt (law.hash key))
  have hlen := hlead.length_le
  refine ⟨_, ?_, fun m hm =>
    hm.read.bind fun m hm => hl.findFrom hkey hkeys hlead (by omega) hm⟩
  cases hfind : (chains (t.binOf (law.hash key))).find? fun id => (t.get? id).any (hasKey law key) with
  | none =>
    refine hs.represents.lookup_eq_none hc fun id hid e he => ?_
    obtain ⟨f, hf, hd, rfl⟩ := Table.mapping?_eq_some_iff.mp he
    have hmiss := List.find?_eq_none.mp hfind id hid
    rw [hf, Option.any_some, hasKey_iff] at hmiss
    by_contra heq
    rw [Bool.not_eq_false] at heq
    exact hmiss ⟨(hs.represents.lawful he).2.trans (law.hash_eq heq).symm, hd, heq⟩
  | some id =>
    have hmatch := List.find?_some hfind
    obtain ⟨e, he, hhas⟩ := (Option.any_eq_true _ _).mp hmatch
    obtain ⟨-, hd, heq⟩ := hasKey_iff.mp hhas
    have hclass := KeyLaw.classOf_eq_iff.mpr (law.symm heq)
    exact ⟨e, he, hd, hclass,
      hs.represents.lookup_of_mapping (Table.mapping?_of_get? he hd) hclass⟩

/-! ### Every operation -/

variable {meaning : KeyMeaning}

/-- What the operations on one key have in common. -/
theorem Models.withHash (hs : Models strategy law domain t s)
    (hl : Lawful (meaning strategy) law domain scope table) (hkey : domain key)
    (hm : Holds scope table t m) (pinned : List Value) {k : Keys → UInt64 → Effect β} {y : β}
    (hk : ∀ m, Holds scope table t m →
      Yields scope table (k (meaning strategy) (law.hash key)) m y t') :
    Yields scope table (withHandles do
      pinAll pinned
      let keys ← keysOf meaning table
      let hash ← keys.hash key
      k keys hash) m y t' := by
  refine hl.withHandles ((hl.pinAll pinned hm).bind fun m hm => ?_)
  have hkeys : Yields scope table (keysOf meaning table) m (meaning strategy) t := by
    rw [← hs.strategy_eq]
    exact hm.read.bind fun m hm => hm.pure _
  refine hkeys.bind fun m hm => ?_
  have hhash : Yields scope table ((meaning strategy).hash key) m (law.hash key) t :=
    ⟨m, hl.hash_eq hm.inScope hkey, hm⟩
  exact hhash.bind hk

/-- On every machine that holds the table, the effect gives an answer and leaves one and the same
table, which stands for an ideal one. -/
def Realizes (scope : Machine → Prop) (table : Value) (strategy : Strategy) (domain : Value → Prop)
    (t : Table) (a : Effect α) (x : α) (s : IdealTable law) : Prop :=
  ∃ t', Models strategy law domain t' s ∧ ∀ m, Holds scope table t m → Yields scope table a m x t'

/-- A key that is not there is added. -/
theorem Models.addHashed (hs : Models strategy law domain t s)
    (hl : Lawful keys law domain scope table) (hkey : domain key)
    (habsent : s.mapping? key = none) (record : Value) :
    Realizes scope table strategy domain t (addHashed table (law.hash key) key record) ()
      (s.put key (key, record)) := by
  cases hgrow : t.needsGrow with
  | false =>
    refine ⟨_, hs.prepend hl hkey habsent record, fun m hm => hm.read.bind fun m hm => ?_⟩
    simp only [hgrow, Bool.false_eq_true, if_false]
    exact hl.write hm _
  | true =>
    have hs' := hs.rehash (Table.primeAtLeast_pos (t.bins.size * 2))
    refine ⟨_, hs'.prepend hl hkey habsent record, fun m hm => hm.read.bind fun m hm => ?_⟩
    simp only [hgrow, if_true]
    refine (hl.write hm _).bind fun m hm => (hl.record hm _).bind fun m hm => ?_
    exact hl.write hm _

theorem Models.add (hs : Models strategy law domain t s)
    (hl : Lawful (meaning strategy) law domain scope table) (hkey : domain key)
    (habsent : s.mapping? key = none) (record : Value) :
    Realizes scope table strategy domain t (add meaning table key record) ()
      (s.next (.add key record)) := by
  obtain ⟨t', hs', hadd⟩ := hs.addHashed hl hkey habsent record
  exact ⟨t', hs', fun m hm => hs.withHash hl hkey hm [table, key, record] hadd⟩

theorem Models.lookup (hs : Models strategy law domain t s)
    (hl : Lawful (meaning strategy) law domain scope table) (hkey : domain key) :
    Realizes scope table strategy domain t (lookup meaning table key)
      ((s.mapping? key).map (·.2)) s := by
  obtain ⟨found, hfound, hfind⟩ := hs.find hl hkey
  refine ⟨t, hs, fun m hm => ?_⟩
  refine hs.withHash hl hkey hm [table, key] fun m hm => (hfind m hm).bind fun m hm => ?_
  cases found with
  | none =>
    rw [show s.mapping? key = none from hfound]
    exact hm.pure none
  | some id =>
    obtain ⟨e, he, -, -, hmap⟩ := hfound
    rw [hmap]
    refine hm.read.bind fun m hm => ?_
    rw [he]
    exact hm.pure _

theorem Models.insert (hs : Models strategy law domain t s)
    (hl : Lawful (meaning strategy) law domain scope table) (hkey : domain key) (record : Value) :
    Realizes scope table strategy domain t (insert meaning table key record)
      (s.mapping? key).isSome (s.next (.insert key record)) := by
  obtain ⟨found, hfound, hfind⟩ := hs.find hl hkey
  cases found with
  | none =>
    have habsent : s.mapping? key = none := hfound
    obtain ⟨t', hs', hadd⟩ := hs.addHashed hl hkey habsent record
    rw [IdealTable.next, habsent]
    refine ⟨t', hs', fun m hm => ?_⟩
    refine hs.withHash hl hkey hm [table, key, record] fun m hm => (hfind m hm).bind fun m hm => ?_
    exact hm.read.bind fun m hm => (hadd m hm).bind fun m hm => hm.pure false
  | some id =>
    obtain ⟨e, he, hd, hclass, hmap⟩ := hfound
    rw [IdealTable.next, hmap]
    refine ⟨t.setRecord id record, hs.setRecord he hd hclass record, fun m hm => ?_⟩
    refine hs.withHash hl hkey hm [table, key, record] fun m hm => (hfind m hm).bind fun m hm => ?_
    refine hm.read.bind fun m hm => ?_
    simp only [Option.filter_some, he, Option.isSome_some, if_true]
    exact (hl.write hm _).bind fun m hm => hm.pure true

theorem Models.delete (hs : Models strategy law domain t s)
    (hl : Lawful (meaning strategy) law domain scope table) (hkey : domain key) :
    Realizes scope table strategy domain t (delete meaning table key)
      ((s.mapping? key).map (·.2)) (s.next (.delete key)) := by
  obtain ⟨found, hfound, hfind⟩ := hs.find hl hkey
  cases found with
  | none =>
    have habsent : s.mapping? key = none := hfound
    rw [IdealTable.next, IdealTable.drop_of_mapping?_eq_none habsent, habsent]
    refine ⟨t, hs, fun m hm => ?_⟩
    refine hs.withHash hl hkey hm [table, key] fun m hm => (hfind m hm).bind fun m hm => ?_
    exact hm.pure none
  | some id =>
    obtain ⟨e, he, hd, hclass, hmap⟩ := hfound
    obtain ⟨chains, hc⟩ := hs.wellFormed
    obtain ⟨t', ht'⟩ := hc.exists_unlink he
    rw [hmap]
    refine ⟨t', hs.unlink hd hclass ht', fun m hm => ?_⟩
    refine hs.withHash hl hkey hm [table, key] fun m hm => (hfind m hm).bind fun m hm => ?_
    refine hm.read.bind fun m hm => ?_
    simp only [ht']
    exact (hl.write hm _).bind fun m hm => hm.pure _

theorem Models.deleteSafe (hs : Models strategy law domain t s)
    (hl : Lawful (meaning strategy) law domain scope table) (hkey : domain key) :
    Realizes scope table strategy domain t (deleteSafe meaning table key)
      ((s.mapping? key).map (·.2)) (s.next (.deleteSafe key)) := by
  obtain ⟨found, hfound, hfind⟩ := hs.find hl hkey
  cases found with
  | none =>
    have habsent : s.mapping? key = none := hfound
    rw [IdealTable.next, IdealTable.drop_of_mapping?_eq_none habsent, habsent]
    refine ⟨t, hs, fun m hm => ?_⟩
    refine hs.withHash hl hkey hm [table, key] fun m hm => (hfind m hm).bind fun m hm => ?_
    exact hm.pure none
  | some id =>
    obtain ⟨e, he, hd, hclass, hmap⟩ := hfound
    have ht := Table.tombstone_eq_some_iff.mpr ⟨he, hd, rfl⟩
    rw [IdealTable.next, hmap]
    refine ⟨_, hs.tombstone hclass ht, fun m hm => ?_⟩
    refine hs.withHash hl hkey hm [table, key] fun m hm => (hfind m hm).bind fun m hm => ?_
    refine hm.read.bind fun m hm => ?_
    simp only [ht]
    exact (hl.write hm _).bind fun m hm => hm.pure _

theorem Models.cleanupSafe (hs : Models strategy law domain t s)
    (hl : Lawful keys law domain scope table) :
    Realizes scope table strategy domain t (cleanupSafe table) s.deferred (s.next .cleanup) := by
  obtain ⟨t', ht', hw', hnone, hmapping⟩ := hs.wellFormed.unlinkAll_tombstones
  have hchanges : t.Changes t' := by
    have h := t.changes_unlinkAll t.tombstones
    rwa [ht'] at h
  have hs' : Models strategy law domain t' (s.next .cleanup) :=
    ⟨hw', hchanges.strategy_eq.trans hs.strategy_eq, hs.represents.congr hmapping, by
      rw [hnone]; rfl⟩
  refine ⟨t', hs', fun m hm => hm.read.bind fun m hm => ?_⟩
  rw [← hs.deferred_eq]
  simp only [ht']
  exact (hl.write hm _).bind fun m hm => hm.pure _

/-! ### Sequences of operations -/

theorem Realizes.map {a : Effect α} {x : α} {s' : IdealTable law}
    (h : Realizes scope table strategy domain t a x s') (g : α → β) :
    Realizes scope table strategy domain t (a >>= fun x => pure (g x)) (g x) s' := by
  obtain ⟨t', hs', ha⟩ := h
  exact ⟨t', hs', fun m hm => (ha m hm).bind fun m hm => hm.pure (g x)⟩

/-- An operation gives the answer of the ideal table. -/
theorem Models.perform (hs : Models strategy law domain t s)
    (hl : Lawful (meaning strategy) law domain scope table) {op : Op} (hop : s.Admits domain op) :
    Realizes scope table strategy domain t (op.perform meaning table) (s.answer op) (s.next op) := by
  cases op with
  | insert key record => exact (hs.insert hl hop record).map Answer.present
  | add key record => exact (hs.add hl hop.1 hop.2 record).map fun _ => Answer.done
  | lookup key => exact (hs.lookup hl hop).map Answer.found
  | delete key => exact (hs.delete hl hop).map Answer.found
  | deleteSafe key => exact (hs.deleteSafe hl hop).map Answer.found
  | cleanup => exact (hs.cleanupSafe hl).map Answer.removed

/-- A sequence of operations gives the answers of the ideal table. -/
theorem Models.performAll (hl : Lawful (meaning strategy) law domain scope table) :
    ∀ (ops : List Op) {t : Table} {s : IdealTable law}, Models strategy law domain t s →
      s.AdmitsAll domain ops →
      Realizes scope table strategy domain t (ops.mapM (Op.perform meaning table)) (s.answers ops)
        (s.run ops)
  | [], t, s, hs, _ => ⟨t, hs, fun m hm => by
      rw [List.mapM_nil]
      exact hm.pure []⟩
  | op :: ops, t, s, hs, hops => by
    obtain ⟨t', hs', hop⟩ := hs.perform hl hops.1
    obtain ⟨t'', hs'', hrest⟩ := Models.performAll hl ops hs' hops.2
    refine ⟨t'', hs'', fun m hm => ?_⟩
    rw [List.mapM_cons]
    exact (hop m hm).bind fun m hm => (hrest m hm).bind fun m hm => hm.pure _

/-- A new table stands for the empty ideal one. -/
theorem models_new (strategy : Strategy) (bins : Nat) (law : KeyLaw) (domain : Value → Prop) :
    Models strategy law domain (Table.new strategy bins) {} := by
  have hempty : ∀ id, (Table.new strategy bins).mapping? id = none := by
    intro id
    simp [Table.mapping?, Table.content?, Table.get?, Table.new]
  refine ⟨Table.wellFormed_new strategy bins, rfl, ⟨?_, fun c p => ?_, ?_⟩, ?_⟩
  · intro id e he
    rw [hempty] at he
    exact absurd he (by simp)
  · simp [hempty]
  · intro i j e f he
    rw [hempty] at he
    exact absurd he (by simp)
  · have hlinked : (Table.new strategy bins).linked = [] := by
      rw [Table.linked, List.flatMap_eq_nil_iff]
      exact fun bin _ => rfl
    rw [Table.tombstones, hlinked]
    rfl

/-- A new table on a sound heap with room for it. -/
theorem newTable_eq (strategy : Strategy) (bins : Nat) {m : Machine} (hsound : m.heap.Sound)
    (hroom : ((newTable strategy bins).after m).heap.slots.size ≤ 2 ^ 32) :
    ∃ table m', newTable strategy bins m = .ok table m' ∧
      m'.heap.read Facet.table table = .ok (Table.new strategy bins) := by
  have hstore : ∀ (m' : Machine) cls, m'.heap.Sound →
      newTable strategy bins m = store cls (.table (Table.new strategy bins)) m' →
      ∃ table m', newTable strategy bins m = .ok table m' ∧
        m'.heap.read Facet.table table = .ok (Table.new strategy bins) := by
    intro m' cls hm' heq
    rw [after, heq] at hroom
    have hget := (hm'.get?_insert cls _ hroom m'.heap.nextReference).trans (if_pos rfl)
    exact ⟨_, _, heq, Heap.read_eq_ok_iff.mpr ⟨_, hget, rfl⟩⟩
  have hask : newTable strategy bins m =
      alloc (m.classValue .dict) (.table (Table.new strategy bins)) m := rfl
  rcases alloc_cases (m.classValue .dict) (.table (Table.new strategy bins)) m with h | h
  · exact hstore m _ hsound (hask.trans h)
  · exact hstore _ _ (hsound.collect _) (hask.trans h)

/-- A new table answers every sequence of operations as a finite map does, if its keys obey a law:
inserting tells whether the key was there, looking up and removing give the record stored last, the
size is the number of keys, and every mapping is listed once, with the key that was entered first. -/
theorem tables_refine_finite_maps (meaning : KeyMeaning) (strategy : Strategy) (bins : Nat)
    (m₀ : Machine) (hsound : m₀.heap.Sound)
    (hroom : ((newTable strategy bins).after m₀).heap.slots.size ≤ 2 ^ 32) :
    ∃ table m, newTable strategy bins m₀ = .ok table m ∧
      ∀ (law : KeyLaw) (domain : Value → Prop) (scope : Machine → Prop),
        Lawful (meaning strategy) law domain scope table → scope m →
        ∀ ops : List Op, ({} : IdealTable law).AdmitsAll domain ops →
          ∃ m', ops.mapM (Op.perform meaning table) m = .ok (({} : IdealTable law).answers ops) m' ∧
            size table m' = .ok (({} : IdealTable law).run ops).map.keys.card m' ∧
            ∃ mappings, entries table m' = .ok mappings m' ∧
              (mappings : Multiset (Value × Value)) =
                (({} : IdealTable law).run ops).map.entries.map (·.2) := by
  obtain ⟨table, m, hnew, hread⟩ := newTable_eq strategy bins hsound hroom
  refine ⟨table, m, hnew, fun law domain scope hl hscope ops hops => ?_⟩
  obtain ⟨t, hs, hrun⟩ := Models.performAll hl ops (models_new strategy bins law domain) hops
  obtain ⟨m', heq, hm'⟩ := hrun m ⟨hscope, hread⟩
  refine ⟨m', heq, ?_, t.entries, ?_, hs.represents.entries_eq hs.wellFormed⟩
  · rw [← hs.represents.count_eq hs.wellFormed]
    exact bind_of_ok (read_of_ok hm'.read_eq)
  · exact bind_of_ok (read_of_ok hm'.read_eq)

/-- A machine with two texts that have the same contents. -/
def twoTexts : Machine :=
  { heap := (({ settings := {} } : Heap).insert .nil (.text "k")).insert .nil (.text "k") }

theorem tables_refine_finite_maps_equal_texts :
    let first : Value := .ofSlot 0 0
    let second : Value := .ofSlot 1 0
    let ops : List Op := [.insert first (.ofNat 1), .deleteSafe second, .lookup first,
      .add second (.ofNat 2), .cleanup, .insert first (.ofNat 3), .lookup second]
    ∃ table m m', newTable .text 0 twoTexts = .ok table m ∧
      ops.mapM (Op.perform (fun _ => Keys.text) table) m =
        .ok [.present false, .found (some (.ofNat 1)), .found none, .done, .removed 1,
          .present true, .found (some (.ofNat 3))] m' ∧
      size table m' = .ok 1 m' ∧ entries table m' = .ok [(second, .ofNat 3)] m' := by
  intro first second ops
  have hsound : twoTexts.heap.Sound := ((Heap.sound_fresh {}).insert _ _).insert _ _
  obtain ⟨table, m, hnew, h⟩ := tables_refine_finite_maps (fun _ => Keys.text) .text 0 twoTexts
    hsound (by decide)
  let domain : Value → Prop := fun key => key = first ∨ key = second
  have hne : ∀ {key}, domain key → key ≠ .absent := by
    rintro key (rfl | rfl)
    · decide
    · decide
  have hscope : ∀ key, domain key → m.heap.read Facet.text key = .ok "k" := by
    rw [← after_of_ok hnew]
    rintro key (rfl | rfl)
    · decide
    · decide
  let ideal : IdealTable (.ofView (fun _ => "k") textHash) := {}
  have hops : ideal.AdmitsAll domain ops :=
    ⟨Or.inl rfl, Or.inr rfl, Or.inl rfl, ⟨Or.inr rfl, rfl⟩, trivial, Or.inl rfl, Or.inr rfl, trivial⟩
  obtain ⟨m', hrun, hsize, mappings, hentries, hmap⟩ :=
    h _ domain _ (lawful_text hne (fun _ => "k") table) hscope ops hops
  have hanswers : ideal.answers ops = [.present false, .found (some (.ofNat 1)), .found none, .done,
      .removed 1, .present true, .found (some (.ofNat 3))] := by
    simp [ideal, ops, IdealTable.answers, IdealTable.answer, IdealTable.next]
  have hone : mappings = [(second, .ofNat 3)] := by
    simp only [ops, IdealTable.run, List.foldl, IdealTable.next, IdealTable.mapping?_mk,
      IdealTable.mapping?_put, KeyLaw.ofView_equal, decide_true, if_true, Option.map_some,
      Option.getD_some] at hmap
    exact Multiset.coe_eq_singleton.mp (hmap.trans rfl)
  rw [hanswers] at hrun
  rw [hone] at hentries
  exact ⟨table, m, m', hnew, hrun, hsize, hentries⟩

end Dictionary

end ObjectMachine
