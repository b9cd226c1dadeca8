import Mathlib.Tactic
import ObjectMachine.Proofs.Typing.Interning

/-! Tables of typed machines.

A table receives a mapping if programs may hold its key and its record, and if the mapping is a method
that belongs there in case the table is the method table of a class.  Tables of names compare their keys
by identity, so that a search changes nothing.  Tables of values send messages while they search; these
messages are quiet, so that the table is the same all the time. -/

namespace ObjectMachine

open Machine

/-! ### Changing tables -/

namespace Machine

variable {m : Machine} {quiet : Prop} {table key record : Value} {t : Table}

/-- Whether a mapping may be put into a table. -/
structure Receives (m : Machine) (table key record : Value) : Prop where
  public_key : m.Public key
  public_record : m.Public record
  method : ∀ c b e, m.heap.read Facet.cls c = .ok b → b.methods = table → e.key = key →
    e.record = record → m.MethodEntry c e

theorem Receives.with_handles (h : m.Receives table key record) (handles : Array Value) :
    Receives { m with handles := handles } table key record :=
  ⟨h.public_key, h.public_record, h.method⟩

/-- A table that is nobody's method table receives everything. -/
theorem receives_of_free (hfree : ∀ c b, m.heap.read Facet.cls c = .ok b → b.methods ≠ table)
    (hkey : m.Public key) (hrecord : m.Public record) : m.Receives table key record :=
  ⟨hkey, hrecord, fun c b _ hb heq => absurd heq (hfree c b hb)⟩

/-- What programs may hold stays so when a table changes. -/
theorem Public.modify_table {v : Value} {g : Table → Table} (hv : m.Public v)
    (hg : ∀ t, m.heap.read Facet.table table = .ok t → (g t).strategy = t.strategy) :
    Public { m with heap := m.heap.modify Facet.table table g } v := by
  refine hv.imp id fun ⟨o, ho, hopen⟩ => ?_
  by_cases hvt : v = table
  · subst hvt
    refine ⟨_, (Heap.get?_modifyObject_self m.heap v _).trans (congrArg _ ho), fun t ht => ?_⟩
    cases hb : Facet.table.get? o.body with
    | none =>
      simp only [hb] at ht
      exact hopen t ht
    | some t₀ =>
      simp only [hb] at ht
      obtain rfl := Body.table.inj ht
      rw [hg t₀ (Heap.read_eq_ok_iff.mpr ⟨o, ho, hb⟩)]
      exact hopen t₀ (Facet.lawful_table.put_eq hb).symm
  · exact ⟨o, (Heap.get?_modifyObject_of_ne m.heap hvt _).trans ho, hopen⟩

namespace Typed

theorem table_ne (hm : m.Typed ∅) (ht : m.heap.read Facet.table table = .ok t)
    (hs : t.strategy ≠ .text) : table ≠ m.symbols.table := by
  rintro rfl
  obtain ⟨o, t', ho, hb, htext⟩ := hm.exists_symbols
  obtain ⟨p, hp, hb'⟩ := Heap.read_eq_ok_iff.mp ht
  obtain rfl := Option.some.inj (ho.symm.trans hp)
  rw [hb] at hb'
  obtain rfl : t' = t := Option.some.inj hb'
  exact hs htext

theorem wellFormed (hm : m.Typed ∅) (ht : m.heap.read Facet.table table = .ok t) : t.WellFormed := by
  obtain ⟨o, ho, hb⟩ := Heap.read_eq_ok_iff.mp ht
  have hsuits := hm.shaped.suits table o ho
  rw [← Facet.lawful_table.put_eq hb] at hsuits
  exact hsuits.1

/-- What a table holds it would receive. -/
theorem receives (hm : m.Typed ∅) (ht : m.heap.read Facet.table table = .ok t) (hs : t.strategy ≠ .text)
    {id : EntryId} {e : Entry} (he : t.get? id = some e) : m.Receives table e.key e.record := by
  obtain ⟨o, ho, hb⟩ := Heap.read_eq_ok_iff.mp ht
  have hsuits := hm.shaped.suits table o ho
  rw [← Facet.lawful_table.put_eq hb] at hsuits
  obtain ⟨hkey, hrecord⟩ := hsuits.2 hs id e he
  refine ⟨hkey, hrecord, fun c b e' hc hmethods hkey' hrecord' => ?_⟩
  obtain ⟨t', ht', -, hentries⟩ := hm.shaped.methods c b hc (Set.notMem_empty c)
  rw [hmethods] at ht'
  obtain rfl := Except.ok.inj (ht.symm.trans ht')
  obtain ⟨d, p, i, hd, hp, hnative, hname, hsymbol⟩ := hentries id e he
  exact ⟨d, p, i, hd, hp, hrecord' ▸ hnative, hname, hkey'.trans hsymbol⟩

/-- A table with values as keys is nobody's method table. -/
theorem free_of_value (hm : m.Typed ∅) (ht : m.heap.read Facet.table table = .ok t)
    (hs : t.strategy = .value) : ∀ c b, m.heap.read Facet.cls c = .ok b → b.methods ≠ table := by
  rintro c b hc rfl
  obtain ⟨t', ht', hsymbol, -⟩ := hm.shaped.methods c b hc (Set.notMem_empty c)
  obtain rfl := Except.ok.inj (ht.symm.trans ht')
  rw [hs] at hsymbol
  cases hsymbol

/-- A structural change after which the table holds what it receives. -/
theorem writeTable (hm : m.Typed ∅) (ht : m.heap.read Facet.table table = .ok t) {g : Table → Table}
    (hs : t.strategy ≠ .text) (hwell : (g t).WellFormed) (hsame : (g t).strategy = t.strategy)
    (hentries : ∀ id e, (g t).get? id = some e → m.Receives table e.key e.record)
    (hquiet : quiet → t.strategy ≠ .value) :
    Typed ∅ { m with heap := m.heap.modify Facet.table table g } ∧
      m.Persists quiet { m with heap := m.heap.modify Facet.table table g } := by
  obtain ⟨o, ho, hb⟩ := Heap.read_eq_ok_iff.mp ht
  have hbody : o.body = .table t := (Facet.lawful_table.put_eq hb).symm
  refine hm.modify ho hb ⟨⟨rfl, ?_⟩, rfl, rfl, fun w hw => ?_, ⟨hwell, fun _ id e he => ?_⟩, nofun,
    fun c b t' hc hmethods ht' id e he => ?_, nofun, fun _ _ h => h⟩ id ?_ (hm.table_ne ht hs)
    fun hq => Body.inert_table (hsame ▸ hquiet hq)
  · rw [hbody]
    simp only [Facet.table, Body.outline, hsame]
  · obtain ⟨id, e, he, rfl | rfl⟩ := Table.mem_edges.mp hw
    · exact (hentries id e he).public_key.resolves
    · exact (hentries id e he).public_record.resolves
  · exact ⟨(hentries id e he).public_key, (hentries id e he).public_record⟩
  · obtain rfl := Body.table.inj ht'
    exact (hentries id e he).method c b e hc hmethods rfl rfl
  · exact Body.avoids_table fun id e he =>
      ⟨hm.public_ne (hentries id e he).public_key, hm.public_ne (hentries id e he).public_record⟩

/-- Events say nothing of a machine. -/
theorem with_events {bare : Set Value} (hm : m.Typed bare) (events : Array Event) :
    Typed bare { m with events := events } := by
  refine ⟨hm.shaped.of_heap_eq rfl rfl rfl id hm.shaped.intact.closed.roots, ?_⟩
  exact hm.discreet.with_heap events hm.discreet.heap

/-- Adding a mapping, for which the table may grow. -/
theorem exists_addHashed (hm : m.Typed ∅) (ht : m.heap.read Facet.table table = .ok t)
    (hs : t.strategy ≠ .text) (hr : m.Receives table key record) (hquiet : quiet → t.strategy ≠ .value)
    (hash : UInt64) : ∃ heap events, Dictionary.addHashed table hash key record m =
        .ok () { m with heap := heap, events := events } ∧
      Typed ∅ { m with heap := heap, events := events } ∧
      m.Persists quiet { m with heap := heap, events := events } := by
  have hw := hm.wellFormed ht
  obtain ⟨events, hadd⟩ := Dictionary.addHashed_eq ht hash key record
  have hchanges := t.changes_enter hash hr.public_key.ne_absent record
  have hentries (id : EntryId) (e : Entry) (he : (t.enter hash key record).get? id = some e) :
      m.Receives table e.key e.record := by
    rcases hw.slotted.get?_enter he with ⟨hkey, hrecord⟩ | ⟨e₀, he₀, hkey, hrecord⟩
    · exact hkey ▸ hrecord ▸ hr
    · exact hkey ▸ hrecord ▸ hm.receives ht hs he₀
  obtain ⟨hm', hk⟩ := hm.writeTable (g := fun _ => t.enter hash key record) ht hs (hw.changes hchanges)
    hchanges.strategy_eq hentries hquiet
  exact ⟨_, events, hadd, hm'.with_events events, hk.trans (.of_heap_eq rfl (carries_with _ _ _) rfl id)⟩

end Typed

end Machine

/-! ### Tables of names -/

namespace Dictionary

open Effect

variable {m : Machine} {quiet pre : Prop} {table key record : Value} {t : Table} {hash : UInt64}

theorem isMatch_symbol (key : Value) (hash : UInt64) (e : Entry) (m : Machine) :
    ∃ hit, isMatch Keys.symbol key hash e m = .ok hit m ∧ (hit = true → e.key = key) := by
  unfold isMatch
  split
  · split
    · rename_i h
      exact ⟨true, rfl, fun _ => beq_iff_eq.mp h⟩
    · exact ⟨key == e.key, rfl, fun h => (beq_iff_eq.mp h).symm⟩
  · exact ⟨false, rfl, nofun⟩

/-- Along a chain that ends, the search for a name ends and changes nothing. -/
theorem exists_findFrom_symbol (ht : m.heap.read Facet.table table = .ok t) :
    ∀ {chain : List EntryId} {fuel : Nat} {cursor : Option EntryId}, t.Leads cursor chain →
      chain.length ≤ fuel → ∃ found, findFrom Keys.symbol table key hash fuel cursor m = .ok found m ∧
        ∀ id, found = some id → ∃ e, t.get? id = some e ∧ e.key = key
  | [], fuel, cursor, hleads, _ => by
    obtain rfl : cursor = none := hleads
    exact ⟨none, by rw [findFrom]; rfl, nofun⟩
  | id :: rest, fuel + 1, cursor, hleads, hfuel => by
    obtain ⟨rfl, e, he, hrest⟩ := hleads
    obtain ⟨hit, hmatch, hkey⟩ := isMatch_symbol key hash e m
    rw [findFrom, bind_of_ok (read_of_ok ht)]
    simp only [he]
    rw [bind_of_ok hmatch]
    cases hit with
    | true => exact ⟨some id, rfl, fun j hj => Option.some.inj hj ▸ ⟨e, he, hkey rfl⟩⟩
    | false => exact exists_findFrom_symbol ht hrest (Nat.le_of_succ_le_succ hfuel)

theorem exists_find_symbol (ht : m.heap.read Facet.table table = .ok t) (hw : t.WellFormed) :
    ∃ found, find Keys.symbol table key hash m = .ok found m ∧
      ∀ id, found = some id → ∃ e, t.get? id = some e ∧ e.key = key := by
  obtain ⟨chains, hc⟩ := hw
  have hleads := hc.ends _ (hc.binOf_lt hash)
  rw [find, bind_of_ok (read_of_ok ht)]
  exact exists_findFrom_symbol ht hleads (hleads.length_le.trans (by omega))

/-- Looking a name up changes nothing. -/
theorem exists_lookup_symbol (ht : m.heap.read Facet.table table = .ok t) (hw : t.WellFormed)
    (key : Value) : ∃ found, lookup (fun _ => Keys.symbol) table key m = .ok found m ∧
      ∀ v, found = some v → ∃ id e, t.get? id = some e ∧ e.key = key ∧ e.record = v := by
  let m₁ : Machine := { m with handles := m.handles ++ [table, key].toArray }
  have ht₁ : m₁.heap.read Facet.table table = .ok t := ht
  obtain ⟨hash, hhash⟩ : ∃ hash, Keys.symbol.hash key m₁ = .ok hash m₁ := ⟨_, rfl⟩
  obtain ⟨found, hfind, hkey⟩ := exists_find_symbol ht₁ hw
  have hpin : pinAll [table, key] m = .ok () m₁ := pinAll_eq _ m
  rw [lookup, withHandles_eq, bind_of_ok hpin, keysOf_bind, bind_of_ok (read_of_ok ht₁), bind_of_ok hhash,
    bind_of_ok hfind]
  cases found with
  | none => exact ⟨none, by simp [m₁, pure, EStateM.pure], fun _ h => by cases h⟩
  | some id =>
    obtain ⟨e, he, hsame⟩ := hkey id rfl
    refine ⟨some e.record, ?_, fun v hv => ⟨id, e, he, hsame, Option.some.inj hv⟩⟩
    dsimp only
    rw [bind_of_ok (read_of_ok ht₁), he]
    simp [m₁, pure, EStateM.pure]

/-! ### What operations on one key have in common -/

theorem behaves_withHash {β : Type} {meaning : KeyMeaning} {pinned : List Value}
    {k : Keys → UInt64 → Effect β} {goal : β → Machine → Prop}
    (hp : m.Typed ∅ → pre → (∃ t, m.heap.read Facet.table table = .ok t) ∧
      ∀ v ∈ pinned, m.heap.Resolves v ∧ v ≠ m.symbols.table)
    (hgoal : ∀ x m' handles, goal x m' → goal x { m' with handles := handles })
    (hk : ∀ t m₁, m₁.heap.read Facet.table table = .ok t →
      Behaves quiet (Since quiet m m₁ pre ((∀ v ∈ pinned, v ∈ m₁.roots) ∧
        m₁ = { m with handles := m.handles ++ pinned.toArray }))
        ((meaning t.strategy).hash key >>= fun hash => k (meaning t.strategy) hash) m₁ goal) :
    Behaves quiet pre (withHandles do
      pinAll pinned
      let keys ← keysOf meaning table
      let hash ← keys.hash key
      k keys hash) m goal := by
  refine Behaves.withHandles ((behaves_pinAll fun hm h => (hp hm h).2).bind fun _ m₁ => ?_) hgoal
  rw [keysOf_bind]
  refine Behaves.read_bind (fun hm h => ?_) fun t ht => hk t m₁ ht
  obtain ⟨t, ht⟩ := (hp h.typed h.before).1
  exact ⟨t, by rw [h.result.2]; exact ht⟩

theorem behaves_addHashed (hash : UInt64) (hp : m.Typed ∅ → pre →
      (∃ t, m.heap.read Facet.table table = .ok t ∧ t.strategy ≠ .text ∧ (quiet → t.strategy ≠ .value)) ∧
      m.Receives table key record) :
    Behaves quiet pre (addHashed table hash key record) m fun _ _ => True := by
  refine .of_exists (Discreet.size_le (s := m.symbols.table)
    (discreet_addHashed False.elim False.elim False.elim hash) m) fun hm h _ => ?_
  obtain ⟨⟨t, ht, hs, hquiet⟩, hr⟩ := hp hm h
  obtain ⟨heap, events, hadd, hm', hk⟩ := hm.exists_addHashed ht hs hr hquiet hash
  exact ⟨(), _, hadd, hm', hk, trivial⟩

theorem behaves_writeTable {g : Table → Table} (hp : m.Typed ∅ → pre → ∃ t,
      m.heap.read Facet.table table = .ok t ∧ t.strategy ≠ .text ∧ (quiet → t.strategy ≠ .value) ∧
      (g t).WellFormed ∧ (g t).strategy = t.strategy ∧
      ∀ id e, (g t).get? id = some e → m.Receives table e.key e.record) :
    Behaves quiet pre (write Facet.table table g) m
      fun _ m' => m' = { m with heap := m.heap.modify Facet.table table g } := by
  refine .of_exists ?_ fun hm h _ => ?_
  · rcases after_write Facet.table table g m with h | h
    · rw [h]
    · rw [h]
      exact le_of_eq (Heap.size_modifyObject _ _ _).symm
  · obtain ⟨t, ht, hs, hquiet, hwell, hsame, hentries⟩ := hp hm h
    obtain ⟨hm', hk⟩ := hm.writeTable ht hs hwell hsame hentries hquiet
    exact ⟨(), _, write_of_ok ht g, hm', hk, rfl⟩

theorem behaves_hash_symbol (key : Value) :
    Behaves quiet pre (Keys.symbol.hash key) m fun _ m' => m' = m :=
  behaves_pure fun _ _ => rfl

theorem behaves_find_symbol (hash : UInt64) (hp : m.Typed ∅ → pre → m.NameTable table) :
    Behaves quiet pre (find Keys.symbol table key hash) m fun found m' => m' = m ∧
      ∀ id, found = some id → ∃ t e, m.heap.read Facet.table table = .ok t ∧ t.get? id = some e ∧
        e.key = key := by
  refine .of_exists (Discreet.size_le (s := m.symbols.table)
    (discreet_find discreetKeys_symbol False.elim hash) m) fun hm h _ => ?_
  obtain ⟨t, ht, -⟩ := hp hm h
  obtain ⟨found, hfind, hkey⟩ := exists_find_symbol ht (hm.wellFormed ht)
  refine ⟨found, m, hfind, hm, .refl m, rfl, fun id hid => ?_⟩
  obtain ⟨e, he, hsame⟩ := hkey id hid
  exact ⟨t, e, ht, he, hsame⟩

theorem behaves_lookup_symbol (hp : m.Typed ∅ → pre → m.NameTable table) :
    Behaves quiet pre (lookup (fun _ => Keys.symbol) table key) m fun found m' => m' = m ∧
      ∀ v, found = some v → ∃ t id e, m.heap.read Facet.table table = .ok t ∧ t.get? id = some e ∧
        e.key = key ∧ e.record = v := by
  refine .of_exists (Discreet.size_le (s := m.symbols.table)
    (discreet_lookup (fun _ => discreetKeys_symbol) False.elim False.elim) m) fun hm h _ => ?_
  obtain ⟨t, ht, -⟩ := hp hm h
  obtain ⟨found, hfound, hentry⟩ := exists_lookup_symbol ht (hm.wellFormed ht) key
  exact ⟨found, m, hfound, hm, .refl m, rfl, fun v hv => ⟨t, (hentry v hv).imp fun id h =>
    h.imp fun e h => ⟨ht, h⟩⟩⟩

/-- The part of an insertion that comes after the search. -/
theorem behaves_put {found : Option EntryId} (hash : UInt64) (hp : m.Typed ∅ → pre →
      (∃ t, m.heap.read Facet.table table = .ok t ∧ t.strategy ≠ .text ∧ (quiet → t.strategy ≠ .value) ∧
        ∀ id e, found = some id → t.get? id = some e → m.Receives table e.key record) ∧
      m.Receives table key record) :
    Behaves quiet pre (do
      let t ← read Facet.table table
      match found.filter fun id => (t.get? id).isSome with
      | some id =>
        write Facet.table table (·.setRecord id record)
        return true
      | none =>
        addHashed table hash key record
        return false) m fun _ _ => True := by
  refine Behaves.read_bind (fun hm h => ?_) fun t ht => ?_
  · obtain ⟨⟨t, ht, -⟩, -⟩ := hp hm h
    exact ⟨t, ht⟩
  cases hfound : found.filter fun id => (t.get? id).isSome with
  | none =>
    refine (behaves_addHashed hash fun hm h => ?_).bind fun _ _ => behaves_pure fun _ _ => trivial
    obtain ⟨⟨t', ht', hs, hquiet, -⟩, hr⟩ := hp hm h
    exact ⟨⟨t', ht', hs, hquiet⟩, hr⟩
  | some id =>
    refine (behaves_writeTable fun hm h => ?_).bind fun _ _ => behaves_pure fun _ _ => trivial
    obtain ⟨⟨t', ht', hs, hquiet, hentry⟩, hr⟩ := hp hm h
    obtain rfl := Except.ok.inj (ht.symm.trans ht')
    have hid : found = some id := (Option.filter_eq_some_iff.mp hfound).1
    have hchange : t.Change (t.setRecord id record) := .setRecord id record
    refine ⟨t, ht, hs, hquiet, (hm.wellFormed ht).change hchange, hchange.strategy_eq, fun j e he => ?_⟩
    rw [Table.setRecord, Table.get?_adjust] at he
    split at he
    · obtain ⟨e', he', rfl⟩ := Option.map_eq_some_iff.mp he
      exact hentry id e' hid he'
    · exact hm.receives ht hs he

/-- Binding a name. -/
theorem behaves_insert_symbol (hp : m.Typed ∅ → pre → m.NameTable table ∧ m.Receives table key record) :
    Behaves quiet pre (insert (fun _ => Keys.symbol) table key record) m fun _ _ => True := by
  refine behaves_withHash (fun hm h => ?_) (fun _ _ _ h => h) fun t m₁ _ => ?_
  · obtain ⟨⟨t, ht, hsymbol⟩, hr⟩ := hp hm h
    have hne : t.strategy ≠ .text := by rw [hsymbol]; nofun
    refine ⟨⟨t, ht⟩, ?_⟩
    simp only [List.forall_mem_cons]
    exact ⟨⟨Heap.resolves_of_read ht, hm.table_ne ht hne⟩,
      ⟨hr.public_key.resolves, hm.public_ne hr.public_key⟩,
      ⟨hr.public_record.resolves, hm.public_ne hr.public_record⟩, nofun⟩
  refine Behaves.bind (behaves_hash_symbol key) fun hash m₂ => (behaves_find_symbol hash
    fun _ h => ?_).bind fun found m₃ => behaves_put hash fun _ h => ?_
  · obtain ⟨rfl, hbefore⟩ := And.intro h.result h.before
    rw [hbefore.result.2]
    exact (hp hbefore.typed hbefore.before).1
  · -- the search and what comes before it changed nothing but handles
    obtain ⟨⟨rfl, hentry⟩, rfl, hbefore⟩ := And.intro h.result (And.intro h.before.result h.before.before)
    obtain ⟨⟨t, ht, hsymbol⟩, hr⟩ := hp hbefore.typed hbefore.before
    have heq := hbefore.result.2
    have ht' : m₃.heap.read Facet.table table = .ok t := by rw [heq]; exact ht
    have hr' : m₃.Receives table key record := heq ▸ hr.with_handles _
    refine ⟨⟨t, ht', by rw [hsymbol]; nofun, fun _ => by rw [hsymbol]; nofun, fun id e hid he => ?_⟩, hr'⟩
    obtain ⟨t'', e', ht'', he', hkey⟩ := hentry id hid
    obtain rfl := Except.ok.inj (ht'.symm.trans ht'')
    obtain rfl := Option.some.inj (he.symm.trans he')
    exact hkey ▸ hr'

end Dictionary

/-! ### Tables of values -/

/-- Keys whose hashes and comparisons can be computed at any time, and quietly. -/
structure Keys.Tame (keys : Keys) : Prop where
  hash : ∀ {pre : Prop} {m : Machine} {key : Value}, (m.Typed ∅ → pre → m.Public key) →
    Effect.Behaves True pre (keys.hash key) m fun _ _ => True
  equal : ∀ {pre : Prop} {m : Machine} {key other : Value}, (m.Typed ∅ → pre → m.Public key) →
    (m.Typed ∅ → pre → m.Public other) →
    Effect.Behaves True pre (keys.equal key other) m fun _ _ => True

/-- A search of a table with values as keys, with enough steps for the rest of the chain. -/
structure Machine.Searches (m : Machine) (table key : Value) (fuel : Nat) (cursor : Option EntryId) :
    Prop where
  table_root : table ∈ m.roots
  key_root : key ∈ m.roots
  public_key : m.Public key
  chain : ∃ t chain, m.heap.read Facet.table table = .ok t ∧ t.strategy = .value ∧
    t.Leads cursor chain ∧ chain.length ≤ fuel

namespace Dictionary

open Effect

variable {keys : Keys} {m : Machine} {pre : Prop} {table key record : Value} {hash : UInt64}

theorem behaves_isMatch (hk : keys.Tame) {e : Entry} (hkey : m.Typed ∅ → pre → m.Public key)
    (he : m.Typed ∅ → pre → m.Public e.key) :
    Behaves True pre (isMatch keys key hash e) m fun _ _ => True := by
  unfold isMatch
  split
  · split
    · exact behaves_pure fun _ _ => trivial
    · exact hk.equal hkey he
  · exact behaves_pure fun _ _ => trivial

/-- The comparisons leave the table as it is, so that the search follows a chain that ends. -/
theorem behaves_findFrom (hk : keys.Tame) : ∀ {fuel : Nat} {cursor : Option EntryId} {m : Machine}
    {pre : Prop}, (m.Typed ∅ → pre → m.Searches table key fuel cursor) →
      Behaves True pre (findFrom keys table key hash fuel cursor) m fun found m' =>
        ∀ id, found = some id → ∃ t e, m'.heap.read Facet.table table = .ok t ∧ t.strategy = .value ∧
          t.get? id = some e
  | fuel, none, m, pre, _ => by
    rw [findFrom]
    exact behaves_pure fun _ _ _ h => by cases h
  | 0, some id, m, pre, hp => by
    refine .of_never (u := .depthExceeded) rfl fun hm h => ?_
    obtain ⟨t, chain, -, -, hleads, hlength⟩ := (hp hm h).chain
    obtain rfl := List.eq_nil_of_length_eq_zero (Nat.le_zero.mp hlength)
    cases hleads
  | fuel + 1, some id, m, pre, hp => by
    refine Behaves.read_bind (fun hm h => ?_) fun t ht => ?_
    · obtain ⟨t, chain, ht, -⟩ := (hp hm h).chain
      exact ⟨t, ht⟩
    cases he : t.get? id with
    | none => exact (behaves_record _).bind fun _ _ => behaves_pure fun _ _ _ h => by cases h
    | some e =>
      have hvalue : m.Typed ∅ → pre → t.strategy = .value := fun hm h => by
        obtain ⟨t', chain, ht', hvalue, -⟩ := (hp hm h).chain
        exact Except.ok.inj (ht.symm.trans ht') ▸ hvalue
      refine (behaves_isMatch hk (e := e) (fun hm h => (hp hm h).public_key) fun hm h => ?_).bind
        fun hit m₁ => ?_
      · exact (hm.receives ht (by rw [hvalue hm h]; rintro ⟨⟩) he).public_key
      -- no comparison changes the table
      have hsame : Since True m m₁ pre True → m₁.heap.read Facet.table table = .ok t := fun h =>
        h.persists.read_table trivial (hp h.typed h.before).table_root ht (hvalue h.typed h.before)
      cases hit with
      | true =>
        refine behaves_pure fun _ h j hj => ?_
        obtain rfl := Option.some.inj hj
        exact ⟨t, e, hsame h, hvalue h.typed h.before, he⟩
      | false =>
        refine behaves_findFrom hk fun _ h => ?_
        obtain ⟨htable, hkey, hpublic, t', chain, ht', -, hleads, hlength⟩ := hp h.typed h.before
        obtain rfl := Except.ok.inj (ht.symm.trans ht')
        obtain ⟨rest, rfl, hrest⟩ := hleads.exists_cons he
        exact ⟨h.persists.carries.roots_subset htable, h.persists.carries.roots_subset hkey,
          h.persists.public_root hpublic hkey, t, rest, hsame h, hvalue h.typed h.before, hrest,
          Nat.le_of_succ_le_succ hlength⟩

/-- Searching a table with values as keys. -/
theorem behaves_find (hk : keys.Tame) (hp : m.Typed ∅ → pre → table ∈ m.roots ∧ key ∈ m.roots ∧
      m.Public key ∧ ∃ t, m.heap.read Facet.table table = .ok t ∧ t.strategy = .value) :
    Behaves True pre (find keys table key hash) m fun found m' =>
      ∀ id, found = some id → ∃ t e, m'.heap.read Facet.table table = .ok t ∧ t.strategy = .value ∧
        t.get? id = some e := by
  refine Behaves.read_bind (fun hm h => ?_) fun t ht => behaves_findFrom hk fun hm h => ?_
  · obtain ⟨-, -, -, t, ht, -⟩ := hp hm h
    exact ⟨t, ht⟩
  · obtain ⟨htable, hkey, hpublic, t', ht', hvalue⟩ := hp hm h
    obtain rfl := Except.ok.inj (ht.symm.trans ht')
    obtain ⟨chains, hc⟩ := hm.wellFormed ht
    have hleads := hc.ends _ (hc.binOf_lt hash)
    exact ⟨htable, hkey, hpublic, t, _, ht, hvalue, hleads, hleads.length_le.trans (by omega)⟩

section Operations

variable {quiet : Prop} (hk : keys.Tame)

include hk

/-- The operations on one key of a table of values pin what they work with, and search. -/
theorem behaves_withFind {β : Type} {pinned : List Value} {k : UInt64 → Option EntryId → Effect β}
    {goal : β → Machine → Prop} (htable : table ∈ pinned) (hkey : key ∈ pinned)
    (hp : m.Typed ∅ → pre → (∃ t, m.heap.read Facet.table table = .ok t ∧ t.strategy = .value) ∧
      ∀ v ∈ pinned, m.Public v)
    (hgoal : ∀ x m' handles, goal x m' → goal x { m' with handles := handles })
    (hrest : ∀ {pre' : Prop} hash found m', (m'.Typed ∅ → pre' → (∀ v ∈ pinned, v ∈ m'.roots ∧ m'.Public v) ∧
        ∃ t, m'.heap.read Facet.table table = .ok t ∧ t.strategy = .value ∧
          ∀ id, found = some id → ∃ e, t.get? id = some e) → Behaves quiet pre' (k hash found) m' goal) :
    Behaves quiet pre (withHandles do
      pinAll pinned
      let keys ← keysOf (fun _ => keys) table
      let hash ← keys.hash key
      let found ← find keys table key hash
      k hash found) m goal := by
  refine behaves_withHash (fun hm h => ?_) hgoal fun t m₁ _ => ?_
  · obtain ⟨⟨t, ht, -⟩, hpublic⟩ := hp hm h
    exact ⟨⟨t, ht⟩, fun v hv => ⟨(hpublic v hv).resolves, hm.public_ne (hpublic v hv)⟩⟩
  have hstart : Since quiet m m₁ pre ((∀ v ∈ pinned, v ∈ m₁.roots) ∧
      m₁ = { m with handles := m.handles ++ pinned.toArray }) → (∀ v ∈ pinned, v ∈ m₁.roots ∧ m₁.Public v) ∧
      ∃ t, m₁.heap.read Facet.table table = .ok t ∧ t.strategy = .value := by
    rintro ⟨hpre, hm, -, hroots, heq⟩
    obtain ⟨ht, hpublic⟩ := hp hm hpre
    exact ⟨fun v hv => ⟨hroots v hv, heq ▸ hpublic v hv⟩, heq ▸ ht⟩
  -- what is pinned stays, and so does the strategy of the table
  have hkeep : ∀ {m m' : Machine}, m.Persists quiet m' → (∀ v ∈ pinned, v ∈ m.roots ∧ m.Public v) ∧
      (∃ t, m.heap.read Facet.table table = .ok t ∧ t.strategy = .value) →
      (∀ v ∈ pinned, v ∈ m'.roots ∧ m'.Public v) ∧
      ∃ t, m'.heap.read Facet.table table = .ok t ∧ t.strategy = .value := by
    rintro m m' hpersists ⟨hpinned, t, ht, hvalue⟩
    obtain ⟨t', ht', hsame⟩ := hpersists.exists_read_table (Or.inl (hpinned table htable).1) ht
    refine ⟨fun v hv => ?_, t', ht', hsame.trans hvalue⟩
    obtain ⟨hr, hpublic⟩ := hpinned v hv
    exact ⟨hpersists.carries.roots_subset hr, hpersists.public_root hpublic hr⟩
  refine ((hk.hash fun _ h => ((hstart h).1 key hkey).2).loud fun _ => trivial).bind fun hash m₂ =>
    ((behaves_find hk fun _ h => ?_).loud fun _ => trivial).bind fun found m₃ => hrest hash found m₃ fun _ h => ?_
  · obtain ⟨hpinned, ht⟩ := hkeep h.persists (hstart h.before)
    exact ⟨(hpinned table htable).1, (hpinned key hkey).1, (hpinned key hkey).2, ht⟩
  · obtain ⟨hpinned, t, ht, hvalue⟩ := hkeep h.persists (hkeep h.before.persists (hstart h.before.before))
    refine ⟨hpinned, t, ht, hvalue, fun id hid => ?_⟩
    obtain ⟨t', e, ht', -, he⟩ := h.result id hid
    obtain rfl := Except.ok.inj (ht.symm.trans ht')
    exact ⟨e, he⟩

/-- What a table of values gives programs may hold. -/
theorem behaves_lookup (hp : m.Typed ∅ → pre → (∃ t, m.heap.read Facet.table table = .ok t ∧
      t.strategy = .value) ∧ m.Public table ∧ m.Public key) :
    Behaves quiet pre (lookup (fun _ => keys) table key) m
      fun found m' => ∀ v, found = some v → m'.Public v := by
  refine behaves_withFind hk List.mem_cons_self (by simp) (fun hm h => ?_) (fun _ _ _ h => h)
    fun hash found m' hfound => ?_
  · obtain ⟨ht, htable, hkey⟩ := hp hm h
    exact ⟨ht, by simp [htable, hkey]⟩
  cases found with
  | none => exact behaves_pure fun _ _ => nofun
  | some id =>
    refine Behaves.read_bind (fun hm h => ?_) fun t ht => behaves_pure fun hm h v hv => ?_
    · obtain ⟨-, t, ht, -⟩ := hfound hm h
      exact ⟨t, ht⟩
    · obtain ⟨-, t', ht', hvalue, -⟩ := hfound hm h
      obtain rfl := Except.ok.inj (ht.symm.trans ht')
      obtain ⟨e, he, rfl⟩ := Option.map_eq_some_iff.mp hv
      exact (hm.receives ht (by rw [hvalue]; nofun) he).public_record

theorem behaves_insert (hp : m.Typed ∅ → pre → (∃ t, m.heap.read Facet.table table = .ok t ∧
      t.strategy = .value) ∧ m.Public table ∧ m.Public key ∧ m.Public record) (hloud : ¬ quiet) :
    Behaves quiet pre (insert (fun _ => keys) table key record) m fun _ _ => True := by
  refine behaves_withFind hk List.mem_cons_self (by simp) (fun hm h => ?_) (fun _ _ _ h => h)
    fun hash found m' hfound => behaves_put hash fun hm h => ?_
  · obtain ⟨ht, htable, hkey, hrecord⟩ := hp hm h
    exact ⟨ht, by simp [htable, hkey, hrecord]⟩
  · obtain ⟨hpinned, t, ht, hvalue, -⟩ := hfound hm h
    have hfree := hm.free_of_value ht hvalue
    have hrecord := (hpinned record (by simp)).2
    have hne : t.strategy ≠ .text := by rw [hvalue]; nofun
    refine ⟨⟨t, ht, hne, fun hq => absurd hq hloud, fun id e _ he => ?_⟩,
      receives_of_free hfree (hpinned key (by simp)).2 hrecord⟩
    exact receives_of_free hfree (hm.receives ht hne he).public_key hrecord

theorem behaves_delete (hp : m.Typed ∅ → pre → (∃ t, m.heap.read Facet.table table = .ok t ∧
      t.strategy = .value) ∧ m.Public table ∧ m.Public key) (hloud : ¬ quiet) :
    Behaves quiet pre (delete (fun _ => keys) table key) m
      fun found m' => ∀ v, found = some v → m'.Public v := by
  refine behaves_withFind hk List.mem_cons_self (by simp) (fun hm h => ?_) (fun _ _ _ h => h)
    fun hash found m' hfound => ?_
  · obtain ⟨ht, htable, hkey⟩ := hp hm h
    exact ⟨ht, by simp [htable, hkey]⟩
  cases found with
  | none => exact behaves_pure fun _ _ => nofun
  | some id =>
    refine Behaves.read_bind (fun hm h => ?_) fun t ht => ?_
    · obtain ⟨-, t, ht, -⟩ := hfound hm h
      exact ⟨t, ht⟩
    -- the entry that was found is live, so it can be unlinked
    have hlive : m'.Typed ∅ → _ → ∃ e u, t.get? id = some e ∧ t.unlink id = .ok (e, u) := fun hm h => by
      obtain ⟨-, t', ht', -, hid⟩ := hfound hm h
      obtain rfl := Except.ok.inj (ht.symm.trans ht')
      obtain ⟨e, he⟩ := hid id rfl
      obtain ⟨chains, hc⟩ := hm.wellFormed ht
      obtain ⟨u, hu⟩ := hc.exists_unlink he
      exact ⟨e, u, he, hu⟩
    cases hunlink : t.unlink id with
    | error how =>
      refine .of_never (u := .corruptedTable how) rfl fun hm h => ?_
      obtain ⟨e, u, -, hu⟩ := hlive hm h
      rw [hunlink] at hu
      cases hu
    | ok p =>
      obtain ⟨e, u⟩ := p
      have hchange : t.Change u := .unlink hunlink
      refine (behaves_writeTable fun hm h => ?_).bind fun _ m'' => behaves_pure fun hm h v hv => ?_
      · obtain ⟨-, t', ht', hvalue, -⟩ := hfound hm h
        obtain rfl := Except.ok.inj (ht.symm.trans ht')
        have hne : t.strategy ≠ .text := by rw [hvalue]; nofun
        obtain ⟨chains, hc⟩ := hm.wellFormed ht
        refine ⟨t, ht, hne, fun hq => absurd hq hloud, (hm.wellFormed ht).change hchange,
          hchange.strategy_eq, fun j e' he' => ?_⟩
        have hcontent := (hc.unlink hunlink).2.2 j
        split at hcontent
        · rw [Table.content?, he'] at hcontent
          cases hcontent
        · obtain ⟨e₀, he₀, hsame⟩ := Table.exists_get?_of_content?_eq hcontent.symm he'
          simp only [Entry.content, Entry.mk.injEq] at hsame
          exact hsame.2.1 ▸ hsame.2.2.1 ▸ hm.receives ht hne he₀
      · obtain ⟨e₀, u', he₀, hu⟩ := hlive h.typed h.before
        obtain ⟨-, t', ht', hvalue, -⟩ := hfound h.typed h.before
        obtain rfl := Except.ok.inj (ht.symm.trans ht')
        obtain ⟨rfl, -⟩ := Prod.mk.inj (Except.ok.inj (hunlink.symm.trans hu))
        obtain rfl := Option.some.inj hv
        rw [h.result]
        refine (h.typed.receives ht (by rw [hvalue]; nofun) he₀).public_record.modify_table fun t' ht' => ?_
        obtain rfl := Except.ok.inj (ht.symm.trans ht')
        exact hchange.strategy_eq

end Operations

end Dictionary

end ObjectMachine
