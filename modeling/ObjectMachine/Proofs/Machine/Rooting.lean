import Mathlib.Tactic
import ObjectMachine.Classes
import ObjectMachine.Proofs.Dictionary.Rooting

/-! Symbols, classes, methods and attributes keep a machine closed.

Each of these operations makes several objects, and any of the allocations may collect.  Between them
the values at work are pinned, reachable from something pinned, or part of the object that is made
next. -/

namespace ObjectMachine

open Machine Effect Dictionary

variable {avoided lost written : Set Value} {sure pre : Prop} {m : Machine}

/-! ### Symbols -/

/-- The symbol table is in order: its keys are texts, and every search in it comes to an end. -/
def Machine.SymbolsOrderly (m : Machine) : Prop :=
  ∃ t, m.heap.read Facet.table m.symbols.table = .ok t ∧ t.strategy = .text ∧ t.WellFormed ∧
    ∀ id e, t.get? id = some e → e.isTombstone = false → ∃ s, m.heap.read Facet.text e.key = .ok s

/-- Looking a text up finds a record of the table, and only looks. -/
theorem secure_findTextFrom {t : Table} {text : String} {hash : UInt64} :
    ∀ (fuel : Nat) (cursor : Option EntryId),
      (m.Intact → pre → ∀ id e, t.get? id = some e → m.Anchored e.record) →
      (m.Intact → pre → sure → ∃ chain, t.Leads cursor chain ∧ chain.length ≤ fuel ∧
        ∀ id e, t.get? id = some e → e.isTombstone = false →
          ∃ s, m.heap.read Facet.text e.key = .ok s) →
      Secure avoided lost written sure pre (findTextFrom t text hash fuel cursor) m
        fun found m' => m' = m ∧ ∀ v, found = some v → m.Anchored v
  | fuel, none, _, _ => by
    rw [findTextFrom]
    exact secure_pure fun _ _ => ⟨rfl, fun v hv => by cases hv⟩
  | 0, some id, _, hs => by
    refine secure_fault _ fun hm h hsure => ?_
    obtain ⟨chain, hleads, hlen, -⟩ := hs hm h hsure
    cases List.length_eq_zero_iff.mp (Nat.le_zero.mp hlen)
    cases hleads
  | fuel + 1, some id, hp, hs => by
    rw [findTextFrom]
    cases hid : t.get? id with
    | none =>
      refine secure_fault _ fun hm h hsure => ?_
      obtain ⟨chain, hleads, -⟩ := hs hm h hsure
      cases chain with
      | nil => cases hleads
      | cons j rest =>
        obtain ⟨hj, e, he, -⟩ := hleads
        obtain rfl := Option.some.inj hj
        rw [hid] at he
        cases he
    | some e =>
      have hgo : ∀ hit : Bool, Secure avoided lost written sure pre
          (if hit = true then pure (some e.record) else findTextFrom t text hash fuel e.next) m
          fun found m' => m' = m ∧ ∀ v, found = some v → m.Anchored v := by
        intro hit
        cases hit with
        | true =>
          refine secure_pure fun hm h => ⟨rfl, fun v hv => ?_⟩
          exact Option.some.inj hv ▸ hp hm h id e hid
        | false =>
          refine secure_findTextFrom fuel e.next hp fun hm h hsure => ?_
          obtain ⟨chain, hleads, hlen, hkeys⟩ := hs hm h hsure
          obtain ⟨rest, rfl, hrest⟩ := hleads.exists_cons hid
          exact ⟨rest, hrest, Nat.le_of_succ_le_succ hlen, hkeys⟩
      by_cases hc : (e.hash == hash && !e.isTombstone) = true
      · simp only [hc, if_true]
        refine Secure.read_bind (fun s _ => ?_) fun hm h hsure => ?_
        · rw [pure_bind]
          exact hgo _
        · obtain ⟨-, -, -, hkeys⟩ := hs hm h hsure
          exact hkeys id e hid (by simpa using (Bool.and_eq_true_iff.mp hc).2)
      · simp only [hc]
        exact hgo false

theorem secure_lookupText {table : Value} (text : String)
    (hp : m.Intact → pre → table ∈ m.roots)
    (hs : m.Intact → pre → sure → ∃ t, m.heap.read Facet.table table = .ok t ∧ t.strategy = .text ∧
      t.WellFormed ∧ ∀ id e, t.get? id = some e → e.isTombstone = false →
        ∃ s, m.heap.read Facet.text e.key = .ok s) :
    Secure avoided lost written sure pre (lookupText table text) m fun found m' => m' = m ∧
      (∀ v, found = some v → m.Anchored v) ∧ ∃ t, m.heap.read Facet.table table = .ok t := by
  refine Secure.read_bind (fun t ht => ?_) fun hm h hsure => ?_
  · split
    · refine (secure_findTextFrom _ _ (fun hm h id e he => ?_) fun hm h hsure => ?_).imp
        (fun _ h => h) fun _ _ _ _ _ _ _ hfound => ⟨hfound.1, hfound.2, t, ht⟩
      · exact hm.anchored_of_read Facet.lawful_table (hm.anchored_of_root (hp hm h)) ht
          (Table.mem_edges.mpr ⟨id, e, he, Or.inr rfl⟩)
      · obtain ⟨t', ht', -, ⟨chains, hc⟩, hkeys⟩ := hs hm h hsure
        obtain rfl := Except.ok.inj (ht.symm.trans ht')
        have hleads := hc.ends _ (hc.binOf_lt (textHash text))
        have hlen := hleads.length_le
        exact ⟨_, hleads, by omega, hkeys⟩
    · rename_i hstrategy
      refine secure_fault _ fun hm h hsure => ?_
      obtain ⟨t', ht', htext, -⟩ := hs hm h hsure
      obtain rfl := Except.ok.inj (ht.symm.trans ht')
      simp [htext] at hstrategy
  · obtain ⟨t, ht, -⟩ := hs hm h hsure
    exact ⟨t, ht⟩

/-- Interning writes to the symbol table only. -/
theorem secure_intern (name : String) (hw : m.symbols.table ∈ written)
    (hs : m.Intact → pre → sure → m.SymbolsOrderly) :
    Secure ∅ ∅ written sure pre (intern name) m fun v m' => m'.Anchored v ∧
      ∃ t, m.heap.read Facet.table m.symbols.table = .ok t := by
  have htable : m.symbols.table ∈ m.roots := mem_roots.mpr (Or.inr (Or.inl rfl))
  refine Secure.intact (Secure.ask_bind ?_)
  refine Secure.bind (secure_lookupText name (fun _ _ => htable) fun hm h => hs hm h.2)
    fun found m₁ _ => ?_
  cases found with
  | some symbol =>
    refine secure_pure fun _ h => ?_
    obtain ⟨-, hk, -, hfound, ht⟩ := h
    exact ⟨hk.anchored (hfound symbol rfl), ht⟩
  | none =>
    refine Secure.ask_bind (Secure.update_bind le_rfl (fun hm _ _ => ?_) ?_)
    · exact .of_heap_eq hm rfl (List.Subset.refl _)
        ⟨rfl, rfl, rfl, List.prefix_rfl, List.Subset.refl _⟩
    refine Secure.bind (Secure.newText name) fun key m₃ _ => ?_
    -- what the rest relies on: the new text is there, and the symbol table still is a root
    suffices hadd : Secure ∅ ∅ written sure ((m.Intact ∧ pre) ∧ Keeps ∅ ∅ written m m₃ ∧
        m₃.heap.read Facet.text key = .ok name ∧ ∃ t, m.heap.read Facet.table m.symbols.table = .ok t)
        (Dictionary.add (fun _ => Keys.text) m.symbols.table key (.ofSymbol m₁.symbols.names.size)) m₃
        fun _ _ => True by
      refine (hadd.imp (fun _ h => ?_) fun _ _ _ _ _ _ _ h => h).map _ fun _ _ _ h _ => ?_
      · obtain ⟨⟨⟨hm, hk₁, -, -, ht⟩, hk₂⟩, hk₃, hmade⟩ := h
        exact ⟨hm, (hk₁.trans hk₂).trans hk₃, hmade.read_eq rfl, ht⟩
      · exact ⟨Or.inl (Value.isRef_ofSymbol _), h.1.1.2.2.2.2⟩
    refine secure_add (Set.empty_subset written) hw (fun s m₄ => ?_) (fun hm h => ?_)
      fun _ h hsure => ?_
    · refine Secure.read_bind (fun _ _ => secure_pure fun _ _ => trivial) fun _ h _ => ?_
      obtain ⟨⟨-, -, htext, -⟩, hpinned⟩ := h
      exact ⟨name, by rwa [hpinned.heap_eq]⟩
    · obtain ⟨-, hk, htext, -⟩ := h
      exact Heap.resolves_triple (hm.closed.roots _ (hk.carries.roots_subset htable))
        (Heap.resolves_of_read htext) (Heap.resolves_of_not_isRef (Value.isRef_ofSymbol _))
    · obtain ⟨-, hk, -, t, ht⟩ := h
      exact hk.exists_read htable Facet.lawful_table ht

/-- Inserting with symbol keys writes to the table only. -/
theorem secure_insertSymbol {table key record : Value}
    (hw : m.Intact → pre → table ∈ written ∧ table ∈ lost)
    (hp : m.Intact → pre → ∀ v ∈ [table, key, record], m.heap.Resolves v)
    (hs : m.Intact → pre → sure → Orderly m table) :
    Secure ∅ lost written sure pre (Dictionary.insert (fun _ => Keys.symbol) table key record) m
      fun _ _ => True := by
  have hinsert := secure_insert (fun _ => secureKeys_symbol ∅ sure) hp
    fun hm h hsure => ⟨Set.notMem_empty table, hs hm h hsure⟩
  refine hinsert.mono (Set.Subset.refl ∅) (fun hm h => ?_) fun hm h => ?_
  · exact Set.singleton_subset_iff.mpr (hw hm h).2
  · rw [Set.empty_union]
    exact Set.singleton_subset_iff.mpr (hw hm h).1

/-- An object has a place for its attribute table if it is plain or an exception. -/
theorem attributes?_eq_some {v attributes : Value} (h : m.attributes? v = some attributes) :
    ∃ o, m.heap.get? v = some o ∧ o.kind ≠ .table ∧ (o.body = .plain attributes ∨
      ∃ e : ExceptionBody, o.body = .exception e ∧ e.attributes = attributes) := by
  obtain ⟨o, ho, hbody⟩ := Option.bind_eq_some_iff.mp h
  refine ⟨o, ho, ?_⟩
  cases hb : o.body with
  | plain a =>
    rw [hb] at hbody
    refine ⟨?_, Or.inl (by rw [Option.some.inj hbody])⟩
    simp [Object.kind, hb, Body.kind]
  | exception e =>
    rw [hb] at hbody
    refine ⟨?_, Or.inr ⟨e, rfl, Option.some.inj hbody⟩⟩
    simp [Object.kind, hb, Body.kind]
  | _ =>
    rw [hb] at hbody
    cases hbody

theorem attributes?_of_get? {m' : Machine} {v : Value} (h : m'.heap.get? v = m.heap.get? v) :
    m'.attributes? v = m.attributes? v := by
  rw [attributes?, attributes?, h]

theorem mem_edges_of_attributes? {v attributes : Value} (h : m.attributes? v = some attributes) :
    ∃ o, m.heap.get? v = some o ∧ attributes ∈ o.edges := by
  obtain ⟨o, ho, -, hbody⟩ := attributes?_eq_some h
  refine ⟨o, ho, ?_⟩
  rcases hbody with hb | ⟨e, hb, rfl⟩
  · simp [Object.edges, hb, Body.edges]
  · simp [Object.edges, hb, Body.edges]

/-- Writing to a table leaves the places for attributes as they are. -/
theorem Machine.Keeps.attributes?_eq {m' : Machine} {s v : Value} (h : Keeps avoided lost {s} m m')
    (hm : m.Intact) (hs : ∃ t, m.heap.read Facet.table s = .ok t) (hv : v ∈ m.roots) :
    m'.attributes? v = m.attributes? v := by
  cases ha : m.attributes? v with
  | some a =>
    obtain ⟨o, ho, hkind, -⟩ := attributes?_eq_some ha
    rw [← ha]
    exact attributes?_of_get? ((h.get?_not_table hs hv ho hkind).trans ho.symm)
  | none =>
    refine Option.eq_none_iff_forall_ne_some.mpr fun a ha' => ?_
    obtain ⟨o, ho, hkind, -⟩ := attributes?_eq_some ha'
    rw [← attributes?_of_get? ((h.get?_back hm hs hv ho hkind).trans ho.symm), ha] at ha'
    cases ha'

/-- An object after it was given a table of attributes. -/
def Effect.attributed (attributes : Value) (o : Object) : Object :=
  { o with body := match o.body with
      | .plain _ => .plain attributes
      | .exception e => .exception { e with attributes := attributes }
      | body => body }

theorem attributed_of_plain {attributes old : Value} {o : Object} (hb : o.body = .plain old) :
    attributed attributes o = { o with body := .plain attributes } := by
  simp only [attributed, hb]

theorem attributed_of_exception {attributes : Value} {o : Object} {e : ExceptionBody}
    (hb : o.body = .exception e) :
    attributed attributes o = { o with body := .exception { e with attributes := attributes } } := by
  simp only [attributed, hb]

/-- An object keeps its kind and all edges but the one to its attributes. -/
theorem attributed_keeps {attributes old : Value} {o : Object} (hbody : o.body = .plain old ∨
      ∃ e : ExceptionBody, o.body = .exception e ∧ e.attributes = old) :
    (attributed attributes o).kind = o.kind ∧
      Facet.table.get? (attributed attributes o).body = none ∧
      (∀ w ∈ (attributed attributes o).edges, w = attributes ∨ w ∈ o.edges) ∧
      ∀ w ∈ o.edges, w = old ∨ w ∈ (attributed attributes o).edges := by
  rcases hbody with hb | ⟨e, hb, rfl⟩
  · rw [attributed_of_plain hb]
    simp only [Object.kind, Object.edges, hb, Body.kind, Body.edges, List.mem_cons, List.not_mem_nil,
      or_false]
    exact ⟨trivial, rfl, fun w hw => hw.symm.imp id Or.inl, fun w hw => hw.symm.imp id Or.inl⟩
  · rw [attributed_of_exception hb]
    simp only [Object.kind, Object.edges, hb, Body.kind, Body.edges, List.mem_cons, List.not_mem_nil,
      or_false]
    exact ⟨trivial, rfl, fun w hw => by tauto, fun w hw => by tauto⟩

theorem attributes?_attributed {object attributes old : Value} (h : m.attributes? object = some old) :
    Machine.attributes? { m with heap := m.heap.modifyObject object (attributed attributes) } object =
      some attributes := by
  obtain ⟨o, ho, -, hbody⟩ := attributes?_eq_some h
  have hself : (m.heap.modifyObject object (attributed attributes)).get? object =
      some (attributed attributes o) := by
    rw [Heap.get?_modifyObject_self, ho]
    rfl
  rw [attributes?, hself, Option.bind_some]
  rcases hbody with hb | ⟨e, hb, -⟩
  · rw [attributed_of_plain hb]
  · rw [attributed_of_exception hb]

/-- Putting an attribute table in place where there was none. -/
theorem secure_setAttributes {object attributes : Value} (hw : object ∈ written)
    (hp : m.Intact → pre → m.heap.Resolves attributes ∧
      ∀ old, m.attributes? object = some old → old.isRef = false)
    (hs : m.Intact → pre → sure → ∃ old, m.attributes? object = some old) :
    Secure avoided lost written sure pre (setAttributes object attributes) m fun _ m' =>
      (∀ v, m'.heap.isLive v = m.heap.isLive v) ∧ ∀ v, v ≠ object → m'.heap.get? v = m.heap.get? v := by
  refine Secure.ask_bind ?_
  cases hold : m.attributes? object with
  | none =>
    refine secure_fault _ fun hm h hsure => ?_
    obtain ⟨old, hsome⟩ := hs hm h hsure
    rw [hold] at hsome
    cases hsome
  | some old =>
    obtain ⟨o, ho, -, hbody⟩ := attributes?_eq_some hold
    refine .of_ok rfl (le_of_eq (Heap.size_modifyObject _ _ _).symm) (fun hm h _ => ?_)
      fun _ _ _ => ⟨Heap.isLive_modifyObject _ _ _, fun v hv => Heap.get?_modifyObject_of_ne _ hv _⟩
    · obtain ⟨hnew, hplain⟩ := hp hm h
      obtain ⟨hkind, htable, hedges, hkept⟩ := attributed_keeps hbody
      refine hm.modifyObject (f := attributed attributes) ho rfl rfl rfl hkind (fun w hw => ?_)
        (fun t ht => by rw [htable] at ht; cases ht) hw fun _ w hw hr => ?_
      · rcases hedges w hw with rfl | hw
        · exact hnew
        · exact hm.closed.edges object o ho w hw
      · refine (hkept w hw).resolve_left ?_
        rintro rfl
        rw [hplain w hold] at hr
        cases hr

end ObjectMachine
