import Mathlib.Tactic
import ObjectMachine.Proofs.Machine.Discretion
import ObjectMachine.Proofs.Typing.Changes

/-! What persists from one machine of a call to the next.

A machine is typed if it is shaped and its names are in step with its table of symbols.  Whatever a
message does, the machine stays typed, what was rooted is still there with its class and its kind, and
frames come and go in pairs.  While a table is being searched a message does less: it leaves the tables
that programs hold as they are, and it makes no classes.  Such a message is quiet. -/

namespace ObjectMachine

/-- Whether programs could not tell that an object with this body is new or changed: it is neither a
table with values as keys nor a class. -/
def Body.Inert (b : Body) : Prop := (∀ t, b = .table t → t.strategy ≠ .value) ∧ ∀ c, b ≠ .cls c

theorem Body.inert_text (s : String) : (Body.text s).Inert := ⟨nofun, nofun⟩

theorem Body.inert_array (items : Array Value) : (Body.array items).Inert := ⟨nofun, nofun⟩

theorem Body.inert_plain (attributes : Value) : (Body.plain attributes).Inert := ⟨nofun, nofun⟩

theorem Body.inert_exception (e : ExceptionBody) : (Body.exception e).Inert := ⟨nofun, nofun⟩

theorem Body.inert_native (method : NativeMethod) : (Body.native method).Inert := ⟨nofun, nofun⟩

theorem Body.inert_table {t : Table} (h : t.strategy ≠ .value) : (Body.table t).Inert :=
  ⟨fun _ ht => Body.table.inj ht ▸ h, nofun⟩

namespace Machine

variable {m m' m'' : Machine} {bare : Set Value} {quiet : Prop} {v : Value}

/-- The exception of an error that was raised: a live object of an error class. -/
def Raised (m : Machine) (exc : Value) : Prop :=
  ∃ (kind : ErrorKind) (o : Object), m.heap.get? exc = some o ∧ o.cls = m.classValue (.error kind) ∧
    o.kind = .exception

/-- A value that is nobody's table of names. -/
def Unkept (m : Machine) (a : Value) : Prop :=
  a ≠ m.globals ∧ ∀ u p, m.heap.get? u = some p → p.body.names? ≠ some a

/-- A shaped machine whose names are in step with its table of symbols. -/
structure Typed (bare : Set Value) (m : Machine) : Prop where
  shaped : m.Shaped bare
  discreet : m.Discreet m.symbols.table

/-- What keeps track of calls and of what is on its way. -/
def callState (m : Machine) : List Frame × List UnwindTarget × List Value :=
  (m.frames, m.targets, m.inFlight)

theorem callRoots_eq_of_callState_eq (h : m'.callState = m.callState) : m'.callRoots = m.callRoots := by
  obtain ⟨hframes, hrest⟩ := Prod.ext_iff.mp h
  obtain ⟨htargets, hinFlight⟩ := Prod.ext_iff.mp hrest
  simp only [callState] at hframes htargets hinFlight
  rw [callRoots, callRoots, hframes, htargets, hinFlight]

/-- A later machine in the same call, in which what was rooted is still there.  While the heap does not
collect, everything is still there. -/
structure Persists (quiet : Prop) (m m' : Machine) : Prop where
  carries : m.Carries m'
  callState_eq : m'.callState = m.callState
  enabled_eq : m'.heap.enabled = m.heap.enabled
  names : ∀ {i : Nat} {name : String}, m.symbols.names[i]? = some name → m'.symbols.names[i]? = some name
  held : ∀ {v o}, v ∈ m.roots ∨ m.heap.enabled = false → m.heap.get? v = some o →
    ∃ o', m'.heap.get? v = some o' ∧ o.Likens o'
  tables : quiet → ∀ i t, m'.heap.tableIn? i = some t → t.strategy = .value → m.heap.tableIn? i = some t
  classes : quiet → ∀ v b, m'.heap.read Facet.cls v = .ok b → m.heap.read Facet.cls v = .ok b

namespace Persists

theorem refl (m : Machine) : m.Persists quiet m :=
  ⟨.refl m, rfl, rfl, id, fun {_ o} _ ho => ⟨o, ho, .refl o⟩, fun _ _ _ h _ => h, fun _ _ _ h => h⟩

theorem trans (h : m.Persists quiet m') (h' : m'.Persists quiet m'') : m.Persists quiet m'' := by
  refine ⟨h.carries.trans h'.carries, h'.callState_eq.trans h.callState_eq, h'.enabled_eq.trans h.enabled_eq,
    fun hi => h'.names (h.names hi), fun {v o} hv ho => ?_,
    fun hq i t ht hvalue => h.tables hq i t (h'.tables hq i t ht hvalue) hvalue,
    fun hq v b hb => h.classes hq v b (h'.classes hq v b hb)⟩
  obtain ⟨o', ho', hlike⟩ := h.held hv ho
  have hv' : v ∈ m'.roots ∨ m'.heap.enabled = false :=
    hv.imp (fun hv => h.carries.roots_subset hv) fun hv => h.enabled_eq.trans hv
  obtain ⟨o'', ho'', hlike'⟩ := h'.held hv' ho'
  exact ⟨o'', ho'', hlike.trans hlike'⟩

theorem loud {quiet' : Prop} (h : m.Persists quiet m') (hq : quiet' → quiet) : m.Persists quiet' m' :=
  ⟨h.carries, h.callState_eq, h.enabled_eq, h.names, h.held, fun hp => h.tables (hq hp),
    fun hp => h.classes (hq hp)⟩

theorem classValue_eq (h : m.Persists quiet m') (c : BuiltinClass) :
    m'.classValue c = m.classValue c := h.carries.classValue_eq c

/-- A step that leaves the heap and the calls alone. -/
theorem of_heap_eq (hheap : m'.heap = m.heap) (hc : m.Carries m') (hstate : m'.callState = m.callState)
    (hnames : ∀ {i : Nat} {name : String}, m.symbols.names[i]? = some name →
      m'.symbols.names[i]? = some name) : m.Persists quiet m' :=
  ⟨hc, hstate, by rw [hheap], hnames, fun {_ o} _ ho => ⟨o, by rwa [hheap], .refl o⟩,
    fun _ i t ht _ => by rwa [hheap] at ht, fun _ v b hb => by rwa [hheap] at hb⟩

/-- At the end of a scope its handles are gone. -/
theorem shrink (h : m.Persists quiet m') :
    m.Persists quiet { m' with handles := m'.handles.shrink m.handles.size } :=
  ⟨h.carries.shrink, h.callState_eq, h.enabled_eq, h.names, h.held, h.tables, h.classes⟩

/-- A value that programs may hold stays one while it is rooted. -/
theorem public_root (h : m.Persists quiet m') (hv : m.Public v) (hr : v ∈ m.roots) : m'.Public v := by
  rcases hv with hv | ⟨o, ho, hopen⟩
  · exact Or.inl hv
  · obtain ⟨o', ho', hlike⟩ := h.held (Or.inl hr) ho
    refine Or.inr ⟨o', ho', fun t ht => ?_⟩
    obtain ⟨t', ht', hsame⟩ := Body.exists_table_of_outline_eq hlike.outline_eq.symm ht
    exact hsame.symm.trans (hopen t' ht')

theorem exists_read_cls (h : m.Persists quiet m') {b : ClassBody}
    (hr : v ∈ m.roots ∨ m.heap.enabled = false) (hb : m.heap.read Facet.cls v = .ok b) :
    ∃ b', m'.heap.read Facet.cls v = .ok b' ∧ b'.superclass = b.superclass ∧
      b'.instanceKind = b.instanceKind := by
  obtain ⟨o, ho, hb⟩ := Heap.read_eq_ok_iff.mp hb
  obtain ⟨o', ho', hlike⟩ := h.held hr ho
  obtain ⟨b', hb', hsuper, hkind⟩ := Body.exists_cls_of_outline_eq hlike.outline_eq
    (Facet.lawful_cls.put_eq hb).symm
  exact ⟨b', Heap.read_eq_ok_iff.mpr ⟨o', ho', by rw [hb']; rfl⟩, hsuper, hkind⟩

/-- A table keeps its keys' strategy. -/
theorem exists_read_table (h : m.Persists quiet m') {t : Table}
    (hr : v ∈ m.roots ∨ m.heap.enabled = false) (ht : m.heap.read Facet.table v = .ok t) :
    ∃ t', m'.heap.read Facet.table v = .ok t' ∧ t'.strategy = t.strategy := by
  obtain ⟨o, ho, hb⟩ := Heap.read_eq_ok_iff.mp ht
  obtain ⟨o', ho', hlike⟩ := h.held hr ho
  obtain ⟨t', ht', hsame⟩ := Body.exists_table_of_outline_eq hlike.outline_eq
    (Facet.lawful_table.put_eq hb).symm
  exact ⟨t', Heap.read_eq_ok_iff.mpr ⟨o', ho', by rw [ht']; rfl⟩, hsame⟩

/-- Nothing quiet changes a table with values as keys. -/
theorem read_table (h : m.Persists quiet m') (hq : quiet) (hr : v ∈ m.roots) {t : Table}
    (ht : m.heap.read Facet.table v = .ok t) (hvalue : t.strategy = .value) :
    m'.heap.read Facet.table v = .ok t := by
  obtain ⟨t', ht', hsame⟩ := h.exists_read_table (Or.inl hr) ht
  have hold := h.tables hq _ t' (Heap.tableIn?_of_read ht') (hsame.trans hvalue)
  obtain rfl := Option.some.inj ((Heap.tableIn?_of_read ht).symm.trans hold)
  exact ht'

/-- A rooted object keeps its class and its kind. -/
theorem exists_kind (h : m.Persists quiet m') (hr : v ∈ m.roots) {o : Object}
    (ho : m.heap.get? v = some o) : ∃ o', m'.heap.get? v = some o' ∧ o'.cls = o.cls ∧ o'.kind = o.kind := by
  obtain ⟨o', ho', hlike⟩ := h.held (Or.inl hr) ho
  exact ⟨o', ho', hlike.cls_eq, hlike.kind_eq⟩

/-- A rooted exception stays one. -/
theorem raised (h : m.Persists quiet m') {exc : Value} (hr : exc ∈ m.roots) (he : m.Raised exc) :
    m'.Raised exc := by
  obtain ⟨kind, o, ho, hcls, hkind⟩ := he
  obtain ⟨o', ho', hcls', hkind'⟩ := h.exists_kind hr ho
  exact ⟨kind, o', ho', by rw [hcls', hcls, h.classValue_eq], hkind'.trans hkind⟩

end Persists

/-! ### Shaped machines with the same heap -/

/-- The shape of a machine is a matter of its heap, its classes, its globals and its names. -/
theorem Shaped.of_heap_eq (hs : m.Shaped bare) (hheap : m'.heap = m.heap) (hclasses : m'.classes = m.classes)
    (hglobals : m'.globals = m.globals) (hnames : ∀ {i : Nat} {name : String},
      m.symbols.names[i]? = some name → m'.symbols.names[i]? = some name)
    (hroots : ∀ v ∈ m'.roots, m.heap.Resolves v) : m'.Shaped bare := by
  have he : m.Evolves m' := by
    refine ⟨hclasses, hglobals, hnames, fun {v o o'} ho ho' => ?_⟩
    rw [hheap, ho] at ho'
    exact Option.some.inj ho' ▸ .refl o
  have hm' : m'.Intact := by
    refine ⟨hheap ▸ hs.intact.sound, hheap ▸ hs.intact.unmarked, hheap ▸ hs.intact.tables, ?_, ?_⟩
    · rw [hheap]
      exact hroots
    · rw [hheap]
      exact hs.intact.closed.edges
  refine hs.evolve hm' he id (fun v o ho => Or.inl ?_) (fun v o ho => Or.inl ⟨o, ?_, rfl⟩)
    (fun v b hb => Or.inl ?_) (fun v b hb hv => Or.inl ⟨?_, hv, fun t ht => Or.inl ?_⟩)
    fun v o a ho hnames _ => Or.inl ⟨o, ?_, hnames⟩
  · exact Heap.isLive_of_get? (hheap ▸ ho)
  · exact hheap ▸ ho
  · exact Heap.isLive_of_read (hheap ▸ hb)
  · exact hheap ▸ hb
  · exact hheap ▸ ht
  · exact hheap ▸ ho

/-- Handles and frames may go, and values that are live may join them. -/
theorem Shaped.with_stacks (hs : m.Shaped bare) {handles : Array Value} {frames : List Frame}
    (hhandles : ∀ v ∈ handles, v ∈ m.handles ∨ m.heap.Resolves v)
    (hframes : ∀ f ∈ frames, f ∈ m.frames ∨ m.heap.Resolves f.receiver ∧ f.cleanups = []) :
    Shaped bare { m with handles := handles, frames := frames } := by
  refine hs.of_heap_eq rfl rfl rfl id fun v hv => ?_
  have hroot : ∀ {v}, v ∈ m.roots → m.heap.Resolves v := hs.intact.closed.roots _
  rcases mem_roots.mp hv with hv | hv | hv | hv | hv
  · exact hroot (mem_roots.mpr (Or.inl hv))
  · exact hroot (mem_roots.mpr (Or.inr (Or.inl hv)))
  · exact hroot (mem_roots.mpr (Or.inr (Or.inr (Or.inl hv))))
  · rcases hhandles v (Array.mem_toList_iff.mp hv) with hv | hv
    · exact hroot (mem_roots.mpr (Or.inr (Or.inr (Or.inr (Or.inl (Array.mem_toList_iff.mpr hv))))))
    · exact hv
  · simp only [callRoots, List.mem_append, List.mem_flatMap, List.mem_reverse] at hv
    rcases hv with (⟨f, hf, hv⟩ | hv) | hv
    · rcases hframes f hf with hf | ⟨hreceiver, hcleanups⟩
      · refine hroot (mem_roots.mpr (Or.inr (Or.inr (Or.inr (Or.inr ?_)))))
        simp only [callRoots, List.mem_append, List.mem_flatMap, List.mem_reverse]
        exact Or.inl (Or.inl ⟨f, hf, hv⟩)
      · rw [hcleanups] at hv
        obtain rfl := List.mem_singleton.mp hv
        exact hreceiver
    · refine hroot (mem_roots.mpr (Or.inr (Or.inr (Or.inr (Or.inr ?_)))))
      simp only [callRoots, List.mem_append, List.mem_flatMap, List.mem_reverse]
      exact Or.inl (Or.inr hv)
    · refine hroot (mem_roots.mpr (Or.inr (Or.inr (Or.inr (Or.inr ?_)))))
      simp only [callRoots, List.mem_append, List.mem_flatMap, List.mem_reverse]
      exact Or.inr hv

/-! ### Allocating -/

theorem persists_collectWith (hm : m.Intact) {pending : List Value} (henabled : m.heap.enabled = true)
    (hp : ∀ v ∈ pending, m.heap.Resolves v) : m.Persists quiet (m.collectWith pending) := by
  have hkept : Keeps ∅ ∅ ∅ m (m.collectWith pending) := (hm.collectWith hp).1
  refine ⟨hkept.carries, rfl, rfl, id, fun {v o} hv ho => ?_, fun _ i t ht _ =>
    Heap.tableIn?_collect ht, fun _ v b hb => ?_⟩
  · rcases hv with hv | hv
    · exact ⟨o, hkept.get?_root hv (Set.notMem_empty v) ho, .refl o⟩
    · rw [henabled] at hv
      cases hv
  · obtain ⟨o, ho, hb⟩ := Heap.read_eq_ok_iff.mp hb
    exact Heap.read_eq_ok_iff.mpr ⟨o, ((Heap.get?_collect_eq_some_iff hm.unmarked).mp ho).1, hb⟩

/-- An object that was stored: it has its class and its body, and nothing refers to it yet. -/
structure Placed (m : Machine) (cls : Value) (body : Body) (v : Value) : Prop where
  object : ∃ o, m.heap.get? v = some o ∧ o.cls = cls ∧ o.body = body
  unkept : m.Unkept v

theorem Placed.read_eq {cls : Value} {body : Body} (h : m.Placed cls body v) {facet : Facet α} {x : α}
    (hx : facet.get? body = some x) : m.heap.read facet v = .ok x := by
  obtain ⟨o, ho, -, rfl⟩ := h.object
  exact Heap.read_eq_ok_iff.mpr ⟨o, ho, hx⟩

/-- Storing an object that fits. -/
theorem Shaped.placed_store (hs : m.Shaped bare) {cls : Value} {body : Body} (hf : m.Fits cls body)
    (hquiet : quiet → body.Inert) (hroom : (m.heap.insert cls body).slots.size ≤ 2 ^ 32) :
    m.Persists quiet { m with heap := m.heap.insert cls body } ∧
      Placed { m with heap := m.heap.insert cls body } cls body m.heap.nextReference := by
  have hm := hs.intact
  have hget := hm.sound.get?_insert cls body hroom
  have hfree := hm.sound.get?_nextReference cls body hroom
  have hnew := (hget m.heap.nextReference).trans (if_pos rfl)
  have hdead : ¬ m.heap.isLive m.heap.nextReference = true := by simp [Heap.isLive, hfree]
  have href : m.heap.nextReference.isRef = true := (Heap.get?_eq_some_iff.mp hnew).1
  refine ⟨⟨m.carries_with _ _, rfl, ?_, id, fun {v o} _ ho =>
    ⟨o, hm.sound.get?_insert_of_some cls body ho, .refl o⟩, fun hq i t ht hvalue => ?_,
    fun hq v b hb => ?_⟩, ⟨_, hnew, rfl, rfl⟩, fun heq => hdead ?_, fun u p hp hnames => hdead ?_⟩
  · simp only [Heap.insert]
    split <;> rfl
  · refine (Heap.tableIn?_insert ht).resolve_right fun hbody => ?_
    exact (hquiet hq).1 t (Facet.lawful_table.put_eq hbody).symm hvalue
  · obtain ⟨o, ho, hb⟩ := Heap.read_eq_ok_iff.mp hb
    rcases hm.sound.get?_insert_cases cls body ho with ho | rfl
    · exact Heap.read_eq_ok_iff.mpr ⟨o, ho, hb⟩
    · exact absurd (Facet.lawful_cls.put_eq hb).symm ((hquiet hq).2 b)
  · exact heq ▸ hm.resolves_globals (heq ▸ href)
  · -- nothing that was there, and nothing that the object is made of, is a dead reference
    have hedge := Body.mem_edges_of_names? hnames
    rw [hget] at hp
    split at hp
    · obtain rfl := Option.some.inj hp
      exact hf.admits.edges _ hedge href
    · exact hm.closed.edges u p hp _ (List.mem_cons_of_mem _ hedge) href

/-- An object that fits can be made at any time. -/
theorem Shaped.exists_alloc (hs : m.Shaped bare) {cls : Value} {body : Body} (hf : m.Fits cls body)
    (hquiet : quiet → body.Inert) (hroom : ((Effect.alloc cls body).after m).HasRoom) :
    ∃ v heap events, Effect.alloc cls body m = .ok v { m with heap := heap, events := events } ∧
      Shaped bare { m with heap := heap, events := events } ∧
      m.Persists quiet { m with heap := heap, events := events } ∧
      Placed { m with heap := heap, events := events } cls body v := by
  have hevents : ∀ {m' : Machine} {events : Array Event}, m'.Shaped bare →
      Shaped bare { m' with events := events } := fun hs' =>
    hs'.of_heap_eq rfl rfl rfl id hs'.intact.closed.roots
  cases hc : m.heap.shouldCollect with
  | false =>
    have halloc : Effect.alloc cls body m =
        .ok m.heap.nextReference { m with heap := m.heap.insert cls body } := by
      simp [Effect.alloc, Effect.store, bind, EStateM.bind, Effect.ask, hc]
    rw [Effect.after_of_ok halloc] at hroom
    obtain ⟨hpersists, hplaced⟩ := hs.placed_store hf hquiet hroom
    exact ⟨_, _, m.events, halloc, hs.store hf hroom, hpersists, hplaced⟩
  | true =>
    let m₁ := m.collectWith (cls :: body.edges)
    have halloc : Effect.alloc cls body m =
        .ok m₁.heap.nextReference { m₁ with heap := m₁.heap.insert cls body } := by
      simp [Effect.alloc, Effect.store, bind, EStateM.bind, Effect.ask, hc, Effect.update, m₁]
    rw [Effect.after_of_ok halloc] at hroom
    have henabled : m.heap.enabled = true := (Bool.and_eq_true_iff.mp hc).1
    have hp : ∀ v ∈ cls :: body.edges, m.heap.Resolves v :=
      List.forall_mem_cons.mpr ⟨hf.admits.cls, hf.admits.edges⟩
    have hs₁ : m₁.Shaped bare := hs.collectWith hp
    have hf₁ : m₁.Fits cls body := hf.collectWith hs.intact
    obtain ⟨hpersists, hplaced⟩ := hs₁.placed_store hf₁ hquiet hroom
    exact ⟨_, _, m₁.events, halloc, hs₁.store hf₁ hroom,
      (persists_collectWith hs.intact henabled hp).trans hpersists, hplaced⟩

/-! ### Changing an object -/

/-- What changing the data of a facet does to an object. -/
def change (facet : Facet α) (g : α → α) (o : Object) : Object :=
  { o with body := match facet.get? o.body with
      | some x => facet.put (g x)
      | none => o.body }

theorem change_eq {facet : Facet α} {g : α → α} {o : Object} {x : α} (hx : facet.get? o.body = some x) :
    change facet g o = { o with body := facet.put (g x) } := by simp only [change, hx]

theorem persists_modifyObject {o : Object} {f : Object → Object} (ho : m.heap.get? v = some o)
    (hlike : o.Likens (f o)) (hquiet : quiet → (f o).body.Inert) :
    m.Persists quiet { m with heap := m.heap.modifyObject v f } := by
  have hself := Heap.get?_modifyObject_self m.heap v f
  rw [ho, Option.map_some] at hself
  refine ⟨m.carries_with _ _, rfl, ?_, id, fun {w p} _ hp => ?_, fun hq i t ht hvalue => ?_,
    fun hq w b hb => ?_⟩
  · simp only [Heap.modifyObject]
    split <;> rfl
  · by_cases hw : w = v
    · subst hw
      obtain rfl := Option.some.inj (ho.symm.trans hp)
      exact ⟨_, hself, hlike⟩
    · exact ⟨p, (Heap.get?_modifyObject_of_ne m.heap hw f).trans hp, .refl p⟩
  · rcases Heap.tableIn?_modifyObject ht with ht | ⟨rfl, p, hp, htable⟩
    · exact ht
    · obtain rfl := Option.some.inj (ho.symm.trans hp)
      exact absurd hvalue ((hquiet hq).1 t (Facet.lawful_table.put_eq htable).symm)
  · obtain ⟨p, hp, hb⟩ := Heap.read_eq_ok_iff.mp hb
    by_cases hw : w = v
    · subst hw
      obtain rfl := Option.some.inj (hself.symm.trans hp)
      exact absurd (Facet.lawful_cls.put_eq hb).symm ((hquiet hq).2 b)
    · exact Heap.read_eq_ok_iff.mpr ⟨p, (Heap.get?_modifyObject_of_ne m.heap hw f).symm.trans hp, hb⟩

/-- The data of an object were changed through a facet. -/
theorem Shaped.modify {bare' : Set Value} (hs : m.Shaped bare) {facet : Facet α} {g : α → α} {o : Object}
    {x : α} (ho : m.heap.get? v = some o) (hx : facet.get? o.body = some x)
    (ha : m.Amends bare bare' v o { o with body := facet.put (g x) })
    (hbare : .absent ∈ bare → .absent ∈ bare') (hquiet : quiet → (facet.put (g x)).Inert) :
    Shaped bare' { m with heap := m.heap.modify facet v g } ∧
      m.Persists quiet { m with heap := m.heap.modify facet v g } := by
  have hchange := change_eq (g := g) hx
  rw [← hchange] at ha
  refine ⟨hs.modifyObject ho ha hbare, persists_modifyObject ho ha.likens fun hq => ?_⟩
  show (change facet g o).body.Inert
  rw [hchange]
  exact hquiet hq

end Machine

end ObjectMachine
