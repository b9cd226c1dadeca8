import Mathlib.Tactic
import ObjectMachine.Proofs.Typing.Tables

/-! Classes, attributes and globals of typed machines.

A class inherits the kind of its instances, so that instances of every class are of the kind that the
built-in classes above it require.  The method that is found for a selector is one that the bootstrap
installs, under this name, in a built-in class above. -/

namespace ObjectMachine

open Machine

namespace Machine

variable {m : Machine} {bare : Set Value} {v : Value} {a : Value} {o : Object}

/-- A table of names that an object keeps is the method table of no other object. -/
theorem Shaped.free_of_names (hs : m.Shaped bare) (ho : m.heap.get? v = some o)
    (ha : o.body.names? = some a) (href : a.isRef = true) (hcls : ∀ b, o.body ≠ .cls b) :
    ∀ c b, m.heap.read Facet.cls c = .ok b → b.methods ≠ a := by
  rintro c b hb rfl
  obtain ⟨p, hp, hread⟩ := Heap.read_eq_ok_iff.mp hb
  have hbody : p.body = .cls b := (Facet.lawful_cls.put_eq hread).symm
  obtain rfl := hs.kept c v p o _ hp ho (by rw [hbody]; rfl) ha href
  obtain rfl := Option.some.inj (hp.symm.trans ho)
  exact hcls b hbody

/-- No class has the globals as its method table. -/
theorem Shaped.globals_free (hs : m.Shaped bare) (hbare : .absent ∉ bare) :
    ∀ c b, m.heap.read Facet.cls c = .ok b → b.methods ≠ m.globals := by
  intro c b hb heq
  obtain ⟨t, ht, -⟩ := hs.globals hbare
  obtain ⟨q, hq, -⟩ := Heap.read_eq_ok_iff.mp ht
  obtain ⟨p, hp, hread⟩ := Heap.read_eq_ok_iff.mp hb
  refine hs.globals_kept c p hp (Heap.get?_eq_some_iff.mp hq).1 ?_
  rw [← Facet.lawful_cls.put_eq hread, ← heq]
  rfl

/-- Plain objects and exceptions have attributes. -/
theorem attributes?_eq_some (ha : m.attributes? v = some a) : ∃ o, m.heap.get? v = some o ∧
    o.body.names? = some a ∧ (∀ b, o.body ≠ .cls b) ∧
      (m.Suits o.body → a = .absent ∨ m.NameTable a) := by
  obtain ⟨o, ho, hbody⟩ := Option.bind_eq_some_iff.mp ha
  refine ⟨o, ho, ?_⟩
  cases hb : o.body with
  | plain a' =>
    rw [hb] at hbody
    obtain rfl := Option.some.inj hbody
    exact ⟨rfl, nofun, id⟩
  | exception e =>
    rw [hb] at hbody
    obtain rfl := Option.some.inj hbody
    exact ⟨rfl, nofun, And.right⟩
  | _ => rw [hb] at hbody; cases hbody

/-- A rooted object that has attributes goes on having them. -/
theorem Persists.exists_attributes {m' : Machine} {quiet : Prop} (hk : m.Persists quiet m')
    (hr : v ∈ m.roots) (ha : m.attributes? v = some a) : ∃ a', m'.attributes? v = some a' := by
  obtain ⟨o, ho, hbody⟩ := Option.bind_eq_some_iff.mp ha
  obtain ⟨o', ho', -, hkind⟩ := hk.exists_kind hr ho
  have hkinds : o'.body.kind = .plain ∨ o'.body.kind = .exception := by
    cases hb : o.body with
    | plain _ => exact Or.inl (hkind.trans (congrArg Body.kind hb))
    | exception _ => exact Or.inr (hkind.trans (congrArg Body.kind hb))
    | _ => rw [hb] at hbody; cases hbody
  rw [attributes?, ho', Option.bind_some]
  cases hb : o'.body with
  | plain a' => exact ⟨a', rfl⟩
  | exception e => exact ⟨e.attributes, rfl⟩
  | _ => rw [hb] at hkinds; rcases hkinds with h | h <;> cases h

/-- The attributes of an object are a table of names, once they are there. -/
theorem Shaped.nameTable_of_attributes (hs : m.Shaped bare) (ha : m.attributes? v = some a)
    (habsent : a.isAbsent = false) : m.NameTable a ∧
      ∀ c b, m.heap.read Facet.cls c = .ok b → b.methods ≠ a := by
  have hne : a ≠ .absent := by
    rintro rfl
    cases habsent
  obtain ⟨o, ho, hnames, hcls, htable⟩ := attributes?_eq_some ha
  obtain ⟨t, ht, hsymbol⟩ := (htable (hs.suits v o ho)).resolve_left hne
  obtain ⟨q, hq, -⟩ := Heap.read_eq_ok_iff.mp ht
  exact ⟨⟨t, ht, hsymbol⟩, hs.free_of_names ho hnames (Heap.get?_eq_some_iff.mp hq).1 hcls⟩

/-- What a class makes instances of, it bears. -/
theorem Shaped.bears_of_read (hs : m.Shaped bare) {b : ClassBody} {kind : ObjectKind}
    (hb : m.heap.read Facet.cls v = .ok b) (hkind : b.instanceKind = some kind) : m.Bears v kind := by
  by_cases hbuiltin : ∃ c, v = m.classValue c
  · obtain ⟨c, rfl⟩ := hbuiltin
    obtain ⟨b', hb', -, hinstance⟩ := hs.builtin c
    obtain rfl := Except.ok.inj (hb.symm.trans hb')
    exact Or.inl ⟨c, rfl, BuiltinClass.bodyKind_of_instanceKind (hinstance.symm.trans hkind)⟩
  · exact Or.inr ⟨fun c hc => hbuiltin ⟨c, hc⟩, b, hb, hkind⟩

end Machine

namespace Effect

variable {m : Machine} {quiet pre : Prop}

/-! ### Globals -/

theorem behaves_setGlobal (name : String) {v : Value} (hp : m.Typed ∅ → pre → m.Public v) :
    Behaves quiet pre (setGlobal name v) m fun _ _ => True := by
  refine Behaves.withHandles ?_ fun _ _ _ h => h
  refine (behaves_pin fun hm h => ⟨(hp hm h).resolves, hm.public_ne (hp hm h)⟩).bind fun _ m₁ =>
    (behaves_intern name).bind fun key m₂ => Behaves.ask_bind
      ((Dictionary.behaves_insert_symbol fun hm h => ?_).bind fun _ _ => behaves_pure fun _ _ => trivial)
  obtain ⟨i, rfl, -⟩ := h.result
  obtain ⟨hr, heq⟩ := h.before.result
  have hv : m₁.Public v := heq ▸ hp h.before.typed h.before.before
  exact ⟨hm.shaped.globals (Set.notMem_empty _), receives_of_free
    (hm.shaped.globals_free (Set.notMem_empty _)) (Or.inl (.ofSymbol i)) (h.persists.public_root hv hr)⟩

theorem behaves_getGlobal (name : String) : Behaves quiet pre (getGlobal name) m
    fun found m' => ∀ v, found = some v → m'.Public v := by
  refine (behaves_intern name).bind fun key m₁ => Behaves.ask_bind
    ((Dictionary.behaves_lookup_symbol fun hm _ => hm.shaped.globals (Set.notMem_empty _)).weaken
      fun found m₂ _ hm _ hfound v hv => ?_)
  obtain ⟨rfl, hentry⟩ := hfound
  obtain ⟨t, id, e, ht, he, -, rfl⟩ := hentry v hv
  obtain ⟨t', ht', hsymbol⟩ := hm.shaped.globals (Set.notMem_empty _)
  obtain rfl := Except.ok.inj (ht.symm.trans ht')
  exact (hm.receives ht (by rw [hsymbol]; nofun) he).public_record

/-! ### Attributes -/

/-- A table of names that nobody keeps can take the place for the attributes of an object. -/
theorem amends_attributed {object fresh old : Value} (hm : m.Typed ∅) {o : Object}
    (ho : m.heap.get? object = some o) (hbody : o.body = .plain old ∨
      ∃ e : ExceptionBody, o.body = .exception e ∧ e.attributes = old)
    (hfresh : m.NameTable fresh) (hunkept : m.Unkept fresh) :
    m.Amends ∅ ∅ object o (attributed fresh o) ∧
      (attributed fresh o).body.Avoids m.symbols.table ∧ (attributed fresh o).body.Inert := by
  have hlive : m.heap.Resolves fresh := by
    obtain ⟨t, ht, -⟩ := hfresh
    exact Heap.resolves_of_read ht
  have hedges : ∀ w ∈ (attributed fresh o).body.edges, m.heap.Resolves w := by
    intro w hw
    rcases (attributed_keeps hbody).2.2.1 w (List.mem_cons_of_mem _ hw) with rfl | hw
    · exact hlive
    · exact hm.shaped.intact.closed.edges object o ho w hw
  have hnames : ∀ a, some fresh = some a → a.isRef = true → o.body.names? = some a ∨
      a ≠ m.globals ∧ ∀ u p, m.heap.get? u = some p → p.body.names? ≠ some a := by
    rintro a ha -
    obtain rfl := Option.some.inj ha
    exact Or.inr hunkept
  rcases hbody with hb | ⟨e, hb, -⟩
  · rw [attributed_of_plain hb] at hedges ⊢
    exact ⟨⟨⟨rfl, by rw [hb]; rfl⟩, rfl, rfl, hedges, Or.inr hfresh, hnames,
      by rintro _ _ _ _ _ ⟨⟩, by rintro _ ⟨⟩, fun _ _ h => h⟩,
      Body.avoids_plain.mpr (hm.nameTable_ne hfresh), Body.inert_plain _⟩
  · have hsuits := hm.shaped.suits object o ho
    have havoids := (hm.discreet.heap.objects object o ho).body
    rw [hb] at hsuits havoids
    obtain ⟨hmessage, htrace, hcontext, -⟩ := Body.avoids_exception.mp havoids
    rw [attributed_of_exception hb] at hedges ⊢
    exact ⟨⟨⟨rfl, by rw [hb]; rfl⟩, rfl, rfl, hedges, ⟨hsuits.1, Or.inr hfresh⟩, hnames,
      by rintro _ _ _ _ _ ⟨⟩, by rintro _ ⟨⟩, fun _ _ h => h⟩,
      Body.avoids_exception.mpr ⟨hmessage, htrace, hcontext, hm.nameTable_ne hfresh⟩,
      Body.inert_exception _⟩

theorem behaves_setAttributes {object fresh : Value} (hp : m.Typed ∅ → pre → m.Public object ∧
      (∃ a, m.attributes? object = some a) ∧ m.NameTable fresh ∧ m.Unkept fresh) :
    Behaves quiet pre (setAttributes object fresh) m fun _ m' =>
      m'.attributes? object = some fresh ∧ fresh.isAbsent = false := by
  refine Behaves.ask_bind ?_
  cases hattributes : m.attributes? object with
  | none =>
    refine .of_never (u := .staleReference object) rfl fun hm h => ?_
    obtain ⟨-, ⟨a, ha⟩, -⟩ := hp hm h
    rw [hattributes] at ha
    cases ha
  | some a =>
    refine .of_ok rfl (le_of_eq (Heap.size_modifyObject _ _ _).symm) fun hm h _ => ?_
    obtain ⟨hobject, -, hfresh, hunkept⟩ := hp hm h
    obtain ⟨o, ho, -, hbody⟩ := attributes?_eq_some hattributes
    have habsent : fresh.isAbsent = false := by
      obtain ⟨t, ht, -⟩ := hfresh
      rw [Value.isAbsent, beq_eq_false_iff_ne]
      rintro rfl
      cases ht
    obtain ⟨hamends, havoids, hinert⟩ := amends_attributed hm ho hbody hfresh hunkept
    obtain ⟨hm', hk⟩ := hm.modifyObject (f := attributed fresh) ho hamends id havoids
      (hm.public_ne hobject) fun _ => hinert
    exact ⟨hm', hk, attributes?_attributed hattributes, habsent⟩

/-- Binding a name in the attributes of an object. -/
theorem behaves_bindAttribute (object : Value) {a key v : Value} (hp : m.Typed ∅ → pre →
      m.attributes? object = some a ∧ a.isAbsent = false ∧ m.Public key ∧ m.Public v) :
    Behaves quiet pre (Dictionary.insert (fun _ => Keys.symbol) a key v >>= fun _ => pure ()) m
      fun _ _ => True := by
  refine (Dictionary.behaves_insert_symbol fun hm h => ?_).bind fun _ _ => behaves_pure fun _ _ => trivial
  obtain ⟨ha, habsent, hkey, hv⟩ := hp hm h
  obtain ⟨htable, hfree⟩ := hm.shaped.nameTable_of_attributes ha habsent
  exact ⟨htable, receives_of_free hfree hkey hv⟩

theorem behaves_setAttribute (name : String) {object v : Value}
    (hp : m.Typed ∅ → pre → m.Public object ∧ m.Public v) :
    Behaves quiet pre (setAttribute object name v) m fun _ _ => True := by
  refine Behaves.withHandles ?_ fun _ _ _ h => h
  have hpin : Behaves quiet pre (pinAll [object, v]) m fun _ m' =>
      (object ∈ m'.roots ∧ m'.Public object) ∧ v ∈ m'.roots ∧ m'.Public v := by
    refine (behaves_pinAll fun hm h => ?_).imp (fun _ h => h) fun _ m' hm h _ _ hpinned => ?_
    · simp only [List.forall_mem_cons]
      obtain ⟨hobject, hv⟩ := hp hm h
      exact ⟨⟨hobject.resolves, hm.public_ne hobject⟩, ⟨hv.resolves, hm.public_ne hv⟩, nofun⟩
    · obtain ⟨hr, heq⟩ := hpinned
      exact ⟨⟨hr object (by simp), heq ▸ (hp hm h).1⟩, hr v (by simp), heq ▸ (hp hm h).2⟩
  have hkeep : ∀ {m m' : Machine} {v : Value}, m.Persists quiet m' → v ∈ m.roots ∧ m.Public v →
      v ∈ m'.roots ∧ m'.Public v := fun hk h =>
    ⟨hk.carries.roots_subset h.1, hk.public_root h.2 h.1⟩
  refine hpin.bind fun _ m₁ => (behaves_intern name).bind fun key m₂ => Behaves.ask_bind ?_
  cases ha : m₂.attributes? object with
  | none => exact Behaves.ask_bind (behaves_raiseError _ _)
  | some a =>
    dsimp only
    split
    · refine (behaves_newTable .symbol fun _ => nofun).bind fun fresh m₃ =>
        (behaves_setAttributes fun _ h => ?_).bind fun _ m₄ => Behaves.congr
          (b := Dictionary.insert (fun _ => Keys.symbol) fresh key v >>= fun _ => pure ()) rfl
          (behaves_bindAttribute object fun _ h => ?_)
      · have hobject := hkeep h.before.persists h.before.before.result.1
        exact ⟨(hkeep h.persists hobject).2, h.persists.exists_attributes hobject.1 ha,
          ⟨_, h.result.read_eq rfl, rfl⟩, h.result.unkept⟩
      · obtain ⟨i, rfl, -⟩ := h.before.before.result
        have hv := hkeep h.before.before.persists h.before.before.before.result.2
        exact ⟨h.result.1, h.result.2, Or.inl (.ofSymbol i),
          (hkeep h.persists (hkeep h.before.persists hv)).2⟩
    · rename_i habsent
      refine Behaves.congr (b := Dictionary.insert (fun _ => Keys.symbol) a key v >>= fun _ => pure ())
        rfl (behaves_bindAttribute object fun _ h => ?_)
      obtain ⟨i, rfl, -⟩ := h.result
      exact ⟨ha, Bool.not_eq_true _ ▸ habsent, Or.inl (.ofSymbol i), (hkeep h.persists h.before.result.2).2⟩

theorem behaves_getAttribute (name : String) {object : Value} (hp : m.Typed ∅ → pre → m.Public object) :
    Behaves quiet pre (getAttribute object name) m fun v m' => m'.Public v := by
  have hkey : Behaves quiet pre (withHandles do
      let _ ← pin object
      intern name) m fun _ _ => True := by
    refine Behaves.withHandles ?_ fun _ _ _ h => h
    exact (behaves_pin fun hm h => ⟨(hp hm h).resolves, hm.public_ne (hp hm h)⟩).bind fun _ m₁ =>
      (behaves_intern name).weaken fun _ _ _ _ _ _ => trivial
  have hmiss : ∀ {m : Machine} {pre : Prop}, Behaves quiet pre
      (ask (·.typeName object) >>= fun found => noAttribute found name) m fun v m' => m'.Public v :=
    Behaves.ask_bind (behaves_raiseError _ _)
  refine hkey.bind fun key m₁ => Behaves.ask_bind ?_
  cases ha : m₁.attributes? object with
  | none => exact Behaves.congr rfl hmiss
  | some a =>
    simp only [Option.getD_some]
    split
    · exact Behaves.congr rfl hmiss
    rename_i habsent
    have htable : m₁.Typed ∅ → m₁.NameTable a := fun hm =>
      (hm.shaped.nameTable_of_attributes ha (Bool.not_eq_true _ ▸ habsent)).1
    refine (Dictionary.behaves_lookup_symbol fun hm _ => htable hm).bind fun found m₂ => ?_
    cases found with
    | none => exact hmiss
    | some v =>
      refine behaves_pure fun hm h => ?_
      obtain ⟨rfl, hentry⟩ := h.result
      obtain ⟨t, id, e, ht, he, -, rfl⟩ := hentry v rfl
      obtain ⟨t', ht', hsymbol⟩ := htable hm
      obtain rfl := Except.ok.inj (ht.symm.trans ht')
      exact (hm.receives ht (by rw [hsymbol]; nofun) he).public_record

/-! ### Classes -/

/-- A class below another. -/
theorem behaves_newClass (name : String) {superclass : Value} (hloud : ¬ quiet)
    (hp : m.Typed ∅ → pre → ∃ b, m.heap.read Facet.cls superclass = .ok b) :
    Behaves quiet pre (newClass name superclass) m fun v m' => m'.Public v := by
  refine Behaves.withHandles ?_ fun _ _ _ h => h
  have hpin : Behaves quiet pre (pin superclass) m fun _ m' => superclass ∈ m'.roots ∧
      ∃ b, m'.heap.read Facet.cls superclass = .ok b := by
    refine (behaves_pin fun hm h => ?_).imp (fun _ h => h) fun _ m' hm h _ _ hpinned =>
      ⟨hpinned.1, hpinned.2 ▸ hp hm h⟩
    obtain ⟨b, hb⟩ := hp hm h
    exact ⟨Heap.resolves_of_read hb, hm.read_ne Facet.lawful_cls nofun hb⟩
  refine hpin.bind fun _ m₁ => Behaves.read_bind (fun _ h => h.result.2) fun b hb =>
    (behaves_intern name).bind fun symbol m₂ => (behaves_newTable .symbol fun _ => nofun).bind
      fun methods m₃ => Behaves.ask_bind ((behaves_alloc (fun hm h => ?_) fun hq => absurd hq hloud).weaken
        fun _ _ _ _ _ hplaced => hplaced.isPublic nofun)
  obtain ⟨i, rfl, -⟩ := h.before.result
  obtain ⟨b', hb', -, hkind⟩ := (h.before.persists.trans h.persists).exists_read_cls
    (Or.inl h.before.before.result.1) hb
  have htable := h.result.read_eq (show Facet.table.get? _ = _ from rfl)
  refine ⟨⟨⟨(hm.shaped.intact.anchored_classValue .cls).resolves, ?_, nofun⟩,
    Or.inl ⟨.cls, rfl, rfl⟩, trivial, fun a ha _ => ?_, fun c hc => ?_⟩, Body.avoids_cls.mpr ⟨?_, ?_, ?_⟩⟩
  · exact Heap.resolves_triple (Heap.resolves_of_not_isRef (Value.isRef_ofSymbol i))
      (Heap.resolves_of_read hb') (Heap.resolves_of_read htable)
  · obtain rfl := Option.some.inj ha
    exact h.result.unkept
  · obtain rfl := Body.cls.inj hc
    exact ⟨⟨b', hb', hkind⟩, _, htable, rfl, fun id => by simp [Table.get?, Table.new]⟩
  · exact ne_of_not_isRef hm.discreet.isRef (Value.isRef_ofSymbol i)
  · exact hm.read_ne Facet.lawful_cls nofun hb'
  · exact hm.nameTable_ne ⟨_, htable, rfl⟩

/-- What instances are made of at first. -/
theorem instanceBody?_eq_some {kind : Option ObjectKind} {body : Body} (h : instanceBody? kind = some body) :
    kind = some body.kind ∧ (∀ m : Machine, m.Suits body) ∧ (∀ w ∈ body.edges, w.isRef = false) ∧
      (∀ b, body ≠ .cls b) ∧ (∀ n, body ≠ .native n) ∧ ∀ t, body = .table t → t.strategy = .value := by
  unfold instanceBody? at h
  split at h
  · obtain rfl := Option.some.inj h
    exact ⟨rfl, fun _ => Or.inl rfl, by simp [Body.edges]; rfl, by simp, by simp, by simp⟩
  · obtain rfl := Option.some.inj h
    exact ⟨rfl, fun _ => ⟨Or.inl .nil, Or.inl rfl⟩, by simp [Body.edges]; decide, by simp, by simp, by simp⟩
  · obtain rfl := Option.some.inj h
    exact ⟨rfl, fun _ => trivial, by simp [Body.edges], by simp, by simp, by simp⟩
  · obtain rfl := Option.some.inj h
    exact ⟨rfl, fun _ v hv => by simp at hv, by simp [Body.edges], by simp, by simp, by simp⟩
  · obtain rfl := Option.some.inj h
    refine ⟨rfl, fun _ => ⟨Table.wellFormed_new .value 0, fun _ id e he => ?_⟩, ?_, by simp, by simp,
      fun t ht => Body.table.inj ht ▸ rfl⟩
    · simp [Table.get?, Table.new] at he
    · simp [Body.edges, Table.slab, Table.new]
  · cases h

/-- Only classes can be instantiated, and only those whose instances can be made of nothing. -/
theorem behaves_instantiate {cls : Value} (hloud : ¬ quiet)
    (hp : m.Typed ∅ → pre → ∃ b, m.heap.read Facet.cls cls = .ok b) :
    Behaves quiet pre (instantiate cls) m fun v m' => m'.Public v := by
  refine Behaves.read_bind hp fun b hb => ?_
  cases hbody : instanceBody? b.instanceKind with
  | none => exact Behaves.ask_bind (behaves_raiseError _ _)
  | some body =>
    obtain ⟨hkind, hsuits, hedges, hcls, hnative, htable⟩ := instanceBody?_eq_some hbody
    refine (behaves_alloc (fun hm h => ?_) fun hq => absurd hq hloud).weaken
      fun _ _ _ _ _ hplaced => hplaced.isPublic htable
    refine ⟨⟨⟨Heap.resolves_of_read hb, fun w hw =>
      Heap.resolves_of_not_isRef (hedges w hw), fun t ht => ?_⟩, hm.shaped.bears_of_read hb hkind,
      hsuits m, fun a ha href => ?_, fun c hc => absurd hc (hcls c)⟩, fun hs => ?_,
      fun n hn => absurd hn (hnative n)⟩
    · have hslotted := hsuits m
      rw [← Facet.lawful_table.put_eq ht] at hslotted
      exact hslotted.1.slotted
    · rw [hedges a (Body.mem_edges_of_names? ha)] at href
      cases href
    · have href := hm.discreet.isRef
      rw [hedges _ hs] at href
      cases href

end Effect

/-! ### Methods -/

/-- A method for a selector, from a class on upwards: one that the bootstrap installs under this name in
a built-in class that is met on the way. -/
def Machine.Responds (m : Machine) (cls selector method : Value) : Prop :=
  ∃ c p i, m.Below (m.classValue c) cls ∧ c.Provides p ∧ m.heap.read Facet.native method = .ok p.native ∧
    m.symbols.names[i]? = some p.name ∧ selector = .ofSymbol i

namespace Effect

variable {m : Machine} {quiet pre : Prop}

/-- The search goes up to the root at most, and changes nothing. -/
theorem exists_findMethodFrom (hm : m.Typed ∅) (selector : Value) {cls : Value} {l : List Value}
    (hl : m.Lineage cls l) {fuel : Nat} (hfuel : l.length < fuel) :
    ∃ found, findMethodFrom selector fuel cls m = .ok found m ∧
      ∀ v, found = some v → m.Responds cls selector v := by
  induction hl generalizing fuel with
  | top hnil =>
    obtain ⟨fuel, rfl⟩ := Nat.exists_eq_add_of_lt hfuel
    exact ⟨none, by rw [findMethodFrom, if_pos hnil]; rfl, nofun⟩
  | @up cls c rest hread _ ih =>
    obtain ⟨fuel, rfl⟩ : ∃ n, fuel = n + 1 := ⟨fuel - 1, by omega⟩
    obtain ⟨t, ht, -, hentries⟩ := hm.shaped.methods cls c hread (Set.notMem_empty cls)
    obtain ⟨found, hfound, hentry⟩ := Dictionary.exists_lookup_symbol ht (hm.wellFormed ht) selector
    have hnil := read_cls_ne_nil hread
    rw [findMethodFrom, if_neg (by simp [hnil]), bind_of_ok (read_of_ok hread), bind_of_ok hfound]
    cases found with
    | some method =>
      refine ⟨some method, rfl, fun v hv => ?_⟩
      obtain rfl := Option.some.inj hv
      obtain ⟨id, e, he, hkey, hrecord⟩ := hentry method rfl
      obtain ⟨d, p, i, rfl, hp, hnative, hname, hsymbol⟩ := hentries id e he
      exact ⟨d, p, i, .here hnil, hp, hrecord ▸ hnative, hname, hkey ▸ hsymbol⟩
    | none =>
      obtain ⟨found, hfound, hfinds⟩ := ih (by simpa using hfuel)
      refine ⟨found, hfound, fun v hv => ?_⟩
      obtain ⟨d, p, i, hbelow, hrest⟩ := hfinds v hv
      exact ⟨d, p, i, .up hread hbelow, hrest⟩

theorem behaves_findMethod {cls : Value} (selector : Value)
    (hp : m.Typed ∅ → pre → ∃ b, m.heap.read Facet.cls cls = .ok b) :
    Behaves quiet pre (findMethod cls selector) m fun found m' => m' = m ∧
      ∀ v, found = some v → m.Responds cls selector v := by
  refine .of_exists (Discreet.size_le (s := m.symbols.table) (discreet_findMethod False.elim) m)
    fun hm h _ => ?_
  obtain ⟨b, hb⟩ := hp hm h
  obtain ⟨l, hl⟩ := hm.shaped.lineage cls b hb
  have hfuel : l.length < m.heap.slots.size + 2 := Nat.lt_of_le_of_lt hl.length_le (by omega)
  obtain ⟨found, hfound, hfinds⟩ := exists_findMethodFrom hm selector hl hfuel
  exact ⟨found, m, hfound, hm, .refl m, rfl, hfinds⟩

/-- A method that the bootstrap installs in a class can be defined there. -/
theorem behaves_defineMethod {cls : Value} {c : BuiltinClass} {p : PrimitiveMethod} (hc : c.Provides p)
    (hp : pre → cls = m.classValue c) :
    Behaves quiet pre (defineMethod cls p.native) m fun _ _ => True := by
  refine Behaves.withHandles ?_ fun _ _ _ h => h
  have hpin : Behaves quiet pre (pin cls) m fun _ m' => cls = m'.classValue c := by
    refine (behaves_pin fun hm h => ?_).weaken fun _ m' h _ hk _ => (hp h).trans (hk.classValue_eq c).symm
    rw [hp h]
    exact ⟨(hm.shaped.intact.anchored_classValue c).resolves, hm.discreet.classValue_ne c⟩
  refine hpin.bind fun _ m₁ => (behaves_intern p.name).bind fun selector m₂ => Behaves.read_bind
    (fun hm h => ?_) fun b hb => Behaves.ask_bind ?_
  · obtain ⟨b, hb, -⟩ := hm.shaped.builtin c
    exact ⟨b, by rw [h.before.result, ← h.persists.classValue_eq]; exact hb⟩
  -- storing the method is quiet, so that the class has the same method table afterwards
  have hobject : ∀ {pre : Prop}, Behaves quiet pre (alloc (m₂.classValue .nativeFunction) (.native p.native))
      m₂ fun v m' => m₂.Persists True m' ∧
        m'.Placed (m₂.classValue .nativeFunction) (.native p.native) v := fun {pre} => by
    refine Behaves.loud ((behaves_alloc (fun hm _ => ?_) fun _ : True =>
      Body.inert_native _).weaken fun _ _ _ _ hk h => ⟨hk, h⟩) fun _ => trivial
    exact ⟨hm.shaped.fits rfl (fun _ h => Body.noConfusion h) (fun w hw => absurd hw List.not_mem_nil)
      trivial (fun _ h => by cases h), Body.avoids_native.mpr trivial⟩
  refine hobject.bind fun object m₃ => (Dictionary.behaves_insert_symbol fun hm h => ?_).bind
    fun _ _ => behaves_pure fun _ _ => trivial
  obtain ⟨i, rfl, hname⟩ := h.before.result
  obtain ⟨hk, hplaced⟩ := h.result
  have hcls : m₃.classValue c = cls :=
    ((h.before.persists.trans h.persists).classValue_eq c).trans h.before.before.result.symm
  obtain ⟨b', hb', -⟩ := hm.shaped.builtin c
  rw [hcls] at hb'
  obtain rfl := Except.ok.inj (hb.symm.trans (hk.classes trivial _ b' hb'))
  obtain ⟨t, ht, hsymbol, -⟩ := hm.shaped.methods _ b hb' (Set.notMem_empty _)
  obtain ⟨q, hq, -⟩ := Heap.read_eq_ok_iff.mp ht
  refine ⟨⟨t, ht, hsymbol⟩, Or.inl (.ofSymbol i), hplaced.isPublic (fun _ h => Body.noConfusion h),
    fun u b' e hu hmethods hkey hrecord => ?_⟩
  -- no other class has this method table
  have hname' : ∀ {v b}, m₃.heap.read Facet.cls v = .ok b → ∃ o, m₃.heap.get? v = some o ∧
      o.body.names? = some b.methods := fun hv => by
    obtain ⟨o, ho, hread⟩ := Heap.read_eq_ok_iff.mp hv
    exact ⟨o, ho, by rw [← Facet.lawful_cls.put_eq hread]; rfl⟩
  obtain ⟨o, ho, ho'⟩ := hname' hb'
  obtain ⟨o', hu, hu'⟩ := hname' hu
  obtain rfl := hm.shaped.kept u _ o' o _ hu ho (hmethods ▸ hu') ho' (Heap.get?_eq_some_iff.mp hq).1
  exact ⟨c, p, i, hcls.symm, hc, hrecord ▸ hplaced.read_eq rfl, h.persists.names hname, hkey⟩

end Effect

end ObjectMachine
