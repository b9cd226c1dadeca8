import Mathlib.Tactic
import ObjectMachine.Proofs.Naming.Settled

/-! Commands on names.

Clients intern names, derive classes, define methods, make objects, set and ask for attributes, keep
objects alive and let them go, and have the heap collected, in any order.  Each of these commands leaves
a settled machine settled, and binds one name in one object at most. -/

namespace ObjectMachine

open Machine Effect

/-- What a client does. -/
inductive Command where
  | intern (name : String)
  | newClass (name : String) (superclass : Value)
  | defineMethod (cls : Value) (method : NativeMethod)
  | make (cls : Value) (body : Body)
  | setAttribute (object : Value) (name : String) (v : Value)
  | getAttribute (object : Value) (name : String)
  | keep (v : Value)
  | release (handles : Nat)
  | collect

namespace Command

/-- Does it, whatever the answer is. -/
def perform : Command → Effect Unit
  | .intern name => do let _ ← Effect.intern name
  | .newClass name superclass => do let _ ← Effect.newClass name superclass
  | .defineMethod cls method => Effect.defineMethod cls method
  | .make cls body => do let _ ← alloc cls body
  | .setAttribute object name v => Effect.setAttribute object name v
  | .getAttribute object name => do let _ ← Effect.getAttribute object name
  | .keep v => do let _ ← pin v
  | .release handles => update fun m => { m with handles := m.handles.shrink handles }
  | .collect => collectGarbage

/-- Carries out commands one after the other; what fails keeps what it did. -/
def serve (commands : List Command) (m : Machine) : Machine :=
  commands.foldl (fun m c => c.perform.after m) m

/-- Whether a client may do it: values come from the machine, and the objects that are made directly are
neither classes nor have a table of names yet. -/
def Fair (m : Machine) : Command → Prop
  | .intern _ | .release _ | .collect => True
  | .newClass _ superclass => m.Usable superclass
  | .defineMethod cls method => m.Usable cls ∧ method.code.Avoids m.symbols.table
  | .make cls body => body.Bare ∧ m.Admits cls body ∧ cls ≠ m.symbols.table ∧
      body.Avoids m.symbols.table
  | .setAttribute object _ v => m.Usable object ∧ m.Usable v
  | .getAttribute object _ => m.Usable object
  | .keep v => m.Usable v

/-- Whether a client may do all of it in turn. -/
def FairAll : List Command → Machine → Prop
  | [], _ => True
  | c :: commands, m => c.Fair m ∧ FairAll commands (c.perform.after m)

end Command

/-! ### Scopes -/

/-- A value that is pinned in a later machine, and is still what it was unless it is a table. -/
structure Machine.Pins (m : Machine) (v : Value) (m' : Machine) : Prop where
  root : v ∈ m'.roots
  usable : m'.Usable v
  same : ∀ {o : Object}, o.kind ≠ .table → (m'.heap.get? v = some o ↔ m.heap.get? v = some o)

namespace Machine.Pins

variable {m m' m'' : Machine} {v : Value}

theorem pinned (hv : m.Usable v) (hroot : v ∈ m'.roots) (heap : m'.heap = m.heap)
    (htable : m'.symbols.table = m.symbols.table) : m.Pins v m' :=
  ⟨hroot, ⟨heap ▸ hv.1, htable ▸ hv.2⟩, fun _ => by rw [heap]⟩

theorem keeps (h : m.Pins v m') (hm' : m'.Settled) (hk : Keeps ∅ ∅ ∅ m' m'') : m.Pins v m'' := by
  have hget := hk.get?_root_eq hm'.intact h.root (Set.notMem_empty v)
  have hroot := hk.carries.roots_subset h.root
  exact ⟨hroot, ⟨hk.intact.closed.roots v hroot, hk.carries.symbols_eq ▸ h.usable.2⟩,
    fun hkind => by rw [hget]; exact h.same hkind⟩

/-- A name becomes a symbol. -/
theorem intern (h : m.Pins v m') (hm' : m'.Settled) (hk : Keeps ∅ ∅ {m'.symbols.table} m' m'') :
    m.Pins v m'' := by
  have htable := hm'.exists_symbols _ rfl
  have hroot := hk.carries.roots_subset h.root
  exact ⟨hroot, ⟨hk.intact.closed.roots v hroot, hk.carries.symbols_eq ▸ h.usable.2⟩, fun hkind =>
    ⟨fun ho => (h.same hkind).mp (hk.get?_back hm'.intact htable h.root ho hkind),
      fun ho => hk.get?_not_table htable h.root ((h.same hkind).mpr ho) hkind⟩⟩

theorem attributes?_eq (h : m.Pins v m') : m'.attributes? v = m.attributes? v := by
  refine Option.ext fun a => ⟨fun ha => ?_, fun ha => ?_⟩
  · obtain ⟨o, ho, hkind, -⟩ := ObjectMachine.attributes?_eq_some ha
    rwa [attributes?_of_get? (((h.same hkind).mp ho).trans ho.symm)]
  · obtain ⟨o, ho, hkind, -⟩ := ObjectMachine.attributes?_eq_some ha
    rwa [attributes?_of_get? (((h.same hkind).mpr ho).trans ho.symm)]

theorem read_cls_iff (h : m.Pins v m') {c : ClassBody} :
    m'.heap.read Facet.cls v = .ok c ↔ m.heap.read Facet.cls v = .ok c := by
  have hkind : ∀ {o : Object}, Facet.cls.get? o.body = some c → o.kind ≠ .table := fun hb => by
    rw [Object.kind, ← Facet.lawful_cls.put_eq hb]
    exact fun h => by cases h
  rw [Heap.read_eq_ok_iff, Heap.read_eq_ok_iff]
  exact exists_congr fun o => and_congr_left fun hb => h.same (hkind hb)

end Machine.Pins

namespace Effect

variable {pre : Prop} {m : Machine}

/-- Every command on a name begins like this: values are pinned, and the name becomes a symbol. -/
theorem settles_scope {fails : Unwind → Machine → Prop} (vs : List Value) (name : String)
    (hp : m.Settled → pre → ∀ v ∈ vs, m.Usable v) :
    Settles pre (pinAll vs >>= fun _ => intern name) m fails fun key m' => m.Binds nothing m' ∧
      (∀ v ∈ vs, m.Pins v m') ∧ ∃ i : Nat, key = .ofSymbol i ∧ m'.symbols.names[i]? = some name := by
  refine (Settles.pinAll vs fun hm h => hp hm h).bind fun _ m₁ _ => (Settles.intern name).imp
    (fun _ h => h) (fun _ _ _ _ h => h) fun hm₁ h key m' _ ⟨hbinds, hk, _, hkey⟩ => ?_
  obtain ⟨hroots, heap, -⟩ := h.result
  exact ⟨h.binds.trans hbinds, fun v hv => (Pins.pinned (hp h.settled h.before v hv) (hroots v hv) heap
    h.binds.table_eq).intern hm₁ hk, hkey⟩

/-- A value is entered into the table of names of an object. -/
theorem settles_bindName {fails : Unwind → Machine → Prop} (object : Value) {a key v : Value}
    (hp : m.Settled → pre → (∃ o, m.heap.get? object = some o ∧ o.body.names? = some a) ∧ a ≠ .absent ∧
      key.Atomic ∧ m.Usable v) :
    Settles pre (Dictionary.insert (fun _ => Keys.symbol) a key v >>= fun _ => pure ()) m fails fun _ m' =>
      m.Binds (single object key v) m' ∧ ∀ u (o : Object), (∀ t, o.body ≠ .table t) →
        (m'.heap.get? u = some o ↔ m.heap.get? u = some o) := by
  have hinsert : Settles pre (Dictionary.insert (fun _ => Keys.symbol) a key v) m fails fun _ m' =>
      m.Binds (single object key v) m' ∧ ∀ u (o : Object), (∀ t, o.body ≠ .table t) →
        (m'.heap.get? u = some o ↔ m.heap.get? u = some o) :=
    Settles.insert fun hm h => ⟨(hp hm h).1, (hp hm h).2.1, (hp hm h).2.2.1, (hp hm h).2.2.2⟩
  exact hinsert.map fun _ => ()

/-! ### Classes and methods -/

/-- A class is derived from another, and no name is bound in it. -/
theorem settles_newClass (name : String) {superclass : Value}
    (hp : m.Settled → pre → m.Usable superclass) :
    Settles pre (newClass name superclass) m
      (fun u _ => (∃ f, u = .fatal f) ∧ ∀ c, m.heap.read Facet.cls superclass ≠ .ok c)
      fun v m' => m.Binds nothing m' ∧ ∃ c, m'.heap.read Facet.cls v = .ok c := by
  refine Settles.withHandles ?_ (fun _ _ _ h => h) fun _ _ n ⟨hbinds, h⟩ => ⟨hbinds.shrink n, h⟩
  refine (Settles.pin hp).bind fun _ m₁ _ => Settles.read_bind (fun c hc => ?_) fun _ h u hu =>
    ⟨⟨u, rfl⟩, fun c hc => ?_⟩
  · refine (Settles.intern name).bind fun symbol m₂ _ => Settles.newTable.bind fun methods m₃ _ =>
      Settles.ask_bind ((Settles.allocClass fun hm₃ h => ?_).imp (fun _ h => h) (fun _ _ _ _ h => h)
        fun _ h _ m' _ ⟨hbinds, hcls⟩ => ?_)
    · obtain ⟨hk₃, hmethods, hfree, hne⟩ := h.result
      obtain ⟨hk₂, -, i, rfl, -⟩ := h.before.result
      obtain ⟨hroot, heap, -⟩ := h.before.before.result
      have hsuper := (((Pins.pinned (hp h.before.before.settled h.before.before.before) hroot heap
        h.before.before.binds.table_eq).intern h.before.settled hk₂).keeps h.settled hk₃)
      have htable := (h.before.before.binds.trans (h.before.binds.trans h.binds)).table_eq
      have hsymbol := Value.isRef_ofSymbol i
      refine ⟨⟨(hm₃.intact.anchored_classValue .cls).resolves, ?_, fun _ => nofun⟩,
        hm₃.discreet.classValue_ne .cls, Body.avoids_cls.mpr ⟨?_, ?_, ?_⟩, hmethods, hfree, c, ?_⟩
      · exact Heap.resolves_triple (Heap.resolves_of_not_isRef hsymbol) hsuper.usable.1
          (Heap.resolves_of_read hmethods)
      · exact ne_of_not_isRef hm₃.discreet.isRef hsymbol
      · exact htable ▸ hsuper.usable.2
      · rw [h.binds.table_eq]
        exact hne
      · exact hsuper.read_cls_iff.mpr (heap ▸ hc)
    · exact ⟨h.before.before.binds.trans (h.before.binds.trans (h.binds.trans hbinds)), _, hcls⟩
  · rw [← h.result.2.1, hu] at hc
    cases hc

/-- A method becomes an object of its own, and is bound in a class. -/
theorem settles_defineMethod (method : NativeMethod) {cls : Value}
    (hp : m.Settled → pre → m.Usable cls ∧ method.code.Avoids m.symbols.table) :
    Settles pre (defineMethod cls method) m
      (fun u _ => (∃ f, u = .fatal f) ∧ ∀ c, m.heap.read Facet.cls cls ≠ .ok c)
      fun _ m' => (∃ c, m.heap.read Facet.cls cls = .ok c) ∧ ∃ (i : Nat) (x : Value),
        m'.symbols.names[i]? = some method.name ∧ m.Binds (single cls (.ofSymbol i) x) m' ∧
          m'.heap.read Facet.native x = .ok method ∧ m.heap.get? x = none := by
  refine Settles.withHandles ?_ (fun _ _ _ h => h) fun _ _ n ⟨hcls, i, x, hi, hbinds, hx⟩ =>
    ⟨hcls, i, x, hi, hbinds.shrink n, hx⟩
  refine Settles.congr (b := (pinAll [cls] >>= fun _ => intern method.name) >>= fun selector => do
    let methods := (← read Facet.cls cls).methods
    let object ← alloc (← classValue .nativeFunction) (.native method)
    let _ ← Dictionary.insert (fun _ => Keys.symbol) methods selector object) ?_ ?_
  · rw [bind_assoc]
    rfl
  refine (settles_scope [cls] method.name fun hm h => ?_).bind fun selector m₁ _ =>
    Settles.read_bind (fun c hc => Settles.ask_bind ?_) fun _ h u hu => ⟨⟨u, rfl⟩, fun c hc => ?_⟩
  · simp only [List.forall_mem_cons]
    exact ⟨(hp hm h).1, nofun⟩
  · have hnative : (Body.native method).Bare := ⟨fun _ => Body.noConfusion, fun _ => nofun⟩
    refine (Settles.alloc hnative fun hm₁ h => ?_).bind fun x m₂ _ =>
      (settles_bindName cls fun hm₂ h => ?_).imp (fun _ h => h) (fun _ _ _ _ h => h)
        fun hm₂ h _ m' _ ⟨hbinds, hsame⟩ => ?_
    · refine ⟨⟨(hm₁.intact.anchored_classValue _).resolves, nofun, fun _ => nofun⟩,
        hm₁.discreet.classValue_ne _, Body.avoids_native.mpr ?_⟩
      rw [h.binds.table_eq]
      exact (hp h.settled h.before).2
    · obtain ⟨hk₂, hmade, -, -, hne⟩ := h.result
      obtain ⟨hpinned, i, rfl, -⟩ := h.before.result
      obtain ⟨o, ho, hbody⟩ := Heap.read_eq_ok_iff.mp (((hpinned cls (by simp)).keeps h.settled
        hk₂).read_cls_iff.mpr ((hpinned cls (by simp)).read_cls_iff.mp hc))
      have hbody := (Facet.lawful_cls.put_eq hbody).symm
      refine ⟨⟨o, ho, by rw [hbody]; rfl⟩, hm₂.neat.methods ho hbody, .ofSymbol i,
        Heap.resolves_of_isLive hmade.isLive, ?_⟩
      rw [h.binds.table_eq]
      exact hne
    · obtain ⟨hk₂, hmade, hyoung, -⟩ := h.result
      obtain ⟨hpinned, i, rfl, hi⟩ := h.before.result
      obtain ⟨o, ho, -, hbody⟩ := hmade.object
      have hbefore := h.before.binds.trans h.binds
      refine ⟨⟨c, (hpinned cls (by simp)).read_cls_iff.mp hc⟩, i, x, hbinds.names (h.binds.names hi),
        hbefore.trans hbinds, Heap.read_eq_ok_iff.mpr
          ⟨o, (hsame x o (hbody ▸ fun _ => Body.noConfusion)).mpr ho, by rw [hbody]; rfl⟩, ?_⟩
      exact Binds.get?_eq_none h.before.settled hbefore
        (fun p hp => h.before.binds.later.serial_le.trans (hyoung p hp)) hmade.isLive
  · exact absurd (((h.result.1 cls (by simp)).read_cls_iff).mpr hc) (by rw [hu]; exact nofun)

/-! ### Attributes -/

theorem exists_names_of_attributes {v a : Value} (ha : m.attributes? v = some a) :
    ∃ o, m.heap.get? v = some o ∧ o.body.names? = some a := by
  obtain ⟨o, ho, hnames, -⟩ := Machine.attributes?_eq_some ha
  exact ⟨o, ho, hnames⟩

/-- An attribute of a plain object or an exception is bound; other values have no attributes. -/
theorem settles_setAttribute (name : String) {object v : Value}
    (hp : m.Settled → pre → m.Usable object ∧ m.Usable v) :
    Settles pre (setAttribute object name v) m
      (fun u m' => m.attributes? object = none ∧ ∃ (exc : Value) (found : String), u = .raise exc ∧
        m'.IsError .typeError s!"cannot set attribute '{name}' on '{found}' object" exc)
      fun _ m' => (∃ a, m.attributes? object = some a) ∧ ∃ i : Nat, m'.symbols.names[i]? = some name ∧
        m.Binds (single object (.ofSymbol i) v) m' := by
  refine Settles.withHandles ?_ (fun _ _ _ h => h) fun _ _ n ⟨ha, i, hi, h⟩ => ⟨ha, i, hi, h.shrink n⟩
  rw [← bind_assoc]
  refine (settles_scope [object, v] name fun hm h => ?_).bind fun key m₁ _ => Settles.ask_bind ?_
  · simp only [List.forall_mem_cons]
    exact ⟨(hp hm h).1, (hp hm h).2, nofun⟩
  cases ha : m₁.attributes? object with
  | none =>
    refine Settles.ask_bind ((Settles.raiseError _ _).imp (fun _ h => h) (fun _ h u m' ⟨exc, hu, he⟩ => ?_)
      fun _ _ _ _ _ h => h)
    exact ⟨(h.result.1 object (by simp)).attributes?_eq.symm.trans ha, exc, _, hu, he⟩
  | some a =>
    dsimp only
    split
    · rename_i habsent
      obtain rfl : a = .absent := beq_iff_eq.mp habsent
      refine Settles.newTable.bind fun fresh m₂ _ => (Settles.setAttributes fun hm₂ h => ?_).bind
        fun _ m₃ _ => Settles.congr
          (b := Dictionary.insert (fun _ => Keys.symbol) fresh key v >>= fun _ => pure ()) rfl
          ((settles_bindName object fun hm₃ h => ?_).imp (fun _ h => h) (fun _ _ _ _ h => h)
            fun _ h _ m' _ ⟨hbinds, _⟩ => ?_)
      · obtain ⟨hk, hread, hfree, hne⟩ := h.result
        have hobject := (h.before.result.1 object (by simp)).keeps h.settled hk
        refine ⟨?_, h.binds.table_eq ▸ hne, hfree, hread⟩
        rw [hobject.attributes?_eq, ← (h.before.result.1 object (by simp)).attributes?_eq, ha]
      · obtain ⟨hk, hread, -⟩ := h.before.result
        obtain ⟨hpinned, i, rfl, -⟩ := h.before.before.result
        have hv := (hpinned v (by simp)).keeps h.before.settled hk
        refine ⟨exists_names_of_attributes h.result.1, ?_, .ofSymbol i, hm₃.intact.closed.roots v (h.result.2 ▸ hv.root), ?_⟩
        · rintro rfl
          cases hread
        · rw [h.binds.table_eq]
          exact hv.usable.2
      · obtain ⟨hpinned, i, rfl, hi⟩ := h.before.before.result
        have hbefore := h.before.before.binds.trans (h.before.binds.trans h.binds)
        refine ⟨⟨_, (hpinned object (by simp)).attributes?_eq.symm.trans ha⟩, i, ?_, hbefore.trans hbinds⟩
        exact hbinds.names (h.binds.names (h.before.binds.names hi))
    · rename_i habsent
      refine Settles.congr (b := Dictionary.insert (fun _ => Keys.symbol) a key v >>= fun _ => pure ())
        rfl ((settles_bindName object fun _ h => ?_).imp (fun _ h => h) (fun _ _ _ _ h => h)
          fun _ h _ m' _ ⟨hbinds, _⟩ => ?_)
      · obtain ⟨hpinned, i, rfl, -⟩ := h.result
        refine ⟨exists_names_of_attributes ha, fun heq => habsent ?_, .ofSymbol i, (hpinned v (by simp)).usable⟩
        rw [heq]
        rfl
      · obtain ⟨hpinned, i, rfl, hi⟩ := h.result
        exact ⟨⟨_, (hpinned object (by simp)).attributes?_eq.symm.trans ha⟩, i, hbinds.names hi,
          h.binds.trans hbinds⟩

/-- What a client is told of an attribute once the name is a symbol: the binding at that moment, if the
value has attributes at all. -/
structure Answered (m : Machine) (object : Value) (name : String) (found : Option Value) (m' : Machine) :
    Prop where
  room : m'.HasRoom
  binds : m.Binds nothing m'
  resolves : m'.heap.Resolves object
  attributes_eq : m'.attributes? object = m.attributes? object
  found_eq : ∃ i : Nat, m'.symbols.names[i]? = some name ∧
    found = (m.attributes? object).bind fun _ => m'.heap.binding? object (.ofSymbol i)

/-- The answer is the attribute, or an error if there is none. -/
theorem settles_getAttribute (name : String) {object : Value} (hp : m.Settled → pre → m.Usable object) :
    Settles pre (getAttribute object name) m
      (fun u m' => (∃ k, Answered m object name none k) ∧ ∃ (exc : Value) (found : String), u = .raise exc ∧
        m'.IsError .attributeError s!"'{found}' object has no attribute '{name}'" exc)
      fun v m' => Answered m object name (some v) m' := by
  have hkey : ∀ {fails : Unwind → Machine → Prop}, (∀ u (m' : Machine) n, fails u m' →
      fails u { m' with handles := m'.handles.shrink n }) → Settles pre (withHandles do
        let _ ← pin object
        intern name) m fails fun key m' => m.Binds nothing m' ∧ m'.heap.Resolves object ∧
          m'.attributes? object = m.attributes? object ∧
            ∃ i : Nat, key = .ofSymbol i ∧ m'.symbols.names[i]? = some name := fun hfails => by
    refine Settles.withHandles (Settles.congr (b := pinAll [object] >>= fun _ => intern name) rfl
      ((settles_scope [object] name fun hm h => ?_).imp (fun _ h => h) (fun _ _ _ _ h => h)
        fun _ _ key m' _ ⟨hbinds, hpinned, hkey⟩ => ?_)) hfails
        fun _ _ n ⟨hbinds, hrest⟩ => ⟨hbinds.shrink n, hrest⟩
    · simp only [List.forall_mem_cons]
      exact ⟨hp hm h, nofun⟩
    · have hobject := hpinned object (by simp)
      exact ⟨hbinds, hobject.usable.1, hobject.attributes?_eq, hkey⟩
  refine (hkey fun _ _ _ h => h).bind fun key m₁ _ => Settles.ask_bind ?_
  have hmiss : ∀ {pre' : Prop} {m₂ : Machine},
      (m₂.Settled → pre' → m₂.HasRoom → ∃ k, Answered m object name none k) →
      Settles pre' (do noAttribute (← ask (·.typeName object)) name : Effect Value) m₂
        (fun u m' => (∃ k, Answered m object name none k) ∧ ∃ (exc : Value) (found : String),
          u = .raise exc ∧ m'.IsError .attributeError s!"'{found}' object has no attribute '{name}'" exc)
        fun v m' => Answered m object name (some v) m' := fun hanswer =>
    Settles.ask_bind ((Settles.raiseError _ _).within.imp (fun _ h => h)
      (fun hm₂ h _ _ ⟨hroom, exc, hu, he⟩ => ⟨hanswer hm₂ h hroom, exc, _, hu, he⟩) fun _ _ _ _ _ h => h)
  dsimp only
  split
  · -- the value has no table of attributes
    rename_i habsent
    refine Settles.congr (b := do noAttribute (← ask (·.typeName object)) name) rfl (hmiss fun _ h hroom => ?_)
    obtain ⟨hobject, hsame, i, -, hi⟩ := h.result
    refine ⟨m₁, hroom, h.binds, hobject, hsame, i, hi, ?_⟩
    cases ha : m.attributes? object with
    | none => rfl
    | some a =>
      rw [hsame, ha] at habsent
      obtain ⟨o, ho, hnames, -⟩ := Machine.attributes?_eq_some (hsame.trans ha)
      rw [Option.bind_some, Heap.binding?, Heap.names?_eq_none ho fun b hb => ?_]
      · rfl
      · exact (Option.some.inj (hb.symm.trans hnames)).trans (beq_iff_eq.mp habsent)
  · -- the lookup changes nothing, and what it finds is the answer
    rename_i hpresent
    obtain ⟨a, ha⟩ : ∃ a, m₁.attributes? object = some a := by
      cases ha : m₁.attributes? object with
      | none => rw [ha] at hpresent; exact absurd rfl hpresent
      | some a => exact ⟨a, rfl⟩
    have hne : a ≠ .absent := by
      rintro rfl
      rw [ha] at hpresent
      exact hpresent rfl
    rw [ha, Option.getD_some]
    refine (Settles.lookup object fun _ h => ⟨exists_names_of_attributes ha, hne, ?_⟩).bind
      fun found m₂ _ => ?_
    · obtain ⟨-, -, i, rfl, -⟩ := h.result
      exact (Value.Atomic.ofSymbol i).ne_absent
    · have hanswer : ∀ {k}, Stepped (Stepped pre m (fun m' => m'.heap.Resolves object ∧
          m'.attributes? object = m.attributes? object ∧ ∃ i : Nat, key = .ofSymbol i ∧
            m'.symbols.names[i]? = some name) m₁) m₁
          (fun m' => m' = m₁ ∧ found = m₁.heap.binding? object key) k → k.HasRoom →
            Answered m object name found k := by
        intro k h hroom
        obtain ⟨rfl, hfound⟩ := h.result
        obtain ⟨hobject, hsame, i, rfl, hi⟩ := h.before.result
        exact ⟨hroom, h.before.binds, hobject, hsame, i, hi, by rw [← hsame, ha, Option.bind_some, hfound]⟩
      cases found with
      | none => exact hmiss fun _ h hroom => ⟨_, hanswer h hroom⟩
      | some v => exact .of_ok rfl le_rfl fun _ h hroom => hanswer h hroom

end Effect

end ObjectMachine
