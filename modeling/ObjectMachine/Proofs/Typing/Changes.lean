import Mathlib.Tactic
import ObjectMachine.Proofs.Dictionary.Watching
import ObjectMachine.Proofs.Typing.Shape

/-! What keeps a machine shaped.

A machine evolves into another if what is left of its objects is likened to what they were.  What the
shape says of an object then carries over, so that only the objects that are new or written have to be
looked at again.  Collecting, storing and changing an object are such steps. -/

namespace ObjectMachine.Machine

variable {m m' m'' : Machine} {bare : Set Value} {v : Value}

/-- A later machine with the same classes and globals and all the names, in which the objects that are
left are later states of what they were. -/
structure Evolves (m m' : Machine) : Prop where
  classes_eq : m'.classes = m.classes
  globals_eq : m'.globals = m.globals
  names : ∀ {i : Nat} {name : String}, m.symbols.names[i]? = some name → m'.symbols.names[i]? = some name
  likens : ∀ {v o o'}, m.heap.get? v = some o → m'.heap.get? v = some o' → o.Likens o'

namespace Evolves

theorem classValue_eq (he : m.Evolves m') (c : BuiltinClass) : m'.classValue c = m.classValue c := by
  rw [classValue, classValue, he.classes_eq]

/-- What is left of a value that programs may hold is one still. -/
theorem keeps_public (he : m.Evolves m') (hv : m.Public v) (hr : m'.heap.Resolves v) : m'.Public v := by
  rcases hv with hv | ⟨o, ho, hopen⟩
  · exact Or.inl hv
  · obtain ⟨o', ho'⟩ := Heap.isLive_iff.mp (hr (Heap.get?_eq_some_iff.mp ho).1)
    refine Or.inr ⟨o', ho', fun t ht => ?_⟩
    obtain ⟨t', ht', hsame⟩ := Body.exists_table_of_outline_eq (he.likens ho ho').outline_eq.symm ht
    exact hsame.symm.trans (hopen t' ht')

theorem nameTable (he : m.Evolves m') (hv : m.NameTable v) (hr : m'.heap.Resolves v) :
    m'.NameTable v := by
  obtain ⟨t, ht, hsymbol⟩ := hv
  obtain ⟨o, ho, hb⟩ := Heap.read_eq_ok_iff.mp ht
  obtain ⟨o', ho'⟩ := Heap.isLive_iff.mp (hr (Heap.get?_eq_some_iff.mp ho).1)
  obtain ⟨t', ht', hsame⟩ := Body.exists_table_of_outline_eq (he.likens ho ho').outline_eq
    (Facet.lawful_table.put_eq hb).symm
  exact ⟨t', Heap.read_eq_ok_iff.mpr ⟨o', ho', by rw [ht']; rfl⟩, hsame.trans hsymbol⟩

theorem exists_read_cls (he : m.Evolves m') {b : ClassBody} (hb : m.heap.read Facet.cls v = .ok b)
    (hr : m'.heap.Resolves v) : ∃ b', m'.heap.read Facet.cls v = .ok b' ∧
      b'.superclass = b.superclass ∧ b'.instanceKind = b.instanceKind := by
  obtain ⟨o, ho, hb⟩ := Heap.read_eq_ok_iff.mp hb
  obtain ⟨o', ho'⟩ := Heap.isLive_iff.mp (hr (Heap.get?_eq_some_iff.mp ho).1)
  obtain ⟨b', hb', hsuper, hkind⟩ := Body.exists_cls_of_outline_eq (he.likens ho ho').outline_eq
    (Facet.lawful_cls.put_eq hb).symm
  exact ⟨b', Heap.read_eq_ok_iff.mpr ⟨o', ho', by rw [hb']; rfl⟩, hsuper, hkind⟩

/-- A class that is left was one before. -/
theorem exists_read_cls_back (he : m.Evolves m') {b' : ClassBody}
    (hb' : m'.heap.read Facet.cls v = .ok b') (hv : m.heap.isLive v = true) :
    ∃ b, m.heap.read Facet.cls v = .ok b ∧
      b'.superclass = b.superclass ∧ b'.instanceKind = b.instanceKind := by
  obtain ⟨o', ho', hb'⟩ := Heap.read_eq_ok_iff.mp hb'
  obtain ⟨o, ho⟩ := Heap.isLive_iff.mp hv
  obtain ⟨b, hb, hsuper, hkind⟩ := Body.exists_cls_of_outline_eq (he.likens ho ho').outline_eq.symm
    (Facet.lawful_cls.put_eq hb').symm
  exact ⟨b, Heap.read_eq_ok_iff.mpr ⟨o, ho, by rw [hb]; rfl⟩, hsuper.symm, hkind.symm⟩

theorem read_native (he : m.Evolves m') {n : NativeMethod} (hn : m.heap.read Facet.native v = .ok n)
    (hr : m'.heap.Resolves v) : m'.heap.read Facet.native v = .ok n := by
  obtain ⟨o, ho, hb⟩ := Heap.read_eq_ok_iff.mp hn
  obtain ⟨o', ho'⟩ := Heap.isLive_iff.mp (hr (Heap.get?_eq_some_iff.mp ho).1)
  have hnative : o.body = .native n := by
    cases hbody : o.body <;> simp_all [Facet.native]
  have hsame := Body.eq_native_of_outline_eq (he.likens ho ho').outline_eq hnative
  exact Heap.read_eq_ok_iff.mpr ⟨o', ho', by rw [hsame]; rfl⟩

/-- The way up from a class that is left is the same. -/
theorem lineage (he : m.Evolves m') (hm' : m'.Intact) {l : List Value} (hl : m.Lineage v l)
    (hr : m'.heap.Resolves v) : m'.Lineage v l := by
  induction hl with
  | top hnil => exact .top hnil
  | up hread _ ih =>
    obtain ⟨b', hb', hsuper, -⟩ := he.exists_read_cls hread hr
    refine .up hb' (hsuper ▸ ih ?_)
    rw [← hsuper]
    exact hm'.resolves_of_read Facet.lawful_cls hb' (by simp [Facet.cls, Body.edges])

theorem bears (he : m.Evolves m') {cls : Value} {kind : ObjectKind} (hb : m.Bears cls kind)
    (hr : m'.heap.Resolves cls) : m'.Bears cls kind := by
  rcases hb with ⟨c, hc, hkind⟩ | ⟨hnot, b, hb, hkind⟩
  · exact Or.inl ⟨c, hc.trans (he.classValue_eq c).symm, hkind⟩
  · obtain ⟨b', hb', -, hsame⟩ := he.exists_read_cls hb hr
    exact Or.inr ⟨fun c hc => hnot c (hc.trans (he.classValue_eq c)), b', hb', hsame.trans hkind⟩

theorem suits (he : m.Evolves m') {body : Body} (hb : m.Suits body)
    (hr : ∀ w ∈ body.edges, m'.heap.Resolves w) : m'.Suits body := by
  cases body with
  | plain attributes =>
    exact Or.imp id (fun h => he.nameTable h (hr attributes (by simp [Body.edges]))) hb
  | array items => exact fun v hv => he.keeps_public (hb v hv) (hr v (by simpa [Body.edges] using hv))
  | exception e =>
    refine ⟨he.keeps_public hb.1 (hr _ (by simp [Body.edges])), hb.2.imp id fun h => ?_⟩
    exact he.nameTable h (hr _ (by simp [Body.edges]))
  | table t =>
    refine ⟨hb.1, fun hne id e hid => ?_⟩
    obtain ⟨hkey, hrecord⟩ := hb.2 hne id e hid
    exact ⟨he.keeps_public hkey (hr _ (Table.mem_edges.mpr ⟨id, e, hid, Or.inl rfl⟩)),
      he.keeps_public hrecord (hr _ (Table.mem_edges.mpr ⟨id, e, hid, Or.inr rfl⟩))⟩
  | _ => trivial

theorem methodEntry (he : m.Evolves m') {cls : Value} {e : Entry} (h : m.MethodEntry cls e)
    (hr : m'.heap.Resolves e.record) : m'.MethodEntry cls e := by
  obtain ⟨c, p, i, hc, hp, hnative, hname, hkey⟩ := h
  exact ⟨c, p, i, hc.trans (he.classValue_eq c).symm, hp, he.read_native hnative hr, he.names hname, hkey⟩

theorem heir (he : m.Evolves m') (hm' : m'.Intact) {b' : ClassBody}
    (hb' : m'.heap.read Facet.cls v = .ok b') {b : ClassBody} (hsuper : b'.superclass = b.superclass)
    (hkind : b'.instanceKind = b.instanceKind) (h : m.Heir v b) : m'.Heir v b' := by
  rcases h with ⟨c, hc⟩ | ⟨s, hs, hsame⟩
  · exact Or.inl ⟨c, hc.trans (he.classValue_eq c).symm⟩
  · rw [← hsuper] at hs
    obtain ⟨s', hs', -, hsame'⟩ := he.exists_read_cls hs
      (hm'.resolves_of_read Facet.lawful_cls hb' (by simp [Facet.cls, Body.edges]))
    exact Or.inr ⟨s', hs', hsame'.trans (hsame.trans hkind.symm)⟩

/-- A method table stays one if it is the same, or its entries are methods that belong there. -/
theorem methodTable (he : m.Evolves m') (hm' : m'.Intact) {b : ClassBody}
    (hb : m'.heap.read Facet.cls v = .ok b) (h : m.MethodTable v b)
    (hsame : ∀ t', m'.heap.read Facet.table b.methods = .ok t' →
      m.heap.read Facet.table b.methods = .ok t' ∨ ∀ id e, t'.get? id = some e → m'.MethodEntry v e) :
    m'.MethodTable v b := by
  obtain ⟨t, ht, hsymbol, hentries⟩ := h
  obtain ⟨t', ht', hsymbol'⟩ := he.nameTable ⟨t, ht, hsymbol⟩
    (hm'.resolves_of_read Facet.lawful_cls hb (by simp [Facet.cls, Body.edges]))
  refine ⟨t', ht', hsymbol', fun id e hid => ?_⟩
  rcases hsame t' ht' with h | h
  · obtain rfl := Except.ok.inj (ht.symm.trans h)
    refine he.methodEntry (hentries id e hid) ?_
    exact hm'.resolves_of_read Facet.lawful_table ht' (Table.mem_edges.mpr ⟨id, e, hid, Or.inr rfl⟩)
  · exact h id e hid

end Evolves

theorem Intact.resolves_globals (hm : m.Intact) : m.heap.Resolves m.globals :=
  hm.closed.roots _ (mem_roots.mpr (Or.inr (Or.inr (Or.inl rfl))))

/-- A shaped machine evolves into a shaped one if the objects that are new or written are as they
should be, and the tables of names that objects keep are theirs or fresh. -/
theorem Shaped.evolve {bare' : Set Value} (hs : m.Shaped bare) (hm' : m'.Intact) (he : m.Evolves m')
    (hbare : .absent ∈ bare → .absent ∈ bare')
    (hbears : ∀ v o', m'.heap.get? v = some o' → m.heap.isLive v = true ∨ m'.Bears o'.cls o'.kind)
    (hsuits : ∀ v o', m'.heap.get? v = some o' →
      (∃ o, m.heap.get? v = some o ∧ o'.body = o.body) ∨ m'.Suits o'.body)
    (hclasses : ∀ v b', m'.heap.read Facet.cls v = .ok b' → m.heap.isLive v = true ∨
      m'.Heir v b' ∧ ∃ l, m'.Lineage v l)
    (hmethods : ∀ v b', m'.heap.read Facet.cls v = .ok b' → v ∉ bare' →
      (m.heap.read Facet.cls v = .ok b' ∧ v ∉ bare ∧ ∀ t', m'.heap.read Facet.table b'.methods = .ok t' →
        m.heap.read Facet.table b'.methods = .ok t' ∨ ∀ id e, t'.get? id = some e → m'.MethodEntry v e) ∨
      m'.MethodTable v b')
    (hkept : ∀ v o' a, m'.heap.get? v = some o' → o'.body.names? = some a → a.isRef = true →
      (∃ o, m.heap.get? v = some o ∧ o.body.names? = some a) ∨
      a ≠ m.globals ∧ ∀ u p, m'.heap.get? u = some p → p.body.names? = some a → u = v) :
    m'.Shaped bare' := by
  have hedge : ∀ {v o' w}, m'.heap.get? v = some o' → w ∈ o'.body.edges → m'.heap.Resolves w :=
    fun ho' hw => hm'.closed.edges _ _ ho' _ (List.mem_cons_of_mem _ hw)
  have hroot : ∀ c, m'.heap.Resolves (m.classValue c) := fun c => by
    rw [← he.classValue_eq c]
    exact (hm'.anchored_classValue c).resolves
  refine ⟨hm', fun {c d} h => ?_, fun c => ?_, fun v o' ho' => ?_, fun v o' ho' => ?_,
    fun v b' hb' => ?_, fun v b' hb' => ?_, fun v b' hb' hv => ?_, fun u v o' p' a hu hv hou hpv hr => ?_,
    fun hnot => ?_, fun v o' ho' hr heq => ?_⟩
  · rw [he.classValue_eq, he.classValue_eq] at h
    exact hs.distinct h
  · obtain ⟨b, hb, hsuper, hkind⟩ := hs.builtin c
    obtain ⟨b', hb', hsuper', hkind'⟩ := he.exists_read_cls hb (hroot c)
    refine ⟨b', by rwa [he.classValue_eq], ?_, hkind'.trans hkind⟩
    rw [hsuper', hsuper]
    congr 2
    exact funext fun c => (he.classValue_eq c).symm
  · rcases hbears v o' ho' with hlive | h
    · obtain ⟨o, ho⟩ := Heap.isLive_iff.mp hlive
      have hlikens := he.likens ho ho'
      rw [hlikens.cls_eq, hlikens.kind_eq]
      refine he.bears (hs.bears v o ho) ?_
      rw [← hlikens.cls_eq]
      exact hm'.closed.edges v o' ho' _ List.mem_cons_self
    · exact h
  · rcases hsuits v o' ho' with ⟨o, ho, hbody⟩ | h
    · refine he.suits (hbody ▸ hs.suits v o ho) fun w hw => hedge ho' hw
    · exact h
  · rcases hclasses v b' hb' with hlive | ⟨h, -⟩
    · obtain ⟨b, hb, hsuper, hkind⟩ := he.exists_read_cls_back hb' hlive
      exact he.heir hm' hb' hsuper hkind (hs.heirs v b hb)
    · exact h
  · rcases hclasses v b' hb' with hlive | ⟨-, h⟩
    · obtain ⟨b, hb, -⟩ := he.exists_read_cls_back hb' hlive
      obtain ⟨l, hl⟩ := hs.lineage v b hb
      exact ⟨l, he.lineage hm' hl (Heap.resolves_of_read hb')⟩
    · exact h
  · rcases hmethods v b' hb' hv with ⟨hb, hnot, hsame⟩ | h
    · exact he.methodTable hm' hb' (hs.methods v b' hb hnot) hsame
    · exact h
  · rcases hkept u o' a hu hou hr with ⟨o, ho, hoa⟩ | ⟨-, h⟩
    · rcases hkept v p' a hv hpv hr with ⟨p, hp, hpa⟩ | ⟨-, h⟩
      · exact hs.kept u v o p a ho hp hoa hpa hr
      · exact h u o' hu hou
    · exact (h v p' hv hpv).symm
  · rw [he.globals_eq]
    refine he.nameTable (hs.globals fun h => hnot (hbare h)) ?_
    rw [← he.globals_eq]
    exact hm'.resolves_globals
  · rw [he.globals_eq] at hr heq
    rcases hkept v o' _ ho' heq hr with ⟨o, ho, hnames⟩ | ⟨hne, -⟩
    · exact hs.globals_kept v o ho hr hnames
    · exact hne rfl

/-! ### Collecting -/

theorem evolves_collectWith (hm : m.Intact) (pending : List Value) :
    m.Evolves (m.collectWith pending) := by
  refine ⟨rfl, rfl, id, fun {v o o'} ho ho' => ?_⟩
  obtain rfl := Option.some.inj (ho.symm.trans ((Heap.get?_collect_eq_some_iff hm.unmarked).mp ho').1)
  exact .refl o

/-- What a collection leaves is as it was. -/
theorem read_collectWith (hm : m.Intact) {pending : List Value} {facet : Facet α} {x : α}
    (hr : (m.collectWith pending).heap.Resolves v) (hx : m.heap.read facet v = .ok x) :
    (m.collectWith pending).heap.read facet v = .ok x := by
  obtain ⟨o, ho, hb⟩ := Heap.read_eq_ok_iff.mp hx
  obtain ⟨o', ho'⟩ := Heap.isLive_iff.mp (hr (Heap.get?_eq_some_iff.mp ho).1)
  obtain rfl := Option.some.inj (ho.symm.trans ((Heap.get?_collect_eq_some_iff hm.unmarked).mp ho').1)
  exact Heap.read_eq_ok_iff.mpr ⟨o, ho', hb⟩

theorem Shaped.collectWith (hs : m.Shaped bare) {pending : List Value}
    (hp : ∀ v ∈ pending, m.heap.Resolves v) : (m.collectWith pending).Shaped bare := by
  have hget : ∀ {v o}, (m.collectWith pending).heap.get? v = some o → m.heap.get? v = some o :=
    fun ho => ((Heap.get?_collect_eq_some_iff hs.intact.unmarked).mp ho).1
  have hread : ∀ {α} {facet : Facet α} {v x}, (m.collectWith pending).heap.read facet v = .ok x →
      m.heap.read facet v = .ok x := by
    intro α facet v x hx
    obtain ⟨o, ho, hb⟩ := Heap.read_eq_ok_iff.mp hx
    exact Heap.read_eq_ok_iff.mpr ⟨o, hget ho, hb⟩
  have hkeeps : Keeps ∅ ∅ ∅ m (m.collectWith pending) := (hs.intact.collectWith hp).1
  refine hs.evolve hkeeps.intact (evolves_collectWith hs.intact pending) id
    (fun v o ho => Or.inl (Heap.isLive_of_get? (hget ho))) (fun v o ho => Or.inl ⟨o, hget ho, rfl⟩)
    (fun v b hb => Or.inl (Heap.isLive_of_read (hread hb)))
    (fun v b hb hv => Or.inl ⟨hread hb, hv, fun t ht => Or.inl (hread ht)⟩)
    fun v o a ho hnames _ => Or.inl ⟨o, hget ho, hnames⟩

/-! ### Storing -/

/-- What an object may be made of: a class that bears its kind, contents as they should be, and a
table of names that is nobody's yet. -/
structure Fits (m : Machine) (cls : Value) (body : Body) : Prop where
  admits : m.Admits cls body
  bears : m.Bears cls body.kind
  suits : m.Suits body
  unkept : ∀ a, body.names? = some a → a.isRef = true →
    a ≠ m.globals ∧ ∀ u p, m.heap.get? u = some p → p.body.names? ≠ some a
  cls : ∀ b, body = .cls b →
    (∃ s, m.heap.read Facet.cls b.superclass = .ok s ∧ s.instanceKind = b.instanceKind) ∧
    ∃ t, m.heap.read Facet.table b.methods = .ok t ∧ t.strategy = .symbol ∧ ∀ id, t.get? id = none

/-- An object that fits still fits after a collection that spares what it is made of. -/
theorem Fits.collectWith {cls : Value} {body : Body} (hf : m.Fits cls body) (hm : m.Intact) :
    (m.collectWith (cls :: body.edges)).Fits cls body := by
  have hp : ∀ v ∈ cls :: body.edges, m.heap.Resolves v :=
    List.forall_mem_cons.mpr ⟨hf.admits.cls, hf.admits.edges⟩
  have he := evolves_collectWith hm (cls :: body.edges)
  have hkept : Keeps ∅ ∅ ∅ m (m.collectWith (cls :: body.edges)) ∧
      ∀ v ∈ cls :: body.edges, (m.collectWith (cls :: body.edges)).heap.Resolves v := hm.collectWith hp
  have hr := hkept.2
  obtain ⟨hcls, hedges⟩ := List.forall_mem_cons.mp hr
  refine ⟨⟨hcls, hedges, hf.admits.table⟩, he.bears hf.bears hcls, he.suits hf.suits hedges,
    fun a ha hra => ?_, fun b hb => ?_⟩
  · obtain ⟨hne, hfree⟩ := hf.unkept a ha hra
    exact ⟨hne, fun u p hp => hfree u p ((Heap.get?_collect_eq_some_iff hm.unmarked).mp hp).1⟩
  · obtain ⟨⟨s, hs, hsame⟩, t, ht, hsymbol, hempty⟩ := hf.cls b hb
    subst hb
    exact ⟨⟨s, read_collectWith hm (hedges _ (by simp [Body.edges])) hs, hsame⟩, t,
      read_collectWith hm (hedges _ (by simp [Body.edges])) ht, hsymbol, hempty⟩

theorem evolves_store (hm : m.Intact) (cls : Value) (body : Body) :
    m.Evolves { m with heap := m.heap.insert cls body } := by
  refine ⟨rfl, rfl, id, fun {v o o'} ho ho' => ?_⟩
  have hold := hm.sound.get?_insert_of_some cls body ho
  obtain rfl := Option.some.inj (hold.symm.trans ho')
  exact .refl o

theorem Shaped.store (hs : m.Shaped bare) {cls : Value} {body : Body} (hf : m.Fits cls body)
    (hroom : (m.heap.insert cls body).slots.size ≤ 2 ^ 32) :
    Shaped bare { m with heap := m.heap.insert cls body } := by
  have hm := hs.intact
  have he := evolves_store hm cls body
  have hget := hm.sound.get?_insert cls body hroom
  have hkeeps : Keeps ∅ ∅ ∅ m { m with heap := m.heap.insert cls body } := hm.store hf.admits hroom
  have hm' := hkeeps.intact
  have hnew := (hget m.heap.nextReference).trans (if_pos rfl)
  have hcases : ∀ {v o'}, (m.heap.insert cls body).get? v = some o' →
      m.heap.get? v = some o' ∨ v = m.heap.nextReference ∧ o'.cls = cls ∧ o'.body = body := by
    intro v o' ho'
    rw [hget] at ho'
    split at ho'
    · rename_i heq
      obtain rfl := Option.some.inj ho'
      exact Or.inr ⟨heq, rfl, rfl⟩
    · exact Or.inl ho'
  have hedges : ∀ w ∈ body.edges, (m.heap.insert cls body).Resolves w := fun w hw =>
    hm'.closed.edges _ _ hnew w (List.mem_cons_of_mem _ hw)
  have hread : ∀ {α} {facet : Facet α} {v x}, m.heap.read facet v = .ok x →
      (m.heap.insert cls body).read facet v = .ok x := fun hx => hm.sound.read_insert cls body hx
  -- a class is old, or it is the new object
  have hclass : ∀ {v b}, (m.heap.insert cls body).read Facet.cls v = .ok b →
      m.heap.read Facet.cls v = .ok b ∨ body = .cls b := by
    intro v b hb
    obtain ⟨o', ho', hb⟩ := Heap.read_eq_ok_iff.mp hb
    rcases hcases ho' with ho | ⟨-, -, hbody⟩
    · exact Or.inl (Heap.read_eq_ok_iff.mpr ⟨o', ho, hb⟩)
    · rw [hbody] at hb
      exact Or.inr (Facet.lawful_cls.put_eq hb).symm
  refine hs.evolve hm' he id (fun v o' ho' => ?_) (fun v o' ho' => ?_) (fun v b hb => ?_)
    (fun v b hb hv => ?_) fun v o' a ho' hnames hra => ?_
  · rcases hcases ho' with ho | ⟨rfl, hcls, hbody⟩
    · exact Or.inl (Heap.isLive_of_get? ho)
    · refine Or.inr ?_
      rw [Object.kind, hcls, hbody]
      exact he.bears hf.bears (hcls ▸ hm'.closed.edges _ o' ho' _ List.mem_cons_self)
  · rcases hcases ho' with ho | ⟨rfl, -, hbody⟩
    · exact Or.inl ⟨o', ho, rfl⟩
    · exact Or.inr (hbody ▸ he.suits hf.suits hedges)
  · rcases hclass hb with hold | hbody
    · exact Or.inl (Heap.isLive_of_read hold)
    · obtain ⟨⟨s, hsuper, hsame⟩, -⟩ := hf.cls b hbody
      obtain ⟨l, hl⟩ := hs.lineage _ s hsuper
      refine Or.inr ⟨Or.inr ⟨s, hread hsuper, hsame⟩, _, .up hb (he.lineage hm' hl ?_)⟩
      exact hedges _ (by simp [hbody, Body.edges])
  · rcases hclass hb with hold | hbody
    · refine Or.inl ⟨hold, hv, fun t' ht' => Or.inl ?_⟩
      obtain ⟨t, ht, -⟩ := hs.methods v b hold hv
      obtain rfl := Except.ok.inj ((hread ht).symm.trans ht')
      exact ht
    · obtain ⟨-, t, ht, hsymbol, hempty⟩ := hf.cls b hbody
      refine Or.inr ⟨t, hread ht, hsymbol, fun id e hid => ?_⟩
      rw [hempty] at hid
      cases hid
  · rcases hcases ho' with ho | ⟨rfl, -, hbody⟩
    · exact Or.inl ⟨o', ho, hnames⟩
    · obtain ⟨hne, hfree⟩ := hf.unkept a (hbody ▸ hnames) hra
      refine Or.inr ⟨hne, fun u p hp hpa => ?_⟩
      rcases hcases hp with hp | ⟨heq, -⟩
      · exact absurd hpa (hfree u p hp)
      · exact heq

/-! ### Changing -/

/-- A change of an object that keeps its outline, and gives it contents as they should be.  If it is a
method table, its entries have to be methods that belong there; if it is a class that gets its
methods, it need not be bare any more. -/
structure Amends (m : Machine) (bare bare' : Set Value) (v : Value) (o o' : Object) : Prop where
  likens : o.Likens o'
  serial_eq : o'.serial = o.serial
  flags_eq : o'.flags = o.flags
  edges : ∀ w ∈ o'.body.edges, m.heap.Resolves w
  suits : m.Suits o'.body
  names : ∀ a, o'.body.names? = some a → a.isRef = true → o.body.names? = some a ∨
    a ≠ m.globals ∧ ∀ u p, m.heap.get? u = some p → p.body.names? ≠ some a
  entries : ∀ c b t', m.heap.read Facet.cls c = .ok b → b.methods = v → o'.body = .table t' →
    ∀ id e, t'.get? id = some e → m.MethodEntry c e
  cls : ∀ b', o'.body = .cls b' → o.body = .cls b' ∧ (v ∉ bare' → v ∉ bare) ∨
    ∃ t, m.heap.read Facet.table b'.methods = .ok t ∧ t.strategy = .symbol ∧ ∀ id, t.get? id = none
  bare : ∀ u, u ≠ v → u ∉ bare' → u ∉ bare

theorem Amends.evolves {bare' : Set Value} {o : Object} {f : Object → Object}
    (ho : m.heap.get? v = some o) (ha : m.Amends bare bare' v o (f o)) :
    m.Evolves { m with heap := m.heap.modifyObject v f } := by
  refine ⟨rfl, rfl, id, fun {w p p'} hp hp' => ?_⟩
  by_cases hw : w = v
  · subst hw
    obtain rfl := Option.some.inj (ho.symm.trans hp)
    have hself := Heap.get?_modifyObject_self m.heap w f
    rw [ho, Option.map_some] at hself
    obtain rfl := Option.some.inj (hself.symm.trans hp')
    exact ha.likens
  · have hother := Heap.get?_modifyObject_of_ne m.heap hw f
    obtain rfl := Option.some.inj (hp.symm.trans (hother.symm.trans hp'))
    exact .refl p

theorem Shaped.modifyObject {bare' : Set Value} (hs : m.Shaped bare) {o : Object}
    {f : Object → Object} (ho : m.heap.get? v = some o) (ha : m.Amends bare bare' v o (f o))
    (hbare : .absent ∈ bare → .absent ∈ bare') :
    Shaped bare' { m with heap := m.heap.modifyObject v f } := by
  have hm := hs.intact
  have he := ha.evolves ho
  have hself := Heap.get?_modifyObject_self m.heap v f
  rw [ho, Option.map_some] at hself
  have hother : ∀ {w}, w ≠ v → (m.heap.modifyObject v f).get? w = m.heap.get? w := fun hw =>
    Heap.get?_modifyObject_of_ne m.heap hw f
  have hslotted : ∀ t, Facet.table.get? (f o).body = some t → t.Slotted := by
    intro t ht
    have hsuits := ha.suits
    rw [← Facet.lawful_table.put_eq ht] at hsuits
    exact hsuits.1.slotted
  have hkeeps : Keeps Set.univ Set.univ Set.univ m { m with heap := m.heap.modifyObject v f } := by
    refine hm.modifyObject ho ha.likens.cls_eq ha.serial_eq ha.flags_eq ha.likens.kind_eq ?_ hslotted
      trivial fun hn => absurd (Or.inl trivial) hn
    refine List.forall_mem_cons.mpr ⟨?_, ha.edges⟩
    rw [ha.likens.cls_eq]
    exact hm.closed.edges v o ho _ List.mem_cons_self
  have hm' := hkeeps.intact
  -- a table that is no class is where it was
  have hread : ∀ {w t}, m.heap.read Facet.table w = .ok t → (∀ t', (f o).body ≠ .table t') →
      (m.heap.modifyObject v f).read Facet.table w = .ok t := by
    intro w t ht hnot
    obtain ⟨p, hp, hb⟩ := Heap.read_eq_ok_iff.mp ht
    refine Heap.read_eq_ok_iff.mpr ⟨p, ?_, hb⟩
    rw [hother, hp]
    rintro rfl
    obtain rfl := Option.some.inj (ho.symm.trans hp)
    obtain ⟨t', ht', -⟩ := Body.exists_table_of_outline_eq ha.likens.outline_eq
      (Facet.lawful_table.put_eq hb).symm
    exact hnot t' ht'
  have hold : ∀ {w p'}, (m.heap.modifyObject v f).get? w = some p' → m.heap.isLive w = true := by
    intro w p' hp'
    rw [← Heap.isLive_modifyObject m.heap v f w]
    exact Heap.isLive_of_get? hp'
  refine hs.evolve hm' he hbare (fun w p' hp' => Or.inl (hold hp')) (fun w p' hp' => ?_)
    (fun w b hb => Or.inl ?_) (fun w b hb hw => ?_) fun w p' a hp' hnames hra => ?_
  · by_cases hw : w = v
    · subst hw
      obtain rfl := Option.some.inj (hself.symm.trans hp')
      refine Or.inr (he.suits ha.suits fun u hu => ?_)
      exact hm'.closed.edges w _ hself u (List.mem_cons_of_mem _ hu)
    · exact Or.inl ⟨p', (hother hw).symm.trans hp', rfl⟩
  · obtain ⟨p', hp', -⟩ := Heap.read_eq_ok_iff.mp hb
    exact hold hp'
  · obtain ⟨p', hp', hb'⟩ := Heap.read_eq_ok_iff.mp hb
    by_cases hwv : w = v
    · subst hwv
      obtain rfl := Option.some.inj (hself.symm.trans hp')
      have hbody : (f o).body = .cls b := (Facet.lawful_cls.put_eq hb').symm
      have hnot : ∀ t', (f o).body ≠ .table t' := fun t' ht' => by rw [hbody] at ht'; cases ht'
      rcases ha.cls b hbody with ⟨hsame, hin⟩ | ⟨t, ht, hsymbol, hempty⟩
      · refine Or.inl ⟨Heap.read_eq_ok_iff.mpr ⟨o, ho, by rw [hsame]; rfl⟩, hin hw, fun t' ht' => ?_⟩
        obtain ⟨t, ht, -⟩ := hs.methods w b (Heap.read_eq_ok_iff.mpr ⟨o, ho, by rw [hsame]; rfl⟩)
          (hin hw)
        obtain rfl := Except.ok.inj ((hread ht hnot).symm.trans ht')
        exact Or.inl ht
      · refine Or.inr ⟨t, hread ht hnot, hsymbol, fun id e hid => ?_⟩
        rw [hempty] at hid
        cases hid
    · have hcls : m.heap.read Facet.cls w = .ok b :=
        Heap.read_eq_ok_iff.mpr ⟨p', (hother hwv).symm.trans hp', hb'⟩
      refine Or.inl ⟨hcls, ha.bare w hwv hw, fun t' ht' => ?_⟩
      obtain ⟨q', hq', htb⟩ := Heap.read_eq_ok_iff.mp ht'
      by_cases hv : b.methods = v
      · rw [hv] at hq'
        obtain rfl := Option.some.inj (hself.symm.trans hq')
        have hbody : (f o).body = .table t' := (Facet.lawful_table.put_eq htb).symm
        refine Or.inr fun id e hid => ?_
        refine he.methodEntry (ha.entries w b t' hcls hv hbody id e hid) ?_
        exact hm'.resolves_of_read Facet.lawful_table (Heap.read_eq_ok_iff.mpr ⟨_, hself, htb⟩)
          (Table.mem_edges.mpr ⟨id, e, hid, Or.inr rfl⟩)
      · exact Or.inl (Heap.read_eq_ok_iff.mpr ⟨q', (hother hv).symm.trans hq', htb⟩)
  · by_cases hw : w = v
    · subst hw
      obtain rfl := Option.some.inj (hself.symm.trans hp')
      refine (ha.names a hnames hra).imp (fun h => ⟨o, ho, h⟩) fun ⟨hne, hfree⟩ => ⟨hne, ?_⟩
      intro u p hp hpa
      by_contra hu
      exact hfree u p ((hother hu).symm.trans hp) hpa
    · exact Or.inl ⟨p', (hother hw).symm.trans hp', hnames⟩

end ObjectMachine.Machine
