import Mathlib.Tactic
import ObjectMachine.Bootstrap
import ObjectMachine.Proofs.Frames.Matching
import ObjectMachine.Proofs.Machine.Clients

/-! Machines whose objects are of the kinds their classes require.

A built-in class requires a kind of body of its instances, and of the instances of every class below
it.  What makes this hold is local: the class of an object bears its kind, a class that is not built in
takes the kind of its instances from its superclass, the methods of a class are those the bootstrap
gives it, and the tables of names that classes, objects and the machine keep for themselves are each
kept by one of them.  A machine of which all this holds is shaped.

Programs never hold the tables of names: the tables they hold have values as keys. -/

namespace ObjectMachine

namespace BuiltinClass

/-- The kind of body that the direct instances of a class have, if they are objects of the heap. -/
def bodyKind : BuiltinClass → Option ObjectKind
  | .object => some .plain
  | .cls => some .cls
  | .nil | .bool | .symbol | .fixnum => none
  | .bignum => some .bignum
  | .float => some .float
  | .string => some .text
  | .array => some .array
  | .dict => some .table
  | .dictIterator => some .iterator
  | .nativeFunction => some .native
  | .error _ => some .exception

/-- Whether the class may stand above the class of an object with this kind of body.  The root stands
above all of them, the classes of immediate values above none. -/
def Permits (c : BuiltinClass) (kind : ObjectKind) : Prop := c = .object ∨ c.bodyKind = some kind

/-- Whether the bootstrap installs a method in a class. -/
def Provides (c : BuiltinClass) (p : PrimitiveMethod) : Prop :=
  ∃ l, (c, l) ∈ Bootstrap.installation ∧ p ∈ l.methods

theorem bodyKind_of_instanceKind {c : BuiltinClass} {kind : ObjectKind}
    (h : c.instanceKind = some kind) : c.bodyKind = some kind := by
  cases c <;> first | exact h | cases h

end BuiltinClass

/-- A built-in method as the method tables hold it. -/
def PrimitiveMethod.native (p : PrimitiveMethod) : NativeMethod := ⟨p.name, p.arity, .primitive p.primitive⟩

/-! ### Bodies -/

namespace Body

/-- What never changes of a body once its object is in use. -/
def outline : Body → Body
  | .plain _ => .plain .absent
  | .cls c => .cls { superclass := c.superclass, instanceKind := c.instanceKind }
  | .array _ => .array #[]
  | .table t => .table (Table.new t.strategy 0)
  | .exception _ => .exception {}
  | b => b

/-- The table of names that an object keeps for itself. -/
def names? : Body → Option Value
  | .plain attributes => some attributes
  | .cls c => some c.methods
  | .exception e => some e.attributes
  | _ => none

variable {b b' : Body}

theorem kind_outline (b : Body) : b.outline.kind = b.kind := by cases b <;> rfl

theorem kind_eq_of_outline_eq (h : b'.outline = b.outline) : b'.kind = b.kind := by
  rw [← kind_outline b', h, kind_outline]

theorem exists_cls_of_outline_eq {c : ClassBody} (h : b'.outline = b.outline) (hb : b = .cls c) :
    ∃ c', b' = .cls c' ∧ c'.superclass = c.superclass ∧ c'.instanceKind = c.instanceKind := by
  subst hb
  cases b' <;> simp_all [outline]

theorem exists_table_of_outline_eq {t : Table} (h : b'.outline = b.outline) (hb : b = .table t) :
    ∃ t', b' = .table t' ∧ t'.strategy = t.strategy := by
  subst hb
  cases b' <;> simp_all [outline, Table.new]

theorem eq_native_of_outline_eq {n : NativeMethod} (h : b'.outline = b.outline) (hb : b = .native n) :
    b' = .native n := by
  subst hb
  cases b' <;> simp_all [outline]

theorem mem_edges_of_names? {v : Value} (h : b.names? = some v) : v ∈ b.edges := by
  cases b <;> simp_all [names?, edges]

end Body

/-- An object that is a later state of another. -/
structure Object.Likens (o o' : Object) : Prop where
  cls_eq : o'.cls = o.cls
  outline_eq : o'.body.outline = o.body.outline

namespace Object.Likens

variable {o o' o'' : Object}

theorem refl (o : Object) : o.Likens o := ⟨rfl, rfl⟩

theorem trans (h : o.Likens o') (h' : o'.Likens o'') : o.Likens o'' :=
  ⟨h'.cls_eq.trans h.cls_eq, h'.outline_eq.trans h.outline_eq⟩

theorem kind_eq (h : o.Likens o') : o'.kind = o.kind := Body.kind_eq_of_outline_eq h.outline_eq

end Object.Likens

namespace Machine

variable {m m' : Machine} {v cls : Value} {kind : ObjectKind}

/-- A live table of names. -/
def NameTable (m : Machine) (v : Value) : Prop :=
  ∃ t, m.heap.read Facet.table v = .ok t ∧ t.strategy = .symbol

/-- Whether a class bears direct instances of a kind. -/
def Bears (m : Machine) (cls : Value) (kind : ObjectKind) : Prop :=
  (∃ c, cls = m.classValue c ∧ c.bodyKind = some kind) ∨
    (∀ c, cls ≠ m.classValue c) ∧ ∃ b, m.heap.read Facet.cls cls = .ok b ∧ b.instanceKind = some kind

/-- Whether the contents of a body are as they should be. -/
def Suits (m : Machine) : Body → Prop
  | .plain attributes => attributes = .absent ∨ m.NameTable attributes
  | .array items => ∀ v ∈ items, m.Public v
  | .exception e => m.Public e.message ∧ (e.attributes = .absent ∨ m.NameTable e.attributes)
  | .table t => t.WellFormed ∧ (t.strategy ≠ .text → ∀ id e, t.get? id = some e →
      m.Public e.key ∧ m.Public e.record)
  | _ => True

/-- Whether a class that is not built in takes the kind of its instances from its superclass. -/
def Heir (m : Machine) (v : Value) (b : ClassBody) : Prop :=
  (∃ c, v = m.classValue c) ∨
    ∃ s, m.heap.read Facet.cls b.superclass = .ok s ∧ s.instanceKind = b.instanceKind

/-- Whether an entry of the method table of a class is a method that the bootstrap installs there. -/
def MethodEntry (m : Machine) (cls : Value) (e : Entry) : Prop :=
  ∃ c p i, cls = m.classValue c ∧ c.Provides p ∧ m.heap.read Facet.native e.record = .ok p.native ∧
    m.symbols.names[i]? = some p.name ∧ e.key = .ofSymbol i

/-- Whether a class has a method table with methods that belong there. -/
def MethodTable (m : Machine) (cls : Value) (b : ClassBody) : Prop :=
  ∃ t, m.heap.read Facet.table b.methods = .ok t ∧ t.strategy = .symbol ∧
    ∀ id e, t.get? id = some e → m.MethodEntry cls e

/-- A machine in order whose objects are of the kinds their classes require.  Classes that are `bare`
need no methods yet, and if `absent` is among them there need be no globals. -/
structure Shaped (bare : Set Value) (m : Machine) : Prop where
  intact : m.Intact
  distinct : ∀ {c d : BuiltinClass}, m.classValue c = m.classValue d → c = d
  builtin : ∀ c : BuiltinClass, ∃ b, m.heap.read Facet.cls (m.classValue c) = .ok b ∧
    b.superclass = (c.superclass.map m.classValue).getD .nil ∧ b.instanceKind = c.instanceKind
  bears : ∀ v o, m.heap.get? v = some o → m.Bears o.cls o.kind
  suits : ∀ v o, m.heap.get? v = some o → m.Suits o.body
  heirs : ∀ v b, m.heap.read Facet.cls v = .ok b → m.Heir v b
  lineage : ∀ v b, m.heap.read Facet.cls v = .ok b → ∃ l, m.Lineage v l
  methods : ∀ v b, m.heap.read Facet.cls v = .ok b → v ∉ bare → m.MethodTable v b
  kept : ∀ u v o p a, m.heap.get? u = some o → m.heap.get? v = some p → o.body.names? = some a →
    p.body.names? = some a → a.isRef = true → u = v
  globals : .absent ∉ bare → m.NameTable m.globals
  globals_kept : ∀ v o, m.heap.get? v = some o → m.globals.isRef = true →
    o.body.names? ≠ some m.globals

/-! ### Classes above an object -/

theorem Below.ne_nil {ancestor : Value} (h : m.Below ancestor v) : v ≠ .nil := by
  rintro rfl
  cases h with
  | here hnil => exact absurd hnil (by decide)
  | up hread _ => exact absurd (read_cls_ne_nil hread) (by decide)

namespace Shaped

variable {bare : Set Value}

theorem isRef_classValue (hs : m.Shaped bare) (c : BuiltinClass) : (m.classValue c).isRef = true := by
  obtain ⟨b, hb, -⟩ := hs.builtin c
  obtain ⟨o, ho, -⟩ := Heap.read_eq_ok_iff.mp hb
  exact (Heap.get?_eq_some_iff.mp ho).1

/-- Above a built-in class stand only the root and, if it is an error class, the class of exceptions. -/
theorem below_builtin (hs : m.Shaped bare) {c d : BuiltinClass}
    (h : m.Below (m.classValue c) (m.classValue d)) :
    c = d ∨ c = .object ∨ c = .error .exception ∧ ∃ kind, d = .error kind := by
  -- one step up at a time: no class is more than two steps below the root
  have step : ∀ {d : BuiltinClass}, m.Below (m.classValue c) (m.classValue d) →
      c = d ∨ ∃ s, d.superclass = some s ∧ m.Below (m.classValue c) (m.classValue s) := by
    intro d h
    obtain ⟨b, hb, hsuper, -⟩ := hs.builtin d
    generalize hv : m.classValue d = v at h
    generalize ha : m.classValue c = ancestor at h
    cases h with
    | here _ => exact Or.inl (hs.distinct (ha.trans hv.symm))
    | up hread hup =>
      subst hv ha
      obtain rfl := Except.ok.inj (hb.symm.trans hread)
      rw [hsuper] at hup
      cases hd : d.superclass with
      | some s =>
        rw [hd] at hup
        exact Or.inr ⟨s, rfl, hup⟩
      | none =>
        rw [hd] at hup
        exact absurd rfl hup.ne_nil
  have top : ∀ {d : BuiltinClass}, d.superclass = none → m.Below (m.classValue c) (m.classValue d) →
      c = d := fun hd h => (step h).resolve_right fun ⟨s, hs, _⟩ => by rw [hd] at hs; cases hs
  rcases step h with h | ⟨s, hd, h⟩
  · exact Or.inl h
  · cases d with
    | object => cases hd
    | error kind =>
      by_cases hkind : kind = .exception
      · subst hkind
        obtain rfl := Option.some.inj hd
        exact Or.inr (Or.inl (top rfl h))
      · have hsuper : BuiltinClass.superclass (.error kind) = some (.error .exception) := by
          cases kind <;> first | rfl | exact absurd rfl hkind
        obtain rfl := Option.some.inj (hd.symm.trans hsuper)
        rcases step h with rfl | ⟨s, hd, h⟩
        · exact Or.inr (Or.inr ⟨rfl, kind, rfl⟩)
        · obtain rfl := Option.some.inj hd
          exact Or.inr (Or.inl (top rfl h))
    | _ =>
      obtain rfl := Option.some.inj hd
      exact Or.inr (Or.inl (top rfl h))

/-- A class that is not built in passes on the kind of its superclass. -/
theorem bears_superclass (hs : m.Shaped bare) {b : ClassBody} (hread : m.heap.read Facet.cls v = .ok b)
    (hnot : ∀ c, v ≠ m.classValue c) (hkind : b.instanceKind = some kind) : m.Bears b.superclass kind := by
  rcases hs.heirs v b hread with ⟨d, hd⟩ | ⟨s, hsuper, hsame⟩
  · exact absurd hd (hnot d)
  by_cases hbuiltin : ∃ d, b.superclass = m.classValue d
  · obtain ⟨d, hd⟩ := hbuiltin
    obtain ⟨s', hs', -, hinstance⟩ := hs.builtin d
    rw [hd] at hsuper
    obtain rfl := Except.ok.inj (hsuper.symm.trans hs')
    exact Or.inl ⟨d, hd, BuiltinClass.bodyKind_of_instanceKind
      (hinstance.symm.trans (hsame.trans hkind))⟩
  · exact Or.inr ⟨fun d hd => hbuiltin ⟨d, hd⟩, s, hsuper, hsame.trans hkind⟩

/-- Every built-in class above the class of an object permits its kind. -/
theorem permits_of_bears (hs : m.Shaped bare) {c : BuiltinClass} (h : m.Below (m.classValue c) cls)
    (hb : m.Bears cls kind) : c.Permits kind := by
  generalize hv : m.classValue c = ancestor at h
  induction h with
  | here _ =>
    rcases hb with ⟨d, hd, hkind⟩ | ⟨hnot, -⟩
    · obtain rfl := hs.distinct (hv.trans hd)
      exact Or.inr hkind
    · exact absurd hv.symm (hnot c)
  | @up w b hread hup ih =>
    subst hv
    rcases hb with ⟨d, rfl, hkind⟩ | ⟨hnot, b', hb', hkind⟩
    · rcases hs.below_builtin (.up hread hup) with rfl | rfl | ⟨rfl, kind', rfl⟩
      · exact Or.inr hkind
      · exact Or.inl rfl
      · exact Or.inr hkind
    · obtain rfl := Except.ok.inj (hread.symm.trans hb')
      exact ih (hs.bears_superclass hread hnot hkind)

/-- One of the classes above an object is built in and has direct instances of its kind. -/
theorem exists_builtin_of_bears (hs : m.Shaped bare) {l : List Value} (hl : m.Lineage cls l)
    (hb : m.Bears cls kind) : ∃ c, m.Below (m.classValue c) cls ∧ c.bodyKind = some kind := by
  induction hl with
  | top hnil =>
    rcases hb with ⟨c, hc, -⟩ | ⟨-, b, hb, -⟩
    · have href := hs.isRef_classValue c
      rw [← hc, beq_iff_eq.mp hnil] at href
      cases href
    · rw [read_cls_ne_nil hb] at hnil
      cases hnil
  | up hread _ ih =>
    have hnil := read_cls_ne_nil hread
    rcases hb with ⟨c, rfl, hkind⟩ | ⟨hnot, b, hb, hkind⟩
    · exact ⟨c, .here hnil, hkind⟩
    · obtain rfl := Except.ok.inj (hread.symm.trans hb)
      obtain ⟨c, hbelow, hc⟩ := ih (hs.bears_superclass hread hnot hkind)
      exact ⟨c, .up hread hbelow, hc⟩

/-- The way from the class of an object to the root comes to an end. -/
theorem exists_lineage_of_bears (hs : m.Shaped bare) (hb : m.Bears cls kind) : ∃ l, m.Lineage cls l := by
  rcases hb with ⟨c, rfl, -⟩ | ⟨-, b, hb, -⟩
  · obtain ⟨b, hb, -⟩ := hs.builtin c
    exact hs.lineage _ b hb
  · exact hs.lineage _ b hb

end Shaped

end Machine

end ObjectMachine
