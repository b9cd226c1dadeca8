import Mathlib.Tactic
import ObjectMachine.Proofs.Machine.Rooting

/-! What the operations write.

The operations that keep a machine closed write to few objects, and little to each: a mapping is entered
into a table, or a new table of attributes is put in place.  `Alters` says of an effect, however it ends,
in which ways the objects that could be reached may differ from what they were.  It goes along with
`Secure`, by which they still can be reached from one step to the next. -/

namespace ObjectMachine

open Machine Effect Dictionary

/-! ### Ways to change an object -/

/-- An object is as it was, or it is one of these, and its table was changed so and nothing else. -/
def Object.Rewrites (places : Set Value) (change : Table → Table → Prop) (v : Value) (o o' : Object) :
    Prop :=
  o' = o ∨ v ∈ places ∧ ∃ t t', o.body = .table t ∧ o' = { o with body := .table t' } ∧ change t t'

theorem Object.Rewrites.refl {places : Set Value} {change : Table → Table → Prop} (v : Value)
    (o : Object) : Object.Rewrites places change v o o := Or.inl rfl

theorem Object.Rewrites.imp {places places' : Set Value} {change change' : Table → Table → Prop}
    {v : Value} {o o' : Object} (h : Object.Rewrites places change v o o')
    (himp : v ∈ places → v ∈ places' ∧ ∀ t t', change t t' → change' t t') :
    Object.Rewrites places' change' v o o' := by
  rcases h with h | ⟨hv, t, t', hb, ho, hc⟩
  · exact Or.inl h
  · exact Or.inr ⟨(himp hv).1, t, t', hb, ho, (himp hv).2 t t' hc⟩

namespace Machine

variable {m m' : Machine} {avoided : Set Value} {writes : Value → Object → Object → Prop}
  {change : Table → Table → Prop} {table : Value}

/-- What could be reached around the avoided objects is still there, and was changed in these ways only. -/
def Alters (avoided : Set Value) (writes : Value → Object → Object → Prop) (m m' : Machine) : Prop :=
  ∀ v o, m.heap.ReachableAround avoided m.roots v → m.heap.get? v = some o →
    ∃ o', m'.heap.get? v = some o' ∧ writes v o o'

theorem Alters.of_heap_eq (hheap : m'.heap = m.heap) (hrefl : ∀ v o, writes v o o) :
    m.Alters avoided writes m' := fun v o _ ho => ⟨o, by rw [hheap, ho], hrefl v o⟩

theorem Alters.imp {writes' : Value → Object → Object → Prop} (h : m.Alters avoided writes m')
    (hw : ∀ v o o', writes v o o' → writes' v o o') : m.Alters avoided writes' m' := by
  intro v o hv ho
  obtain ⟨o', ho', hchange⟩ := h v o hv ho
  exact ⟨o', ho', hw v o o' hchange⟩

end Machine

/-! ### Effects -/

/-- In which ways an effect, started on a closed machine under an assumption, changes what could be
reached around the avoided objects. -/
def Effect.Alters (avoided : Set Value) (writes : Value → Object → Object → Prop) (pre : Prop)
    (a : Effect α) (m : Machine) : Prop :=
  Promises (m.Intact ∧ pre) a m fun _ m' => m.Alters avoided writes m'

namespace Effect.Alters

variable {α β : Type} {avoided lost written noted : Set Value} {pre pre' : Prop} {m : Machine}
  {a : Effect α} {f : α → Effect β} {post mid : α → Machine → Prop}
  {writes writes' first : Value → Object → Object → Prop}

theorem imp (ha : Alters avoided writes pre a m) (hpre : m.Intact → pre' → pre)
    (hw : m.Intact → pre' → ∀ v o o', writes v o o' → writes' v o o') :
    Alters avoided writes' pre' a m :=
  Promises.mono ha (fun hp => ⟨hp.1, hpre hp.1 hp.2⟩) fun _ _ hp _ h => h.imp (hw hp.1 hp.2)

/-- What is assumed of the machine anyway may be used in what follows. -/
theorem intact (ha : Alters avoided writes (m.Intact ∧ pre) a m) : Alters avoided writes pre a m :=
  ha.imp (fun hm hp => ⟨hm, hp⟩) fun _ _ _ _ _ h => h

/-- What is not written to is as it was. -/
theorem of_secure (h : Secure avoided lost written False pre a m post)
    (hw : ∀ v o o', (v ∉ written → o' = o) → writes v o o') : Alters avoided writes pre a m := by
  refine (secure_iff.mp h).mono id fun _ m' _ _ hs v o hv ho => ?_
  obtain ⟨o', ho', hkept⟩ := hs.keeps.objects v o hv ho
  exact ⟨o', ho', hw v o o' hkept.same⟩

theorem of_still (h : Secure avoided ∅ ∅ False pre a m post) (hrefl : ∀ v o, writes v o o) :
    Alters avoided writes pre a m :=
  of_secure h fun v o _ hsame => hsame (Set.notMem_empty v) ▸ hrefl v o

/-- One effect after the other: what the first one writes, and what the second one does, whose writes may
depend on the answer of the first. -/
theorem bind_fresh {second : α → Value → Object → Object → Prop}
    (hs : Secure avoided ∅ written False pre a m mid) (ha : Alters avoided first pre a m)
    (hf : ∀ x m', a m = .ok x m' →
      Alters avoided (second x) (pre ∧ Keeps avoided ∅ written m m' ∧ mid x m') (f x) m')
    (hfails : ∀ v o o', first v o o' → writes v o o')
    (hboth : ∀ x m', mid x m' → ∀ v, m.heap.ReachableAround avoided m.roots v → ∀ o o₁ o',
      first v o o₁ → second x v o₁ o' → writes v o o') :
    Alters avoided writes pre (a >>= f) m := by
  have hfirst : Promises (m.Intact ∧ pre) a m fun r m' =>
      Secured avoided ∅ written False m mid r m' ∧ m.Alters avoided first m' :=
    ⟨hs.grows, fun hp hroom => ⟨(secure_iff.mp hs).keeps hp hroom, Promises.keeps ha hp hroom⟩⟩
  refine hfirst.bind (fun x m' h => Promises.mono (hf x m' h) (fun hp => ?_)
    fun r m'' hp _ hsecond v o hv ho => ?_) fun u m' _ hp => hp.2.imp hfails
  · exact ⟨hp.2.1.keeps.intact, hp.1.2, hp.2.1.keeps, hp.2.1.answers x rfl⟩
  · obtain ⟨o₁, ho₁, hchange⟩ := hp.2.2 v o hv ho
    obtain ⟨o', ho', hchange'⟩ := hsecond v o₁ (hp.2.1.keeps.reachable hv) ho₁
    exact ⟨o', ho', hboth x m' (hp.2.1.answers x rfl) v hv o o₁ o' hchange hchange'⟩

theorem bind (hs : Secure avoided ∅ written False pre a m mid) (ha : Alters avoided first pre a m)
    (hf : ∀ x m', a m = .ok x m' →
      Alters avoided writes (pre ∧ Keeps avoided ∅ written m m' ∧ mid x m') (f x) m')
    (hfails : ∀ v o o', first v o o' → writes' v o o')
    (hboth : ∀ v o o₁ o', first v o o₁ → writes v o₁ o' → writes' v o o') :
    Alters avoided writes' pre (a >>= f) m :=
  bind_fresh hs ha hf hfails fun _ _ _ v _ => hboth v

theorem raiseError (kind : ErrorKind) (message : String) (hrefl : ∀ v o, writes v o o) :
    Alters avoided writes pre (raiseError kind message : Effect α) m :=
  have h : Secure avoided ∅ ∅ False pre (Effect.raiseError kind message : Effect α) m fun _ _ => True :=
    .raiseError kind message fun _ _ => False.elim
  of_still h hrefl

theorem map (ha : Alters avoided writes pre a m) (g : α → β) :
    Alters avoided writes pre (a >>= fun x => pure (g x)) m :=
  Promises.map ha g (fun _ _ _ h => h) fun _ _ _ h => h

theorem ask_bind {g : Machine → α} (hf : Alters avoided writes pre (f (g m)) m) :
    Alters avoided writes pre (ask g >>= f) m := Promises.ask_bind hf

theorem read_bind {facet : Facet α} {v : Value} (hrefl : ∀ v o, writes v o o)
    (hf : ∀ x, m.heap.read facet v = .ok x → Alters avoided writes pre (f x) m) :
    Alters avoided writes pre (read facet v >>= f) m :=
  Promises.read_bind hf fun _ _ _ => .of_heap_eq rfl hrefl

theorem withHandles (ha : Alters avoided writes pre a m) : Alters avoided writes pre (withHandles a) m :=
  Promises.withHandles ha fun _ _ _ h => h

end Effect.Alters

/-! ### Tables -/

namespace Dictionary

variable {avoided noted : Set Value} {pre : Prop} {m : Machine} {meaning : KeyMeaning}
  {table key record : Value} {writes : Value → Object → Object → Prop}

end Dictionary

/-! ### Symbols and globals -/

namespace Machine

/-- A name was interned: if it was new, its new text has entered the table of symbols with the next
number. -/
def WritesSymbol (m : Machine) : Value → Object → Object → Prop :=
  Object.Rewrites {m.symbols.table} fun t t' => ∃ key, ¬ m.heap.Reachable m.roots key ∧
    t.Enters (fun _ => False) key (.ofSymbol m.symbols.names.size) t'

/-- What a name is interned as, whatever else the machine holds. -/
def Interned (m : Machine) (name : String) (key : Value) : Prop :=
  ∃ m₁ m₂, m₁.heap = m.heap ∧ m₁.symbols = m.symbols ∧ intern name m₁ = .ok key m₂

/-- A mapping of a name to such a record was entered into one of these tables. -/
def EntersName (m : Machine) (places : Set Value) (name : String) (fits : Value → Prop) :
    Value → Object → Object → Prop :=
  Object.Rewrites places fun t t' => ∃ key record, m.Interned name key ∧ fits record ∧
    t.Enters (· = key) key record t'

/-- A name was interned, and then a mapping of it entered. -/
def WritesName (m : Machine) (places : Set Value) (name : String) (fits : Value → Prop) (v : Value)
    (o o' : Object) : Prop :=
  ∃ o₁, m.WritesSymbol v o o₁ ∧ m.EntersName places name fits v o₁ o'

variable {m m₁ : Machine} {places : Set Value} {name : String} {fits : Value → Prop} {v : Value}
  {o o' : Object}

theorem WritesSymbol.refl (v : Value) (o : Object) : m.WritesSymbol v o o := Or.inl rfl

theorem WritesName.of_symbol (h : m.WritesSymbol v o o') : m.WritesName places name fits v o o' :=
  ⟨o', h, .refl v o'⟩

theorem WritesName.refl (v : Value) (o : Object) : m.WritesName places name fits v o o :=
  .of_symbol (.refl v o)

end Machine

variable {avoided : Set Value} {pre : Prop} {m : Machine}

namespace Effect

end Effect

end ObjectMachine
