import Mathlib.Tactic
import ObjectMachine.Proofs.Naming.History
import ObjectMachine.Proofs.Typing.Startup

/-! Names in a new machine.

The classes are numbered in the order in which they are stored, so each stands below an older one.
While they are given their names nothing is made but texts and tables, and their method tables are
empty.  Then the machine is settled, and what is left of the bootstrap are commands: the classes are
bound to their names, and the built-in methods are defined. -/

namespace ObjectMachine

open Machine Effect Naming

namespace Bootstrap

/-! ### Naming the classes -/

/-- What is made while the classes are named. -/
def Crude (b : Body) : Prop := (∃ s, b = .text s) ∨ ∃ t, b = .table t

theorem Crude.ne_cls {b : Body} (h : Crude b) (c : ClassBody) : b ≠ .cls c := by
  rcases h with ⟨s, rfl⟩ | ⟨t, rfl⟩ <;> exact Body.noConfusion

theorem Crude.names_eq_none {b : Body} (h : Crude b) : b.names? = none := by
  rcases h with ⟨s, rfl⟩ | ⟨t, rfl⟩ <;> rfl

theorem Crude.ne_native {b : Body} (h : Crude b) (method : NativeMethod) : b ≠ .native method := by
  rcases h with ⟨s, rfl⟩ | ⟨t, rfl⟩ <;> exact Body.noConfusion

section Planted

variable {h : Heap} {classes : Array Value}
  (hl : Laid h classes BuiltinClass.all.length BuiltinClass.all.length)

include hl

theorem numbered_laid : h.Numbered where
  sound := hl.sound
  unmarked := hl.unmarked
  serial_lt {v o} ho := by
    obtain ⟨c, hc, rfl⟩ := hl.only v o ho
    rw [hl.serial c o ho, hl.next]
    exact hc

theorem numbered_planted : (planted h classes).heap.Numbered := (numbered_laid hl).insert _ _

/-- Beside the classes there is the table of symbols. -/
theorem exists_class_planted {v : Value} {o : Object} (ho : (planted h classes).heap.get? v = some o) :
    Crude o.body ∨ ∃ c, v = place c ∧ o.body = .cls (stub c) ∧ o.serial = c.index := by
  rcases hl.sound.get?_insert_cases _ _ ho with ho | rfl
  · obtain ⟨c, rfl, -, hbody⟩ := exists_class_laid hl ho
    exact Or.inr ⟨c, rfl, hbody, hl.serial c o ho⟩
  · exact Or.inl (Or.inr ⟨_, rfl⟩)

end Planted

variable {k : Nat} {m m' : Machine}

theorem advances_nameClasses : ∀ {m : Machine} (cs : List BuiltinClass),
    Advances k Set.univ Crude True (nameClasses cs) m fun _ _ => True
  | _, [] => .pure ()
  | _, c :: cs => by
    refine Advances.andThen ((Advances.newTable (fun t => Or.inr ⟨t, rfl⟩) _ _).imp id
      fun _ _ _ _ => trivial) fun methods m₁ _ => Advances.andThen (.intern (fun s => Or.inl ⟨s, rfl⟩)
        (fun t => Or.inr ⟨t, rfl⟩) c.name trivial) fun name m₂ _ => .ask_bind (Advances.andThen
          (.write (fun _ => Or.inl trivial) fun b x hb => ?_) fun _ _ _ => advances_nameClasses cs)
    rw [← Facet.lawful_cls.put_eq hb]
    exact ⟨rfl, fun hcrude => absurd rfl (hcrude.ne_cls x)⟩

theorem advances_christen : Advances k Set.univ Crude True christen m fun _ _ => True :=
  (advances_nameClasses _).andThen fun _ _ _ => Advances.andThen
    ((Advances.newTable (fun t => Or.inr ⟨t, rfl⟩) _ _).imp id fun _ _ _ _ => trivial)
      fun _ _ _ => .update rfl

/-- A machine whose classes have their names, but no methods yet, and beside them texts and tables
only. -/
structure Christened (m : Machine) : Prop where
  typed : m.Typed ∅
  numbered : m.heap.Numbered
  cases : ∀ {v o}, m.heap.get? v = some o → Crude o.body ∨ ∃ (c : BuiltinClass) (b : ClassBody),
    v = place c ∧ o.body = .cls b ∧ b.superclass = parent c ∧ o.serial = c.index
  placed : ∀ {c : BuiltinClass} {o}, m.heap.get? (place c) = some o → ¬ Crude o.body

theorem christened {h : Heap} {classes : Array Value}
    (hl : Laid h classes BuiltinClass.all.length BuiltinClass.all.length)
    (hm : christen (planted h classes) = .ok () m) (htyped : m.Typed ∅)
    (hroom : m.HasRoom) : Christened m := by
  have hlater := (advances_christen (k := (planted h classes).heap.nextSerial)).later
    (numbered_planted hl) le_rfl trivial (by rwa [after_of_ok hm])
  rw [after_of_ok hm] at hlater
  refine ⟨htyped, hlater.numbered, fun {v o'} ho' => ?_, fun {c o'} ho' hcrude => ?_⟩
  · rcases hlater.fresh ho' with ⟨o, ho⟩ | ⟨-, hcrude⟩
    · have hf := hlater.follows ho ho'
      refine (exists_class_planted hl ho).imp hf.made fun ⟨c, hv, hbody, hserial⟩ => ?_
      obtain ⟨b, hb, hsuper, -⟩ := Body.exists_cls_of_outline_eq hf.outline_eq hbody
      exact ⟨c, b, hv, hb, hsuper, hf.serial_eq.trans hserial⟩
    · exact Or.inl hcrude
  · obtain ⟨o, ho, -, hbody⟩ := hl.object c c.index_lt
    have hf := hlater.follows (hl.sound.get?_insert_of_some _ _ ho) ho'
    obtain ⟨b, hb, -⟩ := Body.exists_cls_of_outline_eq hf.outline_eq hbody
    exact Crude.ne_cls hcrude b hb

namespace Christened

variable {v a : Value} {o : Object}

/-- Only classes keep tables of names, and these are empty. -/
theorem exists_methods (hm : Christened m) (ho : m.heap.get? v = some o) (ha : o.body.names? = some a) :
    ∃ (c : BuiltinClass) (b : ClassBody) (t : Table), v = place c ∧ o.body = .cls b ∧
      b.superclass = parent c ∧ o.serial = c.index ∧ a = b.methods ∧
        m.heap.read Facet.table a = .ok t ∧ Dictionary.Names t {} := by
  rcases hm.cases ho with hcrude | ⟨c, b, rfl, hbody, hsuper, hserial⟩
  · rw [Crude.names_eq_none hcrude] at ha
    cases ha
  have hread : m.heap.read Facet.cls (place c) = .ok b :=
    Heap.read_eq_ok_iff.mpr ⟨o, ho, by rw [hbody]; rfl⟩
  obtain ⟨t, ht, hsymbol, hentries⟩ := hm.typed.shaped.methods _ _ hread (Set.notMem_empty _)
  have hmethods : a = b.methods := by
    rw [hbody] at ha
    exact (Option.some.inj ha).symm
  obtain ⟨p, hp, hp'⟩ := Heap.exists_of_read_table ht
  have hsuits := hm.typed.shaped.suits _ _ hp
  rw [hp'] at hsuits
  refine ⟨c, b, t, rfl, hbody, hsuper, hserial, hmethods, hmethods ▸ ht,
    Dictionary.names_of_empty hsuits.1 hsymbol fun id => Option.eq_none_iff_forall_ne_some.mpr fun e he => ?_⟩
  -- there is no object yet that an entry could lead to
  obtain ⟨_, method, _, _, _, hnative, _⟩ := hentries id e he
  obtain ⟨q, hq, hq'⟩ := Heap.read_eq_ok_iff.mp hnative
  have hq' := Facet.lawful_native.put_eq hq'
  rcases hm.cases hq with hcrude | ⟨-, b', -, hb, -⟩
  · exact hcrude.ne_native _ hq'.symm
  · rw [hb] at hq'
    cases hq'

theorem settled (hm : Christened m) : m.Settled where
  intact := hm.typed.shaped.intact
  discreet := hm.typed.discreet
  neat := by
    refine ⟨hm.numbered, fun {v o a} ho ha _ => ?_, fun {u v o p a} ho hp ha ha' _ => ?_,
      fun {v o c} ho hc => ?_, fun {v o c} ho hc => ?_⟩
    · obtain ⟨-, -, t, -, -, -, -, -, ht, hnames⟩ := hm.exists_methods ho ha
      exact ⟨t, {}, ht, hnames⟩
    · obtain ⟨-, -, t, -, -, -, -, -, ht, -⟩ := hm.exists_methods ho ha
      exact hm.typed.shaped.kept _ _ _ _ _ ho hp ha ha'
        (Heap.isRef_of_isLive (Heap.isLive_of_read ht))
    · obtain ⟨-, -, t, -, -, -, -, -, ht, -⟩ := hm.exists_methods ho (by rw [hc]; rfl)
      rintro habsent
      rw [habsent] at ht
      cases ht
    · obtain ⟨d, b, -, rfl, hb, hsuper, hserial, -⟩ := hm.exists_methods ho (a := c.methods) (by rw [hc]; rfl)
      obtain rfl := Body.cls.inj (hc.symm.trans hb)
      rw [hsuper, parent]
      cases hd : d.superclass with
      | none => exact Or.inl rfl
      | some q =>
        have hq : c.superclass = place q := by rw [hsuper, parent, hd]; rfl
        have hlive : m.heap.isLive (place q) = true := by
          refine hm.typed.shaped.intact.closed.edges _ _ ho _ ?_ (Value.isRef_ofSlot 0 (index_lt_room q))
          simp [Object.edges, hc, Body.edges, hq]
        obtain ⟨p, hp⟩ := Heap.isLive_iff.mp hlive
        rcases hm.cases hp with hcrude | ⟨e, b', heq, hb', -, hserial'⟩
        · exact absurd hcrude (hm.placed hp)
        · obtain rfl := place_inj heq
          refine Or.inr ⟨p, b', hp, hb', ?_⟩
          rw [hserial, hserial']
          exact BuiltinClass.index_superclass_lt hd

/-- No name is bound yet. -/
theorem accounts (hm : Christened m) : m.Accounts [] [] := by
  have hnone : ∀ v key, m.heap.binding? v key = none := fun v key => by
    rw [Option.eq_none_iff_forall_ne_some]
    intro x hx
    obtain ⟨o, a, t, ho, ha, ht, hx⟩ := Heap.exists_of_binding hx
    obtain ⟨-, -, t', -, -, -, -, -, ht', hnames⟩ := hm.exists_methods ho ha
    obtain rfl := Except.ok.inj (ht.symm.trans ht')
    rw [hnames.lookup_entries] at hx
    cases hx
  exact ⟨hm.settled, .nil hnone, .nil hnone⟩

end Christened

/-! ### Binding the classes -/

/-- The table of globals is a table of names that belongs to no object. -/
structure Globals (m : Machine) : Prop where
  names : ∃ t s, m.heap.read Facet.table m.globals = .ok t ∧ Dictionary.Names t s
  unowned : m.heap.Unowned m.globals

theorem settles_setGlobal {pre : Prop} (name : String) {v : Value}
    (hp : m.Settled → pre → m.Usable v ∧ Globals m) :
    Settles pre (setGlobal name v) m (fun _ _ => False) fun _ m' => m.Binds nothing m' ∧ Globals m' := by
  refine Settles.withHandles ?_ (fun _ _ _ h => h) fun _ _ n ⟨hbinds, hg⟩ => ⟨hbinds.shrink n, hg.1, hg.2⟩
  refine (Settles.pin fun hm h => (hp hm h).1).bind fun _ m₁ _ => (Settles.intern name).bind
    fun key m₂ _ => Settles.ask_bind (Settles.map ((Settles.insertUnowned fun hm₂ h => ?_).imp
      (fun _ h => h) (fun _ _ _ _ h => h) fun _ h _ m' _ ⟨hbinds, hnames, hfree, hsame⟩ => ?_) fun _ => ())
  · obtain ⟨hk₂, hfree, i, rfl, -⟩ := h.result
    obtain ⟨hroot, heap, hcarries⟩ := h.before.result
    obtain ⟨hv, ⟨t, s, ht, hs⟩, hunowned⟩ := hp h.before.settled h.before.before
    have hpins := (Pins.pinned hv hroot heap h.before.binds.table_eq).intern h.settled hk₂
    have hglobals : m₂.globals = m₁.globals := hk₂.carries.globals_eq
    have hne : m₁.globals ∉ ({m₁.symbols.table} : Set Value) := h.settled.discreet.globals
    rw [← hcarries.globals_eq, ← heap] at ht hunowned
    refine ⟨⟨t, s, ?_, hs⟩, ?_, hm₂.discreet.globals, .ofSymbol i, hpins.usable.1, ?_⟩
    · rw [hglobals]
      exact hk₂.read_root (by simp [roots]) hne ht
    · rw [hglobals]
      refine hfree _ hunowned fun habsent => ?_
      rw [habsent] at ht
      cases ht
    · exact hpins.usable.2
  · rw [← hsame] at hnames hfree
    exact ⟨h.before.binds.trans (h.binds.trans hbinds), hnames, hfree⟩

theorem settles_bindClasses : ∀ {m : Machine} {pre : Prop} (cs : List BuiltinClass),
    (m.Settled → pre → Globals m) →
    Settles pre (bindClasses cs) m (fun _ _ => False) fun _ m' => m.Binds nothing m' ∧ Globals m'
  | m, pre, [], hp => .of_ok rfl le_rfl fun hm h _ => ⟨hm.binds_refl, hp hm h⟩
  | m, pre, c :: cs, hp => by
    refine Settles.ask_bind ((settles_setGlobal c.name fun hm h => ⟨⟨?_, ?_⟩, hp hm h⟩).bind
      fun _ m₁ _ => (settles_bindClasses cs fun _ h => h.result).imp (fun _ h => h)
        (fun _ _ _ _ h => h) fun _ h _ m' _ ⟨hbinds, hg⟩ => ⟨h.binds.trans hbinds, hg⟩)
    · exact (hm.intact.anchored_classValue c).resolves
    · exact hm.discreet.classValue_ne c

/-! ### Defining the built-in methods -/

/-- Every built-in class is a class. -/
def Founded (m : Machine) : Prop := ∀ c : BuiltinClass, ∃ b, m.heap.read Facet.cls (m.classValue c) = .ok b

theorem classValue_congr (h : m'.classes = m.classes) (c : BuiltinClass) :
    m'.classValue c = m.classValue c := congrArg (fun cs : Array Value => cs.getD c.index .absent) h

theorem Founded.binds {new : Value → Value → Option Value} (hm : Founded m) (h : m.Binds new m') :
    Founded m' := fun c => by
  obtain ⟨b, hb⟩ := hm c
  obtain ⟨o, ho, hbody⟩ := Heap.read_eq_ok_iff.mp hb
  have hlive : m'.heap.isLive (m'.classValue c) = true :=
    (h.settled.intact.anchored_classValue c).resolves
      (classValue_congr h.classes_eq c ▸ (Heap.get?_eq_some_iff.mp ho).1)
  obtain ⟨o', ho'⟩ := Heap.isLive_iff.mp hlive
  have hf := h.later.follows ho (classValue_congr h.classes_eq c ▸ ho')
  obtain ⟨b', hb', -⟩ := Body.exists_cls_of_outline_eq hf.outline_eq (Facet.lawful_cls.put_eq hbody).symm
  exact ⟨b', Heap.read_eq_ok_iff.mpr ⟨o', ho', by rw [hb']; rfl⟩⟩

/-- The methods of lists as they are entered in a ledger. -/
def installed (m : Machine) (lists : List (BuiltinClass × PrimitiveList)) : List (Naming NativeMethod) :=
  lists.flatMap fun p => p.2.methods.map fun q => ⟨m.classValue p.1, q.name, q.native⟩

theorem exists_defineMethod {attributes : List (Naming Value)} {methods : List (Naming NativeMethod)}
    (hm : m.Accounts attributes methods) (hf : Founded m) (c : BuiltinClass) (p : PrimitiveMethod)
    (hroom : m.heap.slots.size + 3 ≤ 2 ^ 32) : ∃ m',
      defineMethod (m.classValue c) p.native m = .ok () m' ∧
        m'.Accounts attributes (methods ++ [⟨m.classValue c, p.name, p.native⟩]) ∧ Founded m' ∧
        m'.classes = m.classes := by
  have hfair : (Command.defineMethod (m.classValue c) p.native).Fair m :=
    ⟨⟨(hm.settled.intact.anchored_classValue c).resolves, hm.settled.discreet.classValue_ne c⟩, trivial⟩
  have hroom' : ((defineMethod (m.classValue c) p.native).after m).HasRoom :=
    (within_defineMethod (m.classValue c) p.native m).1.trans hroom
  have haccounts : ((defineMethod (m.classValue c) p.native).after m).Accounts (attributes ++ [])
      (methods ++ [⟨m.classValue c, p.name, p.native⟩]) := hm.perform hfair hroom'
  obtain ⟨_, hbinds, -⟩ := Command.accounted_perform hm.settled hfair hroom'
  have hends := (settles_defineMethod p.native fun _ _ => hfair).ends hm.settled trivial hroom'
  rw [List.append_nil] at haccounts
  rw [Command.perform] at hbinds
  cases h : defineMethod (m.classValue c) p.native m with
  | error u m' =>
    rw [h] at hends
    obtain ⟨b, hb⟩ := hf c
    exact absurd hb (hends.2.2 b)
  | ok _ m' =>
    rw [after_of_ok h] at haccounts hbinds
    exact ⟨m', rfl, haccounts, hf.binds hbinds, hbinds.classes_eq⟩

theorem exists_definePrimitives {attributes : List (Naming Value)} (c : BuiltinClass) :
    ∀ {m : Machine} {methods : List (Naming NativeMethod)} (ps : List PrimitiveMethod),
      m.Accounts attributes methods → Founded m → m.heap.slots.size + 3 * ps.length ≤ 2 ^ 32 → ∃ m',
        definePrimitives (m.classValue c) ps m = .ok () m' ∧
          m'.Accounts attributes (methods ++ ps.map fun q => ⟨m.classValue c, q.name, q.native⟩) ∧
          Founded m' ∧ m'.classes = m.classes
  | m, methods, [], hm, hf, _ => ⟨m, rfl, by rwa [List.map_nil, List.append_nil], hf, rfl⟩
  | m, methods, p :: ps, hm, hf, hroom => by
    rw [List.length_cons] at hroom
    obtain ⟨m₁, hdefine, hm₁, hf₁, hclasses⟩ := exists_defineMethod hm hf c p (by omega)
    have hsize := (within_defineMethod (m.classValue c) p.native m).1
    rw [after_of_ok hdefine] at hsize
    obtain ⟨m', hrest, hm', hf', hclasses'⟩ := exists_definePrimitives c ps hm₁ hf₁ (by omega)
    rw [classValue_congr hclasses] at hrest hm'
    refine ⟨m', (bind_of_ok hdefine).trans hrest, ?_, hf', hclasses'.trans hclasses⟩
    rwa [List.map_cons, List.append_cons]

theorem exists_install {attributes : List (Naming Value)} :
    ∀ {m : Machine} {methods : List (Naming NativeMethod)} (lists : List (BuiltinClass × PrimitiveList)),
      m.Accounts attributes methods → Founded m →
      m.heap.slots.size + (lists.map fun p => 3 * p.2.methods.length).sum ≤ 2 ^ 32 → ∃ m',
        install lists m = .ok () m' ∧ m'.Accounts attributes (methods ++ installed m lists) ∧
          m'.classes = m.classes
  | m, methods, [], hm, _, _ => ⟨m, rfl, by rwa [installed, List.flatMap_nil, List.append_nil], rfl⟩
  | m, methods, (c, l) :: lists, hm, hf, hroom => by
    rw [List.map_cons, List.sum_cons] at hroom
    dsimp only at hroom
    obtain ⟨m₁, hdefine, hm₁, hf₁, hclasses⟩ := exists_definePrimitives c l.methods hm hf (by omega)
    have hsize := (within_definePrimitives (m.classValue c) l.methods m).1
    rw [after_of_ok hdefine] at hsize
    obtain ⟨m', hrest, hm', hclasses'⟩ := exists_install lists hm₁ hf₁ (by omega)
    refine ⟨m', (bind_of_ok hdefine).trans hrest, ?_, hclasses'.trans hclasses⟩
    have hsame : installed m₁ lists = installed m lists := by
      simp only [installed, classValue_congr hclasses]
    rwa [hsame, List.append_assoc] at hm'

/-! ### The new machine -/

/-- What was recorded is recorded when the heap collects. -/
theorem accounts_enabled {attributes : List (Naming Value)} {methods : List (Naming NativeMethod)}
    (hm : m.Accounts attributes methods) (events : Array Event) :
    Accounts attributes methods
      { m with heap := { m.heap with allocated := 0, enabled := true }, events := events } := by
  obtain ⟨⟨hi, hd, hn⟩, ha, hb⟩ := hm
  have hsound : Heap.Sound { m.heap with allocated := 0, enabled := true } :=
    ⟨hi.sound.free_empty, hi.sound.free_nodup, hi.sound.generation_le⟩
  exact ⟨⟨⟨hsound, hi.unmarked, hi.tables, ⟨hi.closed.roots, hi.closed.edges⟩⟩,
    hd.with_heap events ⟨hsound, hd.heap.unmarked, hd.heap.objects, hd.heap.table⟩,
    ⟨⟨hsound, hn.numbered.unmarked, hn.numbered.serial_lt⟩, hn.tables, hn.kept, hn.methods,
      hn.superclass⟩⟩, ⟨ha.entered, ha.found, ha.bound⟩, ⟨hb.entered, hb.found, hb.bound⟩⟩

/-- A new machine has no attributes, and the built-in methods. -/
theorem accounts_new (settings : HeapSettings) :
    (Machine.new settings).Accounts [] (installed (Machine.new settings) installation) := by
  obtain ⟨h, classes, hl, hnew⟩ := exists_new_eq settings
  obtain ⟨m, hchristen, htyped, hsize, hglobals⟩ := exists_christened hl
  have hm : Christened m := christened hl hchristen htyped (hsize.trans (by decide))
  have hg : Globals m := ⟨⟨_, _, hglobals, Dictionary.names_new⟩, fun v o ho =>
    htyped.shaped.globals_kept v o ho (Heap.isRef_of_isLive (Heap.isLive_of_read hglobals))⟩
  have hf : Founded m := fun c => (htyped.shaped.builtin c).imp fun _ hb => hb.1
  -- the classes are bound
  have hbinding : Settles True (bindClasses BuiltinClass.all) m _ _ :=
    settles_bindClasses BuiltinClass.all fun _ _ => hg
  have hsize₁ : ((bindClasses BuiltinClass.all).after m).heap.slots.size ≤ 146 :=
    (within_bindClasses BuiltinClass.all m).1.trans (by rw [BuiltinClass.length_all]; omega)
  have hends := hbinding.ends hm.settled trivial (hsize₁.trans (by decide))
  cases hbind : bindClasses BuiltinClass.all m with
  | error u m₁ =>
    rw [hbind] at hends
    exact hends.2.elim
  | ok _ m₁ =>
    rw [hbind] at hends
    rw [after_of_ok hbind] at hsize₁
    -- and have their methods defined
    have hsum : (installation.map fun p => 3 * p.2.methods.length).sum ≤ 900 := by decide
    obtain ⟨m₂, hinstall, hm₂, hclasses⟩ := exists_install installation
      (hm.accounts.binds hends.1 (hsize₁.trans (by decide))) (hf.binds hends.1) (by omega)
    have hequip : equip m = .ok () m₂ := (bind_of_ok hbind).trans hinstall
    have hsame : installed (Machine.new settings) installation = installed m₁ installation := by
      have hvalue : ∀ c, (Machine.new settings).classValue c = m₁.classValue c := fun c => by
        rw [hnew, after, furnish_eq, bind_of_ok hchristen, bind_of_ok hequip]
        exact classValue_congr hclasses c
      simp only [installed, hvalue]
    rw [hsame, hnew, after, furnish_eq, bind_of_ok hchristen, bind_of_ok hequip]
    exact accounts_enabled hm₂ _

end Bootstrap

end ObjectMachine
