import Mathlib.Tactic
import ObjectMachine.Proofs.Machine.Growth
import ObjectMachine.Proofs.Typing.Dispatch

/-! The bootstrap makes a typed machine.

When the classes are stored, all of them are bare: they have no methods, and there are no globals.  Each
class is bare until it is given a method table and its name; after that the bootstrap binds globals and
defines methods the way it is done on every typed machine. -/

namespace ObjectMachine

open Machine Effect

namespace Bootstrap

/-- What has no methods yet; there are no globals either. -/
def unnamed (m : Machine) (cs : List BuiltinClass) : Set Value :=
  {v | v = .absent ∨ ∃ c ∈ cs, v = m.classValue c}

/-- A machine that has the classes and nothing else. -/
def laid (h : Heap) (classes : Array Value) : Machine where
  heap := h
  classes := classes

section Laid

variable {h : Heap} {classes : Array Value}
  (hl : Laid h classes BuiltinClass.all.length BuiltinClass.all.length)

include hl

theorem classValue_laid (c : BuiltinClass) : (laid h classes).classValue c = place c :=
  Laid.classValue_eq (m := laid h classes) hl c.index_lt

theorem object_laid (c : BuiltinClass) : ∃ o, h.get? (place c) = some o ∧ o.cls = place .cls ∧
    o.body = .cls (stub c) := by
  obtain ⟨o, ho, hcls, hbody⟩ := hl.object c c.index_lt
  exact ⟨o, ho, hcls.trans (if_pos c.index_lt), hbody⟩

/-- Every object is a class. -/
theorem exists_class_laid {v : Value} {o : Object} (ho : h.get? v = some o) :
    ∃ c, v = place c ∧ o.cls = place .cls ∧ o.body = .cls (stub c) := by
  obtain ⟨c, -, rfl⟩ := hl.only v o ho
  obtain ⟨p, hp, hrest⟩ := object_laid hl c
  obtain rfl := Option.some.inj (hp.symm.trans ho)
  exact ⟨c, rfl, hrest⟩

theorem read_laid (c : BuiltinClass) : (laid h classes).heap.read Facet.cls (place c) = .ok (stub c) := by
  obtain ⟨o, ho, -, hbody⟩ := object_laid hl c
  exact Heap.read_eq_ok_iff.mpr ⟨o, ho, by rw [hbody]; rfl⟩

theorem intact_laid : (laid h classes).Intact := by
  have hplace : ∀ c, h.Resolves (place c) := fun c => by
    obtain ⟨o, ho, -⟩ := object_laid hl c
    exact Heap.resolves_of_isLive (Heap.isLive_of_get? ho)
  refine ⟨hl.sound, hl.unmarked, fun i t ht => ?_, fun v hv => ?_, fun u o ho w hw => ?_⟩
  · -- there is a class in every slot
    have hi : i < BuiltinClass.all.length := by
      obtain ⟨o, ho, -⟩ := Option.bind_eq_some_iff.mp ht
      obtain ⟨slot, hslot, -⟩ := Option.bind_eq_some_iff.mp ho
      exact hl.size ▸ (Array.getElem?_eq_some_iff.mp hslot).1
    have hc := BuiltinClass.index_of_getElem? (List.getElem?_eq_getElem hi)
    obtain ⟨o, ho, -, hbody⟩ := object_laid hl BuiltinClass.all[i]
    have hslot := Heap.tableIn?_slotIndex ho
    rw [place, Value.slotIndex_ofSlot 0 (index_lt_room _), hc, hbody] at hslot
    rw [laid, hslot] at ht
    cases ht
  · rcases mem_roots.mp hv with hv | rfl | rfl | hv | hv
    · have hv : v ∈ classes.toList := hv
      rw [hl.classes, List.mem_map] at hv
      obtain ⟨i, hi, rfl⟩ := hv
      have hc := BuiltinClass.index_of_getElem? (List.getElem?_eq_getElem (List.mem_range.mp hi))
      rw [← hc]
      exact hplace _
    · exact Heap.resolves_of_not_isRef rfl
    · exact Heap.resolves_of_not_isRef rfl
    · cases hv
    · cases hv
  · obtain ⟨c, rfl, hcls, hbody⟩ := exists_class_laid hl ho
    simp only [Object.edges, hcls, hbody, Body.edges, stub, List.mem_cons, List.not_mem_nil, or_false] at hw
    rcases hw with rfl | rfl | rfl | rfl
    · exact hplace .cls
    · exact Heap.resolves_of_not_isRef rfl
    · unfold parent
      cases c.superclass with
      | none => exact Heap.resolves_of_not_isRef rfl
      | some p => exact hplace p
    · exact Heap.resolves_of_not_isRef rfl

theorem lineage_laid (c : BuiltinClass) : ∃ l, (laid h classes).Lineage (place c) l := by
  induction hn : c.index using Nat.strong_induction_on generalizing c with
  | _ n ih =>
    cases hs : c.superclass with
    | none => exact ⟨_, .up (read_laid hl c) (by rw [stub, parent, hs]; exact .top rfl)⟩
    | some p =>
      obtain ⟨l, hrest⟩ := ih p.index (hn ▸ BuiltinClass.index_superclass_lt hs) p rfl
      exact ⟨_, .up (read_laid hl c) (by rw [stub, parent, hs]; exact hrest)⟩

theorem shaped_laid : (laid h classes).Shaped (unnamed (laid h classes) BuiltinClass.all) := by
  have hback : ∀ {v b}, (laid h classes).heap.read Facet.cls v = .ok b → ∃ c, v = place c ∧ b = stub c := by
    intro v b hb
    obtain ⟨o, ho, hb'⟩ := Heap.read_eq_ok_iff.mp hb
    obtain ⟨c, rfl, -, hbody⟩ := exists_class_laid hl ho
    rw [hbody] at hb'
    exact ⟨c, rfl, (Option.some.inj hb').symm⟩
  have hvalue := classValue_laid hl
  refine ⟨intact_laid hl, fun {c d} hcd => ?_, fun c => ?_, fun v o ho => ?_, fun v o ho => ?_,
    fun v b hb => ?_, fun v b hb => ?_, fun v b hb hv => ?_, fun u v o p a hu _ ha _ href => ?_,
    fun hnot => absurd (Or.inl rfl) hnot, fun v o _ href => by cases href⟩
  · rw [hvalue, hvalue] at hcd
    exact place_inj hcd
  · refine ⟨stub c, by rw [hvalue]; exact read_laid hl c, ?_, rfl⟩
    simp only [stub, parent]
    congr 2
    exact funext fun c => (hvalue c).symm
  · obtain ⟨c, rfl, hcls, hbody⟩ := exists_class_laid hl ho
    exact Or.inl ⟨.cls, hcls.trans (hvalue .cls).symm, by rw [Object.kind, hbody]; rfl⟩
  · obtain ⟨c, rfl, -, hbody⟩ := exists_class_laid hl ho
    rw [hbody]
    trivial
  · obtain ⟨c, rfl, -⟩ := hback hb
    exact Or.inl ⟨c, (hvalue c).symm⟩
  · obtain ⟨c, rfl, -⟩ := hback hb
    exact lineage_laid hl c
  · obtain ⟨c, rfl, -⟩ := hback hb
    refine absurd (Or.inr ⟨c, ?_, (hvalue c).symm⟩) hv
    exact List.mem_of_getElem? c.getElem?_all
  · obtain ⟨c, rfl, -, hbody⟩ := exists_class_laid hl hu
    rw [hbody] at ha
    obtain rfl := Option.some.inj ha
    cases href

/-- With the table of symbols beside the classes the machine is typed. -/
theorem typed_planted : (planted h classes).Typed (unnamed (planted h classes) BuiltinClass.all) := by
  have hs := shaped_laid hl
  have hfits := hs.fits_table .text
  rw [classValue_laid hl] at hfits
  have hroom : (h.insert (place .dict) (.table (Table.new .text 0))).slots.size ≤ 2 ^ 32 := by
    refine (h.size_insert_le _ _).trans ?_
    rw [hl.size, BuiltinClass.length_all]
    decide
  have hs' := hs.store hfits hroom
  refine ⟨hs'.of_heap_eq rfl rfl rfl id fun v hv => ?_, discreet_planted hl⟩
  rcases mem_roots.mp hv with hv | rfl | rfl | hv | hv
  · exact hs'.intact.closed.roots v (mem_roots.mpr (Or.inl hv))
  · have hnew := hl.sound.get?_insert (place .dict) (.table (Table.new .text 0)) hroom h.nextReference
    exact Heap.resolves_of_isLive (Heap.isLive_of_get? (hnew.trans (if_pos rfl)))
  · exact Heap.resolves_of_not_isRef rfl
  · cases hv
  · cases hv

end Laid

/-! ### Naming the classes -/

variable {m m' : Machine} {cs : List BuiltinClass} {c : BuiltinClass}

theorem unnamed_eq (h : ∀ c, m'.classValue c = m.classValue c) (cs : List BuiltinClass) :
    unnamed m' cs = unnamed m cs := by simp only [unnamed, h]

/-- A class is bare no more when it is given its name and an empty method table that is nobody's. -/
theorem typed_named {name methods : Value} (hm : m.Typed (unnamed m (c :: cs))) (hname : name.isRef = false)
    (ht : m.heap.read Facet.table methods = .ok (Table.new .symbol 0)) (hfree : m.Unkept methods) :
    ∃ m', write Facet.cls (m.classValue c) (fun body => { body with methods := methods, name := name }) m =
      .ok () m' ∧ m'.Typed (unnamed m' cs) ∧ m.Persists False m' := by
  obtain ⟨b, hb, -⟩ := hm.shaped.builtin c
  obtain ⟨o, ho, hx⟩ := Heap.read_eq_ok_iff.mp hb
  have hbody : o.body = .cls b := (Facet.lawful_cls.put_eq hx).symm
  have havoids := hm.discreet.heap.avoids_of_read Facet.lawful_cls hb
  obtain ⟨-, hsuper, -⟩ := Body.avoids_cls.mp havoids
  have hamends : m.Amends (unnamed m (c :: cs)) (unnamed m cs) (m.classValue c) o
      { o with body := Facet.cls.put { b with methods := methods, name := name } } := by
    refine ⟨⟨rfl, by rw [hbody]; rfl⟩, rfl, rfl, ?_, trivial, fun a ha _ => ?_,
      fun _ _ _ _ _ h => Body.noConfusion h, fun b' hb' => Or.inr ?_, fun u hu hnot => ?_⟩
    · have hsuper := hm.shaped.intact.resolves_of_read Facet.lawful_cls hb
        (show b.superclass ∈ _ by simp [Facet.cls, Body.edges])
      exact Heap.resolves_triple (Heap.resolves_of_not_isRef hname) hsuper (Heap.resolves_of_read ht)
    · obtain rfl := Option.some.inj ha
      exact Or.inr hfree
    · obtain rfl := Body.cls.inj hb'
      exact ⟨_, ht, rfl, fun id => by simp [Table.get?, Table.new]⟩
    · rintro (rfl | ⟨d, hd, rfl⟩)
      · exact hnot (Or.inl rfl)
      · rcases List.mem_cons.mp hd with rfl | hd
        · exact hu rfl
        · exact hnot (Or.inr ⟨d, hd, rfl⟩)
  have hkept : Body.Avoids m.symbols.table (Facet.cls.put { b with methods := methods, name := name }) :=
    Body.avoids_cls.mpr ⟨ne_of_not_isRef hm.discreet.isRef hname, hsuper,
      hm.nameTable_ne ⟨Table.new .symbol 0, ht, rfl⟩⟩
  obtain ⟨hm', hk⟩ := hm.modify (g := fun body => { body with methods := methods, name := name }) ho hx
    hamends (fun _ => Or.inl rfl) hkept (hm.discreet.classValue_ne c) (False.elim : False → _)
  exact ⟨_, write_of_ok hb _, hm', hk⟩

theorem exists_nameClasses : ∀ {cs : List BuiltinClass} {m : Machine}, m.Typed (unnamed m cs) →
    m.heap.enabled = false → m.heap.slots.size + 3 * cs.length ≤ 2 ^ 32 →
    ∃ m', nameClasses cs m = .ok () m' ∧ m'.Typed {Value.absent}
  | [], m, hm, _, _ => by
    refine ⟨m, rfl, ?_⟩
    have hset : unnamed m [] = {Value.absent} := by simp [unnamed]
    exact hset ▸ hm
  | c :: cs, m, hm, henabled, hsize => by
    simp only [List.length_cons] at hsize
    have hroom : ((newTable .symbol 0).after m).heap.slots.size ≤ m.heap.slots.size + 1 :=
      (within_newTable .symbol 0 m).1
    obtain ⟨methods, heap, events, hmake, hm₁, hk₁, hplaced⟩ := hm.exists_alloc
      (hm.shaped.fits_table .symbol) (Body.avoids_newTable .symbol 0)
      (fun _ : True => Body.inert_table fun h => by cases h) (le_trans hroom (by omega))
    let m₁ : Machine := { m with heap := heap, events := events }
    have hmake : newTable .symbol 0 m = .ok methods m₁ := hmake
    rw [after_of_ok hmake] at hroom
    have hroom₁ := (within_intern c.name m₁).1
    obtain ⟨i, m₂, hintern, hm₂, hk₂, -⟩ := hm₁.exists_intern c.name (le_trans hroom₁ (by omega))
    rw [after_of_ok hintern] at hroom₁
    have henabled₁ : m₁.heap.enabled = false := hk₁.enabled_eq.trans henabled
    obtain ⟨ht, hfree⟩ := hk₂.loose henabled₁ (hplaced.read_eq rfl) rfl hplaced.unkept
    rw [← unnamed_eq (hk₁.trans hk₂.persists).classValue_eq] at hm₂
    obtain ⟨m₃, hwrite, hm₃, hk₃⟩ := typed_named hm₂ (Value.isRef_ofSymbol i) ht hfree
    have hroom₃ : m₃.heap.slots.size ≤ m₂.heap.slots.size := by
      have h := (frugal_write Facet.cls (m₂.classValue c)
        (fun body => { body with methods := methods, name := .ofSymbol i }) m₂).1
      rwa [after_of_ok hwrite] at h
    obtain ⟨m', hrest, hm'⟩ := @exists_nameClasses cs _ hm₃
      (hk₃.enabled_eq.trans (hk₂.persists.enabled_eq.trans henabled₁)) (by omega)
    refine ⟨m', ?_, hm'⟩
    have hclass : classValue c m₂ = .ok (m₂.classValue c) m₂ := rfl
    rw [nameClasses, bind_of_ok hmake, bind_of_ok hintern, bind_of_ok hclass, bind_of_ok hwrite, hrest]

/-! ### Furnishing the machine -/

/-- Machines with the same classes have the same ways up. -/
theorem lineage_congr {v : Value} {l : List Value} (hl : m.Lineage v l)
    (h : ∀ v, m'.heap.read Facet.cls v = m.heap.read Facet.cls v) : m'.Lineage v l := by
  induction hl with
  | top hnil => exact .top hnil
  | up hread _ ih => exact .up ((h _).trans hread) ih

/-- Nothing is missing any more when the machine is given its globals. -/
theorem typed_globals {globals : Value} (hm : m.Typed {Value.absent}) (ht : m.NameTable globals)
    (hfree : m.Unkept globals) : Typed ∅ { m with globals := globals } := by
  obtain ⟨t, hread, -⟩ := id ht
  have hs := hm.shaped
  have hd := hm.discreet
  have hlive : m.heap.Resolves globals := Heap.resolves_of_read hread
  refine ⟨⟨⟨hs.intact.sound, hs.intact.unmarked, hs.intact.tables, ⟨fun v hv => ?_, hs.intact.closed.edges⟩⟩,
    hs.distinct, hs.builtin, hs.bears, hs.suits, hs.heirs, fun v b hb => ?_, fun v b hb _ => ?_, hs.kept,
    fun _ => ht, fun v p hp _ => hfree.2 v p hp⟩,
    hd.table_eq, hd.nodup, hd.heap, hd.classes, hm.nameTable_ne ht, hd.handles, hd.cleanups, hd.weak,
    hd.activations, hd.resources⟩
  · have hroot : ∀ {v}, v ∈ m.roots → m.heap.Resolves v := hs.intact.closed.roots _
    rcases mem_roots.mp hv with hv | hv | rfl | hv | hv
    · exact hroot (mem_roots.mpr (Or.inl hv))
    · exact hroot (mem_roots.mpr (Or.inr (Or.inl hv)))
    · exact hlive
    · exact hroot (mem_roots.mpr (Or.inr (Or.inr (Or.inr (Or.inl hv)))))
    · exact hroot (mem_roots.mpr (Or.inr (Or.inr (Or.inr (Or.inr hv)))))
  · obtain ⟨l, hl⟩ := hs.lineage v b hb
    exact ⟨l, lineage_congr hl fun _ => rfl⟩
  · refine hs.methods v b hb fun habsent => ?_
    obtain rfl := Set.mem_singleton_iff.mp habsent
    obtain ⟨p, hp, -⟩ := Heap.read_eq_ok_iff.mp hb
    cases (Heap.get?_eq_some_iff.mp hp).1

/-- A built-in class is a value that programs may hold. -/
theorem public_classValue (hm : m.Typed ∅) (c : BuiltinClass) : m.Public (m.classValue c) := by
  obtain ⟨b, hb, -⟩ := hm.shaped.builtin c
  exact public_of_read Facet.lawful_cls nofun hb

section Furnishing

variable {quiet pre : Prop}

theorem behaves_bindClasses : ∀ {m : Machine} {pre : Prop} (cs : List BuiltinClass),
    Behaves quiet pre (bindClasses cs) m fun _ _ => True
  | _, _, [] => behaves_pure fun _ _ => trivial
  | _, _, _ :: cs => Behaves.ask_bind ((behaves_setGlobal _ fun hm _ =>
      public_classValue hm _).bind fun _ _ => behaves_bindClasses cs)

theorem behaves_definePrimitives {cls : Value} : ∀ {m : Machine} {pre : Prop}
    (methods : List PrimitiveMethod), (∀ p ∈ methods, c.Provides p) → (pre → cls = m.classValue c) →
    Behaves quiet pre (definePrimitives cls methods) m fun _ _ => True
  | _, _, [], _, _ => behaves_pure fun _ _ => trivial
  | _, _, p :: rest, hc, hp => (behaves_defineMethod (hc p List.mem_cons_self) hp).bind fun _ _ =>
      behaves_definePrimitives rest (fun q hq => hc q (List.mem_cons_of_mem p hq)) fun h =>
        (hp h.before).trans (h.persists.classValue_eq c).symm

theorem behaves_install : ∀ {m : Machine} {pre : Prop} (lists : List (BuiltinClass × PrimitiveList)),
    lists ⊆ installation → Behaves quiet pre (install lists) m fun _ _ => True
  | _, _, [], _ => behaves_pure fun _ _ => trivial
  | _, _, (_, l) :: rest, hin => Behaves.ask_bind ((behaves_definePrimitives l.methods
      (fun _ hp => ⟨l, hin List.mem_cons_self, hp⟩) fun _ => rfl).bind fun _ _ =>
        behaves_install rest fun _ hx => hin (List.mem_cons_of_mem _ hx))

end Furnishing

/-- From now on the heap collects. -/
theorem typed_enabled (hm : m.Typed ∅) (events : Array Event) :
    Typed ∅ { m with heap := { m.heap with allocated := 0, enabled := true }, events := events } := by
  have hs := hm.shaped
  obtain ⟨hempty, hnodup, hgeneration⟩ := hs.intact.sound
  have hsound : Heap.Sound { m.heap with allocated := 0, enabled := true } :=
    ⟨hempty, hnodup, hgeneration⟩
  have hd := hm.discreet
  refine ⟨⟨⟨hsound, hs.intact.unmarked, hs.intact.tables, ⟨hs.intact.closed.roots, hs.intact.closed.edges⟩⟩,
    hs.distinct, hs.builtin, hs.bears, hs.suits, hs.heirs, fun v b hb => ?_, hs.methods, hs.kept, hs.globals,
    hs.globals_kept⟩, hd.with_heap events ⟨hsound, hd.heap.unmarked, hd.heap.objects, hd.heap.table⟩⟩
  obtain ⟨l, hl⟩ := hs.lineage v b hb
  exact ⟨l, lineage_congr hl fun _ => rfl⟩

/-- Gives the classes their names, and the machine its globals. -/
def christen : Effect Unit := do
  nameClasses BuiltinClass.all
  let globals ← newTable .symbol 0
  update fun m => { m with globals := globals }

/-- Binds the classes to their names, and defines the built-in methods. -/
def equip : Effect Unit := do
  bindClasses BuiltinClass.all
  install installation

theorem furnish_eq : furnish = (christen >>= fun _ => equip >>= fun _ => do
    update fun m => { m with heap := { m.heap with allocated := 0, enabled := true } }
    record (.bootstrapped BuiltinClass.all.length (← ask (·.heap.live)))) := by
  simp only [furnish, christen, equip, bind_assoc]

theorem within_equip : Within 900 equip :=
  ((within_bindClasses _).bind fun _ => within_install _).mono (by decide)

/-- A machine with named classes and without any globals yet. -/
theorem exists_christened {h : Heap} {classes : Array Value}
    (hl : Laid h classes BuiltinClass.all.length BuiltinClass.all.length) : ∃ m,
      christen (planted h classes) = .ok () m ∧ m.Typed ∅ ∧ m.heap.slots.size ≤ 98 ∧
        m.heap.read Facet.table m.globals = .ok (Table.new .symbol 0) := by
  let m₀ := planted h classes
  have hm₀ : m₀.Typed (unnamed m₀ BuiltinClass.all) := typed_planted hl
  have hsize : m₀.heap.slots.size ≤ BuiltinClass.all.length + 1 := hl.size ▸ h.size_insert_le _ _
  have henabled : m₀.heap.enabled = false := by
    simp only [m₀, planted, Heap.insert, hl.free]
    exact hl.enabled
  rw [BuiltinClass.length_all] at hsize
  obtain ⟨m₁, hnamed, hm₁⟩ := exists_nameClasses hm₀ henabled (by rw [BuiltinClass.length_all]; omega)
  have hsize₁ := (within_nameClasses BuiltinClass.all m₀).1
  rw [after_of_ok hnamed, BuiltinClass.length_all] at hsize₁
  have hsize₂ : ((newTable .symbol 0).after m₁).heap.slots.size ≤ m₁.heap.slots.size + 1 :=
    (within_newTable .symbol 0 m₁).1
  obtain ⟨globals, heap, events, hmake, hm₂, -, hplaced⟩ := hm₁.exists_alloc (hm₁.shaped.fits_table .symbol)
    (Body.avoids_newTable .symbol 0) (fun _ : True => Body.inert_table fun h => by cases h) (le_trans hsize₂ (by omega))
  have hmake : newTable .symbol 0 m₁ = .ok globals { m₁ with heap := heap, events := events } := hmake
  rw [after_of_ok hmake] at hsize₂
  refine ⟨{ m₁ with heap := heap, events := events, globals := globals }, ?_,
    typed_globals hm₂ ⟨_, hplaced.read_eq rfl, rfl⟩ hplaced.unkept, ?_, hplaced.read_eq rfl⟩
  · rw [christen, bind_of_ok hnamed, bind_of_ok hmake]
    rfl
  · change heap.slots.size ≤ _ at hsize₂
    change heap.slots.size ≤ _
    omega

/-- A new machine is typed. -/
theorem typed_new (settings : HeapSettings) : (Machine.new settings).Typed ∅ := by
  obtain ⟨h, classes, hl, hnew⟩ := exists_new_eq settings
  obtain ⟨m₃, hchristen, hm₃, hsize, -⟩ := exists_christened hl
  -- classes are bound and methods defined the way it is done on every typed machine
  have hbehaves : Behaves True True equip m₃ fun _ _ => True :=
    (behaves_bindClasses _).bind fun _ _ => behaves_install _ (List.Subset.refl _)
  have hroom : (equip.after m₃).HasRoom := (within_equip m₃).1.trans (by omega)
  have hends := (hbehaves.keeps ⟨hm₃, trivial⟩ hroom).typed
  rw [hnew, after, furnish_eq, bind_of_ok hchristen]
  cases hrest : equip m₃ with
  | ok _ m₄ =>
    rw [after_of_ok hrest] at hends
    rw [bind_of_ok hrest]
    exact typed_enabled hends _
  | error u m₄ =>
    rw [after_of_error hrest] at hends
    rw [bind_of_error hrest]
    exact hends

end Bootstrap

end ObjectMachine
