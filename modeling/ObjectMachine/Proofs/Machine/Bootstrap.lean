import Mathlib.Tactic
import ObjectMachine.Bootstrap
import ObjectMachine.Proofs.Heap.Aging
import ObjectMachine.Proofs.Machine.Discretion

/-! The beginning of the bootstrap.

The classes are stored first, one slot after the other, each below a superclass that is already
there; then each becomes an instance of the class of classes, and the table of symbols is stored.
From then on the bootstrap uses nothing but the operations every machine has. -/

namespace ObjectMachine

/-! ### The order of the classes -/

namespace BuiltinClass

theorem getElem?_all (c : BuiltinClass) : all[c.index]? = some c := by
  cases c with
  | error kind => cases kind <;> rfl
  | _ => rfl

theorem index_of_getElem? {i : Nat} {c : BuiltinClass} (h : all[i]? = some c) : c.index = i := by
  have hindex : all.map index = List.range all.length := by decide
  have hi : (all.map index)[i]? = some c.index := by rw [List.getElem?_map, h, Option.map_some]
  rw [hindex, List.getElem?_range (List.getElem?_eq_some_iff.mp h).1] at hi
  exact (Option.some.inj hi).symm

theorem index_lt (c : BuiltinClass) : c.index < all.length :=
  (List.getElem?_eq_some_iff.mp c.getElem?_all).1

theorem length_all : all.length = 24 := rfl

/-- A superclass is made before the classes below it. -/
theorem index_superclass_lt {c p : BuiltinClass} (h : c.superclass = some p) : p.index < c.index := by
  cases c with
  | error kind => cases kind <;> (obtain rfl := Option.some.inj h; decide)
  | object => cases h
  | _ => obtain rfl := Option.some.inj h; decide

end BuiltinClass

namespace Bootstrap

open Effect

/-- The reference of a class: it is stored in the slot of its number. -/
def place (c : BuiltinClass) : Value := .ofSlot c.index 0

theorem ofSlot_inj {i j : Nat} (hi : i < 2 ^ 32) (hj : j < 2 ^ 32)
    (h : Value.ofSlot i 0 = Value.ofSlot j 0) : i = j := by
  rw [← Value.slotIndex_ofSlot 0 hi, h, Value.slotIndex_ofSlot 0 hj]

theorem index_lt_room (c : BuiltinClass) : c.index < 2 ^ 32 :=
  c.index_lt.trans (by rw [BuiltinClass.length_all]; decide)

theorem place_inj {c d : BuiltinClass} (h : place c = place d) : c = d := by
  have hindex := ofSlot_inj (index_lt_room c) (index_lt_room d) h
  exact Option.some.inj (c.getElem?_all.symm.trans (hindex ▸ d.getElem?_all))

/-- The superclass of a class as a value. -/
def parent (c : BuiltinClass) : Value := (c.superclass.map place).getD .nil

/-- The body of a class before it is given its name and its methods. -/
def stub (c : BuiltinClass) : ClassBody := { superclass := parent c, instanceKind := c.instanceKind }

/-! ### Storing the classes -/

/-- So many classes are stored, and so many of them have a class. -/
structure Laid (h : Heap) (classes : Array Value) (made classed : Nat) : Prop where
  sound : h.Sound
  unmarked : h.Unmarked
  free : h.free = []
  enabled : h.enabled = false
  size : h.slots.size = made
  classes : classes = ((List.range made).map fun i => Value.ofSlot i 0).toArray
  object : ∀ c : BuiltinClass, c.index < made → ∃ o, h.get? (place c) = some o ∧
    o.cls = (if c.index < classed then place .cls else .nil) ∧ o.body = .cls (stub c)
  only : ∀ v o, h.get? v = some o → ∃ c : BuiltinClass, c.index < made ∧ v = place c
  next : h.nextSerial = made
  serial : ∀ (c : BuiltinClass) o, h.get? (place c) = some o → o.serial = c.index

theorem Laid.classValue_eq {m : Machine} {made classed : Nat} (hl : Laid m.heap m.classes made classed)
    {c : BuiltinClass} (hc : c.index < made) : m.classValue c = place c := by
  rw [Machine.classValue, hl.classes, Array.getD_eq_getD_getElem?]
  simp [hc, place]

theorem laid_fresh (settings : HeapSettings) : Laid { settings := settings, enabled := false } #[] 0 0 := by
  obtain ⟨hempty, hnodup, hgeneration⟩ := Heap.sound_fresh settings
  exact ⟨⟨hempty, hnodup, hgeneration⟩, by simp [Heap.Unmarked], rfl, rfl, rfl, rfl, nofun,
    fun v o ho => by simp [Heap.get?_eq_some_iff] at ho, rfl,
    fun c o ho => by simp [Heap.get?_eq_some_iff] at ho⟩

/-- One class more. -/
theorem Laid.store {h : Heap} {classes : Array Value} {made : Nat} (hl : Laid h classes made 0)
    {c : BuiltinClass} (hc : c.index = made) :
    Laid (h.insert .nil (.cls (stub c))) (classes.push h.nextReference) (made + 1) 0 := by
  have href : h.nextReference = place c := by
    rw [Heap.nextReference, hl.free, place, hl.size, hc]
  have hslots : (h.insert .nil (.cls (stub c))).slots.size = made + 1 := by
    simp [Heap.insert, hl.free, hl.size]
  have hget := hl.sound.get?_insert .nil (.cls (stub c)) (by
    have := index_lt_room c
    omega)
  refine ⟨hl.sound.insert _ _, hl.unmarked.insert hl.sound _ _, by simp [Heap.insert, hl.free],
    by simp [Heap.insert, hl.free, hl.enabled], hslots, ?_, fun d hd => ?_, fun v o ho => ?_,
    by rw [Heap.nextSerial_insert, hl.next], fun d o ho => ?_⟩
  · rw [hl.classes, href, List.range_succ, List.map_append, place, hc]
    simp
  · rw [hget, href]
    split
    · rename_i heq
      obtain rfl := place_inj heq
      exact ⟨_, rfl, rfl, rfl⟩
    · rename_i hne
      have hlt : d.index < made := by
        refine lt_of_le_of_ne (Nat.lt_succ_iff.mp hd) fun heq => hne ?_
        rw [place, place, heq, hc]
      exact hl.object d hlt
  · rw [hget, href] at ho
    split at ho
    · rename_i heq
      exact ⟨c, by omega, heq⟩
    · obtain ⟨d, hd, rfl⟩ := hl.only v o ho
      exact ⟨d, by omega, rfl⟩
  · rw [hget, href] at ho
    split at ho
    · rename_i heq
      obtain rfl := place_inj heq
      obtain rfl := Option.some.inj ho
      exact hl.next.trans hc.symm
    · exact hl.serial d o ho

theorem exists_storeClasses : ∀ {cs done : List BuiltinClass} {m : Machine},
    done ++ cs = BuiltinClass.all → Laid m.heap m.classes done.length 0 → ∃ heap classes,
      storeClasses cs m = .ok () { m with heap := heap, classes := classes } ∧
        Laid heap classes BuiltinClass.all.length 0
  | [], done, m, hall, hl => by
    rw [List.append_nil] at hall
    exact ⟨m.heap, m.classes, rfl, hall ▸ hl⟩
  | c :: cs, done, m, hall, hl => by
    have hc : c.index = done.length := by
      refine BuiltinClass.index_of_getElem? ?_
      rw [← hall, List.getElem?_append_right le_rfl, Nat.sub_self, List.getElem?_cons_zero]
    let m₁ : Machine := { m with
      heap := m.heap.insert .nil (.cls (stub c)), classes := m.classes.push m.heap.nextReference }
    have hstep : storeClasses (c :: cs) m = storeClasses cs m₁ := by
      have hstub : stub c = { superclass := parent c, instanceKind := c.instanceKind } := rfl
      simp only [m₁, hstub, parent]
      rw [storeClasses]
      cases hp : c.superclass with
      | none => rfl
      | some p =>
        have hindex := BuiltinClass.index_superclass_lt hp
        rw [Option.map_some, Option.getD_some, ← hl.classValue_eq (by omega)]
        rfl
    have hl₁ : Laid m₁.heap m₁.classes (done ++ [c]).length 0 := by
      rw [List.length_append]
      exact hl.store hc
    obtain ⟨heap, classes, hrest, hlaid⟩ :=
      exists_storeClasses ((List.append_assoc done [c] cs).trans hall) hl₁
    exact ⟨heap, classes, hstep.trans hrest, hlaid⟩

/-- One class more that has a class. -/
theorem Laid.setClass {h : Heap} {classes : Array Value} {made classed : Nat}
    (hl : Laid h classes made classed) {c : BuiltinClass} (hc : c.index = classed) :
    Laid (h.modifyObject (place c) fun o => { o with cls := place .cls }) classes made (classed + 1) := by
  have hlive := Heap.isLive_modifyObject h (place c) fun o => { o with cls := place .cls }
  refine ⟨hl.sound.modifyObject _ _, hl.unmarked.modifyObject _ fun _ _ => rfl, ?_, ?_,
    (Heap.size_modifyObject _ _ _).trans hl.size, hl.classes, fun d hd => ?_, fun v o ho => ?_,
    (Heap.nextSerial_modifyObject _ _ _).trans hl.next, fun d o ho => ?_⟩
  · rw [← hl.free, Heap.modifyObject]
    split <;> rfl
  · rw [← hl.enabled, Heap.modifyObject]
    split <;> rfl
  · obtain ⟨o, ho, hcls, hbody⟩ := hl.object d hd
    by_cases hdc : place d = place c
    · obtain rfl := place_inj hdc
      refine ⟨{ o with cls := place .cls }, ?_, ?_, hbody⟩
      · rw [Heap.get?_modifyObject_self, ho, Option.map_some]
      · rw [if_pos (by omega)]
    · refine ⟨o, (Heap.get?_modifyObject_of_ne h hdc _).trans ho, ?_, hbody⟩
      have hne : d.index ≠ classed := fun heq => hdc (by rw [place, place, heq, hc])
      rw [hcls]
      split <;> split <;> first | rfl | omega
  · have hlive' := hlive v
    rw [Heap.isLive_of_get? ho] at hlive'
    obtain ⟨p, hp⟩ := Option.isSome_iff_exists.mp hlive'.symm
    exact hl.only v p hp
  · by_cases hdc : place d = place c
    · obtain rfl := place_inj hdc
      rw [Heap.get?_modifyObject_self, Option.map_eq_some_iff] at ho
      obtain ⟨p, hp, rfl⟩ := ho
      exact hl.serial d p hp
    · rw [Heap.get?_modifyObject_of_ne h hdc] at ho
      exact hl.serial d o ho

theorem exists_setClasses {made : Nat} : ∀ {cs done : List BuiltinClass} {m : Machine},
    done ++ cs = BuiltinClass.all → BuiltinClass.all.length = made →
    Laid m.heap m.classes made done.length → ∃ heap,
      setClasses cs m = .ok () { m with heap := heap } ∧ Laid heap m.classes made made
  | [], done, m, hall, hmade, hl => by
    rw [List.append_nil] at hall
    exact ⟨m.heap, rfl, by rwa [hall, hmade] at hl⟩
  | c :: cs, done, m, hall, hmade, hl => by
    have hc : c.index = done.length := by
      refine BuiltinClass.index_of_getElem? ?_
      rw [← hall, List.getElem?_append_right le_rfl, Nat.sub_self, List.getElem?_cons_zero]
    have hlt := c.index_lt
    have hplace : m.classValue c = place c := hl.classValue_eq (hmade ▸ hlt)
    have hcls : m.classValue .cls = place .cls :=
      hl.classValue_eq (hmade ▸ BuiltinClass.index_lt .cls)
    let m₁ : Machine := { m with
      heap := m.heap.modifyObject (place c) fun o => { o with cls := place .cls } }
    have hl₁ : Laid m₁.heap m₁.classes made (done ++ [c]).length := by
      rw [List.length_append]
      exact hl.setClass hc
    obtain ⟨heap, hrest, hlaid⟩ :=
      exists_setClasses ((List.append_assoc done [c] cs).trans hall) hmade hl₁
    refine ⟨heap, ?_, hlaid⟩
    have hstep : setClasses (c :: cs) m = setClasses cs { m with
        heap := m.heap.modifyObject (m.classValue c) fun o => { o with cls := m.classValue .cls } } := rfl
    rw [hstep, hplace, hcls]
    exact hrest

/-! ### The table of symbols -/

/-- The bootstrap up to the table of symbols. -/
def seed : Effect Unit := do
  update fun m => { m with heap := { m.heap with enabled := false } }
  storeClasses BuiltinClass.all
  setClasses BuiltinClass.all
  let symbols ← store (← classValue .dict) (.table (Table.new .text 0))
  update fun m => { m with symbols := { m.symbols with table := symbols } }

/-- The bootstrap from the table of symbols on. -/
def furnish : Effect Unit := do
  nameClasses BuiltinClass.all
  let globals ← newTable .symbol 0
  update fun m => { m with globals := globals }
  bindClasses BuiltinClass.all
  install installation
  update fun m => { m with heap := { m.heap with allocated := 0, enabled := true } }
  record (.bootstrapped BuiltinClass.all.length (← ask (·.heap.live)))

theorem boot_eq : boot = (seed >>= fun _ => furnish) := by
  simp only [boot, seed, furnish, bind_assoc]

/-- A machine that has the classes, and the table of symbols beside them. -/
def planted (h : Heap) (classes : Array Value) : Machine where
  heap := h.insert (place .dict) (.table (Table.new .text 0))
  classes := classes
  symbols := { table := h.nextReference }

theorem exists_seed (settings : HeapSettings) : ∃ h classes,
    Laid h classes BuiltinClass.all.length BuiltinClass.all.length ∧
      seed { heap := { settings := settings } } = .ok () (planted h classes) := by
  let m₀ : Machine := { heap := { settings := settings, enabled := false } }
  have hl₀ : Laid m₀.heap m₀.classes 0 0 := laid_fresh settings
  obtain ⟨h₁, classes, hstore, hl₁⟩ := exists_storeClasses (List.nil_append _) hl₀
  let m₁ : Machine := { m₀ with heap := h₁, classes := classes }
  have hl : Laid m₁.heap m₁.classes BuiltinClass.all.length ([] : List BuiltinClass).length := hl₁
  obtain ⟨h, hset, hlaid⟩ := exists_setClasses (List.nil_append _) rfl hl
  let m₂ : Machine := { m₁ with heap := h }
  have hdict : Effect.classValue .dict m₂ = .ok (place .dict) m₂ :=
    congrArg (EStateM.Result.ok · m₂)
      (Laid.classValue_eq (m := m₂) hlaid (BuiltinClass.index_lt .dict))
  have henable : (update fun m => { m with heap := { m.heap with enabled := false } } : Effect Unit)
      { heap := { settings := settings } } = .ok () m₀ := rfl
  refine ⟨h, classes, hlaid, ?_⟩
  rw [seed, bind_of_ok henable, bind_of_ok hstore, bind_of_ok hset, bind_of_ok hdict]
  rfl

/-- A new machine is a planted one that was furnished. -/
theorem exists_new_eq (settings : HeapSettings) : ∃ h classes,
    Laid h classes BuiltinClass.all.length BuiltinClass.all.length ∧
      Machine.new settings = furnish.after (planted h classes) := by
  obtain ⟨h, classes, hl, hseed⟩ := exists_seed settings
  refine ⟨h, classes, hl, ?_⟩
  have hboot : boot { heap := { settings := settings } } = furnish (planted h classes) :=
    (congrFun boot_eq _).trans (bind_of_ok hseed)
  rw [Machine.new, after, hboot, after]

/-- The table of symbols comes right after the classes, so that none of them knows it. -/
theorem discreet_planted {h : Heap} {classes : Array Value}
    (hl : Laid h classes BuiltinClass.all.length BuiltinClass.all.length) :
    (planted h classes).Discreet (planted h classes).symbols.table := by
  have hroom : BuiltinClass.all.length < 2 ^ 32 := by rw [BuiltinClass.length_all]; decide
  have hs : h.nextReference = .ofSlot BuiltinClass.all.length 0 := by
    rw [Heap.nextReference, hl.free, hl.size]
  have href : h.nextReference.isRef = true := by rw [hs]; exact Value.isRef_ofSlot 0 hroom
  have hplace : ∀ c, place c ≠ h.nextReference := by
    intro c heq
    rw [hs] at heq
    exact absurd (ofSlot_inj (index_lt_room c) hroom heq) (Nat.ne_of_lt c.index_lt)
  have hparent : ∀ c, parent c ≠ h.nextReference := by
    intro c
    unfold parent
    cases c.superclass with
    | none => exact nil_ne href
    | some p => exact hplace p
  have hget := hl.sound.get?_insert (place .dict) (.table (Table.new .text 0)) (by
    simp only [Heap.insert, hl.free, Array.size_push, hl.size]
    exact hroom)
  have hnew := (hget h.nextReference).trans (if_pos rfl)
  refine ⟨rfl, List.nodup_nil, ⟨hl.sound.insert _ _, hl.unmarked.insert hl.sound _ _,
    fun v o ho => ?_, _, Heap.read_eq_ok_iff.mpr ⟨_, hnew, rfl⟩, Table.lists_new _⟩, fun hmem => ?_,
    absent_ne href, Array.not_mem_empty _, fun _ hf => absurd hf List.not_mem_nil,
    fun _ hw => absurd hw List.not_mem_nil, fun _ ha => absurd ha List.not_mem_nil, List.not_mem_nil⟩
  · have ho' := (hget v).symm.trans ho
    split at ho'
    · obtain rfl := Option.some.inj ho'
      exact ⟨hplace _, Body.avoids_newTable _ _⟩
    · obtain ⟨c, hc, rfl⟩ := hl.only v o ho'
      obtain ⟨p, hp, hcls, hbody⟩ := hl.object c hc
      obtain rfl := Option.some.inj (hp.symm.trans ho')
      refine ⟨?_, ?_⟩
      · rw [hcls, if_pos hc]
        exact hplace _
      · rw [hbody]
        exact Body.avoids_cls.mpr ⟨absent_ne href, hparent c, absent_ne href⟩
  · have hmem' : h.nextReference ∈ classes := hmem
    rw [hl.classes, hs, List.mem_toArray, List.mem_map] at hmem'
    obtain ⟨i, hi, heq⟩ := hmem'
    have hlt := List.mem_range.mp hi
    exact absurd (ofSlot_inj (hlt.trans hroom) hroom heq) (Nat.ne_of_lt hlt)

end Bootstrap

end ObjectMachine
