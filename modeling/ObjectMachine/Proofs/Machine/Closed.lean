import Mathlib.Tactic
import ObjectMachine.Proofs.Machine.Allocation
import ObjectMachine.Proofs.Table.Slots

/-! Machines without dangling references.

A machine is closed if every reference in a root and in a live object is live.  Collecting, storing an
object and changing one keep a machine closed.  They also keep what can be reached from the roots:
`Keeps` says which objects may have been written, and which may have lost references on the way, so
that what was reachable through those alone may be gone. -/

namespace ObjectMachine

/-- A facet that sees every body of its kind, and gives back what it puts there. -/
structure Facet.Lawful (facet : Facet α) : Prop where
  put_eq : ∀ {b x}, facet.get? b = some x → facet.put x = b
  kind_put : ∀ x, (facet.put x).kind = facet.kind
  exists_get? : ∀ {b}, b.kind = facet.kind → ∃ x, facet.get? b = some x

namespace Facet

theorem lawful_table : Lawful table where
  put_eq {b x} h := by cases b <;> simp_all [table]
  kind_put _ := rfl
  exists_get? {b} h := by cases b <;> simp_all [table, Body.kind]

theorem lawful_array : Lawful array where
  put_eq {b x} h := by cases b <;> simp_all [array]
  kind_put _ := rfl
  exists_get? {b} h := by cases b <;> simp_all [array, Body.kind]

theorem lawful_cls : Lawful cls where
  put_eq {b x} h := by cases b <;> simp_all [cls]
  kind_put _ := rfl
  exists_get? {b} h := by cases b <;> simp_all [cls, Body.kind]

theorem lawful_exception : Lawful exception where
  put_eq {b x} h := by cases b <;> simp_all [exception]
  kind_put _ := rfl
  exists_get? {b} h := by cases b <;> simp_all [exception, Body.kind]

theorem lawful_text : Lawful text where
  put_eq {b x} h := by cases b <;> simp_all [text]
  kind_put _ := rfl
  exists_get? {b} h := by cases b <;> simp_all [text, Body.kind]

/-- A body has one kind. -/
theorem Lawful.get?_eq_none {facet : Facet α} {other : Facet β} (hf : facet.Lawful)
    (ho : other.Lawful) (hne : facet.kind ≠ other.kind) {b : Body} {x : β}
    (hx : other.get? b = some x) : facet.get? b = none := by
  rw [Option.eq_none_iff_forall_ne_some]
  intro y hy
  refine hne ?_
  rw [← hf.kind_put y, hf.put_eq hy, ← ho.kind_put x, ho.put_eq hx]

end Facet

namespace Heap

variable {h : Heap} {roots : List Value} {v w : Value} {o : Object}

/-- Writing leaves objects of other kinds alone. -/
theorem get?_modify_of_other {facet : Facet α} {g : α → α} (ho : h.get? w = some o)
    (hkind : facet.get? o.body = none) : (h.modify facet v g).get? w = some o := by
  by_cases hv : w = v
  · subst hv
    rw [modify, get?_modifyObject_self, ho, Option.map_some, hkind]
  · exact (get?_modifyObject_of_ne h hv _).trans ho

theorem read_modify_of_other {facet : Facet α} {other : Facet β} {g : α → α} {x : β}
    (hf : facet.Lawful) (hother : other.Lawful) (hne : facet.kind ≠ other.kind)
    (hx : h.read other w = .ok x) : (h.modify facet v g).read other w = .ok x := by
  obtain ⟨o, ho, hb⟩ := read_eq_ok_iff.mp hx
  exact read_eq_ok_iff.mpr ⟨o, get?_modify_of_other ho (hf.get?_eq_none hother hne hb), hb⟩

/-- A value is no reference, or a live one. -/
def Resolves (h : Heap) (v : Value) : Prop := v.isRef = true → h.isLive v = true

theorem resolves_of_isLive (hv : h.isLive v = true) : h.Resolves v := fun _ => hv

theorem resolves_of_not_isRef (hv : v.isRef = false) : h.Resolves v := fun hr => by simp [hv] at hr

theorem resolves_triple {a b c : Value} (ha : h.Resolves a) (hb : h.Resolves b) (hc : h.Resolves c) :
    ∀ v ∈ [a, b, c], h.Resolves v := by
  simp only [List.mem_cons, List.not_mem_nil, or_false]
  rintro v (rfl | rfl | rfl)
  · exact ha
  · exact hb
  · exact hc

theorem isLive_of_get? {o : Object} (ho : h.get? v = some o) : h.isLive v = true :=
  isLive_iff.mpr ⟨o, ho⟩

theorem isLive_of_read {facet : Facet α} {x : α} (hx : h.read facet v = .ok x) : h.isLive v = true := by
  obtain ⟨o, ho, -⟩ := read_eq_ok_iff.mp hx
  exact isLive_of_get? ho

theorem resolves_of_read {facet : Facet α} {x : α} (hx : h.read facet v = .ok x) : h.Resolves v :=
  resolves_of_isLive (isLive_of_read hx)

theorem Reachable.mono {roots' : List Value} (hsub : roots ⊆ roots') (hv : h.Reachable roots v) :
    h.Reachable roots' v := by
  induction hv with
  | root hv hl => exact .root (hsub hv) hl
  | edge _ ho hv hl ih => exact .edge ih ho hv hl

/-- What can be reached from the roots without passing through an object of a set. -/
inductive ReachableAround (h : Heap) (avoided : Set Value) (roots : List Value) : Value → Prop where
  | root {v : Value} (hv : v ∈ roots) (hl : h.isLive v = true) : ReachableAround h avoided roots v
  | edge {u v : Value} {o : Object} (hu : ReachableAround h avoided roots u) (ha : u ∉ avoided)
      (ho : h.get? u = some o) (hv : v ∈ o.edges) (hl : h.isLive v = true) :
      ReachableAround h avoided roots v

theorem ReachableAround.isLive {avoided : Set Value} (hv : h.ReachableAround avoided roots v) :
    h.isLive v = true := by
  cases hv with
  | root _ hl => exact hl
  | edge _ _ _ _ hl => exact hl

theorem ReachableAround.reachable {avoided : Set Value} (hv : h.ReachableAround avoided roots v) :
    h.Reachable roots v := by
  induction hv with
  | root hv hl => exact .root hv hl
  | edge _ _ ho hv hl ih => exact .edge ih ho hv hl

theorem ReachableAround.mono {avoided avoided' : Set Value} (hsub : avoided ⊆ avoided')
    (hv : h.ReachableAround avoided' roots v) : h.ReachableAround avoided roots v := by
  induction hv with
  | root hv hl => exact .root hv hl
  | edge _ ha ho hv hl ih => exact .edge ih (fun hin => ha (hsub hin)) ho hv hl

/-- With nothing to avoid everything reachable is meant. -/
theorem Reachable.around (hv : h.Reachable roots v) : h.ReachableAround ∅ roots v := by
  induction hv with
  | root hv hl => exact .root hv hl
  | edge _ ho hv hl ih => exact .edge ih (Set.notMem_empty _) ho hv hl

/-! ### Sound heaps and unmarked headers -/

/-- The reference of the next object leads nowhere yet. -/
theorem Sound.get?_nextReference (hs : h.Sound) (cls : Value) (body : Body)
    (hroom : (h.insert cls body).slots.size ≤ 2 ^ 32) : h.get? h.nextReference = none := by
  obtain ⟨i, g, hf⟩ := hs.exists_fills cls body
  rw [Option.eq_none_iff_forall_not_mem]
  intro o ho
  rw [hf.reference_eq, Option.mem_def, get?_eq_some_iff, Value.slotIndex_ofSlot g (hf.index_lt hroom)] at ho
  exact absurd (hf.slot_before ho.2).2.1 nofun

/-- A change of an object concerns its slot only, and there it leaves the generation. -/
theorem getElem?_modifyObject (h : Heap) (v : Value) (f : Object → Object) (i : Nat) :
    (h.modifyObject v f).slots[i]? = h.slots[i]? ∨ ∃ o, h.get? v = some o ∧ v.slotIndex = i ∧
      (h.modifyObject v f).slots[i]? = some ⟨v.slotGeneration, some (f o)⟩ := by
  unfold modifyObject
  by_cases hv : v.isRef = true
  · rw [if_pos hv]
    simp only [Array.getElem?_modify]
    by_cases hi : v.slotIndex = i
    · subst hi
      cases hs : h.slots[v.slotIndex]? with
      | none => exact Or.inl (by simp)
      | some slot =>
        obtain ⟨g, c⟩ := slot
        by_cases hg : g = v.slotGeneration
        · cases c with
          | none => exact Or.inl (by simp [hg])
          | some o =>
            exact Or.inr ⟨o, get?_eq_some_iff.mpr ⟨hv, by rw [hs, hg]⟩, rfl, by simp [hg]⟩
        · exact Or.inl (by simp [hg])
    · exact Or.inl (if_neg hi)
  · rw [if_neg hv]
    exact Or.inl rfl

theorem size_modifyObject (h : Heap) (v : Value) (f : Object → Object) :
    (h.modifyObject v f).slots.size = h.slots.size := by
  unfold modifyObject
  split
  · simp
  · rfl

theorem isLive_modifyObject (h : Heap) (v : Value) (f : Object → Object) (w : Value) :
    (h.modifyObject v f).isLive w = h.isLive w := by
  unfold isLive
  by_cases hw : w = v
  · rw [hw, get?_modifyObject_self, Option.isSome_map]
  · rw [get?_modifyObject_of_ne h hw]

theorem Sound.modifyObject (hs : h.Sound) (v : Value) (f : Object → Object) :
    (h.modifyObject v f).Sound := by
  have hfree : (h.modifyObject v f).free = h.free := by
    unfold Heap.modifyObject
    split <;> rfl
  refine ⟨fun i hi => ?_, hfree ▸ hs.free_nodup, fun i g c hi => ?_⟩
  · obtain ⟨g, hg⟩ := hs.free_empty i (hfree ▸ hi)
    rcases getElem?_modifyObject h v f i with heq | ⟨o, ho, rfl, -⟩
    · exact ⟨g, heq.trans hg⟩
    · rw [(get?_eq_some_iff.mp ho).2] at hg
      simp at hg
  · rcases getElem?_modifyObject h v f i with heq | ⟨o, ho, rfl, heq⟩
    · exact hs.generation_le i g c (heq ▸ hi)
    · rw [heq, Option.some.injEq, Slot.mk.injEq] at hi
      exact hi.1 ▸ hs.generation_le _ _ _ (get?_eq_some_iff.mp ho).2

theorem Unmarked.modifyObject (hu : h.Unmarked) (v : Value) {f : Object → Object}
    (hf : ∀ o, h.get? v = some o → (f o).flags.marked = o.flags.marked) :
    (h.modifyObject v f).Unmarked := by
  rintro slot hslot p hp
  obtain ⟨i, hi⟩ := Array.mem_iff_getElem?.mp hslot
  rcases getElem?_modifyObject h v f i with heq | ⟨o, ho, rfl, heq⟩
  · exact hu slot (Array.mem_of_getElem? (heq ▸ hi)) p hp
  · obtain rfl := Option.some.inj (heq.symm.trans hi)
    rw [← Option.some.inj hp, hf o ho]
    exact hu _ (Array.mem_of_getElem? (get?_eq_some_iff.mp ho).2) o rfl

end Heap

/-- Writing takes no slots. -/
theorem Effect.size_after_write (facet : Facet α) (v : Value) (g : α → α) (m : Machine) :
    ((Effect.write facet v g).after m).heap.slots.size = m.heap.slots.size := by
  rcases Effect.after_write facet v g m with h | h
  · rw [h]
  · rw [h]
    exact Heap.size_modifyObject m.heap v _

/-! ### Closed machines -/

namespace Machine

variable {m m' m'' : Machine} {v : Value}

/-- The roots of running calls: frames, open rescues and values in flight. -/
def callRoots (m : Machine) : List Value :=
  m.frames.reverse.flatMap (fun f => f.receiver :: f.cleanups.reverse.map (·.resource))
    ++ m.targets.reverse.flatMap (·.classes) ++ m.inFlight.reverse

theorem mem_roots : v ∈ m.roots ↔ v ∈ m.classes.toList ∨ v = m.symbols.table ∨ v = m.globals ∨
    v ∈ m.handles.toList ∨ v ∈ m.callRoots := by
  unfold roots callRoots
  simp only [List.mem_append, List.mem_cons, List.not_mem_nil, or_false]
  tauto

/-- Every reference in a root or in a live object is live. -/
structure Closed (m : Machine) : Prop where
  roots : ∀ v ∈ m.roots, m.heap.Resolves v
  edges : ∀ u o, m.heap.get? u = some o → ∀ v ∈ o.edges, m.heap.Resolves v

/-- A closed machine whose heap and tables are in order: the free lists name vacant slots, each
once, and no header carries a mark. -/
structure Intact (m : Machine) : Prop where
  sound : m.heap.Sound
  unmarked : m.heap.Unmarked
  tables : ∀ i t, m.heap.tableIn? i = some t → t.Slotted
  closed : m.Closed

/-- A machine with nothing in it. -/
theorem intact_fresh (settings : HeapSettings) :
    Intact { heap := { settings := settings } } where
  sound := Heap.sound_fresh settings
  unmarked := by simp [Heap.Unmarked]
  tables i t ht := by simp [Heap.tableIn?] at ht
  closed := by
    refine ⟨fun v hv => Heap.resolves_of_not_isRef ?_, fun u o ho => ?_⟩
    · rcases List.mem_pair.mp hv with rfl | rfl
      · rfl
      · rfl
    · simp [Heap.get?_eq_some_iff] at ho

/-- What an object may be made of: a class and values that are live or immediate. -/
structure Admits (m : Machine) (cls : Value) (body : Body) : Prop where
  cls : m.heap.Resolves cls
  edges : ∀ v ∈ body.edges, m.heap.Resolves v
  table : ∀ t, Facet.table.get? body = some t → t.Slotted

/-- The values in an object that was read are live or immediate. -/
theorem Intact.resolves_of_read (hm : m.Intact) {facet : Facet α} (hfacet : facet.Lawful) {w : Value}
    {x : α} (hx : m.heap.read facet v = .ok x) (hw : w ∈ (facet.put x).edges) :
    m.heap.Resolves w := by
  obtain ⟨o, ho, hb⟩ := Heap.read_eq_ok_iff.mp hx
  refine hm.closed.edges v o ho w (List.mem_cons_of_mem _ ?_)
  rwa [← hfacet.put_eq hb]

theorem Intact.slotted (hm : m.Intact) {t : Table} (ht : m.heap.read Facet.table v = .ok t) :
    t.Slotted := hm.tables _ t (Heap.tableIn?_of_read ht)

/-- A value that no collection frees: it is no reference, or a reachable one. -/
def Anchored (m : Machine) (v : Value) : Prop := v.isRef = false ∨ m.heap.Reachable m.roots v

theorem Anchored.resolves (hv : m.Anchored v) : m.heap.Resolves v :=
  hv.elim Heap.resolves_of_not_isRef fun hr => Heap.resolves_of_isLive hr.isLive

theorem Intact.anchored_of_root (hm : m.Intact) (hv : v ∈ m.roots) : m.Anchored v := by
  cases hr : v.isRef with
  | false => exact Or.inl hr
  | true => exact Or.inr (.root hv (hm.closed.roots v hv hr))

/-- What an anchored object holds is anchored. -/
theorem Intact.anchored_of_edge (hm : m.Intact) {w : Value} {o : Object} (hv : m.Anchored v)
    (ho : m.heap.get? v = some o) (hw : w ∈ o.edges) : m.Anchored w := by
  cases hr : w.isRef with
  | false => exact Or.inl hr
  | true =>
    rcases hv with hv | hv
    · rw [(Heap.get?_eq_some_iff.mp ho).1] at hv
      cases hv
    · exact Or.inr (.edge hv ho hw (hm.closed.edges v o ho w hw hr))

theorem Intact.anchored_of_read (hm : m.Intact) {facet : Facet α} (hfacet : facet.Lawful) {w : Value}
    {x : α} (hv : m.Anchored v) (hx : m.heap.read facet v = .ok x) (hw : w ∈ (facet.put x).edges) :
    m.Anchored w := by
  obtain ⟨o, ho, hb⟩ := Heap.read_eq_ok_iff.mp hx
  refine hm.anchored_of_edge hv ho (List.mem_cons_of_mem _ ?_)
  rwa [← hfacet.put_eq hb]

/-- Built-in classes are roots. -/
theorem Intact.anchored_classValue (hm : m.Intact) (c : BuiltinClass) :
    m.Anchored (m.classValue c) := by
  unfold Machine.classValue
  rw [Array.getD_eq_getD_getElem?]
  cases h : m.classes[c.index]? with
  | none => exact Or.inl rfl
  | some v =>
    refine hm.anchored_of_root (mem_roots.mpr (Or.inl ?_))
    exact Array.mem_toList_iff.mpr (Array.mem_of_getElem? h)

/-- Whether the slots of the heap can be told apart by references. -/
def HasRoom (m : Machine) : Prop := m.heap.slots.size ≤ 2 ^ 32

/-- Every root of the machine is a root of a later one; handles are added at the end only. -/
structure Carries (m m' : Machine) : Prop where
  classes_eq : m'.classes = m.classes
  symbols_eq : m'.symbols.table = m.symbols.table
  globals_eq : m'.globals = m.globals
  handles_le : m.handles.toList <+: m'.handles.toList
  calls_subset : m.callRoots ⊆ m'.callRoots

theorem Carries.refl (m : Machine) : m.Carries m :=
  ⟨rfl, rfl, rfl, List.prefix_rfl, List.Subset.refl _⟩

/-- Heap and events hold no roots. -/
theorem carries_with (m : Machine) (heap : Heap) (events : Array Event) :
    m.Carries { m with heap := heap, events := events } :=
  ⟨rfl, rfl, rfl, List.prefix_rfl, List.Subset.refl _⟩

theorem Carries.trans (h : m.Carries m') (h' : m'.Carries m'') : m.Carries m'' :=
  ⟨h'.classes_eq.trans h.classes_eq, h'.symbols_eq.trans h.symbols_eq,
    h'.globals_eq.trans h.globals_eq, h.handles_le.trans h'.handles_le,
    List.Subset.trans h.calls_subset h'.calls_subset⟩

/-- At the end of a scope its handles are gone, and the roots from before are there. -/
theorem Carries.shrink (h : m.Carries m') :
    m.Carries { m' with handles := m'.handles.shrink m.handles.size } := by
  refine ⟨h.classes_eq, h.symbols_eq, h.globals_eq, ?_, h.calls_subset⟩
  rw [Array.toList_shrink, ← Array.length_toList, ← List.prefix_iff_eq_take.mp h.handles_le]

/-- A pinned value is one root more. -/
theorem Carries.push (h : m.Carries m') (v : Value) :
    m.Carries { m' with handles := m'.handles.push v } :=
  h.trans ⟨rfl, rfl, rfl, by simp, List.Subset.refl _⟩

/-- A handle that was made since may be overwritten. -/
theorem Carries.setHandle (h : m.Carries m') {place : Nat} (hplace : m.handles.size ≤ place)
    (v : Value) : m.Carries { m' with handles := m'.handles.setIfInBounds place v } := by
  refine ⟨h.classes_eq, h.symbols_eq, h.globals_eq, ?_, h.calls_subset⟩
  obtain ⟨rest, hrest⟩ := h.handles_le
  refine ⟨rest.set (place - m.handles.size) v, ?_⟩
  rw [Array.toList_setIfInBounds, ← hrest, List.set_append_right _ _ hplace]
  rfl

theorem Carries.roots_subset (h : m.Carries m') : m.roots ⊆ m'.roots := by
  intro v hv
  rw [mem_roots, h.classes_eq, h.symbols_eq, h.globals_eq]
  rcases mem_roots.mp hv with hv | hv | hv | hv | hv
  · exact Or.inl hv
  · exact Or.inr (Or.inl hv)
  · exact Or.inr (Or.inr (Or.inl hv))
  · exact Or.inr (Or.inr (Or.inr (Or.inl (h.handles_le.subset hv))))
  · exact Or.inr (Or.inr (Or.inr (Or.inr (h.calls_subset hv))))

theorem Carries.classValue_eq (h : m.Carries m') (c : BuiltinClass) :
    m'.classValue c = m.classValue c := by
  rw [classValue, classValue, h.classes_eq]

end Machine

/-- What becomes of an object that is kept: its class, its serial and its kind stay, everything stays
unless it was written, and its references stay unless some were lost. -/
structure Object.Kept (o o' : Object) (lost written : Prop) : Prop where
  cls_eq : o'.cls = o.cls
  serial_eq : o'.serial = o.serial
  kind_eq : o'.kind = o.kind
  same : ¬ written → o' = o
  edges : ¬ lost → ∀ v ∈ o.edges, v.isRef = true → v ∈ o'.edges

theorem Object.Kept.refl (o : Object) (lost written : Prop) : o.Kept o lost written :=
  ⟨rfl, rfl, rfl, fun _ => rfl, fun _ _ hv _ => hv⟩

/-- A later machine is in order, has the roots of an earlier one, and has kept what could be reached
there without passing through the avoided objects.  Only written objects differ; only those that are
avoided or lost may hold fewer references. -/
structure Machine.Keeps (avoided lost written : Set Value) (m m' : Machine) : Prop where
  intact : m'.Intact
  carries : m.Carries m'
  objects : ∀ v o, m.heap.ReachableAround avoided m.roots v → m.heap.get? v = some o →
    ∃ o', m'.heap.get? v = some o' ∧ o.Kept o' (v ∈ avoided ∪ lost) (v ∈ written)

namespace Machine

variable {m m' m'' : Machine} {v : Value} {avoided lost written lost' written' : Set Value}

theorem Keeps.refl (hm : m.Intact) : Keeps avoided lost written m m :=
  ⟨hm, .refl m, fun _ o _ ho => ⟨o, ho, .refl o _ _⟩⟩

/-- What a machine keeps, it keeps if only the heap's contents and the roots are looked at. -/
theorem Keeps.of_heap_eq (hm : m.Intact) (hheap : m'.heap = m.heap) (hroots : m'.roots ⊆ m.roots)
    (hc : m.Carries m') : Keeps avoided lost written m m' := by
  refine ⟨⟨hheap ▸ hm.sound, hheap ▸ hm.unmarked, hheap ▸ hm.tables, ⟨?_, ?_⟩⟩, hc,
    fun v o _ ho => ?_⟩
  · intro v hv
    rw [hheap]
    exact hm.closed.roots v (hroots hv)
  · rw [hheap]
    exact hm.closed.edges
  · rw [hheap]
    exact ⟨o, ho, .refl o _ _⟩

/-- Objects that could not be reached need not be mentioned. -/
theorem Keeps.weaken (h : Keeps avoided lost written m m')
    (hl : ∀ v ∈ lost, m.heap.Reachable m.roots v → v ∈ lost')
    (hw : ∀ v ∈ written, m.heap.Reachable m.roots v → v ∈ written') :
    Keeps avoided lost' written' m m' := by
  refine ⟨h.intact, h.carries, fun v o hv ho => ?_⟩
  obtain ⟨o', ho', hk⟩ := h.objects v o hv ho
  refine ⟨o', ho', hk.cls_eq, hk.serial_eq, hk.kind_eq, fun hn => ?_, fun hn => ?_⟩
  · exact hk.same fun hin => hn (hw v hin hv.reachable)
  · refine hk.edges fun hin => hn ?_
    exact hin.imp id fun hin => hl v hin hv.reachable

theorem Keeps.mono (h : Keeps avoided lost written m m') (hl : lost ⊆ lost')
    (hw : written ⊆ written') : Keeps avoided lost' written' m m' :=
  h.weaken (fun _ hv _ => hl hv) (fun _ hv _ => hw hv)

theorem Keeps.mono_avoided {avoided' : Set Value} (h : Keeps avoided lost written m m')
    (hsub : avoided ⊆ avoided') : Keeps avoided' lost written m m' := by
  refine ⟨h.intact, h.carries, fun v o hv ho => ?_⟩
  obtain ⟨o', ho', hk⟩ := h.objects v o (hv.mono hsub) ho
  refine ⟨o', ho', hk.cls_eq, hk.serial_eq, hk.kind_eq, hk.same, fun hn => hk.edges fun hin => ?_⟩
  exact hn (hin.imp (@hsub v) id)

/-- Nothing that can be reached around the avoided objects gets out of reach if no other object
loses references. -/
theorem Keeps.reachable (h : Keeps avoided ∅ written m m')
    (hv : m.heap.ReachableAround avoided m.roots v) :
    m'.heap.ReachableAround avoided m'.roots v := by
  have hlive : ∀ {w}, m.heap.ReachableAround avoided m.roots w → m'.heap.isLive w = true := by
    intro w hw
    obtain ⟨o, ho⟩ := Heap.isLive_iff.mp hw.isLive
    obtain ⟨o', ho', -⟩ := h.objects w o hw ho
    exact Heap.isLive_of_get? ho'
  induction hv with
  | root hv hl => exact .root (h.carries.roots_subset hv) (hlive (.root hv hl))
  | edge hu ha ho hv hl ih =>
    obtain ⟨o', ho', hk⟩ := h.objects _ _ hu ho
    have hedge := hk.edges (by simpa using ha) _ hv (Heap.isRef_of_isLive hl)
    exact .edge ih ha ho' hedge (hlive (.edge hu ha ho hv hl))

theorem Keeps.trans (h : Keeps avoided ∅ written m m') (h' : Keeps avoided lost written m' m'') :
    Keeps avoided lost written m m'' := by
  refine ⟨h'.intact, h.carries.trans h'.carries, fun v o hv ho => ?_⟩
  obtain ⟨o', ho', hk⟩ := h.objects v o hv ho
  obtain ⟨o'', ho'', hk'⟩ := h'.objects v o' (h.reachable hv) ho'
  refine ⟨o'', ho'', hk'.cls_eq.trans hk.cls_eq, hk'.serial_eq.trans hk.serial_eq,
    hk'.kind_eq.trans hk.kind_eq, fun hn => (hk'.same hn).trans (hk.same hn), fun hn w hw hr => ?_⟩
  have hstays := hk.edges (fun hin => hn (hin.imp id fun hin => absurd hin (Set.notMem_empty _)))
  exact hk'.edges hn w (hstays w hw hr) hr

/-- The same with objects that the first machine could not reach yet. -/
theorem Keeps.trans_fresh (h : Keeps avoided ∅ written m m')
    (h' : Keeps avoided lost' written' m' m'')
    (hl : ∀ v ∈ lost', m.heap.Reachable m.roots v → v ∈ lost) (hsub : written ⊆ written')
    (hw : ∀ v ∈ written', m.heap.Reachable m.roots v → v ∈ written) :
    Keeps avoided lost written m m'' :=
  ((h.mono (Set.Subset.refl ∅) hsub).trans h').weaken hl hw

/-- A live root is live in the later machine, with the same kind. -/
theorem Keeps.root (h : Keeps avoided lost written m m') (hv : v ∈ m.roots) {o : Object}
    (ho : m.heap.get? v = some o) :
    ∃ o', m'.heap.get? v = some o' ∧ o.Kept o' (v ∈ avoided ∪ lost) (v ∈ written) :=
  h.objects v o (.root hv (Heap.isLive_of_get? ho)) ho

/-- A root that was not written is the same object. -/
theorem Keeps.get?_root (h : Keeps avoided lost written m m') (hv : v ∈ m.roots)
    (hw : v ∉ written) {o : Object} (ho : m.heap.get? v = some o) : m'.heap.get? v = some o := by
  obtain ⟨o', ho', hk⟩ := h.root hv ho
  rw [ho', hk.same hw]

theorem Keeps.get?_root_eq (h : Keeps avoided lost written m m') (hm : m.Intact) (hv : v ∈ m.roots)
    (hw : v ∉ written) : m'.heap.get? v = m.heap.get? v := by
  cases ho : m.heap.get? v with
  | some o => exact h.get?_root hv hw ho
  | none =>
    rw [Option.eq_none_iff_forall_not_mem]
    intro o ho'
    have hlive := hm.closed.roots v hv (Heap.get?_eq_some_iff.mp ho').1
    rw [Heap.isLive, ho] at hlive
    cases hlive

/-- Reading a root that was not written. -/
theorem Keeps.read_root (h : Keeps avoided lost written m m') (hv : v ∈ m.roots)
    (hw : v ∉ written) {facet : Facet α} {x : α} (hx : m.heap.read facet v = .ok x) :
    m'.heap.read facet v = .ok x := by
  obtain ⟨o, ho, hb⟩ := Heap.read_eq_ok_iff.mp hx
  exact Heap.read_eq_ok_iff.mpr ⟨o, h.get?_root hv hw ho, hb⟩

/-- A root keeps its kind. -/
theorem Keeps.exists_read (h : Keeps avoided lost written m m') (hv : v ∈ m.roots)
    {facet : Facet α} (hfacet : facet.Lawful) {x : α} (hx : m.heap.read facet v = .ok x) :
    ∃ x', m'.heap.read facet v = .ok x' := by
  obtain ⟨o, ho, hb⟩ := Heap.read_eq_ok_iff.mp hx
  obtain ⟨o', ho', hk⟩ := h.root hv ho
  have hkind : o'.body.kind = facet.kind := by
    rw [← hfacet.kind_put x, hfacet.put_eq hb]
    exact hk.kind_eq
  obtain ⟨x', hx'⟩ := hfacet.exists_get? hkind
  exact ⟨x', Heap.read_eq_ok_iff.mpr ⟨o', ho', hx'⟩⟩

/-- What could be reached and was not written is the same object. -/
theorem Keeps.get?_anchored (h : Keeps ∅ lost written m m') (hv : m.Anchored v) (hw : v ∉ written)
    {o : Object} (ho : m.heap.get? v = some o) : m'.heap.get? v = some o := by
  rcases hv with hv | hv
  · rw [(Heap.get?_eq_some_iff.mp ho).1] at hv
    cases hv
  · obtain ⟨o', ho', hk⟩ := h.objects v o hv.around ho
    rwa [hk.same hw] at ho'

/-- Reading what could be reached and was not written. -/
theorem Keeps.read_anchored (h : Keeps ∅ lost written m m') (hv : m.Anchored v) (hw : v ∉ written)
    {facet : Facet α} {x : α} (hx : m.heap.read facet v = .ok x) :
    m'.heap.read facet v = .ok x := by
  obtain ⟨o, ho, hb⟩ := Heap.read_eq_ok_iff.mp hx
  exact Heap.read_eq_ok_iff.mpr ⟨o, h.get?_anchored hv hw ho, hb⟩

/-- If a table was all that was written, a root that is no table is what it was. -/
theorem Keeps.get?_not_table {s : Value} (h : Keeps avoided lost {s} m m')
    (hs : ∃ t, m.heap.read Facet.table s = .ok t) (hv : v ∈ m.roots) {o : Object}
    (ho : m.heap.get? v = some o) (hkind : o.kind ≠ .table) : m'.heap.get? v = some o := by
  refine h.get?_root hv (fun hvs => hkind ?_) ho
  obtain ⟨t, ht⟩ := hs
  obtain ⟨p, hp, hb⟩ := Heap.read_eq_ok_iff.mp ht
  obtain rfl : o = p := Option.some.inj (ho.symm.trans (Set.mem_singleton_iff.mp hvs ▸ hp))
  rw [Object.kind, ← Facet.lawful_table.put_eq hb]
  rfl

theorem Keeps.get?_back {s : Value} (h : Keeps avoided lost {s} m m') (hm : m.Intact)
    (hs : ∃ t, m.heap.read Facet.table s = .ok t) (hv : v ∈ m.roots) {o : Object}
    (ho : m'.heap.get? v = some o) (hkind : o.kind ≠ .table) : m.heap.get? v = some o := by
  have hlive := hm.closed.roots v hv (Heap.get?_eq_some_iff.mp ho).1
  obtain ⟨p, hp⟩ := Heap.isLive_iff.mp hlive
  obtain ⟨p', hp', hk⟩ := h.root hv hp
  obtain rfl := Option.some.inj (hp'.symm.trans ho)
  have hsame := h.get?_not_table hs hv hp fun hp => hkind (hk.kind_eq.trans hp)
  rw [hp, ← hsame, ho]

theorem Keeps.anchored (h : Keeps ∅ ∅ written m m') (hv : m.Anchored v) : m'.Anchored v :=
  hv.imp id fun hr => (h.reachable hr.around).reachable

/-- At the end of a scope its handles are gone, and those from before are all there. -/
theorem Keeps.shrink (h : Keeps avoided lost written m m') :
    Keeps avoided lost written m { m' with handles := m'.handles.shrink m.handles.size } := by
  have hhandles : (m'.handles.shrink m.handles.size).toList = m.handles.toList := by
    rw [Array.toList_shrink]
    exact (List.prefix_iff_eq_take.mp h.carries.handles_le).symm
  refine ⟨⟨h.intact.sound, h.intact.unmarked, h.intact.tables,
    ⟨fun v hv => ?_, h.intact.closed.edges⟩⟩, ⟨h.carries.classes_eq, h.carries.symbols_eq,
      h.carries.globals_eq, by rw [hhandles], h.carries.calls_subset⟩, h.objects⟩
  refine h.intact.closed.roots v ?_
  rw [mem_roots] at hv ⊢
  rw [hhandles] at hv
  refine hv.imp id (Or.imp id (Or.imp id (Or.imp (fun hv => ?_) id)))
  exact h.carries.handles_le.subset hv

/-! ### Collecting, storing and changing -/

/-- A collection keeps everything reachable, and what it is told to keep beside. -/
theorem Intact.collectWith (hm : m.Intact) {pending : List Value}
    (hp : ∀ v ∈ pending, m.heap.Resolves v) :
    Keeps avoided lost written m (m.collectWith pending) ∧
      ∀ v ∈ pending, (m.collectWith pending).heap.Resolves v := by
  have hget : ∀ {v o}, (m.collectWith pending).heap.get? v = some o ↔
      m.heap.get? v = some o ∧ m.heap.Reachable (m.roots ++ pending) v :=
    Heap.get?_collect_eq_some_iff hm.unmarked
  have hkept : ∀ v, m.heap.Reachable (m.roots ++ pending) v →
      (m.collectWith pending).heap.isLive v = true := by
    intro v hv
    obtain ⟨o, ho⟩ := Heap.isLive_iff.mp hv.isLive
    exact Heap.isLive_of_get? (hget.mpr ⟨ho, hv⟩)
  have hroot : ∀ v ∈ m.roots ++ pending, (m.collectWith pending).heap.Resolves v := by
    intro v hv hr
    refine hkept v (.root hv ?_)
    rcases List.mem_append.mp hv with hin | hin
    · exact hm.closed.roots v hin hr
    · exact hp v hin hr
  refine ⟨⟨⟨hm.sound.collect _, Heap.unmarked_collect hm.unmarked _,
    fun i t ht => hm.tables i t (Heap.tableIn?_collect ht), ⟨?_, ?_⟩⟩, m.carries_with _ _, fun v o hv ho => ?_⟩, fun v hv => hroot v (List.mem_append_right _ hv)⟩
  · exact fun v hv => hroot v (List.mem_append_left _ hv)
  · intro u o ho v hv hr
    obtain ⟨ho, hu⟩ := hget.mp ho
    exact hkept v (.edge hu ho hv (hm.closed.edges u o ho v hv hr))
  · exact ⟨o, hget.mpr ⟨ho, hv.reachable.mono (List.subset_append_left _ _)⟩, .refl o _ _⟩

/-- Storing an object whose class and values are live or immediate. -/
theorem Intact.store (hm : m.Intact) {cls : Value} {body : Body} (hbody : m.Admits cls body)
    (hroom : (m.heap.insert cls body).slots.size ≤ 2 ^ 32) :
    Keeps avoided lost written m { m with heap := m.heap.insert cls body } := by
  have hget := hm.sound.get?_insert cls body hroom
  have hfree := hm.sound.get?_nextReference cls body hroom
  have hold : ∀ {v o}, m.heap.get? v = some o → (m.heap.insert cls body).get? v = some o := by
    intro v o ho
    rw [hget, if_neg ?_, ho]
    rintro rfl
    rw [hfree] at ho
    simp at ho
  have hstays : ∀ {v}, m.heap.Resolves v → (m.heap.insert cls body).Resolves v := by
    intro v hv hr
    obtain ⟨o, ho⟩ := Heap.isLive_iff.mp (hv hr)
    exact Heap.isLive_of_get? (hold ho)
  refine ⟨⟨hm.sound.insert cls body, hm.unmarked.insert hm.sound cls body,
    fun i t ht => (Heap.tableIn?_insert ht).elim (hm.tables i t) (hbody.table t), ⟨?_, ?_⟩⟩,
    m.carries_with _ _, fun v o _ ho => ⟨o, hold ho, .refl o _ _⟩⟩
  · exact fun v hv => hstays (hm.closed.roots v hv)
  · intro u o ho v hv
    rw [hget] at ho
    split at ho
    · obtain rfl := Option.some.inj ho
      rcases List.mem_cons.mp hv with rfl | hv
      · exact hstays hbody.cls
      · exact hstays (hbody.edges v hv)
    · exact hstays (hm.closed.edges u o ho v hv)

/-- Changing an object, which keeps its header and gets values that are live or immediate. -/
theorem Intact.modifyObject (hm : m.Intact) {v : Value} {o : Object} {f : Object → Object}
    (ho : m.heap.get? v = some o) (hcls : (f o).cls = o.cls) (hserial : (f o).serial = o.serial)
    (hflags : (f o).flags = o.flags) (hkind : (f o).kind = o.kind)
    (hedges : ∀ w ∈ (f o).edges, m.heap.Resolves w)
    (htable : ∀ t, Facet.table.get? (f o).body = some t → t.Slotted) (hwritten : v ∈ written)
    (hlost : v ∉ avoided ∪ lost → ∀ w ∈ o.edges, w.isRef = true → w ∈ (f o).edges) :
    Keeps avoided lost written m { m with heap := m.heap.modifyObject v f } := by
  have hself : (m.heap.modifyObject v f).get? v = some (f o) := by
    rw [Heap.get?_modifyObject_self, ho, Option.map_some]
  have hother : ∀ {w}, w ≠ v → (m.heap.modifyObject v f).get? w = m.heap.get? w := fun hw =>
    Heap.get?_modifyObject_of_ne m.heap hw f
  have hstays : ∀ {w}, m.heap.Resolves w → (m.heap.modifyObject v f).Resolves w := by
    intro w hw hr
    by_cases heq : w = v
    · rw [heq]
      exact Heap.isLive_of_get? hself
    · rw [Heap.isLive, hother heq]
      exact hw hr
  have hunmarked := hm.unmarked.modifyObject v (f := f) fun p hp => by
    obtain rfl := Option.some.inj (hp.symm.trans ho)
    rw [hflags]
  have htables : ∀ i t, (m.heap.modifyObject v f).tableIn? i = some t → t.Slotted := by
    intro i t ht
    rcases Heap.tableIn?_modifyObject ht with ht | ⟨-, p, hp, ht⟩
    · exact hm.tables i t ht
    · obtain rfl := Option.some.inj (hp.symm.trans ho)
      exact htable t ht
  refine ⟨⟨hm.sound.modifyObject v f, hunmarked, htables, ⟨?_, ?_⟩⟩, m.carries_with _ _,
    fun w p _ hp => ?_⟩
  · exact fun w hw => hstays (hm.closed.roots w hw)
  · intro u p hp w hw
    refine hstays ?_
    by_cases heq : u = v
    · subst heq
      obtain rfl := Option.some.inj (hself.symm.trans hp)
      exact hedges w hw
    · rw [hother heq] at hp
      exact hm.closed.edges u p hp w hw
  · by_cases heq : w = v
    · subst heq
      obtain rfl := Option.some.inj (hp.symm.trans ho)
      exact ⟨_, hself, hcls, hserial, hkind, fun hn => absurd hwritten hn, hlost⟩
    · exact ⟨p, (hother heq).trans hp, .refl p _ _⟩

end Machine

end ObjectMachine
