import Mathlib.Tactic
import Mathlib.Algebra.BigOperators.Group.Finset.Basic
import Mathlib.Data.Set.Card
import ObjectMachine.Heap.Collect
import ObjectMachine.Proofs.Heap.Reference

/-! Marking finds exactly what can be reached.

Marking is seen as rounds of one step: take a reference from the worklist, and mark its object and
push its edges unless it is stale or marked.  The invariant of a round has a sound half (whatever is
marked or waits on the worklist and is live can be reached) and a complete half (every live root and
every live edge of a marked object is marked or waits).  A round takes one reference from the
worklist and pushes at most the edges of an object that was not marked before, so the references
that wait, together with the edges of all unmarked objects, bound the rounds still to come. -/

namespace ObjectMachine

theorem Object.foldEdges_eq_foldl (f : β → Value → β) (init : β) (o : Object) :
    o.foldEdges f init = o.edges.foldl f init := by
  rw [foldEdges, Body.foldEdges_eq_foldl, edges, List.foldl_cons]

theorem Object.length_edges_le (o : Object) : o.edges.length ≤ o.body.edgeCount + 1 := by
  rw [edges, List.length_cons]
  refine Nat.succ_le_succ ?_
  cases hb : o.body with
  | table t =>
    have hslab : t.slab.length ≤ t.slots.size := by
      simpa [Table.slab] using List.length_filterMap_le (fun s : EntrySlot => s.entry) t.slots.toList
    simp only [Body.edges, Body.edgeCount, List.length_flatMap, List.length_cons, List.length_nil,
      List.map_const', List.sum_replicate]
    simp only [smul_eq_mul]
    omega
  | array items => simp [Body.edges, Body.edgeCount]
  | _ => simp [Body.edges, Body.edgeCount]

namespace Heap

/-- What can be reached from the roots along the edges of objects.  Stale references lead nowhere. -/
inductive Reachable (h : Heap) (roots : List Value) : Value → Prop where
  | root {v : Value} (hv : v ∈ roots) (hl : h.isLive v = true) : Reachable h roots v
  | edge {u v : Value} {o : Object} (hu : Reachable h roots u) (ho : h.get? u = some o)
      (hv : v ∈ o.edges) (hl : h.isLive v = true) : Reachable h roots v

theorem Reachable.isLive {h : Heap} {roots : List Value} {v : Value} (hr : h.Reachable roots v) :
    h.isLive v = true := by
  cases hr with
  | root _ hl => exact hl
  | edge _ _ _ hl => exact hl

/-- No header carries the mark of a collection. -/
def Unmarked (h : Heap) : Prop :=
  ∀ slot ∈ h.slots, ∀ o, slot.object = some o → o.flags.marked = false

/-! ### The slots with a mark -/

/-- The slots that are marked. -/
def markedSlots (marks : Array Bool) : Finset Nat :=
  (Finset.range marks.size).filter fun i => marks.getD i false = true

theorem mem_markedSlots {marks : Array Bool} {i : Nat} :
    i ∈ markedSlots marks ↔ marks.getD i false = true := by
  rw [markedSlots, Finset.mem_filter, Finset.mem_range, and_iff_right_iff_imp]
  intro hi
  by_contra hsize
  rw [Array.getD_eq_getD_getElem?, Array.getElem?_eq_none (Nat.le_of_not_lt hsize)] at hi
  exact Bool.false_ne_true hi

theorem markedSlots_set {marks : Array Bool} {i : Nat} (hi : i < marks.size) :
    markedSlots (marks.setIfInBounds i true) = Insert.insert i (markedSlots marks) := by
  ext j
  rw [Finset.mem_insert, mem_markedSlots, mem_markedSlots]
  simp only [Array.getD_eq_getD_getElem?, Array.getElem?_setIfInBounds]
  by_cases hij : i = j
  · subst hij; simp [hi]
  · simp [hij, Ne.symm hij]

theorem markedSlots_replicate (n : Nat) : markedSlots (Array.replicate n false) = ∅ := by
  ext j
  rw [mem_markedSlots, Array.getD_eq_getD_getElem?, Array.getElem?_replicate]
  split <;> simp

/-- On a heap without marks in its headers, the marked objects are those in the marked slots. -/
theorem isMarked_iff {h : Heap} (hu : h.Unmarked) (marks : Array Bool) {i : Nat} {slot : Slot}
    {o : Object} (hs : h.slots[i]? = some slot) (ho : slot.object = some o) :
    isMarked marks i o = true ↔ i ∈ markedSlots marks := by
  rw [isMarked, hu slot (Array.mem_of_getElem? hs) o ho, Bool.false_or, mem_markedSlots]

/-! ### One round of marking -/

/-- One round of marking; an empty worklist stays as it is. -/
def markStep (slots : Array Slot) : List Value × Marking → List Value × Marking
  | ([], m) => ([], m)
  | (v :: rest, m) =>
    match objectAt? slots v with
    | none => (rest, { m with stale := v :: m.stale })
    | some o =>
      if isMarked m.marks v.slotIndex o then (rest, m)
      else (o.foldEdges pushReference rest,
        { m with marks := m.marks.setIfInBounds v.slotIndex true, count := m.count + 1 })

theorem iterate_markStep_nil (slots : Array Slot) (m : Marking) :
    ∀ n, (markStep slots)^[n] ([], m) = ([], m)
  | 0 => rfl
  | n + 1 => by rw [Function.iterate_succ_apply, markStep, iterate_markStep_nil slots m n]

/-- Marking with some fuel is that many rounds. -/
theorem mark_eq_iterate (slots : Array Slot) :
    ∀ (fuel : Nat) (worklist : List Value) (m : Marking),
      mark slots fuel worklist m = ((markStep slots)^[fuel] (worklist, m)).2
  | 0, _, _ => by rw [mark]; rfl
  | fuel + 1, [], m => by rw [iterate_markStep_nil]; rfl
  | fuel + 1, v :: rest, m => by
    rw [Function.iterate_succ_apply, mark, markStep]
    cases objectAt? slots v with
    | none => exact mark_eq_iterate slots fuel _ _
    | some o =>
      simp only
      split
      · exact mark_eq_iterate slots fuel _ _
      · exact mark_eq_iterate slots fuel _ _

theorem mem_foldl_pushReference {v : Value} :
    ∀ (vs worklist : List Value),
      v ∈ vs.foldl pushReference worklist ↔ v ∈ worklist ∨ v ∈ vs ∧ v.isRef = true
  | [], worklist => by simp
  | u :: vs, worklist => by
    rw [List.foldl_cons, mem_foldl_pushReference vs, pushReference, List.mem_cons]
    by_cases hu : u.isRef = true
    · rw [if_pos hu, List.mem_cons]
      by_cases huv : v = u
      · simp [huv, hu]
      · simp [huv]
    · rw [if_neg hu]
      have huv : v.isRef = true → v ≠ u := by rintro hv rfl; exact hu hv
      constructor
      · rintro (h | ⟨h, hv⟩)
        · exact Or.inl h
        · exact Or.inr ⟨Or.inr h, hv⟩
      · rintro (h | ⟨h, hv⟩)
        · exact Or.inl h
        · exact Or.inr ⟨h.resolve_left (huv hv), hv⟩

theorem length_foldl_pushReference :
    ∀ (vs worklist : List Value),
      (vs.foldl pushReference worklist).length ≤ worklist.length + vs.length
  | [], _ => Nat.le_refl _
  | u :: vs, worklist => by
    rw [List.foldl_cons, List.length_cons]
    refine le_trans (length_foldl_pushReference vs _) ?_
    rw [pushReference]
    split
    · rw [List.length_cons]; omega
    · omega

theorem isRef_of_isLive {h : Heap} {v : Value} (hl : h.isLive v = true) : v.isRef = true := by
  obtain ⟨o, ho⟩ := isLive_iff.mp hl
  exact (get?_eq_some_iff.mp ho).1

/-! ### What a round preserves -/

/-- The state between two rounds of marking from `roots`. -/
structure MarkState (h : Heap) (roots worklist : List Value) (m : Marking) : Prop where
  size : m.marks.size = h.slots.size
  sound : ∀ i ∈ markedSlots m.marks, ∃ v, v.slotIndex = i ∧ h.Reachable roots v
  pending : ∀ v ∈ worklist, h.isLive v = true → h.Reachable roots v
  roots_seen : ∀ v ∈ roots, h.isLive v = true → v.slotIndex ∈ markedSlots m.marks ∨ v ∈ worklist
  edges_seen : ∀ u o, h.get? u = some o → u.slotIndex ∈ markedSlots m.marks →
    ∀ v ∈ o.edges, h.isLive v = true → v.slotIndex ∈ markedSlots m.marks ∨ v ∈ worklist
  count : m.count = (markedSlots m.marks).card

variable {h : Heap} {roots : List Value}

/-- A round that only drops a reference which is stale or marked. -/
theorem MarkState.drop {v : Value} {rest : List Value} {m : Marking} {stale : List Value}
    (hs : MarkState h roots (v :: rest) m)
    (hv : h.isLive v = true → v.slotIndex ∈ markedSlots m.marks) :
    MarkState h roots rest { m with stale := stale } := by
  -- what was seen on the worklist and is gone from it was `v`, which is marked if it is live
  have still : ∀ w, h.isLive w = true → w.slotIndex ∈ markedSlots m.marks ∨ w ∈ v :: rest →
      w.slotIndex ∈ markedSlots m.marks ∨ w ∈ rest := by
    rintro w hw (hm | hm)
    · exact Or.inl hm
    · rcases List.mem_cons.mp hm with rfl | hm
      · exact Or.inl (hv hw)
      · exact Or.inr hm
  exact
    { size := hs.size
      sound := hs.sound
      pending := fun w hw => hs.pending w (List.mem_cons_of_mem _ hw)
      roots_seen := fun w hw hl => still w hl (hs.roots_seen w hw hl)
      edges_seen := fun u o hu hm w hw hl => still w hl (hs.edges_seen u o hu hm w hw hl)
      count := hs.count }

/-- A round that marks a new object and pushes its edges. -/
theorem MarkState.visit {v : Value} {rest : List Value} {m : Marking} {o : Object}
    (hs : MarkState h roots (v :: rest) m) (ho : h.get? v = some o)
    (hv : v.slotIndex ∉ markedSlots m.marks) :
    MarkState h roots (o.foldEdges pushReference rest)
      { m with marks := m.marks.setIfInBounds v.slotIndex true, count := m.count + 1 } := by
  have hlive : h.isLive v = true := isLive_iff.mpr ⟨o, ho⟩
  have hreach : h.Reachable roots v := hs.pending v (List.mem_cons_self ..) hlive
  have hlt : v.slotIndex < m.marks.size := by
    rw [hs.size]
    exact (Array.getElem?_eq_some_iff.mp (get?_eq_some_iff.mp ho).2).1
  have hset := markedSlots_set hlt
  have hwork : ∀ w, w ∈ o.foldEdges pushReference rest ↔ w ∈ rest ∨ w ∈ o.edges ∧ w.isRef = true := by
    intro w
    rw [Object.foldEdges_eq_foldl, mem_foldl_pushReference]
  have still : ∀ w, w.slotIndex ∈ markedSlots m.marks ∨ w ∈ v :: rest →
      w.slotIndex ∈ Insert.insert v.slotIndex (markedSlots m.marks) ∨
        w ∈ o.foldEdges pushReference rest := by
    rintro w (hm | hm)
    · exact Or.inl (Finset.mem_insert_of_mem hm)
    · rcases List.mem_cons.mp hm with rfl | hm
      · exact Or.inl (Finset.mem_insert_self ..)
      · exact Or.inr ((hwork w).mpr (Or.inl hm))
  refine ⟨?_, ?_, ?_, ?_, ?_, ?_⟩
  · rw [Array.size_setIfInBounds, hs.size]
  · intro i hi
    simp only [hset, Finset.mem_insert] at hi
    rcases hi with rfl | hi
    · exact ⟨v, rfl, hreach⟩
    · exact hs.sound i hi
  · intro w hw hl
    rcases (hwork w).mp hw with hw | ⟨hw, _⟩
    · exact hs.pending w (List.mem_cons_of_mem _ hw) hl
    · exact .edge hreach ho hw hl
  · intro w hw hl
    simp only [hset]
    exact still w (hs.roots_seen w hw hl)
  · intro u p hp hu w hw hl
    simp only [hset, Finset.mem_insert] at hu ⊢
    rcases hu with hu | hu
    · -- the object just marked: its live edges are on the worklist now
      obtain rfl : u = v := eq_of_slotIndex_eq (isLive_iff.mpr ⟨p, hp⟩) hlive hu
      rw [ho] at hp
      cases hp
      exact Or.inr ((hwork w).mpr (Or.inr ⟨hw, isRef_of_isLive hl⟩))
    · simpa only [Finset.mem_insert] using still w (hs.edges_seen u p hp hu w hw hl)
  · simp only [hset]
    rw [Finset.card_insert_of_notMem hv, hs.count]

/-- A round keeps the state of marking. -/
theorem MarkState.step (hu : h.Unmarked) {worklist : List Value} {m : Marking}
    (hs : MarkState h roots worklist m) :
    MarkState h roots (markStep h.slots (worklist, m)).1 (markStep h.slots (worklist, m)).2 := by
  cases worklist with
  | nil => exact hs
  | cons v rest =>
    rw [markStep]
    cases ho : objectAt? h.slots v with
    | none =>
      refine hs.drop fun hl => ?_
      obtain ⟨o, ho'⟩ := isLive_iff.mp hl
      rw [get?, ho] at ho'
      exact absurd ho' (by simp)
    | some o =>
      have hmarked := isMarked_iff hu m.marks (objectAt?_eq_some_iff.mp ho).2 rfl
      simp only
      split
      · rename_i hm
        exact hs.drop fun _ => hmarked.mp hm
      · rename_i hm
        exact hs.visit ho fun hv => hm (hmarked.mpr hv)

/-! ### How many rounds are left -/

/-- What the object of a slot can put on the worklist at most. -/
def weight (slot : Slot) : Nat :=
  match slot.object with
  | some o => o.body.edgeCount + 1
  | none => 0

/-- What the object of a numbered slot can put on the worklist at most. -/
def weightAt (slots : Array Slot) (i : Nat) : Nat := (slots[i]?.map weight).getD 0

/-- The references that wait and those that the unmarked objects can still push. -/
def roundsLeft (slots : Array Slot) (s : List Value × Marking) : Nat :=
  s.1.length + ∑ i ∈ Finset.range slots.size \ markedSlots s.2.marks, weightAt slots i

/-- Every round on a worklist that is not empty leaves fewer rounds to come. -/
theorem roundsLeft_markStep (hu : h.Unmarked) (v : Value) (rest : List Value) {m : Marking}
    (hsize : m.marks.size = h.slots.size) :
    roundsLeft h.slots (markStep h.slots (v :: rest, m)) < roundsLeft h.slots (v :: rest, m) := by
  rw [markStep]
  cases ho : objectAt? h.slots v with
  | none => simp only [roundsLeft, List.length_cons]; omega
  | some o =>
    have hslot := (objectAt?_eq_some_iff.mp ho).2
    have hmarked := isMarked_iff hu m.marks hslot rfl
    have hlt : v.slotIndex < h.slots.size := (Array.getElem?_eq_some_iff.mp hslot).1
    simp only
    split
    · simp only [roundsLeft, List.length_cons]; omega
    · rename_i hm
      have hnew : v.slotIndex ∈ Finset.range h.slots.size \ markedSlots m.marks :=
        Finset.mem_sdiff.mpr ⟨Finset.mem_range.mpr hlt, fun hv => hm (hmarked.mpr hv)⟩
      have hweight : weightAt h.slots v.slotIndex = o.body.edgeCount + 1 := by
        rw [weightAt, hslot]; rfl
      have hpush := length_foldl_pushReference o.edges rest
      have hedges := o.length_edges_le
      have hsum := Finset.add_sum_erase _ (weightAt h.slots) hnew
      simp only [roundsLeft, List.length_cons, markedSlots_set (hsize ▸ hlt), Finset.sdiff_insert,
        Object.foldEdges_eq_foldl]
      omega

/-- As many rounds as are left empty the worklist, and the state of marking holds at the end. -/
theorem MarkState.run (hu : h.Unmarked) :
    ∀ (n : Nat) (worklist : List Value) (m : Marking), MarkState h roots worklist m →
      roundsLeft h.slots (worklist, m) ≤ n →
      ∃ done, (markStep h.slots)^[n] (worklist, m) = ([], done) ∧ MarkState h roots [] done
  | n, [], m, hs, _ => ⟨m, iterate_markStep_nil .., hs⟩
  | 0, v :: rest, m, _, hn => by simp [roundsLeft] at hn
  | n + 1, v :: rest, m, hs, hn => by
    have hless := roundsLeft_markStep hu v rest hs.size
    rw [Function.iterate_succ_apply]
    exact MarkState.run hu n _ _ (hs.step hu) (Nat.le_of_lt_succ (lt_of_lt_of_le hless hn))

/-! ### The fuel of marking -/

theorem sum_weightAt_toArray :
    ∀ l : List Slot, ∑ i ∈ Finset.range l.length, weightAt l.toArray i = (l.map weight).sum
  | [] => rfl
  | slot :: l => by
    rw [List.length_cons, Finset.sum_range_succ', List.map_cons, List.sum_cons,
      ← sum_weightAt_toArray l, Nat.add_comm]
    congr 1
    simp [weightAt]

/-- The fuel of a collection: the roots, the weights of all slots, and one more. -/
theorem markFuel_eq (h : Heap) (roots : List Value) :
    h.markFuel roots = roots.length + 1 + ∑ i ∈ Finset.range h.slots.size, weightAt h.slots i := by
  have hstep : (fun (n : Nat) (slot : Slot) => match slot.object with
      | some o => n + o.body.edgeCount + 1
      | none => n) = fun n slot => n + weight slot := by
    funext n slot
    rw [weight]
    cases slot.object <;> rfl
  have hfold : ∀ (l : List Slot) (n : Nat),
      l.foldl (fun n slot => n + weight slot) n = n + (l.map weight).sum := by
    intro l
    induction l with
    | nil => intro n; rfl
    | cons slot l ih => intro n; rw [List.foldl_cons, ih, List.map_cons, List.sum_cons]; omega
  have hfuel : h.markFuel roots = h.slots.foldl (fun n slot => n + weight slot) (roots.length + 1) :=
    congrArg (fun f => h.slots.foldl f (roots.length + 1)) hstep
  rw [hfuel, ← Array.foldl_toList, hfold, ← sum_weightAt_toArray]
  rfl

/-- The worklist a collection starts from. -/
theorem MarkState.start (h : Heap) (roots : List Value) :
    MarkState h roots (roots.foldl pushReference [])
      { marks := Array.replicate h.slots.size false } where
  size := by simp
  sound := by simp [markedSlots_replicate]
  pending v hv hl := by
    rw [mem_foldl_pushReference] at hv
    rcases hv with hv | ⟨hv, _⟩
    · simp at hv
    · exact .root hv hl
  roots_seen v hv hl :=
    Or.inr ((mem_foldl_pushReference roots []).mpr (Or.inr ⟨hv, isRef_of_isLive hl⟩))
  edges_seen u o _ hu := by simp [markedSlots_replicate] at hu
  count := by simp [markedSlots_replicate]

/-- Marking empties its worklist: `markFuel` rounds lead from the roots to an empty worklist and to
what marking gives. -/
theorem iterate_markStep_roots (hu : h.Unmarked) (roots : List Value) :
    (markStep h.slots)^[h.markFuel roots]
        (roots.foldl pushReference [], { marks := Array.replicate h.slots.size false }) =
      ([], h.markFrom roots) ∧ MarkState h roots [] (h.markFrom roots) := by
  have hlen := length_foldl_pushReference roots []
  have hfuel : roundsLeft h.slots (roots.foldl pushReference [],
      { marks := Array.replicate h.slots.size false }) ≤ h.markFuel roots := by
    rw [markFuel_eq, roundsLeft]
    simp only [markedSlots_replicate, Finset.sdiff_empty]
    simp only [List.length_nil] at hlen
    omega
  obtain ⟨done, hrun, hdone⟩ := MarkState.run hu _ _ _ (MarkState.start h roots) hfuel
  have hmark : h.markFrom roots = done := by rw [markFrom, mark_eq_iterate, hrun]
  rw [hmark]
  exact ⟨hrun, hdone⟩

/-- A live reference is in a marked slot exactly if it can be reached. -/
theorem mem_markedSlots_iff_reachable (hu : h.Unmarked) (roots : List Value) {v : Value}
    (hl : h.isLive v = true) :
    v.slotIndex ∈ markedSlots (h.markFrom roots).marks ↔ h.Reachable roots v := by
  have hs := (iterate_markStep_roots hu roots).2
  constructor
  · intro hv
    obtain ⟨w, hw, hr⟩ := hs.sound _ hv
    rwa [← eq_of_slotIndex_eq hr.isLive hl hw]
  · intro hr
    clear hl
    induction hr with
    | root hv hl => exact (hs.roots_seen _ hv hl).resolve_right (by simp)
    | edge _ ho hv hl ih => exact (hs.edges_seen _ _ ho ih _ hv hl).resolve_right (by simp)

/-- The number of objects marked is the number of references that can be reached. -/
theorem count_markFrom (hu : h.Unmarked) (roots : List Value) :
    (h.markFrom roots).count = Set.ncard {v | h.Reachable roots v} := by
  have hs := (iterate_markStep_roots hu roots).2
  have himage : (markedSlots (h.markFrom roots).marks : Set Nat) =
      Value.slotIndex '' {v | h.Reachable roots v} := by
    ext i
    constructor
    · intro hi
      obtain ⟨v, hv, hr⟩ := hs.sound i hi
      exact ⟨v, hr, hv⟩
    · rintro ⟨v, hr, rfl⟩
      exact (mem_markedSlots_iff_reachable hu roots (Reachable.isLive hr)).mpr hr
  rw [hs.count, ← Set.ncard_coe_finset, himage]
  refine Set.InjOn.ncard_image fun v hv w hw hvw => ?_
  exact eq_of_slotIndex_eq (Reachable.isLive hv) (Reachable.isLive hw) hvw

end Heap

end ObjectMachine
