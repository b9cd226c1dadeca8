import Mathlib.Tactic
import ObjectMachine.Proofs.Heap.Aging
import ObjectMachine.Proofs.Typing.Shape

/-! Objects over time.

A reference that has led to an object leads to it still, or it is spent and leads nowhere ever again.
A later heap holds the objects of an earlier one as far as they are still there, with their classes,
their numbers and what never changes of their bodies, and beside them objects that were made
meanwhile, which have greater numbers.  What was written is said; everything else is as it was. -/

namespace ObjectMachine

variable {made : Body → Prop}

/-- A later state of an object: its class, its number and the outline of its body stay, everything stays
unless it was written, and a body of a certain make remains one. -/
structure Object.Follows (made : Body → Prop) (written : Prop) (o o' : Object) : Prop
    extends o.Likens o' where
  serial_eq : o'.serial = o.serial
  same : ¬ written → o' = o
  made : made o.body → made o'.body

namespace Object.Follows

variable {written written' : Prop} {o o' o'' : Object}

theorem refl (o : Object) : o.Follows made written o := ⟨.refl o, rfl, fun _ => rfl, id⟩

theorem trans (h : o.Follows made written o') (h' : o'.Follows made written' o'')
    (hw : written' → written) : o.Follows made written o'' :=
  ⟨h.toLikens.trans h'.toLikens, h'.serial_eq.trans h.serial_eq,
    fun hn => (h'.same (hn ∘ hw)).trans (h.same hn), h'.made ∘ h.made⟩

end Object.Follows

namespace Heap

variable {h h' h'' : Heap} {v w : Value} {o o' : Object} {roots : List Value}

/-! ### Spent references -/

/-- A reference that leads nowhere ever again: its slot has moved on, or was retired. -/
def Spent (h : Heap) (v : Value) : Prop :=
  ∃ g c, h.slots[v.slotIndex]? = some ⟨g, c⟩ ∧
    (v.slotGeneration < g ∨ g = v.slotGeneration ∧ c = none ∧ v.slotIndex ∉ h.free)

theorem Spent.get?_eq_none (hv : h.Spent v) : h.get? v = none := by
  obtain ⟨g, c, hslot, hcases⟩ := hv
  rw [Option.eq_none_iff_forall_not_mem]
  intro o ho
  have hsame := hslot.symm.trans (get?_eq_some_iff.mp ho).2
  simp only [Option.some.injEq, Slot.mk.injEq] at hsame
  rcases hcases with hlt | ⟨-, hc, -⟩
  · omega
  · rw [hc] at hsame
    cases hsame.2

/-- New objects take slots from the free list, or beyond all slots. -/
theorem Spent.insert (hs : h.Sound) (cls : Value) (body : Body) (hv : h.Spent v) :
    (h.insert cls body).Spent v := by
  obtain ⟨g, c, hslot, hcases⟩ := hv
  obtain ⟨i, g', hf⟩ := hs.exists_fills cls body
  by_cases hi : v.slotIndex = i
  · subst hi
    obtain ⟨rfl, -, hfree⟩ := hf.slot_before hslot
    have hlt : v.slotGeneration < g := hcases.resolve_right fun hn => hn.2.2 hfree
    exact ⟨g, _, (hf.slots_eq _).trans (if_pos rfl), Or.inl hlt⟩
  · refine ⟨g, c, ((hf.slots_eq _).trans (if_neg hi)).trans hslot, hcases.imp id fun hn =>
      ⟨hn.1, hn.2.1, fun hmem => hn.2.2 ((hf.mem_free hs _).mp hmem).1⟩⟩

theorem Spent.collect (roots : List Value) (hv : h.Spent v) : (h.collect roots).1.Spent v := by
  obtain ⟨g, c, hslot, hcases⟩ := hv
  rcases hcases with hlt | ⟨hg, rfl, hfree⟩
  · have hle := (generation_sweepSlot (h.markFrom roots).marks v.slotIndex ⟨g, c⟩).1
    have hswept := getElem?_collect h roots v.slotIndex
    rw [hslot, Option.map_some] at hswept
    exact ⟨_, _, hswept, Or.inl (hlt.trans_le hle)⟩
  · refine ⟨g, none, getElem?_collect_of_empty hslot, Or.inr ⟨hg, rfl, fun hmem => ?_⟩⟩
    rcases (mem_free_collect h roots _).mp hmem with hmem | ⟨_, _, hfull, -⟩
    · exact hfree hmem
    · rw [hslot] at hfull
      simp at hfull

theorem free_modifyObject (h : Heap) (v : Value) (f : Object → Object) :
    (h.modifyObject v f).free = h.free := by
  unfold Heap.modifyObject
  split <;> rfl

theorem Spent.modifyObject (w : Value) (f : Object → Object) (hv : h.Spent v) :
    (h.modifyObject w f).Spent v := by
  obtain ⟨g, c, hslot, hcases⟩ := hv
  rw [Spent, free_modifyObject]
  rcases getElem?_modifyObject h w f v.slotIndex with heq | ⟨p, hp, hi, heq⟩
  · exact ⟨g, c, heq.trans hslot, hcases⟩
  · have hsame := hslot.symm.trans (hi ▸ (get?_eq_some_iff.mp hp).2)
    simp only [Option.some.injEq, Slot.mk.injEq] at hsame
    rcases hcases with hlt | ⟨-, hc, -⟩
    · exact ⟨_, _, heq, Or.inl (hsame.1 ▸ hlt)⟩
    · rw [hc] at hsame
      cases hsame.2

/-- The reference of an object that is freed is spent. -/
theorem spent_of_freed (hs : h.Sound) (hu : h.Unmarked) (ho : h.get? v = some o)
    (hv : ¬ h.Reachable roots v) : (h.collect roots).1.Spent v := by
  obtain ⟨-, hslot⟩ := get?_eq_some_iff.mp ho
  have hgone : v.slotIndex ∉ h.reached roots := by
    rintro ⟨w, hw, hi⟩
    exact hv (eq_of_slotIndex_eq hw.isLive (isLive_of_get? ho) hi ▸ hw)
  have hslot' := getElem?_collect_of_not_reached hu hslot hgone
  by_cases hlt : v.slotGeneration < Value.maxGeneration
  · rw [if_pos hlt] at hslot'
    exact ⟨_, _, hslot', Or.inl (Nat.lt_succ_self _)⟩
  · rw [if_neg hlt] at hslot'
    refine ⟨_, _, hslot', Or.inr ⟨rfl, rfl, fun hmem => ?_⟩⟩
    rcases (mem_free_collect h roots _).mp hmem with hmem | ⟨g, p, hfull, -, hg⟩
    · obtain ⟨g, hempty⟩ := hs.free_empty _ hmem
      rw [hslot] at hempty
      simp at hempty
    · rw [hslot] at hfull
      simp only [Option.some.injEq, Slot.mk.injEq] at hfull
      exact hlt (hfull.1 ▸ hg)

/-! ### Numbered heaps -/

/-- A heap in order whose objects have the numbers given out so far. -/
structure Numbered (h : Heap) : Prop where
  sound : h.Sound
  unmarked : h.Unmarked
  serial_lt : ∀ {v o}, h.get? v = some o → o.serial < h.nextSerial

theorem Numbered.collect (hn : h.Numbered) (roots : List Value) : (h.collect roots).1.Numbered where
  sound := hn.sound.collect roots
  unmarked := unmarked_collect hn.unmarked roots
  serial_lt ho := hn.serial_lt ((get?_collect_eq_some_iff hn.unmarked).mp ho).1

theorem Numbered.insert (hn : h.Numbered) (cls : Value) (body : Body) :
    (h.insert cls body).Numbered where
  sound := hn.sound.insert cls body
  unmarked := hn.unmarked.insert hn.sound cls body
  serial_lt ho := by
    rw [nextSerial_insert]
    rcases hn.sound.get?_insert_cases cls body ho with ho | rfl
    · exact (hn.serial_lt ho).trans (Nat.lt_succ_self _)
    · exact Nat.lt_succ_self _

theorem Numbered.modifyObject (hn : h.Numbered) {f : Object → Object}
    (hf : ∀ o, h.get? v = some o → (f o).serial = o.serial ∧ (f o).flags = o.flags) :
    (h.modifyObject v f).Numbered where
  sound := hn.sound.modifyObject v f
  unmarked := hn.unmarked.modifyObject v fun o ho => by rw [(hf o ho).2]
  serial_lt {w p} hp := by
    rw [nextSerial_modifyObject]
    by_cases hw : w = v
    · subst hw
      rw [get?_modifyObject_self, Option.map_eq_some_iff] at hp
      obtain ⟨o, ho, rfl⟩ := hp
      exact (hf o ho).1 ▸ hn.serial_lt ho
    · rw [get?_modifyObject_of_ne h hw] at hp
      exact hn.serial_lt hp

/-! ### Later heaps -/

/-- A reference leads to no object that is older than a number. -/
def Young (h : Heap) (k : Nat) (v : Value) : Prop := ∀ o, h.get? v = some o → k ≤ o.serial

/-- A later heap.  The objects that are still there differ only if they were written, or have numbers
from `k` on; new objects have numbers from `k` on, and bodies of a certain make. -/
structure Later (k : Nat) (written : Set Value) (made : Body → Prop) (h h' : Heap) : Prop where
  numbered : h'.Numbered
  serial_le : h.nextSerial ≤ h'.nextSerial
  spent : ∀ {v}, h.Spent v → h'.Spent v
  objects : ∀ {v o}, h.get? v = some o →
    (∃ o', h'.get? v = some o' ∧ o.Follows made (v ∈ written ∨ k ≤ o.serial) o') ∨ h'.Spent v
  fresh : ∀ {v o'}, h'.get? v = some o' → (∃ o, h.get? v = some o) ∨ k ≤ o'.serial ∧ made o'.body

variable {k k' : Nat} {written written' : Set Value}

namespace Later

theorem refl (hn : h.Numbered) : h.Later k written made h :=
  ⟨hn, le_rfl, id, fun {_ o} ho => Or.inl ⟨o, ho, .refl o⟩, fun ho => Or.inl ⟨_, ho⟩⟩

/-- What was there and is there has become of itself. -/
theorem follows (hl : h.Later k written made h') (ho : h.get? v = some o) (ho' : h'.get? v = some o') :
    o.Follows made (v ∈ written ∨ k ≤ o.serial) o' := by
  rcases hl.objects ho with ⟨p, hp, hf⟩ | hs
  · exact Option.some.inj (hp.symm.trans ho') ▸ hf
  · rw [hs.get?_eq_none] at ho'
    cases ho'

theorem trans (hl : h.Later k written made h') (hl' : h'.Later k written made h'') :
    h.Later k written made h'' where
  numbered := hl'.numbered
  serial_le := hl.serial_le.trans hl'.serial_le
  spent hs := hl'.spent (hl.spent hs)
  objects {v o} ho := by
    rcases hl.objects ho with ⟨o', ho', hf⟩ | hs
    · refine (hl'.objects ho').imp (fun ⟨o'', ho'', hf'⟩ => ⟨o'', ho'', hf.trans hf' ?_⟩) id
      exact Or.imp id fun hk => hf.serial_eq ▸ hk
    · exact Or.inr (hl'.spent hs)
  fresh {v o''} ho'' := by
    rcases hl'.fresh ho'' with ⟨o', ho'⟩ | hnew
    · refine (hl.fresh ho').imp id fun ⟨hk, hmade⟩ => ?_
      have hf := hl'.follows ho' ho''
      exact ⟨hf.serial_eq ▸ hk, hf.made hmade⟩
    · exact Or.inr hnew

/-- Less may be said. -/
theorem forget (hl : h.Later k written made h') (hk : k' ≤ k) (hw : written ⊆ written') :
    h.Later k' written' (fun _ => True) h' where
  numbered := hl.numbered
  serial_le := hl.serial_le
  spent := hl.spent
  objects ho := (hl.objects ho).imp (fun ⟨o', ho', hf⟩ => ⟨o', ho', hf.toLikens, hf.serial_eq,
    fun hn => hf.same fun hd => hn (hd.imp (@hw _) hk.trans), fun _ => trivial⟩) id
  fresh ho := (hl.fresh ho).imp id fun ⟨hnew, _⟩ => ⟨hk.trans hnew, trivial⟩

theorem young (hl : h.Later k written made h') (hv : h.Young k v) : h'.Young k v := fun o' ho' => by
  rcases hl.fresh ho' with ⟨o, ho⟩ | ⟨hk, -⟩
  · exact (hl.follows ho ho').serial_eq ▸ hv o ho
  · exact hk

/-- An object that was not written is the same as long as it is there. -/
theorem get?_eq (hl : h.Later k written made h') (ho : h.get? v = some o) (hw : v ∉ written)
    (hk : o.serial < k) (hlive : h'.isLive v = true) : h'.get? v = some o := by
  obtain ⟨o', ho'⟩ := isLive_iff.mp hlive
  rw [ho', (hl.follows ho ho').same fun hd => hd.elim hw fun hle => absurd hk (not_lt.mpr hle)]

/-- So is what can be read of it. -/
theorem read_eq (hl : h.Later k written made h') {facet : Facet α} {x : α}
    (hx : h.read facet v = .ok x) (hw : v ∉ written) (hn : h.Numbered) (hk : h.nextSerial ≤ k)
    (hlive : h'.isLive v = true) : h'.read facet v = .ok x := by
  obtain ⟨o, ho, hb⟩ := read_eq_ok_iff.mp hx
  exact read_eq_ok_iff.mpr ⟨o, hl.get?_eq ho hw ((hn.serial_lt ho).trans_le hk) hlive, hb⟩

end Later

theorem later_collect (hn : h.Numbered) (roots : List Value) :
    h.Later k written made (h.collect roots).1 where
  numbered := hn.collect roots
  serial_le := le_rfl
  spent hs := hs.collect roots
  objects {v o} ho := by
    by_cases hv : h.Reachable roots v
    · exact Or.inl ⟨o, (get?_collect_eq_some_iff hn.unmarked).mpr ⟨ho, hv⟩, .refl o⟩
    · exact Or.inr (spent_of_freed hn.sound hn.unmarked ho hv)
  fresh ho := Or.inl ⟨_, ((get?_collect_eq_some_iff hn.unmarked).mp ho).1⟩

theorem later_insert (hn : h.Numbered) (hk : k ≤ h.nextSerial) (cls : Value) {body : Body}
    (hbody : made body) : h.Later k written made (h.insert cls body) where
  numbered := hn.insert cls body
  serial_le := by
    rw [nextSerial_insert]
    exact Nat.le_succ _
  spent hs := hs.insert hn.sound cls body
  objects {v o} ho := Or.inl ⟨o, hn.sound.get?_insert_of_some cls body ho, .refl o⟩
  fresh ho := (hn.sound.get?_insert_cases cls body ho).imp (fun ho => ⟨_, ho⟩) fun heq => by
    rw [heq]
    exact ⟨hk, hbody⟩

theorem later_modifyObject (hn : h.Numbered) {f : Object → Object} (hw : v ∈ written ∨ h.Young k v)
    (hf : ∀ o, h.get? v = some o → o.Likens (f o) ∧ (f o).serial = o.serial ∧
      (f o).flags = o.flags ∧ (made o.body → made (f o).body)) :
    h.Later k written made (h.modifyObject v f) where
  numbered := hn.modifyObject fun o ho => ⟨(hf o ho).2.1, (hf o ho).2.2.1⟩
  serial_le := (nextSerial_modifyObject h v f).ge
  spent hs := hs.modifyObject v f
  objects {u o} ho := by
    by_cases hu : u = v
    · subst hu
      obtain ⟨hlike, hserial, -, hmade⟩ := hf o ho
      refine Or.inl ⟨f o, by rw [get?_modifyObject_self, ho]; rfl, hlike, hserial, fun hnot => ?_, hmade⟩
      exact absurd (hw.imp id fun hyoung => hyoung o ho) hnot
    · exact Or.inl ⟨o, (get?_modifyObject_of_ne h hu f).trans ho, .refl o⟩
  fresh {u p} hp := by
    by_cases hu : u = v
    · subst hu
      rw [get?_modifyObject_self, Option.map_eq_some_iff] at hp
      obtain ⟨o, ho, -⟩ := hp
      exact Or.inl ⟨o, ho⟩
    · exact Or.inl ⟨p, (get?_modifyObject_of_ne h hu f).symm.trans hp⟩

/-- The reference of a new object leads to a young one. -/
theorem young_nextReference (hn : h.Numbered) (hk : k ≤ h.nextSerial) (cls : Value) (body : Body)
    (hroom : (h.insert cls body).slots.size ≤ 2 ^ 32) :
    (h.insert cls body).Young k h.nextReference := fun o ho => by
  have hnew := (hn.sound.get?_insert cls body hroom h.nextReference).trans (if_pos rfl)
  obtain rfl := Option.some.inj (hnew.symm.trans ho)
  exact hk

end Heap

end ObjectMachine
