import Mathlib.Tactic
import ObjectMachine.Proofs.Machine.Closed

/-! The age of exceptions.

Objects are numbered as they are made, so the number of an object tells its age.  A heap is aged if
the context of an exception is always an older exception.  Collecting, storing and changing other
data keep a heap aged, and so does making an older exception the context of a younger one. -/

namespace ObjectMachine

/-- The context of an exception. -/
def Body.context? : Body → Option Value
  | .exception e => some e.context
  | _ => none

theorem Body.context?_eq_some_iff {b : Body} {c : Value} :
    b.context? = some c ↔ ∃ e, b = .exception e ∧ e.context = c := by
  cases b <;> simp [context?]

theorem Object.mem_edges_of_context {o : Object} {c : Value} (h : o.body.context? = some c) :
    c ∈ o.edges := by
  obtain ⟨e, he, rfl⟩ := Body.context?_eq_some_iff.mp h
  simp [edges, he, Body.edges]

namespace Heap

variable {h h' : Heap} {v w : Value} {o : Object} {n : Nat}

/-- The value is the exception with a number. -/
def Dates (h : Heap) (v : Value) (n : Nat) : Prop :=
  ∃ o, h.get? v = some o ∧ o.body.context?.isSome = true ∧ o.serial = n

theorem dates_iff : h.Dates v n ↔ ∃ o e, h.get? v = some o ∧ o.body = .exception e ∧ o.serial = n := by
  constructor
  · rintro ⟨o, ho, hc, hn⟩
    obtain ⟨c, hc⟩ := Option.isSome_iff_exists.mp hc
    obtain ⟨e, he, -⟩ := Body.context?_eq_some_iff.mp hc
    exact ⟨o, e, ho, he, hn⟩
  · rintro ⟨o, e, ho, he, hn⟩
    exact ⟨o, ho, by rw [Body.context?_eq_some_iff.mpr ⟨e, he, rfl⟩]; rfl, hn⟩

theorem exists_dates {e : ExceptionBody} (he : h.read Facet.exception v = .ok e) : ∃ n, h.Dates v n := by
  obtain ⟨o, ho, hb⟩ := read_eq_ok_iff.mp he
  exact ⟨o.serial, dates_iff.mpr ⟨o, e, ho, (Facet.lawful_exception.put_eq hb).symm, rfl⟩⟩

/-- A heap in order, in which the context of an exception is an older exception. -/
structure Aged (h : Heap) : Prop where
  sound : h.Sound
  unmarked : h.Unmarked
  serial_lt : ∀ v o, h.get? v = some o → o.serial < h.nextSerial
  older : ∀ v o c, h.get? v = some o → o.body.context? = some c →
    c.isNil = true ∨ ∃ k, h.Dates c k ∧ k < o.serial

theorem Aged.lt (ha : h.Aged) (hn : h.Dates v n) : n < h.nextSerial := by
  obtain ⟨o, ho, -, rfl⟩ := hn
  exact ha.serial_lt v o ho

/-- A heap in which every object is as it was, or has a context that is all right, provided the
contexts are there still. -/
theorem Aged.step (ha : h.Aged) (hsound : h'.Sound) (hunmarked : h'.Unmarked)
    (hserial : h.nextSerial ≤ h'.nextSerial)
    (hobject : ∀ v o', h'.get? v = some o' →
      (∃ o, h.get? v = some o ∧ o'.serial = o.serial ∧ o'.body.context? = o.body.context?) ∨
      o'.serial < h'.nextSerial ∧ ∀ c, o'.body.context? = some c →
        c.isNil = true ∨ ∃ k, h'.Dates c k ∧ k < o'.serial)
    (hcontext : ∀ v o' c n, h'.get? v = some o' → o'.body.context? = some c → h.Dates c n →
      h'.Dates c n) : h'.Aged where
  sound := hsound
  unmarked := hunmarked
  serial_lt v o' ho' := by
    rcases hobject v o' ho' with ⟨o, ho, hs, -⟩ | ⟨hs, -⟩
    · exact hs ▸ (ha.serial_lt v o ho).trans_le hserial
    · exact hs
  older v o' c ho' hc := by
    rcases hobject v o' ho' with ⟨o, ho, hs, hsame⟩ | ⟨-, hright⟩
    · refine (ha.older v o c ho (hsame ▸ hc)).imp_right ?_
      rintro ⟨k, hk, hlt⟩
      exact ⟨k, hcontext v o' c k ho' hc hk, hs ▸ hlt⟩
    · exact hright c hc

/-! ### Collecting -/

theorem Dates.collect (hu : h.Unmarked) {roots : List Value} (hn : h.Dates v n)
    (hv : h.Reachable roots v) : (h.collect roots).1.Dates v n := by
  obtain ⟨o, ho, hrest⟩ := hn
  exact ⟨o, (get?_collect_eq_some_iff hu).mpr ⟨ho, hv⟩, hrest⟩

theorem Aged.collect (ha : h.Aged) (roots : List Value) : (h.collect roots).1.Aged := by
  refine ha.step (ha.sound.collect roots) (unmarked_collect ha.unmarked roots) le_rfl
    (fun v o ho => ?_) fun v o c n ho hc hn => ?_
  · exact Or.inl ⟨o, ((get?_collect_eq_some_iff ha.unmarked).mp ho).1, rfl, rfl⟩
  · obtain ⟨ho, hv⟩ := (get?_collect_eq_some_iff ha.unmarked).mp ho
    obtain ⟨p, hp, -⟩ := id hn
    exact hn.collect ha.unmarked (.edge hv ho (Object.mem_edges_of_context hc) (isLive_of_get? hp))

/-! ### Storing -/

theorem Dates.insert (hs : h.Sound) (cls : Value) (body : Body) (hn : h.Dates v n) :
    (h.insert cls body).Dates v n := by
  obtain ⟨o, ho, hrest⟩ := hn
  exact ⟨o, hs.get?_insert_of_some cls body ho, hrest⟩

theorem Aged.insert (ha : h.Aged) (cls : Value) {body : Body}
    (hbody : ∀ e, body = .exception e → e.context.isNil = true) : (h.insert cls body).Aged := by
  refine ha.step (ha.sound.insert cls body) (ha.unmarked.insert ha.sound cls body)
    (by rw [nextSerial_insert]; exact Nat.le_succ _) (fun v o ho => ?_)
    fun _ _ _ _ _ _ hn => hn.insert ha.sound cls body
  rcases ha.sound.get?_insert_cases cls body ho with ho | rfl
  · exact Or.inl ⟨o, ho, rfl, rfl⟩
  · refine Or.inr ⟨by rw [nextSerial_insert]; exact Nat.lt_succ_self _, fun c hc => ?_⟩
    obtain ⟨e, he, rfl⟩ := Body.context?_eq_some_iff.mp hc
    exact Or.inl (hbody e he)

/-- A new exception is the youngest. -/
theorem dates_nextReference (hs : h.Sound) (cls : Value) (e : ExceptionBody)
    (hroom : (h.insert cls (.exception e)).slots.size ≤ 2 ^ 32) :
    (h.insert cls (.exception e)).Dates h.nextReference h.nextSerial :=
  dates_iff.mpr ⟨_, e, (hs.get?_insert cls _ hroom _).trans (if_pos rfl), rfl, rfl⟩

/-! ### Changing -/

theorem Dates.modifyObject {f : Object → Object} (hn : h.Dates w n)
    (hf : ∀ o, h.get? v = some o →
      (f o).serial = o.serial ∧ (f o).body.context?.isSome = o.body.context?.isSome) :
    (h.modifyObject v f).Dates w n := by
  obtain ⟨o, ho, hc, hn⟩ := hn
  by_cases hw : w = v
  · subst hw
    obtain ⟨hserial, hsome⟩ := hf o ho
    exact ⟨f o, by rw [get?_modifyObject_self, ho]; rfl, hsome.trans hc, hserial.trans hn⟩
  · exact ⟨o, (get?_modifyObject_of_ne h hw f).trans ho, hc, hn⟩

theorem nextSerial_modifyObject (h : Heap) (v : Value) (f : Object → Object) :
    (h.modifyObject v f).nextSerial = h.nextSerial := by
  unfold Heap.modifyObject
  split <;> rfl

/-- Changing anything but the context. -/
theorem Aged.modifyObject (ha : h.Aged) {f : Object → Object}
    (hf : ∀ o, h.get? v = some o → (f o).serial = o.serial ∧ (f o).flags = o.flags ∧
      (f o).body.context? = o.body.context?) : (h.modifyObject v f).Aged := by
  refine ha.step (ha.sound.modifyObject v f)
    (ha.unmarked.modifyObject v fun o ho => by rw [(hf o ho).2.1])
    (nextSerial_modifyObject h v f).ge (fun w p hp => Or.inl ?_)
    fun _ _ _ _ _ _ hn => hn.modifyObject fun o ho => ⟨(hf o ho).1, by rw [(hf o ho).2.2]⟩
  by_cases hw : w = v
  · subst hw
    rw [get?_modifyObject_self, Option.map_eq_some_iff] at hp
    obtain ⟨o, ho, rfl⟩ := hp
    exact ⟨o, ho, (hf o ho).1, (hf o ho).2.2⟩
  · rw [get?_modifyObject_of_ne h hw] at hp
    exact ⟨p, hp, rfl, rfl⟩

theorem Dates.modify {facet : Facet α} {g : α → α} (hn : h.Dates w n)
    (hg : ∀ b x, facet.get? b = some x → (facet.put (g x)).context?.isSome = b.context?.isSome) :
    (h.modify facet v g).Dates w n := by
  refine hn.modifyObject fun o _ => ⟨rfl, ?_⟩
  dsimp only
  cases hx : facet.get? o.body with
  | none => rfl
  | some x => exact hg o.body x hx

theorem Aged.modify (ha : h.Aged) {facet : Facet α} {g : α → α}
    (hg : ∀ b x, facet.get? b = some x → (facet.put (g x)).context? = b.context?) (v : Value) :
    (h.modify facet v g).Aged := by
  refine ha.modifyObject fun o _ => ⟨rfl, rfl, ?_⟩
  dsimp only
  cases hx : facet.get? o.body with
  | none => rfl
  | some x => exact hg o.body x hx

/-- Whatever is written to an exception, it remains one. -/
theorem Dates.modify_exception (hn : h.Dates w n) (g : ExceptionBody → ExceptionBody) :
    (h.modify Facet.exception v g).Dates w n :=
  hn.modify fun _ _ hx => by
    rw [← Facet.lawful_exception.put_eq hx]
    rfl

/-- An older exception may become the context of a younger one. -/
theorem Aged.chain (ha : h.Aged) {k : Nat} (hv : h.Dates v n) (hw : h.Dates w k) (hlt : k < n) :
    (h.modify Facet.exception v fun e => { e with context := w }).Aged := by
  obtain ⟨o, e, ho, he, rfl⟩ := dates_iff.mp hv
  refine ha.step (ha.sound.modifyObject v _) (ha.unmarked.modifyObject v fun _ _ => rfl)
    (nextSerial_modifyObject h v _).ge (fun u p hp => ?_)
    fun _ _ _ _ _ _ hn => hn.modify_exception _
  by_cases hu : u = v
  · subst hu
    rw [Heap.modify, get?_modifyObject_self, ho, Option.map_some, Option.some.injEq] at hp
    subst hp
    refine Or.inr ⟨?_, fun c hc => Or.inr ?_⟩
    · exact (ha.serial_lt u o ho).trans_le (nextSerial_modifyObject h u _).ge
    · simp only [he, Facet.exception, Body.context?, Option.some.injEq] at hc
      subst hc
      exact ⟨k, hw.modify_exception _, hlt⟩
  · rw [Heap.modify, get?_modifyObject_of_ne h hu] at hp
    exact Or.inl ⟨p, hp, rfl, rfl⟩

end Heap

end ObjectMachine
