import Mathlib.Tactic
import ObjectMachine.Proofs.Heap.Contexts

/-! Exceptions whose contexts are live.

In a linked heap the context of an exception is nil or again a live exception, so the whole chain of a
live exception is live.  The context is one of the edges that the collector follows, so collecting
keeps a heap linked, as do storing new exceptions without context, changing other data and making a
live exception a context.  Nothing is said here of the age of a context: a chain may lead back. -/

namespace ObjectMachine.Heap

open Relation (ReflTransGen)

variable {h h' h'' : Heap} {v w c : Value}

/-- The value is a live exception. -/
def IsException (h : Heap) (v : Value) : Prop := ∃ c, h.Context v c

theorem isException_iff : h.IsException v ↔ ∃ o, h.get? v = some o ∧ o.kind = .exception := by
  constructor
  · rintro ⟨c, o, ho, hc⟩
    obtain ⟨e, he, -⟩ := Body.context?_eq_some_iff.mp hc
    exact ⟨o, ho, by rw [Object.kind, he]; rfl⟩
  · rintro ⟨o, ho, hkind⟩
    obtain ⟨e, he⟩ := Facet.lawful_exception.exists_get? hkind
    exact ⟨e.context, o, ho, Body.context?_eq_some_iff.mpr ⟨e, (Facet.lawful_exception.put_eq he).symm, rfl⟩⟩

/-- The object of a reference is still there, changed or not. -/
def Retains (h h' : Heap) (v : Value) : Prop :=
  ∀ o, h.get? v = some o → ∃ o', h'.get? v = some o' ∧ o'.serial = o.serial ∧ o'.kind = o.kind

theorem Retains.refl (h : Heap) (v : Value) : h.Retains h v := fun o ho => ⟨o, ho, rfl, rfl⟩

theorem Retains.trans (hv : h.Retains h' v) (hv' : h'.Retains h'' v) : h.Retains h'' v := by
  intro o ho
  obtain ⟨o', ho', hserial, hkind⟩ := hv o ho
  obtain ⟨o'', ho'', hserial', hkind'⟩ := hv' o' ho'
  exact ⟨o'', ho'', hserial'.trans hserial, hkind'.trans hkind⟩

theorem Retains.isException (hv : h.Retains h' v) (he : h.IsException v) : h'.IsException v := by
  obtain ⟨o, ho, hkind⟩ := isException_iff.mp he
  obtain ⟨o', ho', -, hkind'⟩ := hv o ho
  exact isException_iff.mpr ⟨o', ho', hkind'.trans hkind⟩

theorem Retains.resolves (hv : h.Retains h' v) (hr : h.Resolves v) : h'.Resolves v := by
  intro href
  obtain ⟨o, ho⟩ := isLive_iff.mp (hr href)
  obtain ⟨o', ho', -⟩ := hv o ho
  exact isLive_of_get? ho'

/-- A heap in order, in which the context of an exception is nil or again a live exception. -/
structure Linked (h : Heap) : Prop where
  sound : h.Sound
  unmarked : h.Unmarked
  context : ∀ v c, h.Context v c → c.isNil = true ∨ h.IsException c

/-- The whole chain of a live exception is live. -/
theorem Linked.chain_live (hl : h.Linked) (he : h.IsException v) (hpath : ReflTransGen h.Context v w) :
    w.isNil = true ∨ h.IsException w := by
  induction hpath with
  | refl => exact Or.inr he
  | tail _ hc _ => exact hl.context _ _ hc

/-- A heap in which every context was one before, and is there still, or is all right. -/
theorem Linked.step (hl : h.Linked) (hsound : h'.Sound) (hunmarked : h'.Unmarked)
    (hcontext : ∀ v c, h'.Context v c →
      (h.Context v c ∧ (h.IsException c → h'.IsException c)) ∨ c.isNil = true ∨ h'.IsException c) :
    h'.Linked where
  sound := hsound
  unmarked := hunmarked
  context v c hc := by
    rcases hcontext v c hc with ⟨hold, hkept⟩ | hright
    · exact (hl.context v c hold).imp_right hkept
    · exact hright

/-! ### Collecting -/

theorem retains_collect (hu : h.Unmarked) {roots : List Value} (hv : h.isLive v = true → h.Reachable roots v) :
    h.Retains (h.collect roots).1 v :=
  fun o ho => ⟨o, (get?_collect_eq_some_iff hu).mpr ⟨ho, hv (isLive_of_get? ho)⟩, rfl, rfl⟩

theorem Linked.collect (hl : h.Linked) (roots : List Value) : (h.collect roots).1.Linked := by
  refine hl.step (hl.sound.collect roots) (unmarked_collect hl.unmarked roots) fun v c hc => ?_
  obtain ⟨o, ho, hc⟩ := hc
  obtain ⟨ho, hv⟩ := (get?_collect_eq_some_iff hl.unmarked).mp ho
  -- the context of a survivor is an edge of a reachable object
  have hreach : h.isLive c = true → h.Reachable roots c := .edge hv ho (Object.mem_edges_of_context hc)
  exact Or.inl ⟨⟨o, ho, hc⟩, (retains_collect hl.unmarked hreach).isException⟩

/-! ### Storing -/

theorem Sound.retains_insert (hs : h.Sound) (cls : Value) (body : Body) (v : Value) :
    h.Retains (h.insert cls body) v :=
  fun o ho => ⟨o, hs.get?_insert_of_some cls body ho, rfl, rfl⟩

theorem Linked.insert (hl : h.Linked) (cls : Value) {body : Body}
    (hbody : ∀ e, body = .exception e → e.context.isNil = true) : (h.insert cls body).Linked := by
  refine hl.step (hl.sound.insert cls body) (hl.unmarked.insert hl.sound cls body) fun v c hc => ?_
  obtain ⟨o, ho, hc⟩ := hc
  rcases hl.sound.get?_insert_cases cls body ho with ho | rfl
  · exact Or.inl ⟨⟨o, ho, hc⟩, (hl.sound.retains_insert cls body c).isException⟩
  · obtain ⟨e, he, rfl⟩ := Body.context?_eq_some_iff.mp hc
    exact Or.inr (Or.inl (hbody e he))

/-! ### Changing -/

theorem retains_modifyObject {f : Object → Object}
    (hf : ∀ o, h.get? w = some o → (f o).serial = o.serial ∧ (f o).kind = o.kind) (v : Value) :
    h.Retains (h.modifyObject w f) v := by
  intro o ho
  by_cases hv : v = w
  · subst hv
    exact ⟨f o, by rw [get?_modifyObject_self, ho]; rfl, hf o ho⟩
  · exact ⟨o, (get?_modifyObject_of_ne h hv f).trans ho, rfl, rfl⟩

theorem retains_modify {facet : Facet α} (hfacet : facet.Lawful) (g : α → α) (v : Value) :
    h.Retains (h.modify facet w g) v := by
  refine retains_modifyObject ?_ v
  intro o _
  refine ⟨rfl, ?_⟩
  unfold Object.kind
  dsimp only
  cases hx : facet.get? o.body with
  | none => rfl
  | some x => rw [hfacet.kind_put, ← hfacet.kind_put x, hfacet.put_eq hx]

/-- The only contexts that change are those of the object written to. -/
theorem Linked.modify (hl : h.Linked) {facet : Facet α} (hfacet : facet.Lawful) {g : α → α}
    (hg : ∀ x c, (facet.put (g x)).context? = some c →
      (facet.put x).context? = some c ∨ c.isNil = true ∨ h.IsException c) (w : Value) :
    (h.modify facet w g).Linked := by
  have hkept : ∀ c, h.IsException c → (h.modify facet w g).IsException c := fun c hc =>
    (retains_modify hfacet g c).isException hc
  refine hl.step (hl.sound.modifyObject w _) (hl.unmarked.modifyObject w fun _ _ => rfl) fun v c hc => ?_
  obtain ⟨o', ho', hc⟩ := hc
  by_cases hv : v = w
  · subst hv
    rw [Heap.modify, get?_modifyObject_self, Option.map_eq_some_iff] at ho'
    obtain ⟨o, ho, rfl⟩ := ho'
    dsimp only at hc
    cases hx : facet.get? o.body with
    | none =>
      rw [hx] at hc
      exact Or.inl ⟨⟨o, ho, hc⟩, hkept c⟩
    | some x =>
      rw [hx] at hc
      rcases hg x c hc with hold | hnil | hexc
      · rw [hfacet.put_eq hx] at hold
        exact Or.inl ⟨⟨o, ho, hold⟩, hkept c⟩
      · exact Or.inr (Or.inl hnil)
      · exact Or.inr (Or.inr (hkept c hexc))
  · rw [Heap.modify, get?_modifyObject_of_ne h hv] at ho'
    exact Or.inl ⟨⟨o', ho', hc⟩, hkept c⟩

/-- A live exception may become a context. -/
theorem Linked.chain (hl : h.Linked) (hw : h.IsException w) (v : Value) : (h.chain v w).Linked := by
  refine hl.modify Facet.lawful_exception (fun e c hc => Or.inr (Or.inr ?_)) v
  obtain rfl : w = c := Option.some.inj hc
  exact hw

end ObjectMachine.Heap
