import Mathlib.Tactic
import ObjectMachine.Proofs.Heap.Aging

/-! Chains of contexts.

Contexts end if from every exception the contexts lead to one without context.  Giving an exception a
context keeps it so exactly if the exception is not on the chain of that context already; and in an
aged heap contexts end, since every step leads to an older exception. -/

namespace ObjectMachine

open Relation (ReflTransGen TransGen)

namespace Heap

variable {h : Heap} {v c d e r : Value}

/-- The value is an exception with the context `c`, which is nil if there is none. -/
def Context (h : Heap) (v c : Value) : Prop :=
  ∃ o, h.get? v = some o ∧ o.body.context? = some c

/-- From the exception the contexts lead to one without context. -/
inductive Grounded (h : Heap) : Value → Prop where
  | last {v c : Value} (hc : h.Context v c) (hnil : c.isNil = true) : Grounded h v
  | next {v c : Value} (hc : h.Context v c) (hrest : Grounded h c) : Grounded h v

/-- Every chain of contexts ends. -/
def ContextsEnd (h : Heap) : Prop := ∀ v c, h.Context v c → h.Grounded v

/-- Makes `earlier` the context of an exception. -/
def chain (h : Heap) (replacement earlier : Value) : Heap :=
  h.modify Facet.exception replacement fun e => { e with context := earlier }

theorem Context.unique (hc : h.Context v c) (hd : h.Context v d) : c = d := by
  obtain ⟨o, ho, hc⟩ := hc
  obtain ⟨p, hp, hd⟩ := hd
  obtain rfl := Option.some.inj (ho.symm.trans hp)
  exact Option.some.inj (hc.symm.trans hd)

theorem context_iff : h.Context v c ↔
    ∃ e, h.read Facet.exception v = .ok e ∧ e.context = c := by
  constructor
  · rintro ⟨o, ho, hc⟩
    obtain ⟨e, he, hc⟩ := Body.context?_eq_some_iff.mp hc
    exact ⟨e, read_eq_ok_iff.mpr ⟨o, ho, by rw [he]; rfl⟩, hc⟩
  · rintro ⟨e, he, hc⟩
    obtain ⟨o, ho, hb⟩ := read_eq_ok_iff.mp he
    exact ⟨o, ho, Body.context?_eq_some_iff.mpr ⟨e, (Facet.lawful_exception.put_eq hb).symm, hc⟩⟩

theorem Context.isNil_eq_false (hc : h.Context v c) : v.isNil = false := by
  obtain ⟨o, ho, -⟩ := hc
  have hr : v.isRef = true := (get?_eq_some_iff.mp ho).1
  by_contra hnil
  rw [Bool.not_eq_false, Value.isNil, beq_iff_eq] at hnil
  subst hnil
  exact absurd hr (by decide)

/-- Nil leads nowhere. -/
theorem eq_of_reaches_of_isNil (hpath : ReflTransGen h.Context v r) (hv : v.isNil = true) : v = r := by
  cases hpath.cases_head with
  | inl heq => exact heq
  | inr hstep =>
    obtain ⟨c, hc, -⟩ := hstep
    exact absurd hv (by simp [hc.isNil_eq_false])

/-- No exception on a loop is grounded. -/
theorem Grounded.not_loop (hv : h.Grounded v) : ¬ TransGen h.Context v v := by
  induction hv with
  | @last v c hc hnil =>
    intro hloop
    obtain ⟨d, hd, hback⟩ := TransGen.head'_iff.mp hloop
    rw [← hc.unique hd] at hback
    obtain rfl := eq_of_reaches_of_isNil hback hnil
    exact absurd hnil (by simp [hc.isNil_eq_false])
  | @next v c hc _ ih =>
    intro hloop
    obtain ⟨d, hd, hback⟩ := TransGen.head'_iff.mp hloop
    rw [← hc.unique hd] at hback
    exact ih (.tail' hback hc)

theorem not_context_fresh (settings : HeapSettings) : ¬ Context { settings := settings } v c := by
  rintro ⟨o, ho, -⟩
  simp [get?_eq_some_iff] at ho

/-- New exceptions have no context. -/
theorem context_insert (hs : h.Sound) (hfresh : ∀ v c, h.Context v c → c.isNil = true) (cls : Value)
    {body : Body} (hbody : ∀ e, body = .exception e → e.context.isNil = true)
    (hc : (h.insert cls body).Context v c) : c.isNil = true := by
  obtain ⟨o, ho, hc⟩ := hc
  rcases hs.get?_insert_cases cls body ho with ho | rfl
  · exact hfresh v c ⟨o, ho, hc⟩
  · obtain ⟨e, he, rfl⟩ := Body.context?_eq_some_iff.mp hc
    exact hbody e he

/-! ### Giving an exception a context -/

theorem context_chain_self (hr : h.Context r c) : (h.chain r e).Context r d ↔ d = e := by
  obtain ⟨o, ho, hc⟩ := hr
  obtain ⟨x, hx, -⟩ := Body.context?_eq_some_iff.mp hc
  have hget : (h.chain r e).get? r =
      some { o with body := .exception { x with context := e } } := by
    rw [chain, Heap.modify, get?_modifyObject_self, ho]
    simp only [Option.map_some, hx]
    rfl
  constructor
  · rintro ⟨p, hp, hd⟩
    obtain rfl := Option.some.inj (hget.symm.trans hp)
    exact (Option.some.inj hd).symm
  · rintro rfl
    exact ⟨_, hget, rfl⟩

theorem context_chain_of_ne (hne : v ≠ r) : (h.chain r e).Context v d ↔ h.Context v d := by
  unfold Context chain Heap.modify
  rw [get?_modifyObject_of_ne h hne]

/-- What was grounded still is, but for what the exception is on the chain of. -/
theorem Grounded.chain (hv : h.Grounded v)
    (hr : ReflTransGen h.Context v r → (h.chain r e).Grounded r) : (h.chain r e).Grounded v := by
  induction hv with
  | @last v c hc hnil =>
    by_cases hvr : v = r
    · subst hvr
      exact hr .refl
    · exact .last ((context_chain_of_ne hvr).mpr hc) hnil
  | @next v c hc _ ih =>
    by_cases hvr : v = r
    · subst hvr
      exact hr .refl
    · exact .next ((context_chain_of_ne hvr).mpr hc) (ih fun hpath => hr (.head hc hpath))

/-- A chain that led to the exception still does. -/
theorem reaches_chain (hpath : ReflTransGen h.Context v r) :
    ReflTransGen (h.chain r e).Context v r := by
  induction hpath using ReflTransGen.head_induction_on with
  | refl => exact .refl
  | @head v c hc _ ih =>
    by_cases hvr : v = r
    · exact hvr ▸ .refl
    · exact .head ((context_chain_of_ne hvr).mpr hc) ih

/-- An exception may get another one as its context exactly if it is not on the chain of that one. -/
theorem contextsEnd_chain_iff (hends : h.ContextsEnd) (hr : h.Context r c) (he : h.Context e d) :
    (h.chain r e).ContextsEnd ↔ ¬ ReflTransGen h.Context e r := by
  have hself : (h.chain r e).Context r e := (context_chain_self hr).mpr rfl
  constructor
  · intro hends' hloop
    exact (hends' r e hself).not_loop (.head' hself (reaches_chain hloop))
  · intro hloop
    have hgrounded : (h.chain r e).Grounded r :=
      .next hself ((hends e d he).chain fun hpath => absurd hpath hloop)
    intro v w hc
    by_cases hvr : v = r
    · exact hvr ▸ hgrounded
    · exact (hends v w ((context_chain_of_ne hvr).mp hc)).chain fun _ => hgrounded

/-! ### Aged heaps -/

theorem Aged.grounded (ha : h.Aged) : ∀ (n : Nat) (v : Value), h.Dates v n → h.Grounded v := by
  intro n
  induction n using Nat.strong_induction_on with
  | _ n ih =>
    rintro v ⟨o, ho, hsome, rfl⟩
    obtain ⟨c, hc⟩ := Option.isSome_iff_exists.mp hsome
    rcases ha.older v o c ho hc with hnil | ⟨k, hk, hlt⟩
    · exact .last ⟨o, ho, hc⟩ hnil
    · exact .next ⟨o, ho, hc⟩ (ih k hlt c hk)

theorem Aged.contextsEnd (ha : h.Aged) : h.ContextsEnd := by
  rintro v c ⟨o, ho, hc⟩
  exact ha.grounded o.serial v ⟨o, ho, by rw [hc]; rfl, rfl⟩

/-- A heap in which no exception has a context is aged. -/
theorem aged_of_no_context (hs : h.Sound) (hu : h.Unmarked)
    (hserial : ∀ v o, h.get? v = some o → o.serial < h.nextSerial)
    (hfresh : ∀ v c, h.Context v c → c.isNil = true) : h.Aged :=
  ⟨hs, hu, hserial, fun v o c ho hc => Or.inl (hfresh v c ⟨o, ho, hc⟩)⟩

end Heap

end ObjectMachine
