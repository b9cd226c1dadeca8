import Mathlib.Tactic
import ObjectMachine.Proofs.Naming.Commands
import ObjectMachine.Proofs.Typing.Dispatch

/-! The ledger of names.

A ledger lists, in the order of time, which name was given which meaning in which object.  A machine
records a ledger for objects of certain kinds if each of them has exactly the names bound that the
ledger has entries for, each to the latest meaning.  The attributes of plain objects and exceptions are
recorded in this way, and so are the methods of classes; every command carries both ledgers on. -/

namespace ObjectMachine

open Machine

/-! ### Ledgers -/

/-- A name was given a meaning in an object. -/
structure Naming (β : Type) where
  holder : Value
  name : String
  meaning : β

namespace Naming

variable {β : Type} {log log' : List (Naming β)} {v : Value} {name : String} {x : β}

/-- The meaning that a name was given in an object last. -/
def latest? (log : List (Naming β)) (v : Value) (name : String) : Option β :=
  log.reverse.findSome? fun e => if e.holder = v ∧ e.name = name then some e.meaning else none

theorem latest?_append (log log' : List (Naming β)) (v : Value) (name : String) :
    latest? (log ++ log') v name = (latest? log' v name).or (latest? log v name) := by
  rw [latest?, List.reverse_append, List.findSome?_append]
  rfl

theorem latest?_singleton (e : Naming β) (v : Value) (name : String) :
    latest? [e] v name = if e.holder = v ∧ e.name = name then some e.meaning else none := by
  rw [latest?, List.reverse_singleton, List.findSome?_singleton]

theorem exists_of_latest (h : latest? log v name = some x) : ∃ e ∈ log, e.holder = v := by
  obtain ⟨e, he, hx⟩ := List.exists_of_findSome?_eq_some h
  by_cases heq : e.holder = v ∧ e.name = name
  · exact ⟨e, List.mem_reverse.mp he, heq.1⟩
  · rw [if_neg heq] at hx
    cases hx

theorem latest?_eq_none (h : ∀ e ∈ log, e.holder ≠ v) : latest? log v name = none := by
  rw [Option.eq_none_iff_forall_ne_some]
  intro x hx
  obtain ⟨e, he, rfl⟩ := exists_of_latest hx
  exact h e he rfl

end Naming

namespace Machine

open Naming

variable {β : Type} {m m' : Machine} {new : Value → Value → Option Value} {kinds : List ObjectKind}
  {reads : Heap → Value → β → Prop} {log log' : List (Naming β)} {v : Value} {o : Object} {name : String}
  {i : Nat}

/-- The objects of some kinds have those names bound that a ledger has entries for, to values that are
read as the latest meanings. -/
structure Records (kinds : List ObjectKind) (reads : Heap → Value → β → Prop) (log : List (Naming β))
    (m : Machine) : Prop where
  entered : ∀ e ∈ log, e.holder.isRef = true → m.heap.isLive e.holder = true ∨ m.heap.Spent e.holder
  found : ∀ {v o}, m.heap.get? v = some o → o.kind ∈ kinds → ∀ {name b}, latest? log v name = some b →
    ∃ (i : Nat) (x : Value), m.symbols.names[i]? = some name ∧
      m.heap.binding? v (.ofSymbol i) = some x ∧ reads m.heap x b
  bound : ∀ {v o}, m.heap.get? v = some o → o.kind ∈ kinds → ∀ {key x}, m.heap.binding? v key = some x →
    ∃ (i : Nat) (name : String) (b : β), key = .ofSymbol i ∧ m.symbols.names[i]? = some name ∧
      latest? log v name = some b

/-- What is read of a value stays true as long as the value is there. -/
def Lasting (reads : Heap → Value → β → Prop) : Prop :=
  ∀ {h h' : Heap} {x : Value} {b : β}, h.Later h.nextSerial Set.univ (fun _ => True) h' →
    h'.Resolves x → reads h x b → reads h' x b

/-- The number of a name is small enough to be a symbol. -/
theorem Settled.index_lt (hm : m.Settled) (hroom : m.HasRoom) (hi : m.symbols.names[i]? = some name) :
    i < 2 ^ 32 :=
  ((Array.getElem?_eq_some_iff.mp hi).1.trans_le hm.discreet.size_names_le).trans_le hroom

theorem Binds.isLive_or_spent (h : m.Binds new m') (hlive : m.heap.isLive v = true) :
    m'.heap.isLive v = true ∨ m'.heap.Spent v := by
  obtain ⟨o, ho⟩ := Heap.isLive_iff.mp hlive
  exact (h.later.objects ho).imp (fun ⟨_, ho', _⟩ => Heap.isLive_of_get? ho') id

/-- What a value that is there was before, and what of it a ledger says. -/
theorem Binds.kind_eq (h : m.Binds new m') {o' : Object} (ho : m.heap.get? v = some o)
    (ho' : m'.heap.get? v = some o') : o'.kind = o.kind :=
  (h.later.follows ho ho').kind_eq

namespace Records

/-- Nothing is bound and nothing is entered. -/
theorem nil (h : ∀ v key, m.heap.binding? v key = none) : Records kinds reads [] m where
  entered := nofun
  found _ _ _ _ hb := by cases hb
  bound _ _ _ _ hx := by
    rw [h] at hx
    cases hx

/-- Of an object that was not there the ledger says nothing. -/
theorem latest?_eq_none (hr : Records kinds reads log m) (h : m.Binds new m') {o' : Object}
    (ho : m.heap.get? v = none) (ho' : m'.heap.get? v = some o') (name : String) :
    latest? log v name = none := by
  refine Naming.latest?_eq_none fun e he hv => ?_
  subst hv
  rcases hr.entered e he (Heap.get?_eq_some_iff.mp ho').1 with hlive | hspent
  · rw [Heap.isLive_iff] at hlive
    obtain ⟨o, ho⟩ := hlive
    simp_all
  · rw [(h.later.spent hspent).get?_eq_none] at ho'
    cases ho'

/-- A binding that the ledger tells of is still there, if nothing new comes before it. -/
theorem found_later (hr : Records kinds reads log m) (hreads : Lasting reads) (h : m.Binds new m')
    {o' : Object} (ho' : m'.heap.get? v = some o') (hkind : o'.kind ∈ kinds) {b : β}
    (hb : latest? log v name = some b) (hnew : ∀ i : Nat, m'.symbols.names[i]? = some name →
      new v (.ofSymbol i) = none) :
    ∃ (i : Nat) (x : Value), m'.symbols.names[i]? = some name ∧
      m'.heap.binding? v (.ofSymbol i) = some x ∧ reads m'.heap x b := by
  cases ho : m.heap.get? v with
  | none =>
    rw [hr.latest?_eq_none h ho ho'] at hb
    cases hb
  | some o =>
    obtain ⟨i, x, hi, hx, hread⟩ := hr.found ho (h.kind_eq ho ho' ▸ hkind) hb
    have hx' : m'.heap.binding? v (.ofSymbol i) = some x := by
      rw [h.bindings (Heap.isLive_of_get? ho'), hnew i (h.names hi), hx]
      rfl
    exact ⟨i, x, h.names hi, hx', hreads h.later
      (h.settled.neat.resolves_binding h.settled.whole hx') hread⟩

/-- A binding that was there is in the ledger. -/
theorem bound_before (hr : Records kinds reads log m) (h : m.Binds new m') {o' : Object}
    (ho' : m'.heap.get? v = some o') (hkind : o'.kind ∈ kinds) {key x : Value}
    (hx : m.heap.binding? v key = some x) : ∃ (i : Nat) (name : String) (b : β),
      key = .ofSymbol i ∧ m'.symbols.names[i]? = some name ∧ latest? log v name = some b := by
  cases ho : m.heap.get? v with
  | none =>
    rw [Heap.binding?_of_not_live ho] at hx
    cases hx
  | some o =>
    obtain ⟨i, name, b, rfl, hi, hb⟩ := hr.bound ho (h.kind_eq ho ho' ▸ hkind) hx
    exact ⟨i, name, b, rfl, h.names hi, hb⟩

end Records

/-- What is new is what is entered: nothing in an object, or one name. -/
def Logs (kinds : List ObjectKind) (reads : Heap → Value → β → Prop) (log : List (Naming β))
    (new : Value → Value → Option Value) (m' : Machine) : Prop :=
  ∀ (v : Value) (o : Object), m'.heap.get? v = some o → o.kind ∈ kinds →
    ((∀ e ∈ log, e.holder ≠ v) ∧ ∀ key, new v key = none) ∨
      ∃ (i : Nat) (x : Value) (name : String) (b : β), log = [⟨v, name, b⟩] ∧
        m'.symbols.names[i]? = some name ∧ reads m'.heap x b ∧
        ∀ key, new v key = if key = .ofSymbol i then some x else none

/-- A step carries the ledger on. -/
theorem Records.step (hr : Records kinds reads log m) (hreads : Lasting reads) (h : m.Binds new m')
    (hroom : m'.HasRoom) (hlog : ∀ e ∈ log', m.heap.Resolves e.holder)
    (hlogs : Logs kinds reads log' new m') : Records kinds reads (log ++ log') m' := by
  refine ⟨fun e he href => ?_, fun {v o'} ho' hkind {name b} hb => ?_,
    fun {v o'} ho' hkind {key x} hx => ?_⟩
  · rcases List.mem_append.mp he with he | he
    · rcases hr.entered e he href with hlive | hspent
      · exact h.isLive_or_spent hlive
      · exact Or.inr (h.later.spent hspent)
    · exact h.isLive_or_spent (hlog e he href)
  · rw [latest?_append] at hb
    rcases hlogs _ _ ho' hkind with ⟨hothers, hquiet⟩ | ⟨i, y, given, c, rfl, hi, hy, hnew⟩
    · rw [Naming.latest?_eq_none hothers, Option.none_or] at hb
      exact hr.found_later hreads h ho' hkind hb fun i _ => hquiet _
    · rw [latest?_singleton] at hb
      by_cases hname : given = name
      · subst hname
        rw [if_pos ⟨rfl, rfl⟩] at hb
        obtain rfl := Option.some.inj hb
        refine ⟨i, y, hi, ?_, hy⟩
        rw [h.bindings (Heap.isLive_of_get? ho'), hnew, if_pos rfl]
        rfl
      · rw [if_neg fun heq => hname heq.2, Option.none_or] at hb
        refine hr.found_later hreads h ho' hkind hb fun j hj => ?_
        rw [hnew, if_neg fun heq => hname ?_]
        obtain rfl := Value.ofSymbol_inj (h.settled.index_lt hroom hj) (h.settled.index_lt hroom hi) heq
        exact Option.some.inj (hi.symm.trans hj)
  · rw [h.bindings (Heap.isLive_of_get? ho')] at hx
    rcases hlogs _ _ ho' hkind with ⟨hothers, hquiet⟩ | ⟨i, y, given, c, rfl, hi, -, hnew⟩
    · rw [hquiet, Option.none_or] at hx
      obtain ⟨i, name, b, rfl, hi, hb⟩ := hr.bound_before h ho' hkind hx
      refine ⟨i, name, b, rfl, hi, ?_⟩
      rw [latest?_append, Naming.latest?_eq_none hothers, hb]
      rfl
    · rw [hnew] at hx
      by_cases hkey : key = .ofSymbol i
      · refine ⟨i, given, c, hkey, hi, ?_⟩
        rw [latest?_append, latest?_singleton, if_pos ⟨rfl, rfl⟩]
        rfl
      · rw [if_neg hkey, Option.none_or] at hx
        obtain ⟨j, name, b, rfl, hj, hb⟩ := hr.bound_before h ho' hkind hx
        refine ⟨j, name, b, rfl, hj, ?_⟩
        rw [latest?_append, latest?_singleton, if_neg, hb]
        · rfl
        · rintro ⟨-, rfl⟩
          exact hkey (congrArg Value.ofSymbol (index_unique h.settled.discreet.nodup hj hi))

/-- A lookup is answered by the ledger. -/
theorem Records.binding?_cases (hr : Records kinds reads log m) (hm : m.Settled) (hroom : m.HasRoom)
    (ho : m.heap.get? v = some o) (hkind : o.kind ∈ kinds) (hi : m.symbols.names[i]? = some name) :
    m.heap.binding? v (.ofSymbol i) = none ∧ latest? log v name = none ∨
      ∃ x b, m.heap.binding? v (.ofSymbol i) = some x ∧ latest? log v name = some b ∧
        reads m.heap x b := by
  cases hb : latest? log v name with
  | some b =>
    obtain ⟨j, x, hj, hx, hread⟩ := hr.found ho hkind hb
    obtain rfl := index_unique hm.discreet.nodup hi hj
    exact Or.inr ⟨x, b, hx, rfl, hread⟩
  | none =>
    refine Or.inl ⟨Option.eq_none_iff_forall_ne_some.mpr fun x hx => ?_, rfl⟩
    obtain ⟨j, name', b, heq, hj, hb'⟩ := hr.bound ho hkind hx
    obtain rfl := Value.ofSymbol_inj (hm.index_lt hroom hi) (hm.index_lt hroom hj) heq
    obtain rfl := Option.some.inj (hi.symm.trans hj)
    rw [hb] at hb'
    cases hb'

end Machine

end ObjectMachine
