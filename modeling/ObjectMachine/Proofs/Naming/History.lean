import Mathlib.Tactic
import ObjectMachine.Proofs.Naming.Ledger

/-! The history of a machine.

Two ledgers follow from the commands that a machine has carried out: one of the attributes that were set,
one of the methods that were defined.  Each command leaves a machine that records both, whatever is
collected meanwhile, and so does every run. -/

namespace ObjectMachine

open Machine Effect Naming

namespace Machine

variable {m m' : Machine} {v key x : Value} {name : String} {i : Nat}

/-- An attribute means its value. -/
def isValue (_ : Heap) (x w : Value) : Prop := x = w

/-- A method is read off its object. -/
def isMethod (h : Heap) (x : Value) (method : NativeMethod) : Prop := h.read Facet.native x = .ok method

theorem lasting_isValue : Lasting isValue := fun _ _ h => h

theorem lasting_isMethod : Lasting isMethod := by
  intro h h' x method hl hx hread
  obtain ⟨o, ho, hbody⟩ := Heap.read_eq_ok_iff.mp hread
  have hbody := Facet.lawful_native.put_eq hbody
  obtain ⟨o', ho'⟩ := Heap.isLive_iff.mp (hx (Heap.get?_eq_some_iff.mp ho).1)
  refine Heap.read_eq_ok_iff.mpr ⟨o', ho', ?_⟩
  rw [Body.eq_native_of_outline_eq (hl.follows ho ho').outline_eq hbody.symm]
  rfl

/-- Plain objects and exceptions have the attributes of a ledger. -/
abbrev RecordsAttributes : List (Naming Value) → Machine → Prop := Records [.plain, .exception] isValue

/-- Classes have the methods of a ledger. -/
abbrev RecordsMethods : List (Naming NativeMethod) → Machine → Prop := Records [.cls] isMethod

/-- Plain objects and exceptions have attributes, other objects have none. -/
theorem exists_attributes_iff {o : Object} (ho : m.heap.get? v = some o) :
    (∃ a, m.attributes? v = some a) ↔ o.kind ∈ [ObjectKind.plain, .exception] := by
  rw [attributes?, ho, Option.bind_some, Object.kind]
  cases o.body <;> simp [Body.kind]

theorem exists_read_cls_iff {o : Object} (ho : m.heap.get? v = some o) :
    (∃ c, m.heap.read Facet.cls v = .ok c) ↔ o.kind ∈ [ObjectKind.cls] := by
  simp only [Heap.read_eq_ok_iff, ho, Option.some.injEq, exists_eq_left', Object.kind]
  cases o.body <;> simp [Facet.cls, Body.kind]

/-! ### What a command enters -/

section Logs

variable {β : Type} {kinds : List ObjectKind} {reads : Heap → Value → β → Prop} {log : List (Naming β)}
  {b : β}

theorem logs_nothing (h : ∀ e ∈ log, ∀ o, m'.heap.get? e.holder = some o → o.kind ∉ kinds) :
    Logs kinds reads log nothing m' := fun _ o ho hkind =>
  Or.inl ⟨fun e he hv => h e he o (hv ▸ ho) hkind, fun _ => rfl⟩

theorem logs_nil : Logs kinds reads [] nothing m' := fun _ _ _ _ => Or.inl ⟨nofun, fun _ => rfl⟩

theorem logs_single (hi : m'.symbols.names[i]? = some name) (hx : reads m'.heap x b) :
    Logs kinds reads [⟨v, name, b⟩] (single v (.ofSymbol i) x) m' := by
  intro u o _ _
  by_cases hu : u = v
  · subst hu
    exact Or.inr ⟨i, x, name, b, rfl, hi, hx, fun key => by simp [single]⟩
  · refine Or.inl ⟨fun e he => ?_, fun key => by simp [single, hu]⟩
    rw [List.mem_singleton.mp he]
    exact Ne.symm hu

theorem logs_other (h : ∀ o, m'.heap.get? v = some o → o.kind ∉ kinds) :
    Logs kinds reads [] (single v key x) m' := by
  intro u o ho hkind
  refine Or.inl ⟨nofun, fun key => if_neg ?_⟩
  rintro ⟨rfl, -⟩
  exact h o ho hkind

end Logs

/-- A value that is still there is what it was. -/
theorem Usable.exists_kind_eq {new : Value → Value → Option Value} (hv : m.Usable v) (h : m.Binds new m')
    {o' : Object} (ho' : m'.heap.get? v = some o') : ∃ o, m.heap.get? v = some o ∧ o'.kind = o.kind := by
  obtain ⟨o, ho⟩ := Heap.isLive_iff.mp (hv.1 (Heap.get?_eq_some_iff.mp ho').1)
  exact ⟨o, ho, h.kind_eq ho ho'⟩

end Machine

/-- What holds however a settled effect ends, holds of the machine it leaves. -/
theorem Effect.Settles.after {m : Machine} {a : Effect α} {fails : Unwind → Machine → Prop}
    {post : α → Machine → Prop} {goal : Machine → Prop} (ha : Settles True a m fails post)
    (hm : m.Settled) (hroom : (a.after m).HasRoom) (hpost : ∀ x m', post x m' → goal m')
    (hfails : ∀ u m', m.Binds nothing m' → fails u m' → goal m') : goal (a.after m) := by
  have hends := ha.ends hm trivial hroom
  cases h : a m with
  | ok x m' =>
    rw [h] at hends
    rw [after_of_ok h]
    exact hpost x m' hends
  | error u m' =>
    rw [h] at hends
    rw [after_of_error h]
    exact hfails u m' hends.1 hends.2

namespace Command

variable {m : Machine} {c : Command} {commands : List Command}

/-- The attributes that a command sets. -/
def attributes : Command → List (Naming Value)
  | .setAttribute object name v => [⟨object, name, v⟩]
  | _ => []

/-- The methods that a command defines. -/
def definitions : Command → List (Naming NativeMethod)
  | .defineMethod cls method => [⟨cls, method.name, method⟩]
  | _ => []

/-- What a command makes of a settled machine. -/
def Accounted (c : Command) (m m' : Machine) : Prop :=
  ∃ new, m.Binds new m' ∧ Logs [.plain, .exception] isValue c.attributes new m' ∧
    Logs [.cls] isMethod c.definitions new m'

/-- A command that binds nothing. -/
theorem accounted_nothing {m' : Machine} (ha : c.attributes = []) (hd : c.definitions = [])
    (h : m.Binds nothing m') : c.Accounted m m' :=
  ⟨nothing, h, ha ▸ logs_nil, hd ▸ logs_nil⟩

theorem accounted_setAttribute {object v : Value} {name : String} (hm : m.Settled)
    (hobject : m.Usable object) (hv : m.Usable v)
    (hroom : ((Effect.setAttribute object name v).after m).HasRoom) :
    (setAttribute object name v).Accounted m ((Effect.setAttribute object name v).after m) := by
  refine (settles_setAttribute name fun _ _ => ⟨hobject, hv⟩).after hm hroom
    (fun _ m' ⟨ha, i, hi, h⟩ => ⟨_, h, logs_single hi rfl, logs_other fun o' ho' hkind => ?_⟩)
    fun u m' h ⟨ha, _⟩ => ⟨_, h, logs_nothing fun e he o' ho' hkind => ?_, logs_nil⟩
  · -- what has attributes is no class
    obtain ⟨o, ho, hsame⟩ := hobject.exists_kind_eq h ho'
    have hplain := (exists_attributes_iff ho).mp ha
    rw [hsame] at hkind
    simp only [List.mem_cons, List.not_mem_nil, or_false] at hkind hplain
    rw [hkind] at hplain
    simp at hplain
  · obtain rfl := List.mem_singleton.mp he
    obtain ⟨o, ho, hsame⟩ := hobject.exists_kind_eq h ho'
    obtain ⟨a, ha'⟩ := (exists_attributes_iff ho).mpr (hsame ▸ hkind)
    rw [ha] at ha'
    cases ha'

theorem accounted_defineMethod {cls : Value} {method : NativeMethod} (hm : m.Settled)
    (hcls : m.Usable cls) (hcode : method.code.Avoids m.symbols.table)
    (hroom : ((Effect.defineMethod cls method).after m).HasRoom) :
    (defineMethod cls method).Accounted m ((Effect.defineMethod cls method).after m) := by
  refine (settles_defineMethod method fun _ _ => ⟨hcls, hcode⟩).after hm hroom
    (fun _ m' ⟨hc, i, x, hi, h, hx, _⟩ => ⟨_, h, logs_other fun o' ho' hkind => ?_, logs_single hi hx⟩)
    fun u m' h ⟨_, hc⟩ => ⟨_, h, logs_nil, logs_nothing fun e he o' ho' hkind => ?_⟩
  · -- a class has no attributes
    obtain ⟨o, ho, hsame⟩ := hcls.exists_kind_eq h ho'
    have hclass := (exists_read_cls_iff ho).mp hc
    rw [hsame] at hkind
    simp only [List.mem_cons, List.not_mem_nil, or_false] at hkind hclass
    rw [hclass] at hkind
    simp at hkind
  · obtain rfl := List.mem_singleton.mp he
    obtain ⟨o, ho, hsame⟩ := hcls.exists_kind_eq h ho'
    obtain ⟨c, hread⟩ := (exists_read_cls_iff ho).mpr (hsame ▸ hkind)
    exact hc c hread

/-- Whatever a command does, it is accounted for. -/
theorem accounted_perform (hm : m.Settled) (hfair : c.Fair m) (hroom : (c.perform.after m).HasRoom) :
    c.Accounted m (c.perform.after m) := by
  have hquiet : ∀ {α : Type} {a : Effect α} {fails : Unwind → Machine → Prop}
      {post : α → Machine → Prop}, c.attributes = [] → c.definitions = [] → (a.after m).HasRoom →
      Settles True a m fails post → (∀ x m', post x m' → m.Binds nothing m') →
      c.Accounted m (a.after m) := fun ha hd hroom hsettles hpost =>
    hsettles.after hm hroom (fun x m' h => accounted_nothing ha hd (hpost x m' h))
      fun _ _ h _ => accounted_nothing ha hd h
  cases c with
  | intern name =>
    have hintern : Settles True (Effect.intern name) m (fun _ _ => False) _ := Settles.intern name
    rw [perform, after_map] at hroom ⊢
    exact hquiet rfl rfl hroom hintern fun _ _ h => h.1
  | newClass name superclass =>
    rw [perform, after_map] at hroom ⊢
    exact hquiet rfl rfl hroom (settles_newClass name fun _ _ => hfair) fun _ _ h => h.1
  | defineMethod cls method => exact accounted_defineMethod hm hfair.1 hfair.2 hroom
  | make cls body =>
    have halloc : Settles True (alloc cls body) m (fun _ _ => False) _ :=
      Settles.alloc hfair.1 fun _ _ => hfair.2
    rw [perform, after_map] at hroom ⊢
    exact hquiet rfl rfl hroom halloc fun _ _ h => h.1
  | setAttribute object name v => exact accounted_setAttribute hm hfair.1 hfair.2 hroom
  | getAttribute object name =>
    rw [perform, after_map] at hroom ⊢
    exact hquiet rfl rfl hroom (settles_getAttribute name fun _ _ => hfair) fun _ _ h => h.binds
  | keep v =>
    have hpin : Settles True (pin v) m (fun _ _ => False) _ := Settles.pin fun _ _ => hfair
    rw [perform, after_map] at hroom ⊢
    exact hquiet rfl rfl hroom hpin fun _ _ h => h.1
  | release n => exact accounted_nothing rfl rfl (hm.binds_refl.shrink n)
  | collect =>
    have hcollect : Settles True collectGarbage m (fun _ _ => False) _ := Settles.collectWith nofun
    exact hquiet rfl rfl hroom hcollect fun _ _ h => h.1

theorem grows (hfair : c.Fair m) : m.heap.slots.size ≤ (c.perform.after m).heap.slots.size := by
  have hgrows : ∀ {α : Type} {a : Effect α} {post : α → Machine → Prop},
      Settles False a m (fun _ _ => True) post → m.heap.slots.size ≤ (a.after m).heap.slots.size :=
    fun h => h.grows
  cases c with
  | intern name =>
    rw [perform, after_map]
    exact hgrows (Settles.intern name)
  | newClass name superclass =>
    rw [perform, after_map]
    exact (settles_newClass name fun _ _ => hfair : Settles False _ m _ _).grows
  | defineMethod cls method => exact (settles_defineMethod method fun _ _ => hfair : Settles False _ m _ _).grows
  | make cls body =>
    rw [perform, after_map]
    exact hgrows (Settles.alloc hfair.1 fun _ _ => hfair.2)
  | setAttribute object name v => exact (settles_setAttribute name fun _ _ => hfair : Settles False _ m _ _).grows
  | getAttribute object name =>
    rw [perform, after_map]
    exact (settles_getAttribute name fun _ _ => hfair : Settles False _ m _ _).grows
  | keep v =>
    rw [perform, after_map]
    exact hgrows (Settles.pin fun _ _ => hfair)
  | release n => exact le_rfl
  | collect => exact hgrows (Settles.collectWith nofun)

theorem size_le_serve : ∀ {commands : List Command} {m : Machine}, FairAll commands m →
    m.heap.slots.size ≤ (serve commands m).heap.slots.size
  | [], _, _ => le_rfl
  | _ :: _, _, hfair => (grows hfair.1).trans (size_le_serve hfair.2)

/-- Clients make up only the objects that are there. -/
theorem resolves_of_mem_attributes (hfair : c.Fair m) : ∀ e ∈ c.attributes, m.heap.Resolves e.holder := by
  cases c with
  | setAttribute object name v =>
    intro e he
    rw [List.mem_singleton.mp he]
    exact hfair.1.1
  | _ => exact fun _ he => by cases he

theorem resolves_of_mem_definitions (hfair : c.Fair m) :
    ∀ e ∈ c.definitions, m.heap.Resolves e.holder := by
  cases c with
  | defineMethod cls method =>
    intro e he
    rw [List.mem_singleton.mp he]
    exact hfair.1.1
  | _ => exact fun _ he => by cases he

end Command

/-! ### Runs -/

/-- A settled machine that records both ledgers. -/
structure Machine.Accounts (attributes : List (Naming Value)) (methods : List (Naming NativeMethod))
    (m : Machine) : Prop where
  settled : m.Settled
  attributes : m.RecordsAttributes attributes
  methods : m.RecordsMethods methods

namespace Machine.Accounts

variable {m : Machine} {attributes : List (Naming Value)} {methods : List (Naming NativeMethod)}

/-- Where nothing is bound nothing need be entered. -/
theorem binds (h : m.Accounts attributes methods) {m' : Machine} (hbinds : m.Binds nothing m')
    (hroom : m'.HasRoom) : m'.Accounts attributes methods := by
  have hattributes := h.attributes.step lasting_isValue hbinds hroom (List.forall_mem_nil _) logs_nil
  have hmethods := h.methods.step lasting_isMethod hbinds hroom (List.forall_mem_nil _) logs_nil
  rw [List.append_nil] at hattributes hmethods
  exact ⟨hbinds.settled, hattributes, hmethods⟩

/-- A command carries both ledgers on. -/
theorem perform (h : m.Accounts attributes methods) {c : Command} (hfair : c.Fair m)
    (hroom : (c.perform.after m).HasRoom) :
    (c.perform.after m).Accounts (attributes ++ c.attributes) (methods ++ c.definitions) := by
  obtain ⟨new, hbinds, hattributes, hmethods⟩ := Command.accounted_perform h.settled hfair hroom
  exact ⟨hbinds.settled, h.attributes.step lasting_isValue hbinds hroom
    (Command.resolves_of_mem_attributes hfair) hattributes, h.methods.step lasting_isMethod hbinds hroom
    (Command.resolves_of_mem_definitions hfair) hmethods⟩

/-- So does every run. -/
theorem serve : ∀ {commands : List Command} {m : Machine} {attributes : List (Naming Value)}
    {methods : List (Naming NativeMethod)}, m.Accounts attributes methods →
    Command.FairAll commands m → (Command.serve commands m).HasRoom →
    (Command.serve commands m).Accounts (attributes ++ commands.flatMap Command.attributes)
      (methods ++ commands.flatMap Command.definitions)
  | [], m, _, _, h, _, _ => by
    rw [List.flatMap_nil, List.flatMap_nil, List.append_nil, List.append_nil]
    exact h
  | c :: commands, m, _, _, h, hfair, hroom => by
    rw [List.flatMap_cons, List.flatMap_cons, ← List.append_assoc, ← List.append_assoc]
    exact (h.perform hfair.1 (le_trans (Command.size_le_serve hfair.2) hroom)).serve hfair.2 hroom

end Machine.Accounts

end ObjectMachine
