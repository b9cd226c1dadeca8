import Mathlib.Tactic
import ObjectMachine.Proofs.Typing.Startup

/-! Messages between values end in a value or in an error, never in a fault.

A program that touches neither tables nor the heap makes objects and classes, binds names and sends
messages, and it keeps values alive by holding them.  A new machine is typed, each of these uses leaves a
typed machine typed, and so the machines that programs reach are typed: each object has the kind that the
classes above it require, and no method is entered with a receiver it cannot handle. -/

namespace ObjectMachine

open Machine Effect

/-- What a program can do that touches neither tables nor the heap. -/
inductive Use where
  | text (s : String)
  | float (x : Binary64)
  | integer (n : Int)
  | array (items : List Value)
  | newClass (name : String) (superclass : Value)
  | instantiate (cls : Value)
  | setAttribute (object : Value) (name : String) (v : Value)
  | getAttribute (object : Value) (name : String)
  | setGlobal (name : String) (v : Value)
  | getGlobal (name : String)
  | intern (name : String)
  | send (receiver : Value) (name : String) (args : List Value)
  | hold (v : Value)

namespace Use

variable {m m' : Machine} {settings : HeapSettings}

/-- What a use does, and the value it gives to the program. -/
def perform : Use → Effect (Option Value)
  | text s => do return some (← newText s)
  | float x => do return some (← newFloat x)
  | integer n => do return some (← newInteger n)
  | array items => do return some (← newArray items)
  | newClass name superclass => do return some (← Effect.newClass name superclass)
  | instantiate cls => do return some (← Effect.instantiate cls)
  | setAttribute object name v => do
    Effect.setAttribute object name v
    return none
  | getAttribute object name => do return some (← Effect.getAttribute object name)
  | setGlobal name v => do
    Effect.setGlobal name v
    return none
  | getGlobal name => Effect.getGlobal name
  | intern name => do return some (← Effect.intern name)
  | send receiver name args => do return some (← Calls.top.callMethod receiver name args)
  | hold v => do
    let _ ← pin v
    return none

/-- Uses are made with values that programs may hold; classes are made below classes, and instances of
classes. -/
def Proper (m : Machine) : Use → Prop
  | array items => ∀ v ∈ items, m.Public v
  | newClass _ cls | instantiate cls => ∃ b, m.heap.read Facet.cls cls = .ok b
  | setAttribute object _ v => m.Public object ∧ m.Public v
  | getAttribute v _ | setGlobal _ v | hold v => m.Public v
  | send receiver _ args => ∀ v ∈ receiver :: args, m.Public v
  | _ => True

theorem behaves_perform (m : Machine) (u : Use) :
    Behaves False (u.Proper m) u.perform m fun found m' => ∀ v, found = some v → m'.Public v := by
  have hsome : ∀ {a : Effect Value} {pre : Prop}, Behaves False pre a m (fun v m' => m'.Public v) →
      Behaves False pre (a >>= fun v => pure (some v)) m fun found m' => ∀ v, found = some v → m'.Public v :=
    fun ha => ha.map some fun _ _ _ _ _ h _ hv => Option.some.inj hv ▸ h
  have hnone : ∀ {α : Type} {a : Effect α} {pre : Prop} {post : α → Machine → Prop},
      Behaves False pre a m post → Behaves False pre (a >>= fun _ => pure none) m
        fun found m' => ∀ v, found = some v → m'.Public v :=
    fun ha => ha.map (fun _ => none) fun _ _ _ _ _ _ _ hv => nomatch hv
  cases u with
  | text s => exact hsome ((behaves_newText s).weaken fun _ _ _ _ _ h => h.isPublic nofun)
  | float x => exact hsome ((behaves_newFloat x).weaken fun _ _ _ _ _ h => h.isPublic nofun)
  | integer n => exact hsome (behaves_newInteger n)
  | array items =>
    exact hsome ((behaves_newArray fun _ h => h).weaken fun _ _ _ _ _ h => h.isPublic nofun)
  | newClass name superclass => exact hsome (behaves_newClass name id fun _ h => h)
  | instantiate cls => exact hsome (behaves_instantiate id fun _ h => h)
  | setAttribute object name v => exact hnone (behaves_setAttribute name fun _ h => h)
  | getAttribute object name => exact hsome (behaves_getAttribute name fun _ h => h)
  | setGlobal name v => exact hnone (behaves_setGlobal name fun _ h => h)
  | getGlobal name => exact behaves_getGlobal name
  | intern name =>
    refine hsome ((behaves_intern name).weaken fun _ _ _ _ _ h => ?_)
    obtain ⟨i, rfl, -⟩ := h
    exact Or.inl (.ofSymbol i)
  | send receiver name args => exact hsome (Calls.behaves_callMethod_top id fun _ h => h)
  | hold v => exact hnone (behaves_pin fun hm h => ⟨Public.resolves h, hm.public_ne h⟩)

/-- The machines that programs reach from a new one. -/
inductive Reached (settings : HeapSettings) : Machine → Prop
  | start : Reached settings (Machine.new settings)
  | use {m : Machine} (u : Use) (h : Reached settings m) (hu : u.Proper m) :
      Reached settings (u.perform.after m)
  | release {m : Machine} (n : Nat) (h : Reached settings m) :
      Reached settings { m with handles := m.handles.shrink n }

theorem typed_perform {u : Use} (hm : m.Typed ∅) (hu : u.Proper m) (hroom : (u.perform.after m).HasRoom) :
    (u.perform.after m).Typed ∅ := ((behaves_perform m u).keeps ⟨hm, hu⟩ hroom).typed

/-- Every machine that a program reaches is typed: the heap never shrinks, so that it had room at every
stage before if it has room now. -/
theorem Reached.typed (h : Reached settings m) (hroom : m.HasRoom) : m.Typed ∅ := by
  induction h with
  | start => exact Bootstrap.typed_new settings
  | @use m u _ hu ih =>
    exact typed_perform (ih ((behaves_perform m u).grows.trans hroom)) hu hroom
  | release n _ ih => exact (ih hroom).shrink n

/-- On the machines that programs reach every object is of the kind of a built-in class above it, and all
built-in classes above it permit that kind; and whatever message is sent with values that programs may
hold, it ends in such a value or in the exception of an error.  There are no other values that programs
come by. -/
theorem messages_end_in_values_or_errors (h : Reached settings m) (hroom : m.HasRoom) :
    (∀ v o, m.heap.get? v = some o → (∃ l, m.Lineage o.cls l) ∧
      (∃ c : BuiltinClass, m.Below (m.classValue c) o.cls ∧ c.bodyKind = some o.kind) ∧
      ∀ c : BuiltinClass, m.Below (m.classValue c) o.cls → c.Permits o.kind) ∧
    (∀ receiver name args, (∀ v ∈ receiver :: args, m.Public v) →
      ((Calls.top.callMethod receiver name args).after m).HasRoom →
      (∃ v m', Calls.top.callMethod receiver name args m = .ok v m' ∧ m'.Public v ∧ v ≠ .absent) ∨
      ∃ exc m', Calls.top.callMethod receiver name args m = .error (.raise exc) m' ∧ m'.Raised exc) ∧
    ∀ (u : Use) v m', u.Proper m → u.perform m = .ok (some v) m' → m'.HasRoom → m'.Public v := by
  have hm := h.typed hroom
  refine ⟨fun v o ho => ?_, fun receiver name args hvalues hroom' => ?_, fun u v m' hu hv hroom' => ?_⟩
  · have hbears := hm.shaped.bears v o ho
    obtain ⟨l, hl⟩ := hm.shaped.exists_lineage_of_bears hbears
    exact ⟨⟨l, hl⟩, hm.shaped.exists_builtin_of_bears hl hbears,
      fun c hc => hm.shaped.permits_of_bears hc hbears⟩
  · have hbehaves : Behaves False True (Calls.top.callMethod receiver name args) m _ :=
      Calls.behaves_callMethod_top id fun _ _ => hvalues
    cases hcall : Calls.top.callMethod receiver name args m with
    | ok v m' =>
      have hv : m'.Public v :=
        (hbehaves.keeps_of_ok hcall ⟨hm, trivial⟩ (by rwa [after_of_ok hcall] at hroom')).outcome
      exact Or.inl ⟨v, m', rfl, hv, hv.ne_absent⟩
    | error e m' =>
      have hends :=
        (hbehaves.keeps_of_error hcall ⟨hm, trivial⟩ (by rwa [after_of_error hcall] at hroom')).outcome
      cases e with
      | raise exc => exact Or.inr ⟨exc, m', rfl, hends⟩
      | fatal _ => exact hends.elim
  · exact ((behaves_perform m u).keeps_of_ok hv ⟨hm, hu⟩ hroom').outcome v rfl

set_option maxRecDepth 100000 in
/-- Adding `nil` to 3 on a new machine ends in a value or in an error. -/
theorem three_plus_nil_ends :
    Reached {} (Machine.new {}) ∧ (Machine.new {}).HasRoom ∧
    ((∃ v m', Calls.top.callMethod (.ofInt 3) "+" [.nil] (Machine.new {}) = .ok v m' ∧ m'.Public v ∧
      v ≠ .absent) ∨
    ∃ exc m', Calls.top.callMethod (.ofInt 3) "+" [.nil] (Machine.new {}) = .error (.raise exc) m' ∧
      m'.Raised exc) := by
  have hroom : (Machine.new {}).HasRoom := (Bootstrap.size_new_le {}).1.trans (by decide)
  have hafter : ((Calls.top.callMethod (.ofInt 3) "+" [.nil]).after (Machine.new {})).heap.slots.size ≤
      2 ^ 32 := by decide +kernel
  refine ⟨.start, hroom, (messages_end_in_values_or_errors .start hroom).2.1 _ _ _ ?_ hafter⟩
  intro v hv
  rw [List.mem_cons, List.mem_singleton] at hv
  rcases hv with rfl | rfl
  · exact Or.inl (.ofInt 3)
  · exact Or.inl .nil

/-- Whether an effect ends in a fault. -/
def faults (a : Effect α) (m : Machine) : Bool :=
  match a m with
  | .error (.fatal _) _ => true
  | _ => false

theorem exists_of_faults {a : Effect α} (h : faults a m = true) : ∃ f m', a m = .error (.fatal f) m' := by
  unfold faults at h
  split at h
  · exact ⟨_, _, ‹_›⟩
  · cases h

set_option maxRecDepth 100000 in
/-- The machine's own table of symbols is a live object too, but it wants texts as keys, and a message
with another key ends in a fault. -/
theorem symbol_table_message_fatal :
    Reached {} (Machine.new {}) ∧ (Machine.new {}).heap.isLive (Machine.new {}).symbols.table = true ∧
      (Machine.new {}).symbols.table ≠ .absent ∧
      ∃ f m', Calls.top.callMethod (Machine.new {}).symbols.table "[]" [.ofInt 5] (Machine.new {}) =
        .error (.fatal f) m' := by
  -- all of it in one evaluation, as a new machine takes a while to compute
  have hall : ∀ m : Machine, (m.heap.isLive m.symbols.table && m.symbols.table != .absent &&
      faults (Calls.top.callMethod m.symbols.table "[]" [.ofInt 5]) m) = true →
      m.heap.isLive m.symbols.table = true ∧ m.symbols.table ≠ .absent ∧
        ∃ f m', Calls.top.callMethod m.symbols.table "[]" [.ofInt 5] m = .error (.fatal f) m' := by
    intro m h
    simp only [Bool.and_eq_true, bne_iff_ne] at h
    exact ⟨h.1.1, h.1.2, exists_of_faults h.2⟩
  exact ⟨.start, hall _ (by decide +kernel)⟩

end Use

end ObjectMachine
