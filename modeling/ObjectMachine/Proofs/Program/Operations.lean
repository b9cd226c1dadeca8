import Mathlib.Tactic
import ObjectMachine.Program.Evaluate
import ObjectMachine.Proofs.Frames.Nesting

/-! The operations of programs are balanced.

Symbols, classes, attributes, the built-in methods and the operations on tables use the stacks through
scopes, frames and messages only.  So each of them is balanced if the messages and the stored programs
are; and a message is, since its method runs in a frame of its own. -/

namespace ObjectMachine

open Judgement

variable {inScope : Bool} {places : Set Nat}

/-! ### Symbols, classes and attributes -/

namespace Effect

theorem steady_intern (name : String) : Steady inScope places (intern name) := by
  refine (meets_ask _).bind fun table => ?_
  refine (Dictionary.meets_lookupText steady_excuses _).bind fun found => ?_
  cases found with
  | some symbol => exact meets_pure _
  | none =>
    refine (meets_ask _).bind fun id => ?_
    have hname : Steady inScope places (update fun m =>
      { m with symbols := { m.symbols with names := m.symbols.names.push name } }) :=
      Idle.steady fun _ => rfl
    refine hname.bind fun _ => (steady_heedless.makes.newText name).bind fun key => ?_
    exact (Dictionary.steady_add (fun _ => meetsKeys_text) _ _ _).bind fun _ => meets_pure _

theorem steady_setGlobal (name : String) (v : Value) : Steady inScope places (setGlobal name v) :=
  Steady.withHandles <| (steady_pin v).bind fun _ => (steady_intern name).bind fun _ =>
    (meets_ask _).bind fun _ => (Dictionary.steady_insert (fun _ => meetsKeys_symbol) _ _ _).bind
      fun _ => meets_pure _

theorem steady_getGlobal (name : String) : Steady inScope places (getGlobal name) :=
  (steady_intern name).bind fun _ => (meets_ask _).bind fun _ =>
    Dictionary.steady_lookup (fun _ => meetsKeys_symbol) _ _

theorem steady_classOf (v : Value) : Steady inScope places (classOf v) :=
  (meets_ask _).bind fun _ => steady_excuses.ofExcept _

theorem steady_newClass (name : String) (superclass : Value) :
    Steady inScope places (newClass name superclass) :=
  Steady.withHandles <| (steady_pin _).bind fun _ => (meets_read _ _).bind fun _ =>
    (steady_intern name).bind fun _ => (steady_heedless.newTable _ _).bind fun _ =>
      (meets_ask _).bind fun _ => steady_heedless.alloc _ _

theorem steady_defineMethod (cls : Value) (method : NativeMethod) :
    Steady inScope places (defineMethod cls method) :=
  Steady.withHandles <| (steady_pin _).bind fun _ => (steady_intern _).bind fun _ =>
    (meets_read _ _).bind fun _ => (meets_ask _).bind fun _ => (steady_heedless.alloc _ _).bind fun _ =>
      (Dictionary.steady_insert (fun _ => meetsKeys_symbol) _ _ _).bind fun _ => meets_pure _

theorem steady_findMethodFrom (selector : Value) : ∀ (fuel : Nat) (cursor : Value),
    Steady inScope places (findMethodFrom selector fuel cursor)
  | 0, _ => meets_fault nofun
  | fuel + 1, cursor => by
    rw [findMethodFrom]
    split
    · exact meets_pure _
    refine (meets_read _ _).bind fun c => ?_
    refine (Dictionary.steady_lookup (fun _ => meetsKeys_symbol) _ _).bind fun found => ?_
    cases found with
    | some method => exact meets_pure _
    | none => exact steady_findMethodFrom selector fuel c.superclass

theorem steady_findMethod (cls selector : Value) : Steady inScope places (findMethod cls selector) :=
  (meets_ask _).bind fun _ => steady_findMethodFrom _ _ _

theorem steady_instantiate (cls : Value) : Steady inScope places (instantiate cls) := by
  refine (meets_read _ _).bind fun c => ?_
  cases instanceBody? c.instanceKind with
  | some body => exact steady_heedless.alloc _ _
  | none => exact (meets_ask _).bind fun _ => steady_raiseError _ _

theorem steady_setAttributes (object attributes : Value) :
    Steady inScope places (setAttributes object attributes) := by
  refine (meets_ask _).bind fun found => ?_
  cases found with
  | none => exact meets_fault nofun
  | some _ => exact Idle.steady fun _ => rfl

theorem steady_setAttribute (object : Value) (name : String) (v : Value) :
    Steady inScope places (setAttribute object name v) := by
  refine Steady.withHandles ((meets_pinAll steady_pin _).bind fun _ => ?_)
  refine (steady_intern name).bind fun key => ?_
  refine (meets_ask _).bind fun found => ?_
  have hinsert : ∀ table, Steady true places (do
      let _ ← Dictionary.insert (fun _ => Keys.symbol) table key v) := fun _ =>
    (Dictionary.steady_insert (fun _ => meetsKeys_symbol) _ _ _).bind fun _ => meets_pure _
  cases found with
  | none => exact (meets_ask _).bind fun _ => steady_raiseError _ _
  | some attributes =>
    dsimp only
    split
    · exact (steady_heedless.newTable _ _).bind fun _ => (steady_setAttributes _ _).bind fun _ =>
        hinsert _
    · exact hinsert _

theorem steady_getAttribute (object : Value) (name : String) :
    Steady inScope places (getAttribute object name) := by
  have hkey : Steady inScope places (withHandles do
      let _ ← pin object
      intern name) := Steady.withHandles ((steady_pin _).bind fun _ => steady_intern name)
  have hmissing : Steady inScope places (do
      noAttribute (α := Value) (← ask (·.typeName object)) name) :=
    (meets_ask _).bind fun _ => steady_raiseError _ _
  refine hkey.bind fun key => (meets_ask _).bind fun attributes => ?_
  dsimp only
  split
  · exact hmissing
  · refine (Dictionary.steady_lookup (fun _ => meetsKeys_symbol) _ _).bind fun found => ?_
    cases found with
    | some v => exact meets_pure v
    | none => exact hmissing

end Effect

/-! ### The built-in methods of numbers -/

namespace Effect

theorem steady_argument (args : List Value) (index : Nat) :
    Steady inScope places (argument args index) := by
  unfold argument
  cases args[index]? with
  | some v => exact meets_pure _
  | none => exact meets_fault nofun

theorem steady_expectFixnum (v : Value) : Steady inScope places (expectFixnum v) := by
  unfold expectFixnum
  cases v.fixnum? with
  | some n => exact meets_pure _
  | none => exact meets_fault nofun

theorem steady_newNumeral (n : Numeral) : Steady inScope places (newNumeral n) := by
  cases n with
  | fixnum n => exact meets_pure _
  | integer n => exact steady_heedless.makes.newInteger n
  | float x => exact steady_heedless.makes.newFloat x

theorem steady_unsupportedOperands (op : String) (lhs rhs : Value) :
    Steady inScope places (unsupportedOperands op lhs rhs : Effect α) :=
  (meets_ask _).bind fun _ => (meets_ask _).bind fun _ => steady_raiseError _ _

theorem steady_raiseArithmetic (op : String) (lhs rhs : Value) (e : ArithmeticError) :
    Steady inScope places (raiseArithmetic op lhs rhs e : Effect α) := by
  cases e with
  | unsupported => exact steady_unsupportedOperands _ _ _
  | _ => exact steady_raiseError _ _

theorem steady_binary (op : BinOp) (left : Number) (receiver rhs : Value) :
    Steady inScope places (binary op left receiver rhs) := by
  refine (meets_ask _).bind fun found => ?_
  cases found with
  | none => exact steady_unsupportedOperands _ _ _
  | some right =>
    dsimp only
    cases Number.binary op left right with
    | ok n => exact steady_newNumeral n
    | error e => exact steady_raiseArithmetic _ _ _ e

theorem steady_numberOrder (receiver rhs : Value) :
    Steady inScope places (numberOrder receiver rhs) := by
  refine (meets_ask _).bind fun left => (meets_ask _).bind fun right => ?_
  split
  · exact meets_pure _
  · exact (meets_ask _).bind fun _ => (meets_ask _).bind fun _ => steady_raiseError _ _

theorem steady_numbersEqual (receiver rhs : Value) :
    Steady inScope places (numbersEqual receiver rhs) := by
  refine (meets_ask _).bind fun left => (meets_ask _).bind fun right => ?_
  split
  · exact meets_pure _
  · exact meets_pure _

theorem steady_compareNumbers (c : Comparison) (receiver : Value) (args : List Value) :
    Steady inScope places (compareNumbers c receiver args) := by
  refine (steady_argument _ _).bind fun rhs => ?_
  cases c with
  | equal => exact (steady_numbersEqual _ _).bind fun _ => meets_pure _
  | notEqual => exact (steady_numbersEqual _ _).bind fun _ => meets_pure _
  | order =>
    refine (steady_numberOrder _ _).bind fun order => ?_
    rcases order with _ | (_ | _ | _)
    · exact meets_pure _
    · exact meets_pure _
    · exact meets_pure _
    · exact meets_pure _
  | _ => exact (steady_numberOrder _ _).bind fun _ => meets_pure _

theorem steady_numberHash (receiver : Value) : Steady inScope places (numberHash receiver) := by
  refine (meets_ask _).bind fun found => ?_
  cases found with
  | some n => exact meets_pure _
  | none => exact meets_fault nofun

theorem steady_parseNumber (text : String) : Steady inScope places (parseNumber text) := by
  unfold parseNumber
  cases Literal.read? text with
  | some n => exact steady_newNumeral n
  | none => exact steady_raiseError _ _

/-! ### The other built-in methods -/

theorem steady_objectHash (receiver : Value) : Steady inScope places (objectHash receiver) := by
  unfold objectHash
  split
  · exact (meets_ask _).bind fun _ => (steady_excuses.ofExcept _).bind fun _ => meets_pure _
  · exact meets_pure _

theorem steady_objectText (receiver : Value) : Steady inScope places (objectText receiver) := by
  refine (meets_ask _).bind fun name => ?_
  split
  · exact (meets_ask _).bind fun _ => (steady_excuses.ofExcept _).bind fun _ =>
      steady_heedless.makes.newText _
  · exact steady_heedless.makes.newText _

theorem steady_objectKindOf (receiver : Value) (args : List Value) :
    Steady inScope places (objectKindOf receiver args) := by
  refine (steady_argument _ _).bind fun cls => (meets_ask _).bind fun found => ?_
  cases found with
  | none => exact (meets_ask _).bind fun _ => steady_raiseError _ _
  | some _ => exact (meets_ask _).bind fun _ => (steady_excuses.ofExcept _).bind fun _ => meets_pure _

theorem steady_stringEqual (receiver : Value) (args : List Value) :
    Steady inScope places (stringEqual receiver args) :=
  (steady_argument _ _).bind fun _ => (meets_read _ _).bind fun _ => (meets_ask _).bind fun _ =>
    meets_pure _

theorem steady_stringConcat (receiver : Value) (args : List Value) :
    Steady inScope places (stringConcat receiver args) := by
  refine (steady_argument _ _).bind fun other => (meets_ask _).bind fun found => ?_
  cases found with
  | none => exact steady_unsupportedOperands _ _ _
  | some rhs => exact (meets_read _ _).bind fun _ => steady_heedless.makes.newText _

theorem steady_arrayAt (receiver : Value) (args : List Value) :
    Steady inScope places (arrayAt receiver args) := by
  refine (steady_argument _ _).bind fun index => ?_
  cases index.fixnum? with
  | none => exact (meets_ask _).bind fun _ => steady_raiseError _ _
  | some i =>
    refine (meets_read _ _).bind fun items => ?_
    dsimp only
    split
    · exact meets_pure _
    · exact steady_raiseError _ _

theorem steady_exceptionText (receiver : Value) : Steady inScope places (exceptionText receiver) := by
  refine (meets_read _ _).bind fun e => (meets_ask _).bind fun found => ?_
  cases found with
  | some _ => exact meets_pure _
  | none => exact steady_heedless.makes.newText _

end Effect

theorem Effect.steady_drain (iter : Value) :
    ∀ fuel n : Nat, (drain iter fuel n).Steady inScope places
  | 0, n => meets_pure n
  | fuel + 1, n => by
    refine (steady_heedless.next steady_excuses iter).bind fun more => ?_
    cases more with
    | true =>
      have hcurrent : ∀ g : Entry → Value,
          Steady inScope places (do return g (← Dictionary.current iter)) := fun _ =>
        (Dictionary.meets_current iter (steady_excuses _)).bind fun _ => meets_pure _
      exact (hcurrent _).bind fun _ => (hcurrent _).bind fun _ => (meets_ask _).bind fun _ =>
        (meets_ask _).bind fun _ => (steady_report _).bind fun _ => steady_drain iter fuel (n + 1)
    | false => exact meets_pure n

/-! ### Messages -/

/-- Whether messages and stored programs leave the stacks balanced. -/
structure SteadyCalls (calls : Calls) : Prop where
  send : ∀ receiver name args, (calls.send receiver name args).Steady false ∅
  run : ∀ p, (calls.run p).Steady false ∅

namespace SteadyCalls

open Effect

theorem exhausted : SteadyCalls Calls.exhausted where
  send _ _ _ := meets_fault nofun
  run _ := meets_fault nofun

variable {calls : Calls} (hcalls : SteadyCalls calls)

include hcalls

theorem keys (s : Strategy) : SteadyKeys (calls.keys s) :=
  meetsKeys_of_send steady_raises hcalls.send
    (meets_valueEqual forgets_ofRel steady_excuses steady_discardException hcalls.send) s

theorem display (v : Value) : (calls.display v).Steady inScope places := by
  refine (hcalls.send _ _ _).lift.bind fun text => (meets_ask _).bind fun found => ?_
  cases found with
  | some s => exact meets_pure _
  | none => exact steady_raiseError _ _

theorem fetch (table key : Value) : (calls.fetch table key).Steady inScope places := by
  refine (Dictionary.steady_lookup hcalls.keys _ _).bind fun found => ?_
  cases found with
  | some v => exact meets_pure _
  | none => exact (hcalls.display key).bind fun _ => steady_raiseError _ _

theorem perform (p : Primitive) (receiver : Value) (args : List Value) :
    (p.perform calls receiver args).Steady inScope places := by
  cases p with
  | compare c => exact steady_compareNumbers _ _ _
  | numberHash => exact steady_numberHash _
  | fixnumBinary op =>
    exact (steady_argument _ _).bind fun _ => (steady_expectFixnum _).bind fun _ =>
      steady_binary _ _ _ _
  | fixnumNegate => exact (steady_expectFixnum _).bind fun _ => steady_heedless.makes.newInteger _
  | fixnumIdentity => exact (steady_expectFixnum _).bind fun _ => meets_pure _
  | fixnumInvert => exact (steady_expectFixnum _).bind fun _ => meets_pure _
  | fixnumText => exact (steady_expectFixnum _).bind fun _ => steady_heedless.makes.newText _
  | bignumBinary op =>
    exact (steady_argument _ _).bind fun _ => (meets_read _ _).bind fun _ => steady_binary _ _ _ _
  | bignumNegate => exact (meets_read _ _).bind fun _ => steady_heedless.makes.newInteger _
  | bignumIdentity => exact (meets_read _ _).bind fun _ => meets_pure _
  | bignumInvert => exact (meets_read _ _).bind fun _ => steady_heedless.makes.newInteger _
  | bignumText => exact (meets_read _ _).bind fun _ => steady_heedless.makes.newText _
  | floatBinary op =>
    exact (steady_argument _ _).bind fun _ => (meets_read _ _).bind fun _ => steady_binary _ _ _ _
  | floatNegate => exact (meets_read _ _).bind fun _ => steady_heedless.makes.newFloat _
  | floatIdentity => exact (meets_read _ _).bind fun _ => meets_pure _
  | floatText => exact (meets_read _ _).bind fun _ => steady_heedless.makes.newText _
  | objectEqual => exact (steady_argument _ _).bind fun _ => meets_pure _
  | objectNotEqual =>
    exact (steady_argument _ _).bind fun _ => (hcalls.send _ _ _).lift.bind fun _ =>
      meets_pure _
  | objectHash => exact steady_objectHash _
  | objectText => exact steady_objectText _
  | objectClass => exact steady_classOf _
  | objectKindOf => exact steady_objectKindOf _ _
  | classNew => exact steady_instantiate _
  | className => exact (meets_ask _).bind fun _ => steady_heedless.makes.newText _
  | nilText => exact steady_heedless.makes.newText _
  | boolText => exact steady_heedless.makes.newText _
  | symbolText => exact (meets_ask _).bind fun _ => steady_heedless.makes.newText _
  | stringEqual => exact steady_stringEqual _ _
  | stringHash => exact (meets_read _ _).bind fun _ => meets_pure _
  | stringText => exact (meets_read _ _).bind fun _ => meets_pure _
  | stringConcat => exact steady_stringConcat _ _
  | stringSize => exact (meets_read _ _).bind fun _ => meets_pure _
  | stringToNumber => exact (meets_read _ _).bind fun _ => steady_parseNumber _
  | arraySize => exact (meets_read _ _).bind fun _ => meets_pure _
  | arrayAt => exact steady_arrayAt _ _
  | arrayPush =>
    exact (steady_argument _ _).bind fun _ => (steady_heedless.write _ _ _).bind fun _ => meets_pure _
  | dictFetch => exact (steady_argument _ _).bind fun _ => hcalls.fetch _ _
  | dictStore =>
    exact (steady_argument _ _).bind fun _ => (steady_argument _ _).bind fun _ =>
      (Dictionary.steady_insert hcalls.keys _ _ _).bind fun _ => meets_pure _
  | dictGet =>
    exact (steady_argument _ _).bind fun _ => (Dictionary.steady_lookup hcalls.keys _ _).bind
      fun _ => meets_pure _
  | dictInclude =>
    exact (steady_argument _ _).bind fun _ => (Dictionary.steady_lookup hcalls.keys _ _).bind
      fun _ => meets_pure _
  | dictDelete =>
    exact (steady_argument _ _).bind fun _ => (Dictionary.steady_delete hcalls.keys _ _).bind
      fun _ => meets_pure _
  | dictSize => exact (Dictionary.meets_size).bind fun _ => meets_pure _
  | exceptionText => exact steady_exceptionText _
  | exceptionMessage => exact (meets_read _ _).bind fun _ => meets_pure _

theorem invoke (receiver : Value) (args : List Value) (code : Code) :
    (calls.invoke receiver args code).Steady inScope places := by
  cases code with
  | primitive p => exact hcalls.perform p receiver args
  | program body =>
    exact (steady_setSession _).bind fun _ => (hcalls.run body).lift.outcome.bind fun r =>
      (steady_setSession _).bind fun _ => meets_resume_ofRel r

theorem callMethod (receiver : Value) (name : String) (args : List Value) :
    (calls.callMethod receiver name args).Steady inScope places := by
  refine Steady.withHandles ((meets_pinAll steady_pin _).bind fun _ => ?_)
  refine (steady_intern name).bind fun selector => ?_
  refine (steady_classOf _).bind fun cls => (steady_findMethod _ _).bind fun found => ?_
  cases found with
  | none => exact (meets_ask _).bind fun _ => steady_raiseError _ _
  | some method =>
    refine (meets_read _ _).bind fun native => ?_
    dsimp only
    split
    · exact steady_raiseError _ _
    · exact (meets_ask _).bind fun _ =>
        Steady.callFrame hcalls.run (hcalls.invoke _ _ _) _ _ _

/-! ### Operations -/

theorem objectOp (op : ObjectOp) (vs : List Value) :
    (op.perform calls vs).Steady inScope places := by
  unfold ObjectOp.perform
  split
  · exact meets_pure _
  · exact meets_pure _
  · exact hcalls.callMethod _ _ _
  · exact hcalls.perform _ _ _
  · exact (hcalls.display _).bind fun _ => (steady_report _).bind fun _ => meets_pure _
  · exact steady_instantiate _
  · exact steady_newClass _ _
  · exact (steady_findMethod _ _).bind fun _ => meets_pure _
  · exact (meets_ask _).bind fun _ => (steady_excuses.ofExcept _).bind fun _ => meets_pure _
  · exact (meets_ask _).bind fun _ => (steady_excuses.ofExcept _).bind fun _ => meets_pure _
  · exact steady_classOf _
  · exact (meets_ask _).bind fun _ => (steady_report _).bind fun _ => meets_pure _
  · exact (meets_ask _).bind fun _ => (steady_report _).bind fun _ => meets_pure _
  · exact steady_getAttribute _ _
  · exact (steady_setAttribute _ _ _).bind fun _ => meets_pure _
  · exact (steady_setGlobal _ _).bind fun _ => meets_pure _
  · exact (meets_ask _).bind fun _ => (steady_report _).bind fun _ => meets_pure _
  · exact meets_pure _
  · exact steady_heedless.makes.newArray _
  · exact meets_fault nofun

theorem tableOp (op : TableOp) (vs : List Value) :
    (op.perform calls vs).Steady inScope places := by
  unfold TableOp.perform
  split
  · exact steady_heedless.newTable _ _
  · exact (Dictionary.steady_insert hcalls.keys _ _ _).bind fun _ => meets_pure _
  · exact (Dictionary.steady_add hcalls.keys _ _ _).bind fun _ => meets_pure _
  · exact (Dictionary.steady_lookup hcalls.keys _ _).bind fun _ => meets_pure _
  · exact (Dictionary.steady_delete hcalls.keys _ _).bind fun _ => meets_pure _
  · exact (Dictionary.steady_deleteSafe hcalls.keys _ _).bind fun _ => meets_pure _
  · exact hcalls.fetch _ _
  · exact (Dictionary.meets_lookupText steady_excuses _).bind fun _ => meets_pure _
  · exact (steady_heedless.cleanupSafe steady_excuses).bind fun _ => meets_pure _
  · exact (Dictionary.meets_size).bind fun _ => meets_pure _
  · exact steady_heedless.copy
  · exact (steady_heedless.dump).bind fun _ => (steady_report _).bind fun _ => meets_pure _
  · exact (meets_read _ _).bind fun _ => (steady_report _).bind fun _ => meets_pure _
  · exact (steady_heedless.write _ _ _).bind fun _ => meets_pure _
  · exact steady_heedless.iterator
  · exact (steady_heedless.next steady_excuses _).bind fun _ => meets_pure _
  · exact (Dictionary.meets_current _ (steady_excuses _)).bind fun _ => meets_pure _
  · exact (Dictionary.meets_current _ (steady_excuses _)).bind fun _ => meets_pure _
  · exact (meets_ask _).bind fun _ => (steady_drain _ _ _).bind fun _ => meets_pure _
  · exact (meets_read _ _).bind fun _ => (meets_read _ _).bind fun _ =>
      (steady_heedless.write _ _ _).bind fun _ => meets_pure _
  · exact meets_fault nofun

end SteadyCalls

open Effect

theorem FrameOp.steady_perform (op : FrameOp) (vs : List Value) :
    (op.perform vs).Steady inScope places := by
  unfold FrameOp.perform
  split
  · exact steady_raiseError _ _
  · exact steady_raises.raiseValue _
  · exact meets_fault nofun
  · exact steady_heedless.makes.newException _ _
  · exact (meets_ask _).bind fun _ => (steady_excuses.ofExcept _).bind fun _ => meets_pure _
  · exact (steady_discardException _ _).bind fun _ => meets_pure _
  · exact (meets_ask _).bind fun _ => (steady_report _).bind fun _ => meets_pure _
  · exact (meets_ask _).bind fun _ => (steady_report _).bind fun _ => meets_pure _
  · exact (meets_ask _).bind fun _ => (steady_report _).bind fun _ => meets_pure _
  · exact (meets_ask _).bind fun _ => (steady_report _).bind fun _ => meets_pure _
  · exact meets_fault nofun

theorem HeapOp.steady_perform (op : HeapOp) (vs : List Value) :
    (op.perform vs).Steady inScope places := by
  have hheap : ∀ g : Machine → Heap,
      (update fun m => { m with heap := g m }).Steady inScope places := fun _ =>
    Idle.steady fun _ => rfl
  have hobject : ∀ v, (getObject v).Steady inScope places := fun _ =>
    (meets_ask _).bind fun _ => steady_excuses.ofExcept _
  have hcollection : reportCollection.Steady inScope places :=
    (meets_ask _).bind fun _ => steady_report _
  unfold HeapOp.perform
  split
  · exact steady_heedless.collectGarbage.bind fun _ => hcollection.bind fun _ => meets_pure _
  · exact hcollection.bind fun _ => meets_pure _
  · exact (hheap _).bind fun _ => meets_pure _
  · exact (meets_ask _).bind fun _ => meets_pure _
  · exact (meets_ask _).bind fun _ => meets_pure _
  · exact (hobject _).bind fun _ => (steady_report _).bind fun _ => meets_pure _
  · exact (meets_ask _).bind fun _ => (steady_report _).bind fun _ => meets_pure _
  · exact (hobject _).bind fun _ => meets_pure _
  · exact (hobject _).bind fun _ => (hheap _).bind fun _ => (hobject _).bind fun _ =>
      (steady_report _).bind fun _ => meets_pure _
  · exact (hobject _).bind fun _ => (steady_report _).bind fun _ => meets_pure _
  · exact (hobject _).bind fun _ => (hheap _).bind fun _ => meets_pure _
  · exact (meets_ask _).bind fun _ => (steady_report _).bind fun _ => meets_pure _
  · exact meets_fault nofun

theorem SteadyCalls.operation {calls : Calls} (hcalls : SteadyCalls calls) (op : Operation)
    (vs : List Value) : (op.perform calls vs).Steady inScope places := by
  cases op with
  | object op => exact hcalls.objectOp op vs
  | table op => exact hcalls.tableOp op vs
  | frame op => exact op.steady_perform vs
  | heap op => exact op.steady_perform vs

end ObjectMachine
