import Mathlib.Tactic
import ObjectMachine.Program.Evaluate
import ObjectMachine.Proofs.Dictionary.Discretion

/-! Programs leave the table of symbols to the machine.

Classes, attributes, the built-in methods and the operations of programs give out nothing but what they
find in objects and variables, and the table of symbols is in none of them.  By induction on programs,
then on the depth of calls, whatever a message does to the symbols is interning. -/

namespace ObjectMachine

open Effect

variable {s : Value} {quiet pre : Prop} {name : String}

/-! ### Classes and attributes -/

namespace Effect

theorem discreet_orAbsent {a : Effect (Option Value)}
    (ha : Discreet s quiet pre a fun found => ∀ v, found = some v → v ≠ s) :
    Discreet s quiet pre (a >>= fun found => pure (found.getD .absent)) fun v => v ≠ s := by
  refine Discreet.knowing ((ha.weaken And.left).map fun found h hfound => ?_)
  cases found with
  | none => exact absent_ne h.2
  | some v => exact hfound v rfl

theorem discreet_classOf (v : Value) : Discreet s quiet pre (classOf v) fun cls => cls ≠ s := by
  have hclass : Discreet s quiet pre (ask (·.classOf v)) fun r => ∀ cls, r = .ok cls → cls ≠ s := by
    refine discreet_ask fun _ m hm cls hcls => ?_
    unfold Machine.classOf at hcls
    split at hcls
    · exact Except.ok.inj hcls ▸ hm.classValue_ne _
    split at hcls
    · cases hget : m.heap.get v with
      | error u => rw [hget] at hcls; cases hcls
      | ok o =>
        rw [hget] at hcls
        exact Except.ok.inj hcls ▸ (hm.heap.avoids_of_get hget).cls
    split at hcls
    · exact Except.ok.inj hcls ▸ hm.classValue_ne _
    split at hcls
    · exact Except.ok.inj hcls ▸ hm.classValue_ne _
    split at hcls
    · exact Except.ok.inj hcls ▸ hm.classValue_ne _
    · cases hcls
  exact hclass.bind fun r => discreet_ofExcept fun h cls hcls => h.2 cls hcls

/-- The part of making a class that comes after the superclass was read. -/
theorem spells_newClass_rest {superclass : Value} (hsuper : pre → superclass ≠ s)
    (kind : Option ObjectKind) : Spells s name True pre (do
      let name ← intern name
      let methods ← newTable .symbol 0
      alloc (← classValue .cls) (.cls
        { name := name, superclass := superclass, methods := methods, instanceKind := kind }))
      fun v => v ≠ s := by
  refine spells_intern.bind fun symbol => (discreet_newTable _ _).bind fun methods => ?_
  exact discreet_make .cls fun h => Body.avoids_cls.mpr ⟨h.1.2, hsuper h.1.1, h.2⟩

theorem discreet_newClass {superclass : Value} (hsuper : pre → superclass ≠ s) :
    Discreet s False pre (newClass name superclass) fun v => v ≠ s :=
  Discreet.withHandles ((discreet_pin hsuper).andThen fun _ => (discreet_look _ _).andThen fun c =>
    (spells_newClass_rest hsuper c.instanceKind).toDiscreet)

theorem spells_defineMethod {cls : Value} {method : NativeMethod} (hcls : pre → cls ≠ s)
    (hcode : pre → method.code.Avoids s) :
    Spells s method.name True pre (defineMethod cls method) fun _ => True := by
  refine Spells.withHandles (Spells.pin_bind hcls fun _ => spells_intern.bind fun selector => ?_)
  refine (discreet_read Facet.lawful_cls cls).bind fun c => ?_
  refine (discreet_classValue .nativeFunction).bind fun native => Discreet.bind
    (discreet_alloc And.right fun h => Body.avoids_native.mpr (hcode h.1.1.1)) fun object => ?_
  refine Discreet.map (Dictionary.discreet_insert (fun _ => discreetKeys_symbol) (fun h => ?_)
    (fun h => h.1.1.1.2) And.right) fun _ _ _ => trivial
  exact (Body.avoids_cls.mp h.1.1.2).2.2

theorem discreet_findMethodFrom {selector : Value} : ∀ {pre : Prop} (_ : pre → selector ≠ s)
    (fuel : Nat) (cursor : Value), Discreet s quiet pre (findMethodFrom selector fuel cursor)
      fun found => ∀ v, found = some v → v ≠ s
  | _, _, 0, _ => discreet_fault _
  | _, hselector, fuel + 1, cursor => by
    rw [findMethodFrom]
    split
    · exact discreet_pure fun _ v hv => by cases hv
    refine (discreet_read Facet.lawful_cls cursor).bind fun c => ?_
    refine (Dictionary.discreet_lookup (fun _ => discreetKeys_symbol)
      (fun h => (Body.avoids_cls.mp h.2).2.2) fun h => hselector h.1).bind fun found => ?_
    cases found with
    | some method => exact discreet_pure fun h => h.2
    | none => exact discreet_findMethodFrom (fun h => hselector h.1.1) fuel c.superclass

theorem discreet_findMethod {cls selector : Value} (hselector : pre → selector ≠ s) :
    Discreet s quiet pre (findMethod cls selector) fun found => ∀ v, found = some v → v ≠ s :=
  Discreet.ask_bind fun _ => discreet_findMethodFrom hselector _ _

theorem discreet_instantiate {cls : Value} (hcls : pre → cls ≠ s) :
    Discreet s quiet pre (instantiate cls) fun v => v ≠ s := by
  refine (discreet_look _ _).andThen fun c => ?_
  cases hbody : instanceBody? c.instanceKind with
  | none => exact Discreet.ask_bind fun _ => discreet_raiseError _ _
  | some body =>
    refine Discreet.knowing (discreet_alloc (fun h => hcls h.1) fun h => ?_)
    unfold instanceBody? at hbody
    split at hbody
    · exact Option.some.inj hbody ▸ Body.avoids_plain.mpr (absent_ne h.2)
    · exact Option.some.inj hbody ▸ Body.avoids_exception.mpr
        ⟨nil_ne h.2, nil_ne h.2, nil_ne h.2, absent_ne h.2⟩
    · exact Option.some.inj hbody ▸ Body.avoids_text ""
    · exact Option.some.inj hbody ▸ Body.avoids_array.mpr (by simp)
    · exact Option.some.inj hbody ▸ Body.avoids_newTable _ _
    · cases hbody

theorem discreet_attributes (object : Value) :
    Discreet s quiet pre (ask (·.attributes? object)) fun found => ∀ v, found = some v → v ≠ s := by
  refine discreet_ask fun _ m hm v hv => ?_
  obtain ⟨o, ho, hedge⟩ := mem_edges_of_attributes? hv
  rintro rfl
  exact (hm.heap.objects object o ho).edges hedge

theorem discreet_setAttributes {object attributes : Value} (hobject : pre → object ≠ s)
    (hattributes : pre → attributes ≠ s) :
    Discreet s quiet pre (setAttributes object attributes) fun _ => True := by
  refine Discreet.ask_bind fun found => ?_
  cases found with
  | none => exact discreet_fault _
  | some _ =>
    refine discreet_modifyObject hobject fun hp o _ ho => ?_
    obtain ⟨cls, flags, serial, body⟩ := o
    cases body with
    | plain v => exact ⟨⟨ho.cls, Body.avoids_plain.mpr (hattributes hp)⟩, rfl, rfl⟩
    | exception e =>
      obtain ⟨hmessage, htrace, hcontext, -⟩ := Body.avoids_exception.mp ho.body
      exact ⟨⟨ho.cls, Body.avoids_exception.mpr ⟨hmessage, htrace, hcontext, hattributes hp⟩⟩, rfl, rfl⟩
    | _ => exact ⟨⟨ho.cls, ho.body⟩, rfl, rfl⟩

theorem spells_setAttribute {object v : Value} (hobject : pre → object ≠ s) (hv : pre → v ≠ s) :
    Spells s name True pre (setAttribute object name v) fun _ => True := by
  refine Spells.withHandles (Spells.pinAll_bind (fun hp => ?_) (spells_intern.bind fun key => ?_))
  · simp [(hobject hp).symm, (hv hp).symm]
  refine (discreet_attributes object).bind fun found => ?_
  cases found with
  | none => exact Discreet.ask_bind fun _ => discreet_raiseError _ _
  | some attributes =>
    have hinsert : ∀ table, Discreet s True
        (((pre ∧ key ≠ s) ∧ ∀ v, some attributes = some v → v ≠ s) ∧ table ≠ s) (do
          let _ ← Dictionary.insert (fun _ => Keys.symbol) table key v) fun _ => True := fun table =>
      (Dictionary.discreet_insert (fun _ => discreetKeys_symbol) And.right (fun h => h.1.1.2)
        fun h => hv h.1.1.1).map fun _ _ _ => trivial
    dsimp only
    split
    · refine (discreet_newTable .symbol 0).bind fun fresh => ?_
      exact (discreet_setAttributes (fun h => hobject h.1.1.1) And.right).andThen fun _ => hinsert fresh
    · exact (hinsert attributes).weaken fun h => ⟨h, h.2 attributes rfl⟩

theorem spells_getAttribute {object : Value} (hobject : pre → object ≠ s) :
    Spells s name True pre (getAttribute object name) fun v => v ≠ s := by
  have hkey : Spells s name True pre (withHandles do
      let _ ← pin object
      intern name) fun v => v ≠ s := Spells.withHandles (Spells.pin_bind hobject fun _ => spells_intern)
  refine hkey.bind fun key => (discreet_attributes object).bind fun found => ?_
  have hmissing : ∀ {pre : Prop}, Discreet s True pre (do
      noAttribute (α := Value) (← ask (·.typeName object)) name) fun v => v ≠ s :=
    Discreet.ask_bind fun _ => discreet_raiseError _ _
  dsimp only
  split
  · exact hmissing
  · rename_i habsent
    refine (Dictionary.discreet_lookup (fun _ => discreetKeys_symbol) (fun h => ?_)
      fun h => h.1.2).bind fun found => ?_
    · cases hfound : found with
      | none => simp [hfound, Value.isAbsent] at habsent
      | some v => exact h.2 v hfound
    · cases found with
      | some v => exact discreet_pure fun h => h.2 v rfl
      | none => exact hmissing

/-! ### The built-in methods of numbers -/

theorem discreet_argument {args : List Value} (hargs : pre → s ∉ args) (index : Nat) :
    Discreet s quiet pre (argument args index) fun v => v ≠ s := by
  unfold argument
  cases hv : args[index]? with
  | none => exact discreet_fault _
  | some v =>
    refine discreet_pure fun hp => ?_
    rintro rfl
    exact hargs hp (List.mem_of_getElem? hv)

theorem discreet_expectFixnum (v : Value) : Discreet s quiet pre (expectFixnum v) fun _ => True := by
  unfold expectFixnum
  cases v.fixnum? with
  | some n => exact discreet_skip
  | none => exact discreet_fault _

theorem discreet_newNumeral (n : Numeral) : Discreet s quiet pre (newNumeral n) fun v => v ≠ s := by
  cases n with
  | fixnum n => exact discreet_immediate (isRef_ofInt n)
  | integer n => exact discreet_newInteger n
  | float x => exact discreet_newFloat x

theorem discreet_unsupportedOperands (op : String) (lhs rhs : Value) {post : α → Prop} :
    Discreet s quiet pre (unsupportedOperands op lhs rhs : Effect α) post :=
  Discreet.ask_bind fun _ => Discreet.ask_bind fun _ => discreet_raiseError _ _

theorem discreet_binary (op : BinOp) (left : Number) (receiver rhs : Value) :
    Discreet s quiet pre (binary op left receiver rhs) fun v => v ≠ s := by
  refine Discreet.ask_bind fun found => ?_
  cases found with
  | none => exact discreet_unsupportedOperands _ _ _
  | some right =>
    dsimp only
    cases Number.binary op left right with
    | ok n => exact discreet_newNumeral n
    | error e =>
      cases e with
      | unsupported => exact discreet_unsupportedOperands _ _ _
      | _ => exact discreet_raiseError _ _

theorem discreet_numberOrder (receiver rhs : Value) :
    Discreet s quiet pre (numberOrder receiver rhs) fun _ => True := by
  refine Discreet.ask_bind fun left => Discreet.ask_bind fun right => ?_
  split
  · exact discreet_skip
  · exact Discreet.ask_bind fun _ => Discreet.ask_bind fun _ => discreet_raiseError _ _

theorem discreet_numbersEqual (receiver rhs : Value) :
    Discreet s quiet pre (numbersEqual receiver rhs) fun _ => True := by
  refine Discreet.ask_bind fun left => Discreet.ask_bind fun right => ?_
  split
  · exact discreet_skip
  · exact discreet_skip

theorem discreet_compareNumbers (c : Comparison) (receiver : Value) {args : List Value}
    (hargs : pre → s ∉ args) :
    Discreet s quiet pre (compareNumbers c receiver args) fun v => v ≠ s := by
  refine (discreet_argument hargs 0).andThen fun rhs => ?_
  cases c with
  | equal => exact (discreet_numbersEqual _ _).shown fun _ => isRef_ofBool _
  | notEqual => exact (discreet_numbersEqual _ _).shown fun _ => isRef_ofBool _
  | order =>
    refine (discreet_numberOrder _ _).andThen fun order => ?_
    rcases order with _ | (_ | _ | _)
    · exact discreet_immediate rfl
    · exact discreet_immediate (isRef_ofInt _)
    · exact discreet_immediate (isRef_ofInt _)
    · exact discreet_immediate (isRef_ofInt _)
  | _ => exact (discreet_numberOrder _ _).shown fun _ => isRef_ofBool _

theorem discreet_numberHash (receiver : Value) :
    Discreet s quiet pre (numberHash receiver) fun v => v ≠ s := by
  refine Discreet.ask_bind fun found => ?_
  cases found with
  | some n => exact discreet_immediate (isRef_ofInt _)
  | none => exact discreet_fault _

theorem discreet_parseNumber (text : String) :
    Discreet s quiet pre (parseNumber text) fun v => v ≠ s := by
  unfold parseNumber
  cases Literal.read? text with
  | some n => exact discreet_newNumeral n
  | none => exact discreet_raiseError _ _

/-! ### The other built-in methods -/

theorem discreet_objectHash (receiver : Value) :
    Discreet s quiet pre (objectHash receiver) fun v => v ≠ s := by
  unfold objectHash
  split
  · refine Discreet.ask_bind fun found => ?_
    cases found with
    | ok o => exact discreet_immediate (isRef_ofInt _)
    | error u => exact discreet_fault u
  · exact discreet_immediate (isRef_ofInt _)

theorem discreet_objectText (receiver : Value) :
    Discreet s quiet pre (objectText receiver) fun v => v ≠ s := by
  refine Discreet.ask_bind fun name => ?_
  split
  · refine Discreet.ask_bind fun found => ?_
    cases found with
    | ok o => exact discreet_newText _
    | error u => exact discreet_fault u
  · exact discreet_newText _

theorem discreet_verdict (g : Machine → Except Fault Bool) :
    Discreet s quiet pre (do return .ofBool (← ofExcept (← ask g))) fun v => v ≠ s := by
  refine Discreet.ask_bind fun found => ?_
  cases found with
  | ok b => exact discreet_immediate (isRef_ofBool b)
  | error u => exact discreet_fault u

theorem discreet_objectKindOf (receiver : Value) {args : List Value} (hargs : pre → s ∉ args) :
    Discreet s quiet pre (objectKindOf receiver args) fun v => v ≠ s := by
  refine (discreet_argument hargs 0).andThen fun cls => Discreet.ask_bind fun found => ?_
  cases found with
  | none => exact Discreet.ask_bind fun _ => discreet_raiseError _ _
  | some _ => exact discreet_verdict _

theorem discreet_arrayAt (receiver : Value) {args : List Value} (hargs : pre → s ∉ args) :
    Discreet s quiet pre (arrayAt receiver args) fun v => v ≠ s := by
  refine (discreet_argument hargs 0).andThen fun index => ?_
  cases index.fixnum? with
  | none => exact Discreet.ask_bind fun _ => discreet_raiseError _ _
  | some i =>
    refine (discreet_read Facet.lawful_array receiver).bind fun items => ?_
    dsimp only
    split
    · rename_i item hitem
      refine discreet_pure fun h => ?_
      rintro rfl
      refine Body.avoids_array.mp h.2 ?_
      generalize (if i < 0 then i + items.size else i) = place at hitem
      split at hitem
      · cases hitem
      · exact Array.mem_of_getElem? hitem
    · exact discreet_raiseError _ _

theorem discreet_exceptionText (receiver : Value) :
    Discreet s quiet pre (exceptionText receiver) fun v => v ≠ s := by
  refine (discreet_read Facet.lawful_exception receiver).bind fun e => Discreet.ask_bind fun found => ?_
  cases found with
  | some _ => exact discreet_pure fun h => (Body.avoids_exception.mp h.2).1
  | none => exact discreet_newText _

end Effect

/-! ### Tables and objects in the hands of programs -/

theorem Table.avoids_dangle {t : Table} (ht : (Body.table t).Avoids s) (hs : s.isRef = true) :
    (Body.table t.dangle).Avoids s := by
  have hnew := avoids_prepend ht 0 (nil_ne hs) (nil_ne hs)
  unfold dangle
  split
  · exact ht
  · dsimp only
    split
    · rename_i hunlink
      exact avoids_adjust (avoids_unlink hnew hunlink).1 _ fun _ h => h
    · exact ht

theorem Effect.discreet_drain {iter : Value} (hiter : pre → iter ≠ s) :
    ∀ fuel n : Nat, Discreet s quiet pre (drain iter fuel n) fun _ => True
  | 0, n => discreet_skip
  | fuel + 1, n => by
    have hcurrent : Discreet s quiet pre (Dictionary.current iter) _ := Dictionary.discreet_current iter
    refine (Dictionary.discreet_next hiter).andThen fun more => ?_
    cases more with
    | true =>
      exact (hcurrent.andThen fun _ => discreet_skip).andThen fun _ =>
        (hcurrent.andThen fun _ => discreet_skip).andThen fun _ => Discreet.ask_bind fun _ =>
          Discreet.ask_bind fun _ => (discreet_report _).andThen fun _ =>
            discreet_drain hiter fuel (n + 1)
    | false => exact discreet_skip

/-- Replacing values brings a value in only where it makes it of another one. -/
theorem Body.Avoids.mapEdges {b : Body} (hb : b.Avoids s) {f : Value → Value}
    (hf : ∀ v, v ≠ s → f v ≠ s) : (b.mapEdges f).Avoids s := by
  cases b with
  | plain v => exact Body.avoids_plain.mpr (hf v (Body.avoids_plain.mp hb))
  | cls c =>
    obtain ⟨hname, hsuper, hmethods⟩ := Body.avoids_cls.mp hb
    exact Body.avoids_cls.mpr ⟨hf _ hname, hf _ hsuper, hf _ hmethods⟩
  | array items =>
    refine Body.avoids_array.mpr fun hmem => ?_
    obtain ⟨v, hv, heq⟩ := Array.mem_map.mp hmem
    exact hf v (fun h => Body.avoids_array.mp hb (h ▸ hv)) heq
  | table t =>
    refine Body.avoids_table fun id e he => ?_
    rw [Table.get?_eq_some_iff, Array.getElem?_map] at he
    obtain ⟨slot, hslot, heq⟩ := Option.map_eq_some_iff.mp he
    obtain ⟨hgeneration, hentry⟩ := EntrySlot.mk.inj heq
    obtain ⟨e₀, he₀, rfl⟩ := Option.map_eq_some_iff.mp hentry
    have hget : t.get? id = some e₀ :=
      Table.get?_eq_some_iff.mpr (hslot.trans (by rw [← hgeneration, ← he₀]))
    exact ⟨hf _ (hb.entry hget).1, hf _ (hb.entry hget).2⟩
  | iterator i => exact Body.avoids_iterator.mpr (hf _ (Body.avoids_iterator.mp hb))
  | exception e =>
    obtain ⟨hmessage, htrace, hcontext, hattributes⟩ := Body.avoids_exception.mp hb
    exact Body.avoids_exception.mpr ⟨hf _ hmessage, hf _ htrace, hf _ hcontext, hf _ hattributes⟩
  | text t => exact hb
  | bignum n => exact hb
  | float x => exact hb
  | native method => exact hb

theorem addToFixnum_ne (hs : s.isRef = true) (amount : Int) {v : Value} (hv : v ≠ s) :
    addToFixnum amount v ≠ s := by
  unfold addToFixnum
  split
  · exact ne_of_not_isRef hs (isRef_ofInt _)
  · exact hv

/-! ### Messages -/

namespace DiscreetCalls

theorem exhausted : DiscreetCalls s Calls.exhausted :=
  ⟨fun _ _ _ _ => discreet_fault _, fun _ _ => discreet_fault _⟩

variable {calls : Calls} (hcalls : DiscreetCalls s calls)

include hcalls

theorem fetch {table key : Value} (htable : pre → table ≠ s) (hkey : pre → key ≠ s) :
    Discreet s False pre (calls.fetch table key) fun v => v ≠ s := by
  refine (Dictionary.discreet_lookup hcalls.keys htable hkey).bind fun found => ?_
  cases found with
  | some v => exact discreet_pure fun h => h.2 v rfl
  | none => exact (hcalls.display fun h => hkey h.1).andThen fun _ => discreet_raiseError _ _

theorem perform (p : Primitive) {receiver : Value} {args : List Value} (hreceiver : pre → receiver ≠ s)
    (hargs : pre → s ∉ args) : Discreet s False pre (p.perform calls receiver args) fun v => v ≠ s := by
  have hsame : ∀ {pre : Prop}, (pre → receiver ≠ s) →
      Discreet s False pre (pure receiver : Effect Value) fun v => v ≠ s := fun h => discreet_pure h
  cases p with
  | compare c => exact discreet_compareNumbers _ _ hargs
  | numberHash => exact discreet_numberHash _
  | fixnumBinary op =>
    exact (discreet_argument hargs 0).andThen fun _ => (discreet_expectFixnum _).andThen fun _ =>
      discreet_binary _ _ _ _
  | fixnumNegate => exact (discreet_expectFixnum _).andThen fun _ => discreet_newInteger _
  | fixnumIdentity => exact (discreet_expectFixnum _).andThen fun _ => hsame hreceiver
  | fixnumInvert => exact (discreet_expectFixnum _).shown fun _ => isRef_ofInt _
  | fixnumText => exact (discreet_expectFixnum _).andThen fun _ => discreet_newText _
  | bignumBinary op =>
    exact (discreet_argument hargs 0).andThen fun _ => (discreet_look _ _).andThen fun _ =>
      discreet_binary _ _ _ _
  | bignumNegate => exact (discreet_look _ _).andThen fun _ => discreet_newInteger _
  | bignumIdentity => exact (discreet_look _ _).andThen fun _ => hsame hreceiver
  | bignumInvert => exact (discreet_look _ _).andThen fun _ => discreet_newInteger _
  | bignumText => exact (discreet_look _ _).andThen fun _ => discreet_newText _
  | floatBinary op =>
    exact (discreet_argument hargs 0).andThen fun _ => (discreet_look _ _).andThen fun _ =>
      discreet_binary _ _ _ _
  | floatNegate => exact (discreet_look _ _).andThen fun _ => discreet_newFloat _
  | floatIdentity => exact (discreet_look _ _).andThen fun _ => hsame hreceiver
  | floatText => exact (discreet_look _ _).andThen fun _ => discreet_newText _
  | objectEqual => exact (discreet_argument hargs 0).shown fun _ => isRef_ofBool _
  | objectNotEqual =>
    refine (discreet_argument hargs 0).bind fun other => Discreet.shown
      (hcalls.send "==" (fun h => hreceiver h.1) fun h hmem => ?_) fun _ => isRef_ofBool _
    exact h.2 (List.mem_singleton.mp hmem).symm
  | objectHash => exact discreet_objectHash _
  | objectText => exact discreet_objectText _
  | objectClass => exact discreet_classOf _
  | objectKindOf => exact discreet_objectKindOf _ hargs
  | classNew => exact discreet_instantiate hreceiver
  | className => exact Discreet.ask_bind fun _ => discreet_newText _
  | nilText => exact discreet_newText _
  | boolText => exact discreet_newText _
  | symbolText => exact Discreet.ask_bind fun _ => discreet_newText _
  | stringEqual =>
    exact (discreet_argument hargs 0).andThen fun _ => (discreet_look _ _).andThen fun _ =>
      Discreet.ask_bind fun _ => discreet_immediate (isRef_ofBool _)
  | stringHash => exact (discreet_look _ _).shown fun _ => isRef_ofInt _
  | stringText => exact (discreet_look _ _).andThen fun _ => hsame hreceiver
  | stringConcat =>
    refine (discreet_argument hargs 0).andThen fun other => Discreet.ask_bind fun found => ?_
    cases found with
    | none => exact discreet_unsupportedOperands _ _ _
    | some rhs => exact (discreet_look _ _).andThen fun _ => discreet_newText _
  | stringSize => exact (discreet_look _ _).shown fun _ => isRef_ofInt _
  | stringToNumber => exact (discreet_look _ _).andThen fun _ => discreet_parseNumber _
  | arraySize => exact (discreet_look _ _).shown fun _ => isRef_ofInt _
  | arrayAt => exact discreet_arrayAt _ hargs
  | arrayPush =>
    refine (discreet_argument hargs 0).bind fun item => Discreet.andThen (discreet_write
      Facet.lawful_array nofun (fun h => hreceiver h.1) fun h items hitems => ?_)
      fun _ => hsame fun h => hreceiver h.1
    refine Body.avoids_array.mpr fun hmem => ?_
    rcases Array.mem_push.mp hmem with hmem | heq
    · exact Body.avoids_array.mp hitems hmem
    · exact h.2 heq.symm
  | dictFetch =>
    exact (discreet_argument hargs 0).bind fun _ => hcalls.fetch (fun h => hreceiver h.1) And.right
  | dictStore =>
    exact (discreet_argument hargs 1).bind fun _ => (discreet_argument (fun h => hargs h.1) 0).bind
      fun _ => (Dictionary.discreet_insert hcalls.keys (fun h => hreceiver h.1.1) And.right
        fun h => h.1.2).andThen fun _ => discreet_pure fun h => h.1.2
  | dictGet =>
    refine (discreet_argument hargs 0).bind fun _ => Discreet.knowing (Discreet.map
      (Dictionary.discreet_lookup hcalls.keys (fun h => hreceiver h.1.1) fun h => h.1.2)
      fun found h hfound => ?_)
    cases found with
    | none => exact nil_ne h.2
    | some v => exact hfound v rfl
  | dictInclude =>
    exact (discreet_argument hargs 0).bind fun _ => (Dictionary.discreet_lookup hcalls.keys
      (fun h => hreceiver h.1) And.right).shown fun _ => isRef_ofBool _
  | dictDelete =>
    refine (discreet_argument hargs 0).bind fun _ => Discreet.knowing (Discreet.map
      (Dictionary.discreet_delete hcalls.keys (fun h => hreceiver h.1.1) fun h => h.1.2)
      fun found h hfound => ?_)
    cases found with
    | none => exact nil_ne h.2
    | some v => exact hfound v rfl
  | dictSize => exact ((discreet_look _ _).andThen fun _ => discreet_skip).shown fun _ => isRef_ofInt _
  | exceptionText => exact discreet_exceptionText _
  | exceptionMessage =>
    exact (discreet_read Facet.lawful_exception _).map fun _ _ h => (Body.avoids_exception.mp h).1

theorem invoke {receiver : Value} {args : List Value} {code : Code} (hreceiver : pre → receiver ≠ s)
    (hargs : pre → s ∉ args) (hcode : pre → code.Avoids s) :
    Discreet s False pre (calls.invoke receiver args code) fun v => v ≠ s := by
  cases code with
  | primitive p => exact hcalls.perform p hreceiver hargs
  | program body =>
    refine (discreet_setSession
      (g := fun x => { x with activations := ⟨receiver, args⟩ :: x.activations })
      (fun _ _ h => h) (fun hp x h a ha => ?_) fun _ _ h => h).andThen fun _ => ?_
    · rcases List.mem_cons.mp ha with rfl | ha
      · exact ⟨hreceiver hp, hargs hp⟩
      · exact h a ha
    refine (hcalls.run body hcode).outcome.bind fun r => ?_
    refine (discreet_setSession (g := fun x => { x with activations := x.activations.tail })
      (fun _ _ h => h) (fun _ x h a ha => h a (List.mem_of_mem_tail ha)) fun _ _ h => h).andThen
      fun _ => discreet_resume And.right

/-- Sending a message interns its name first. -/
theorem callMethod {receiver : Value} {args : List Value} (hreceiver : pre → receiver ≠ s)
    (hargs : pre → s ∉ args) :
    Spells s name False pre (calls.callMethod receiver name args) fun v => v ≠ s := by
  refine Spells.withHandles (Spells.pinAll_bind (fun hp hmem => ?_) (spells_intern.bind
    fun selector => ?_))
  · rcases List.mem_cons.mp hmem with heq | hmem
    · exact hreceiver hp heq.symm
    · exact hargs hp hmem
  refine (discreet_classOf receiver).andThen fun cls =>
    (discreet_findMethod fun h => h.2).andThen fun found => ?_
  cases found with
  | none => exact Discreet.ask_bind fun _ => discreet_raiseError _ _
  | some method =>
    refine (discreet_read Facet.lawful_native method).bind fun native => ?_
    dsimp only
    split
    · exact discreet_raiseError _ _
    · refine Discreet.ask_bind fun _ => Discreet.callFrame hcalls.run _ _ _ ?_
      exact hcalls.invoke (fun h => hreceiver h.1.1) (fun h => hargs h.1.1)
        fun h => Body.avoids_native.mp h.2

/-! ### Operations -/

theorem objectOp (op : ObjectOp) {vs : List Value} (hvs : pre → s ∉ vs) :
    Discreet s False pre (op.perform calls vs) fun v => v ≠ s := by
  have hreport : ∀ {pre : Prop} (r : Report),
      Discreet s False pre (report r >>= fun _ => pure .nil) fun v => v ≠ s := fun r =>
    (discreet_report r).shown fun _ => rfl
  have hmem : ∀ {v : Value}, v ∈ vs → pre → v ≠ s := fun hv hp heq => hvs hp (heq ▸ hv)
  unfold ObjectOp.perform
  split
  · exact discreet_immediate (isRef_ofBool _)
  · exact discreet_immediate (isRef_ofBool _)
  · exact (hcalls.callMethod (hmem (by simp))
      fun hp hin => hvs hp (List.mem_cons_of_mem _ hin)).toDiscreet
  · exact hcalls.perform _ (hmem (by simp)) fun hp hin => hvs hp (List.mem_cons_of_mem _ hin)
  · exact (hcalls.display (hmem (by simp))).andThen fun _ => (discreet_report _).andThen fun _ =>
      discreet_pure (hmem (by simp))
  · exact discreet_instantiate (hmem (by simp))
  · exact discreet_newClass (hmem (by simp))
  · exact discreet_orAbsent (discreet_findMethod (hmem (by simp)))
  · exact discreet_verdict _
  · exact discreet_verdict _
  · exact discreet_classOf _
  · exact Discreet.ask_bind fun _ => hreport _
  · exact Discreet.ask_bind fun _ => hreport _
  · exact (spells_getAttribute (hmem (by simp))).toDiscreet
  · exact (spells_setAttribute (hmem (by simp)) (hmem (by simp))).toDiscreet.shown fun _ => rfl
  · exact (spells_setGlobal (hmem (by simp))).toDiscreet.shown fun _ => rfl
  · exact Discreet.ask_bind fun _ => hreport _
  · refine discreet_immediate ?_
    cases Value.symbol? _ with
    | none => rfl
    | some n => exact isRef_ofInt n
  · exact discreet_newArray hvs
  · exact discreet_fault _

theorem tableOp (op : TableOp) {vs : List Value} (hvs : pre → s ∉ vs) :
    Discreet s False pre (op.perform calls vs) fun v => v ≠ s := by
  have hmem : ∀ {v : Value}, v ∈ vs → pre → v ≠ s := fun hv hp heq => hvs hp (heq ▸ hv)
  unfold TableOp.perform
  split
  · exact discreet_newTable _ _
  · exact (Dictionary.discreet_insert hcalls.keys (hmem (by simp)) (hmem (by simp))
      (hmem (by simp))).shown fun _ => isRef_ofBool _
  · exact (Dictionary.discreet_add hcalls.keys (hmem (by simp)) (hmem (by simp))
      (hmem (by simp))).shown fun _ => rfl
  · exact discreet_orAbsent (Dictionary.discreet_lookup hcalls.keys (hmem (by simp)) (hmem (by simp)))
  · exact discreet_orAbsent (Dictionary.discreet_delete hcalls.keys (hmem (by simp)) (hmem (by simp)))
  · exact discreet_orAbsent
      (Dictionary.discreet_deleteSafe hcalls.keys (hmem (by simp)) (hmem (by simp)))
  · exact hcalls.fetch (hmem (by simp)) (hmem (by simp))
  · exact discreet_orAbsent (Dictionary.discreet_lookupText _ _)
  · exact (Dictionary.discreet_cleanupSafe (hmem (by simp))).shown fun _ => isRef_ofInt _
  · exact ((discreet_look _ _).andThen fun _ => discreet_skip).shown fun _ => isRef_ofInt _
  · exact Dictionary.discreet_copy _
  · exact (Dictionary.discreet_dump _).andThen fun _ => (discreet_report _).shown fun _ => rfl
  · exact (discreet_look _ _).andThen fun _ => (discreet_report _).shown fun _ => rfl
  · exact Discreet.knowing (Discreet.shown (Dictionary.discreet_writeTable
      (fun h => hmem (by simp) h.1) fun h _ ht => Table.avoids_dangle ht h.2) fun _ => rfl)
  · exact Dictionary.discreet_iterator (hmem (by simp))
  · exact (Dictionary.discreet_next (hmem (by simp))).shown fun _ => isRef_ofBool _
  · exact (Dictionary.discreet_current _).map fun _ _ h => h.1
  · exact (Dictionary.discreet_current _).map fun _ _ h => h.2
  · exact Discreet.ask_bind fun _ => (discreet_drain (hmem (by simp)) _ _).shown fun _ => isRef_ofInt _
  · refine (discreet_look _ _).andThen fun _ => (discreet_look _ _).andThen fun _ =>
      Discreet.shown (discreet_write Facet.lawful_iterator nofun (hmem (by simp)) fun _ i hi => ?_)
        fun _ => rfl
    have htable : i.table ≠ s := Body.avoids_iterator.mp hi
    exact Body.avoids_iterator.mpr htable
  · exact discreet_fault _

omit hcalls in
theorem frameOp (op : FrameOp) {vs : List Value} (hvs : pre → s ∉ vs) :
    Discreet s False pre (op.perform vs) fun v => v ≠ s := by
  have hmem : ∀ {v : Value}, v ∈ vs → pre → v ≠ s := fun hv hp heq => hvs hp (heq ▸ hv)
  have hreport : ∀ (g : Machine → Report),
      Discreet s False pre (ask g >>= fun r => report r >>= fun _ => pure .nil) fun v => v ≠ s :=
    fun _ => Discreet.ask_bind fun r => (discreet_report r).shown fun _ => rfl
  unfold FrameOp.perform
  split
  · exact discreet_raiseError _ _
  · exact discreet_raiseValue (hmem (by simp))
  · exact discreet_fault _
  · exact discreet_newException (hmem (by simp)) _
  · exact discreet_verdict _
  · exact (discreet_discardException _ _).shown fun _ => rfl
  · exact hreport _
  · exact hreport _
  · exact Discreet.ask_bind fun _ => (discreet_report _).shown fun _ => rfl
  · exact hreport _
  · exact discreet_fault _

omit hcalls in
/-- Only the mark of the collector is out of reach. -/
theorem heapOp {op : HeapOp} {vs : List Value} (hop : pre → op ≠ .flags .add .marked)
    (hvs : pre → s ∉ vs) : Discreet s False pre (op.perform vs) fun v => v ≠ s := by
  have hmem : ∀ {v : Value}, v ∈ vs → pre → v ≠ s := fun hv hp heq => hvs hp (heq ▸ hv)
  have hreport : ∀ {pre : Prop} (r : Report),
      Discreet s False pre (report r >>= fun _ => pure .nil) fun v => v ≠ s := fun r =>
    (discreet_report r).shown fun _ => rfl
  have hobject : ∀ {pre : Prop} (v : Value), Discreet s False pre (getObject v) fun _ => True :=
    fun v => (discreet_object v).imp id fun _ _ _ => trivial
  have hcollection : ∀ {pre : Prop}, Discreet s False pre reportCollection fun _ => True :=
    Discreet.ask_bind fun _ => discreet_report _
  unfold HeapOp.perform
  split
  · exact (discreet_collectWith []).andThen fun _ => hcollection.shown fun _ => rfl
  · exact hcollection.shown fun _ => rfl
  · rename_i on
    have henable : Discreet s False pre
        (update fun m => { m with heap := { m.heap with enabled := on } }) fun _ => True := by
      refine discreet_update (fun _ => le_rfl) (fun _ => rfl) (fun _ m hm _ => ?_) fun _ => trivial
      obtain ⟨hempty, hnodup, hgeneration⟩ := hm.heap.sound
      exact hm.with_heap m.events
        ⟨⟨hempty, hnodup, hgeneration⟩, hm.heap.unmarked, hm.heap.objects, hm.heap.table⟩
    exact henable.shown fun _ => rfl
  · exact Discreet.ask_bind fun _ => discreet_immediate (isRef_ofBool _)
  · exact Discreet.ask_bind fun _ => discreet_immediate (isRef_ofBool _)
  · exact (hobject _).andThen fun _ => hreport _
  · exact Discreet.ask_bind fun _ => hreport _
  · exact (hobject _).shown fun _ => isRef_ofInt _
  · rename_i change flag v
    refine (hobject v).andThen fun _ => Discreet.andThen (discreet_modifyObject (hmem (by simp))
      fun hp o hmarked ho => ⟨⟨ho.cls, ho.body⟩, ?_, rfl⟩) fun _ =>
        (hobject v).andThen fun _ => hreport _
    have hchange := hop hp
    cases change <;> cases flag
    · exact absurd rfl hchange
    · rfl
    · exact hmarked.symm
    · rfl
    · rfl
    · rfl
  · exact (hobject _).andThen fun _ => hreport _
  · rename_i amount v
    refine (hobject v).andThen fun _ => Discreet.knowing (Discreet.andThen (discreet_modifyObject
      (fun h => hmem (by simp) h.1) fun h o _ ho => ?_) fun _ =>
        discreet_pure fun h => hmem (by simp) h.1)
    have hadd : ∀ w, w ≠ s → addToFixnum amount w ≠ s := fun w => addToFixnum_ne h.2 amount
    obtain ⟨cls, flags, serial, body⟩ := o
    refine ⟨⟨hadd _ ho.cls, ho.body.mapEdges hadd⟩, rfl, ?_⟩
    cases body <;> rfl
  · exact Discreet.ask_bind fun _ => hreport _
  · exact discreet_fault _

theorem operation {op : Operation} {vs : List Value} (hop : pre → op ≠ .heap (.flags .add .marked))
    (hvs : pre → s ∉ vs) : Discreet s False pre (op.perform calls vs) fun v => v ≠ s := by
  cases op with
  | object op => exact hcalls.objectOp op hvs
  | table op => exact hcalls.tableOp op hvs
  | frame op => exact frameOp op hvs
  | heap op => exact heapOp (fun hp heq => hop hp (heq ▸ rfl)) hvs

end DiscreetCalls

/-! ### Registers -/

namespace Effect

theorem discreet_getRegister (name : String) :
    Discreet s quiet pre (getRegister name) fun v => v ≠ s := by
  refine Discreet.ask_bind fun session => ?_
  cases session.registerNames.idxOf? name with
  | none => exact discreet_immediate rfl
  | some place =>
    refine Discreet.knowing ((discreet_read Facet.lawful_array _).map fun items h hitems => ?_)
    rw [Array.getD_eq_getD_getElem?]
    cases hitem : items[place]? with
    | none => exact nil_ne h.2
    | some v =>
      rintro rfl
      exact Body.avoids_array.mp hitems (Array.mem_of_getElem? hitem)

/-- What is read as an array is not the table of symbols. -/
theorem discreet_readArray (v : Value) : Discreet s quiet pre (read Facet.array v) fun _ => v ≠ s := by
  refine discreet_reading _ _ fun m items hm h => ?_
  rintro rfl
  obtain ⟨t, ht, -⟩ := hm.heap.table
  obtain ⟨o, ho, hb⟩ := Heap.read_eq_ok_iff.mp ht
  obtain ⟨o', ho', hb'⟩ := Heap.read_eq_ok_iff.mp h
  obtain rfl := Option.some.inj (ho.symm.trans ho')
  rw [← Facet.lawful_table.put_eq hb] at hb'
  cases hb'

theorem discreet_setRegister (name : String) {v : Value} (hv : pre → v ≠ s) :
    Discreet s quiet pre (setRegister name v) fun _ => True := by
  have hwrite : ∀ (registers : Value) (place : Nat), Discreet s quiet pre
      (write Facet.array registers (·.setIfInBounds place v)) fun _ => True := by
    refine fun registers place => (discreet_readArray registers).bind fun _ =>
      discreet_modify Facet.lawful_array nofun And.right fun h items hitems => ?_
    refine Body.avoids_array.mpr fun hmem => ?_
    rcases Array.mem_or_eq_of_mem_setIfInBounds hmem with hmem | heq
    · exact Body.avoids_array.mp hitems hmem
    · exact hv h.1 heq.symm
  refine Discreet.ask_bind fun session => ?_
  dsimp only
  split
  · refine (discreet_setSession (g := fun x => { x with registerNames := x.registerNames ++ [name] })
      (fun _ _ h => h) (fun _ _ h => h) fun _ _ h => h).andThen fun _ => hwrite _ _
  · exact hwrite _ _

theorem discreet_getWeak (name : String) : Discreet s quiet pre (getWeak name) fun v => v ≠ s := by
  refine discreet_ask fun _ m hm => ?_
  cases hv : m.session.weak.lookup name with
  | none => exact nil_ne hm.isRef
  | some v =>
    have hmem : ∀ l : List (String × Value), l.lookup name = some v → (name, v) ∈ l := by
      intro l hl
      obtain ⟨l₁, l₂, rfl, -⟩ := List.lookup_eq_some_iff.mp hl
      simp
    exact hm.weak (name, v) (hmem _ hv)

theorem discreet_setWeak (name : String) {v : Value} (hv : pre → v ≠ s) :
    Discreet s quiet pre (setWeak name v) fun _ => True := by
  refine discreet_setSession (g := fun x => { x with
    weak := (name, v) :: x.weak.filter (·.1 != name) }) (fun hp x h p hmem => ?_) (fun _ _ h => h)
    fun _ _ h => h
  rcases List.mem_cons.mp hmem with rfl | hmem
  · exact hv hp
  · exact h p (List.mem_of_mem_filter hmem)

theorem discreet_self : Discreet s quiet pre self fun v => v ≠ s := by
  refine discreet_ask fun _ m hm => ?_
  cases h : m.session.activations.head? with
  | none => exact nil_ne hm.isRef
  | some a => exact (hm.activations a (List.mem_of_mem_head? h)).1

theorem discreet_selfArgument (index : Nat) :
    Discreet s quiet pre (selfArgument index) fun v => v ≠ s := by
  refine discreet_ask fun _ m hm => ?_
  cases h : m.session.activations.head? with
  | none => exact absent_ne hm.isRef
  | some a =>
    simp only [Option.bind_some]
    cases hv : a.arguments[index]? with
    | none => exact absent_ne hm.isRef
    | some v =>
      rintro rfl
      exact (hm.activations a (List.mem_of_mem_head? h)).2 (List.mem_of_getElem? hv)

theorem discreet_currentResource : Discreet s quiet pre currentResource fun v => v ≠ s := by
  refine discreet_ask fun _ m hm => ?_
  cases h : m.session.resources.head? with
  | none => exact nil_ne hm.isRef
  | some v =>
    rintro rfl
    exact hm.resources (List.mem_of_mem_head? h)

theorem discreet_forCount {body : Nat → Effect Unit}
    (hbody : ∀ i, Discreet s quiet pre (body i) fun _ => True) :
    ∀ remaining start, Discreet s quiet pre (forCount body remaining start) fun _ => True
  | 0, _ => discreet_skip
  | remaining + 1, start => (hbody start).andThen fun _ => discreet_forCount hbody remaining (start + 1)

end Effect

/-! ### Programs -/

namespace Program

variable {calls : Calls}

mutual

theorem discreet_eval (hcalls : DiscreetCalls s calls) : ∀ (p : Program) {pre : Prop},
    (pre → p.Avoids s) → Discreet s False pre (p.eval calls) fun v => v ≠ s
  | .constant v, _, hp => by
    rw [eval]
    exact discreet_pure fun h => by simpa only [Avoids] using hp h
  | .text t, _, _ => by
    rw [eval]
    exact discreet_newText t
  | .bignum n, _, _ => by
    rw [eval]
    exact discreet_newBignum n
  | .integer n, _, _ => by
    rw [eval]
    exact discreet_newInteger n
  | .float x, _, _ => by
    rw [eval]
    exact discreet_newFloat x
  | .symbol name, _, _ => by
    rw [eval]
    exact discreet_intern
  | .register name, _, _ => by
    rw [eval]
    exact discreet_getRegister name
  | .global name, _, _ => by
    rw [eval]
    exact discreet_orAbsent spells_getGlobal.toDiscreet
  | .weak name, _, _ => by
    rw [eval]
    exact discreet_getWeak name
  | .self, _, _ => by
    rw [eval]
    exact discreet_self
  | .argument index, _, _ => by
    rw [eval]
    exact discreet_selfArgument index
  | .resource, _, _ => by
    rw [eval]
    exact discreet_currentResource
  | .sequence steps, _, hp => by
    rw [eval]
    exact Discreet.knowing (discreet_evalSteps hcalls .nil steps (fun h => nil_ne h.2) fun h => by
      simpa only [Avoids] using hp h.1)
  | .branch condition yes no, _, hp => by
    simp only [Avoids] at hp
    rw [eval]
    refine (discreet_eval hcalls condition fun h => (hp h).1).andThen fun v => ?_
    split
    · exact discreet_eval hcalls yes fun h => (hp h).2.1
    · exact discreet_eval hcalls no fun h => (hp h).2.2
  | .iterate count target body, _, hp => by
    simp only [Avoids] at hp
    rw [eval]
    refine (discreet_forCount (fun i => ?_) count 0).shown fun _ => rfl
    refine Discreet.knowing ((discreet_setRegister _ fun h => ?_).andThen fun _ =>
      (discreet_eval hcalls body fun h => hp h.1).andThen fun _ => discreet_skip)
    exact ne_of_not_isRef h.2 (isRef_ofInt _)
  | .setRegister name body, _, hp => by
    simp only [Avoids] at hp
    rw [eval]
    exact (discreet_eval hcalls body hp).bind fun _ => (discreet_setRegister _ And.right).andThen
      fun _ => discreet_pure And.right
  | .setWeak name body, _, hp => by
    simp only [Avoids] at hp
    rw [eval]
    exact (discreet_eval hcalls body hp).bind fun _ => (discreet_setWeak _ And.right).andThen
      fun _ => discreet_pure And.right
  | .note content, _, _ => by
    rw [eval]
    exact (discreet_report _).shown fun _ => rfl
  | .observe body, _, hp => by
    simp only [Avoids] at hp
    rw [eval]
    exact (discreet_eval hcalls body hp).bind fun _ => Discreet.andThen
      (Discreet.ask_bind fun _ => discreet_report _) fun _ => discreet_pure And.right
  | .apply op operands, _, hp => by
    simp only [Avoids] at hp
    rw [eval]
    exact Discreet.withHandles ((discreet_evalOperands hcalls operands fun h => (hp h).2).bind
      fun vs => hcalls.operation (fun h => (hp h.1).1) And.right)
  | .defineMethod cls name arity body, _, hp => by
    simp only [Avoids] at hp
    rw [eval]
    refine Discreet.withHandles ((discreet_eval hcalls cls fun h => (hp h).1).bind fun c =>
      (discreet_pin And.right).andThen fun _ => Discreet.shown
        (spells_defineMethod And.right fun h => ?_).toDiscreet fun _ => rfl)
    exact (hp h.1).2
  | .forEach table keyRegister valueRegister body, _, hp => by
    simp only [Avoids] at hp
    rw [eval]
    refine Discreet.withHandles ((discreet_eval hcalls table fun h => (hp h).1).bind fun t =>
      (discreet_pin And.right).andThen fun _ => Discreet.shown (Dictionary.discreet_forEach And.right
        (fun key record => ?_) _) fun _ => isRef_ofBool _)
    exact (discreet_setRegister _ fun h => h.2.1).andThen fun _ =>
      (discreet_setRegister _ fun h => h.2.2).andThen fun _ =>
        (discreet_eval hcalls body fun h => (hp h.1.1).2).andThen fun _ => discreet_skip
  | .frame kind name receiver body, _, hp => by
    simp only [Avoids] at hp
    rw [eval]
    exact Discreet.withHandles ((discreet_eval hcalls receiver fun h => (hp h).1).bind fun r =>
      (discreet_pin And.right).andThen fun _ =>
        (discreet_eval hcalls body fun h => (hp h.1).2).callFrame hcalls.run _ _ _)
  | .frameValues name items, _, hp => by
    simp only [Avoids] at hp
    rw [eval]
    exact ((discreet_evalOperands hcalls items hp).withHandles.callFrame hcalls.run _ _ _).andThen
      fun vs => Discreet.ask_bind fun _ => (discreet_report _).shown fun _ => rfl
  | .frameOption name body, _, hp => by
    simp only [Avoids] at hp
    rw [eval]
    have hbody : Discreet s False _ (do
        let v ← eval calls body
        return if v.isAbsent then none else some v) fun _ => True :=
      (discreet_eval hcalls body hp).andThen fun _ => discreet_skip
    exact (hbody.callFrame hcalls.run _ _ _).andThen fun o =>
      Discreet.ask_bind fun _ => (discreet_report _).shown fun _ => rfl
  | .framePair name body, _, hp => by
    simp only [Avoids] at hp
    rw [eval]
    have hbody : Discreet s False _ (do
        let v ← eval calls body
        return (← ask (·.frames.length), v)) fun _ => True :=
      (discreet_eval hcalls body hp).andThen fun _ => Discreet.ask_bind fun _ => discreet_skip
    exact (hbody.callFrame hcalls.run _ _ _).andThen fun o =>
      Discreet.ask_bind fun _ => (discreet_report _).shown fun _ => rfl
  | .cleanup guarded body, _, hp => by
    simp only [Avoids] at hp
    rw [eval]
    exact Discreet.withHandles ((discreet_eval hcalls guarded fun h => (hp h).1).bind fun r =>
      (discreet_pin And.right).andThen fun _ =>
        (discreet_addCleanup fun h => ⟨h.2, (hp h.1).2⟩).shown fun _ => rfl)
  | .ensure body last, _, hp => by
    simp only [Avoids] at hp
    rw [eval]
    exact (discreet_eval hcalls body fun h => (hp h).1).ensure hcalls.run fun h => (hp h).2
  | .rescue classes body target handler, _, hp => by
    simp only [Avoids] at hp
    rw [eval]
    refine Discreet.withHandles ((discreet_evalOperands hcalls classes fun h => (hp h).1).andThen
      fun cs => (discreet_eval hcalls body fun h => (hp h).2.1).rescue cs fun exc => ?_)
    exact (discreet_setRegister _ And.right).andThen fun _ =>
      discreet_eval hcalls handler fun h => (hp h.1).2.2
  | .execute name body, _, hp => by
    simp only [Avoids] at hp
    rw [eval]
    refine ((discreet_eval hcalls body hp).execute hcalls.run _).bind fun t =>
      Discreet.ask_bind fun _ => (discreet_report _).andThen fun _ => ?_
    split
    · exact discreet_pure fun h => h.2 _ rfl
    · exact discreet_immediate rfl
  | .scope items body, _, hp => by
    simp only [Avoids] at hp
    rw [eval]
    refine Discreet.withHandles ((discreet_evalOperands hcalls items fun h => (hp h).1).andThen
      fun vs => Discreet.ask_bind fun top => (discreet_report _).andThen fun _ =>
        (discreet_eval hcalls body fun h => (hp h).2).bind fun v => ?_)
    split
    · exact discreet_pure And.right
    · exact (discreet_setHandle _ And.right).andThen fun _ => discreet_getHandle _

theorem discreet_evalOperands (hcalls : DiscreetCalls s calls) : ∀ (ps : List Program) {pre : Prop},
    (pre → AllAvoid s ps) → Discreet s False pre (evalOperands calls ps) fun vs => s ∉ vs
  | [], _, _ => by
    rw [evalOperands]
    exact discreet_pure fun _ => List.not_mem_nil
  | p :: rest, _, hps => by
    simp only [AllAvoid] at hps
    rw [evalOperands]
    refine (discreet_eval hcalls p fun h => (hps h).1).bind fun v =>
      (discreet_pin And.right).andThen fun _ =>
        (discreet_evalOperands hcalls rest fun h => (hps h.1).2).map fun vs h hvs hmem => ?_
    rcases List.mem_cons.mp hmem with heq | hmem
    · exact h.2 heq.symm
    · exact hvs hmem

theorem discreet_evalSteps (hcalls : DiscreetCalls s calls) : ∀ (last : Value) (ps : List Program)
    {pre : Prop}, (pre → last ≠ s) → (pre → AllAvoid s ps) →
      Discreet s False pre (evalSteps calls last ps) fun v => v ≠ s
  | _, [], _, hlast, _ => by
    rw [evalSteps]
    exact discreet_pure hlast
  | _, p :: rest, _, _, hps => by
    simp only [AllAvoid] at hps
    rw [evalSteps]
    exact (discreet_eval hcalls p fun h => (hps h).1).bind fun v =>
      discreet_evalSteps hcalls v rest And.right fun h => (hps h.1).2

end

end Program

theorem Calls.discreet_toDepth : ∀ depth : Nat, DiscreetCalls s (Calls.toDepth depth)
  | 0 => .exhausted
  | depth + 1 =>
    have hcalls := discreet_toDepth depth
    ⟨fun _ _ hreceiver hargs => (hcalls.callMethod hreceiver hargs).toDiscreet,
      fun p hp => Program.discreet_eval hcalls p hp⟩

end ObjectMachine
