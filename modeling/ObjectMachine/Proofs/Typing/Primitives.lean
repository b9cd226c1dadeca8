import Mathlib.Tactic
import ObjectMachine.Proofs.Typing.Receivers

/-! The built-in methods on typed machines.

A method that got the receiver and the arguments it takes for granted returns a value that programs may
hold, or raises an error.  What the methods of tables send, hashes, comparisons and texts, has to be
answered by calls that can be relied on. -/

namespace ObjectMachine

open Machine Effect

/-- Calls whose messages for hashes, comparisons and texts can be sent at any time, and quietly. -/
structure Calls.Obliging (calls : Calls) : Prop where
  discreet : ∀ s, DiscreetCalls s calls
  send : ∀ {pre : Prop} {m : Machine} {receiver : Value} {name : String} {args : List Value},
    name ∈ internalNames → (m.Typed ∅ → pre → ∀ v ∈ receiver :: args, m.Public v) →
    Behaves True pre (calls.send receiver name args) m fun v m' => m'.Public v

namespace Calls.Obliging

variable {calls : Calls} {quiet pre : Prop} {m : Machine} {table key record : Value}

/-- Keys that are hashed and compared by messages. -/
theorem tame (hcalls : calls.Obliging) : calls.valueKeys.Tame := by
  refine ⟨fun hkey => ?_, fun {pre m key other} hkey hother => ?_⟩
  · refine (hcalls.send (by decide) fun hm h v hv => ?_).bind fun v _ => ?_
    · obtain rfl := List.mem_singleton.mp hv
      exact hkey hm h
    cases v.fixnum? with
    | some n => exact behaves_pure fun _ _ => trivial
    | none => exact behaves_raiseError _ _
  · have hsend : Behaves True pre (calls.send key "==" [other]) m fun v m' => m'.Public v := by
      refine hcalls.send (by decide) fun hm h v hv => ?_
      rcases List.mem_cons.mp hv with rfl | hv
      · exact hkey hm h
      · exact List.mem_singleton.mp hv ▸ hother hm h
    refine hsend.outcome.bind fun r _ => ?_
    rcases r with (exc | f) | v
    · exact (behaves_discardException _ _).bind fun _ _ => behaves_pure fun _ _ => trivial
    · exact .of_never (u := f) rfl fun _ h => h.result
    · exact behaves_pure fun _ _ => trivial

theorem behaves_display (hcalls : calls.Obliging) {v : Value} (hv : m.Typed ∅ → pre → m.Public v) :
    Behaves quiet pre (calls.display v) m fun _ _ => True := by
  refine Behaves.loud ((hcalls.send (by decide) fun hm h w hw => ?_).bind fun text m₁ =>
    Behaves.ask_bind ?_) fun _ => trivial
  · obtain rfl := List.mem_singleton.mp hw
    exact hv hm h
  cases m₁.heap.read? Facet.text text with
  | some s => exact behaves_pure fun _ _ => trivial
  | none => exact behaves_raiseError _ _

/-- The operations on one key of a table that programs may hold use messages for its keys. -/
theorem behaves_of_value {β : Type} {pinned : List Value} {k : Keys → UInt64 → Effect β}
    {goal : β → Machine → Prop} (hg : m.heap.slots.size ≤ ((withHandles do
      pinAll pinned
      let keys ← Dictionary.keysOf calls.keys table
      let hash ← keys.hash key
      k keys hash).after m).heap.slots.size)
    (hp : m.Typed ∅ → pre → ∃ t, m.heap.read Facet.table table = .ok t ∧ t.strategy = .value)
    (h : Behaves quiet pre (withHandles do
      pinAll pinned
      let keys ← Dictionary.keysOf (fun _ => calls.valueKeys) table
      let hash ← keys.hash key
      k keys hash) m goal) :
    Behaves quiet pre (withHandles do
      pinAll pinned
      let keys ← Dictionary.keysOf calls.keys table
      let hash ← keys.hash key
      k keys hash) m goal := by
  by_cases hvalue : ∃ t, m.heap.read Facet.table table = .ok t ∧ t.strategy = .value
  · obtain ⟨t, ht, hvalue⟩ := hvalue
    exact h.congr (Dictionary.withHash_congr ht (by rw [hvalue]; rfl))
  · exact .of_absurd hg fun hm hpre => hvalue (hp hm hpre)

section Operations

variable (hcalls : calls.Obliging)

include hcalls

theorem behaves_lookup (hp : m.Typed ∅ → pre → m.Meets table (.body .table) ∧ m.Public table ∧
      m.Public key) :
    Behaves quiet pre (Dictionary.lookup calls.keys table key) m
      fun found m' => ∀ v, found = some v → m'.Public v :=
  have htable := fun hm h => (hp hm h).1.exists_read_value (hp hm h).2.1
  behaves_of_value (Discreet.size_le (Dictionary.discreet_lookup
    (hcalls.discreet m.symbols.table).keys False.elim False.elim) m) htable
    (Dictionary.behaves_lookup hcalls.tame fun hm h => ⟨htable hm h, (hp hm h).2⟩)

theorem behaves_insert (hp : m.Typed ∅ → pre → m.Meets table (.body .table) ∧ m.Public table ∧
      m.Public key ∧ m.Public record) (hloud : ¬ quiet) :
    Behaves quiet pre (Dictionary.insert calls.keys table key record) m fun _ _ => True :=
  have htable := fun hm h => (hp hm h).1.exists_read_value (hp hm h).2.1
  behaves_of_value (Discreet.size_le (Dictionary.discreet_insert
    (hcalls.discreet m.symbols.table).keys False.elim False.elim False.elim) m) htable
    (Dictionary.behaves_insert hcalls.tame (fun hm h => ⟨htable hm h, (hp hm h).2⟩) hloud)

theorem behaves_delete (hp : m.Typed ∅ → pre → m.Meets table (.body .table) ∧ m.Public table ∧
      m.Public key) (hloud : ¬ quiet) :
    Behaves quiet pre (Dictionary.delete calls.keys table key) m
      fun found m' => ∀ v, found = some v → m'.Public v :=
  have htable := fun hm h => (hp hm h).1.exists_read_value (hp hm h).2.1
  behaves_of_value (Discreet.size_le (Dictionary.discreet_delete
    (hcalls.discreet m.symbols.table).keys False.elim False.elim) m) htable
    (Dictionary.behaves_delete hcalls.tame (fun hm h => ⟨htable hm h, (hp hm h).2⟩) hloud)

/-- The record of a key, or an error with the text of the key. -/
theorem behaves_fetch (hp : m.Typed ∅ → pre → m.Meets table (.body .table) ∧ m.Public table ∧
      m.Public key ∧ key ∈ m.roots) :
    Behaves quiet pre (calls.fetch table key) m fun v m' => m'.Public v := by
  refine (hcalls.behaves_lookup fun hm h => ?_).bind fun found m' => ?_
  · obtain ⟨hmeets, htable, hkey, -⟩ := hp hm h
    exact ⟨hmeets, htable, hkey⟩
  cases found with
  | some v => exact behaves_pure fun _ h => h.result v rfl
  | none =>
    refine (hcalls.behaves_display fun _ h => ?_).bind fun _ _ => behaves_raiseError _ _
    obtain ⟨-, -, hkey, hr⟩ := hp h.typed h.before
    exact h.persists.public_root hkey hr

end Operations

end Calls.Obliging

/-! ### Numbers -/

namespace Effect

variable {quiet pre : Prop} {m : Machine} {α : Type}

theorem behaves_argument_bind {args : List Value} {index : Nat} {f : Value → Effect α}
    {goal : α → Machine → Prop} (hp : m.Typed ∅ → pre → index < args.length)
    (hf : ∀ v, args[index]? = some v → Behaves quiet pre (f v) m goal) :
    Behaves quiet pre (argument args index >>= f) m goal := by
  unfold argument
  cases h : args[index]? with
  | some v => exact hf v h
  | none =>
    refine .of_never rfl fun hm hpre => ?_
    exact absurd (hp hm hpre) (Nat.not_lt.mpr (List.getElem?_eq_none_iff.mp h))

theorem behaves_expectFixnum_bind {v : Value} {f : Int → Effect α} {goal : α → Machine → Prop}
    (hp : m.Typed ∅ → pre → m.Meets v .fixnum) (hf : ∀ n, Behaves quiet pre (f n) m goal) :
    Behaves quiet pre (expectFixnum v >>= f) m goal := by
  unfold expectFixnum
  cases h : v.fixnum? with
  | some n => exact hf n
  | none =>
    refine .of_never rfl fun hm hpre => ?_
    have hv : v.isFixnum = true := hp hm hpre
    rw [Value.fixnum?, if_pos hv] at h
    cases h

theorem behaves_unsupportedOperands (op : String) (lhs rhs : Value) {post : α → Machine → Prop} :
    Behaves quiet pre (unsupportedOperands op lhs rhs) m post :=
  Behaves.ask_bind (Behaves.ask_bind (behaves_raiseError _ _))

theorem behaves_raiseArithmetic (op : String) (lhs rhs : Value) (e : ArithmeticError)
    {post : α → Machine → Prop} : Behaves quiet pre (raiseArithmetic op lhs rhs e) m post := by
  cases e with
  | unsupported => exact behaves_unsupportedOperands op lhs rhs
  | _ => exact behaves_raiseError _ _

theorem behaves_finishArithmetic (op : String) (lhs rhs : Value) (r : Except ArithmeticError Numeral) :
    Behaves quiet pre (finishArithmetic op lhs rhs r) m fun v m' => m'.Public v := by
  cases r with
  | ok n => exact behaves_newNumeral n
  | error e => exact behaves_raiseArithmetic op lhs rhs e

theorem behaves_binary (op : BinOp) (left : Number) (receiver rhs : Value) :
    Behaves quiet pre (binary op left receiver rhs) m fun v m' => m'.Public v := by
  refine Behaves.ask_bind ?_
  cases m.number? rhs with
  | none => exact behaves_unsupportedOperands _ _ _
  | some right => exact behaves_finishArithmetic _ _ _ _

theorem behaves_numberOrder (receiver rhs : Value) :
    Behaves quiet pre (numberOrder receiver rhs) m fun _ _ => True := by
  refine Behaves.ask_bind (Behaves.ask_bind ?_)
  split
  · exact behaves_pure fun _ _ => trivial
  · exact Behaves.ask_bind (Behaves.ask_bind (behaves_raiseError _ _))

theorem behaves_numbersEqual (receiver rhs : Value) :
    Behaves quiet pre (numbersEqual receiver rhs) m fun _ _ => True := by
  refine Behaves.ask_bind (Behaves.ask_bind ?_)
  split
  · exact behaves_pure fun _ _ => trivial
  · exact behaves_pure fun _ _ => trivial

theorem behaves_compareNumbers (c : Comparison) (receiver : Value) {args : List Value}
    (hp : m.Typed ∅ → pre → 0 < args.length) :
    Behaves quiet pre (compareNumbers c receiver args) m fun v m' => m'.Public v := by
  refine behaves_argument_bind hp fun rhs _ => ?_
  have hholds : ∀ c, Behaves quiet pre
      (numberOrder receiver rhs >>= fun o => pure (Value.ofBool (Number.holds c o))) m
      fun v m' => m'.Public v := fun c =>
    (behaves_numberOrder receiver rhs).bind fun _ _ => behaves_atomic (.ofBool _)
  cases c with
  | equal => exact (behaves_numbersEqual receiver rhs).bind fun _ _ => behaves_atomic (.ofBool _)
  | notEqual => exact (behaves_numbersEqual receiver rhs).bind fun _ _ => behaves_atomic (.ofBool _)
  | order =>
    refine (behaves_numberOrder receiver rhs).bind fun o _ => ?_
    rcases o with _ | (_ | _ | _)
    · exact behaves_atomic .nil
    · exact behaves_atomic (.ofInt _)
    · exact behaves_atomic (.ofInt _)
    · exact behaves_atomic (.ofInt _)
  | _ => exact hholds _

theorem behaves_parseNumber (text : String) :
    Behaves quiet pre (parseNumber text) m fun v m' => m'.Public v := by
  unfold parseNumber
  cases Literal.read? text with
  | some n => exact behaves_newNumeral n
  | none => exact behaves_raiseError _ _

/-! ### Objects -/

/-- A text is something programs may hold. -/
theorem behaves_text (s : String) : Behaves quiet pre (newText s) m fun v m' => m'.Public v :=
  (behaves_newText s).weaken fun _ _ _ _ _ h => h.isPublic fun _ ht => by cases ht

theorem behaves_classOf {v : Value} (hp : m.Typed ∅ → pre → m.Public v) :
    Behaves quiet pre (classOf v) m fun cls m' => m' = m ∧ m.classOf v = .ok cls ∧
      ∃ b, m.heap.read Facet.cls cls = .ok b := by
  have hlook : m.Typed ∅ → pre → ∃ cls b, m.classOf v = .ok cls ∧ m.heap.read Facet.cls cls = .ok b :=
    fun hm h => hm.exists_classOf (hp hm h)
  refine Behaves.ask_bind ?_
  cases hcls : m.classOf v with
  | error u =>
    refine .of_never (u := u) rfl fun hm h => ?_
    obtain ⟨cls, b, hok, -⟩ := hlook hm h
    rw [hcls] at hok
    cases hok
  | ok cls =>
    refine behaves_pure fun hm h => ⟨rfl, rfl, ?_⟩
    obtain ⟨cls', b, hok, hb⟩ := hlook hm h
    obtain rfl := Except.ok.inj (hcls.symm.trans hok)
    exact ⟨b, hb⟩

/-- The object of a reference that programs may hold is there. -/
theorem behaves_object_bind {v : Value} {f : Object → Effect α} {goal : α → Machine → Prop}
    (hp : m.Typed ∅ → pre → m.Public v) (href : v.isRef = true)
    (hf : ∀ o, Behaves quiet pre (f o) m goal) :
    Behaves quiet pre (ask (·.heap.get v) >>= fun r => ofExcept r >>= f) m goal := by
  refine Behaves.ask_bind (Behaves.ofExcept_bind (fun hm h => ?_) fun o _ => hf o)
  obtain ⟨o, ho⟩ := Heap.isLive_iff.mp ((hp hm h).resolves href)
  exact ⟨o, Heap.get_of_get?_eq_some ho⟩

theorem behaves_objectHash {receiver : Value} (hp : m.Typed ∅ → pre → m.Public receiver) :
    Behaves quiet pre (objectHash receiver) m fun v m' => m'.Public v := by
  unfold objectHash
  split
  · rename_i href
    exact Behaves.congr rfl (behaves_object_bind hp href fun o => behaves_atomic (.ofInt _))
  · exact behaves_atomic (.ofInt _)

theorem behaves_objectText {receiver : Value} (hp : m.Typed ∅ → pre → m.Public receiver) :
    Behaves quiet pre (objectText receiver) m fun v m' => m'.Public v := by
  refine Behaves.ask_bind ?_
  split
  · rename_i href
    exact Behaves.congr rfl (behaves_object_bind hp href fun o => behaves_text _)
  · exact behaves_text _

theorem behaves_objectKindOf {receiver : Value} {args : List Value}
    (hp : m.Typed ∅ → pre → m.Public receiver ∧ 0 < args.length) :
    Behaves quiet pre (objectKindOf receiver args) m fun v m' => m'.Public v := by
  refine behaves_argument_bind (fun hm h => (hp hm h).2) fun cls _ => Behaves.ask_bind ?_
  cases m.heap.read? Facet.cls cls with
  | none => exact Behaves.ask_bind (behaves_raiseError _ _)
  | some _ =>
    refine Behaves.ask_bind (Behaves.ofExcept_bind (fun hm h => ?_) fun b _ => behaves_atomic (.ofBool b))
    obtain ⟨own, b, hown, hb⟩ := hm.exists_classOf (hp hm h).1
    obtain ⟨l, hl⟩ := hm.shaped.lineage own b hb
    exact Traceable.exists_isInstance ⟨own, l, hown, hl⟩ cls

theorem behaves_stringEqual {receiver : Value} {args : List Value}
    (hp : m.Typed ∅ → pre → m.Meets receiver (.body .text) ∧ 0 < args.length) :
    Behaves quiet pre (stringEqual receiver args) m fun v m' => m'.Public v :=
  behaves_argument_bind (fun hm h => (hp hm h).2) fun _ _ =>
    Behaves.read_bind (fun hm h => (hp hm h).1.exists_read Facet.lawful_of_text) fun _ _ =>
      Behaves.ask_bind (behaves_atomic (.ofBool _))

theorem behaves_stringConcat {receiver : Value} {args : List Value}
    (hp : m.Typed ∅ → pre → m.Meets receiver (.body .text) ∧ 0 < args.length) :
    Behaves quiet pre (stringConcat receiver args) m fun v m' => m'.Public v := by
  refine behaves_argument_bind (fun hm h => (hp hm h).2) fun other _ => Behaves.ask_bind ?_
  cases m.heap.read? Facet.text other with
  | none => exact behaves_unsupportedOperands _ _ _
  | some rhs =>
    exact Behaves.read_bind (fun hm h => (hp hm h).1.exists_read Facet.lawful_of_text) fun _ _ =>
      behaves_text _

theorem behaves_arrayAt {receiver : Value} {args : List Value}
    (hp : m.Typed ∅ → pre → m.Meets receiver (.body .array) ∧ 0 < args.length) :
    Behaves quiet pre (arrayAt receiver args) m fun v m' => m'.Public v := by
  refine behaves_argument_bind (fun hm h => (hp hm h).2) fun index _ => ?_
  cases index.fixnum? with
  | none => exact Behaves.ask_bind (behaves_raiseError _ _)
  | some i =>
    refine Behaves.read_bind (fun hm h => (hp hm h).1.exists_read Facet.lawful_array) fun items hread => ?_
    dsimp only
    generalize hplace : (if (if i < 0 then i + (items.size : Int) else i) < 0 then none
      else items[(if i < 0 then i + (items.size : Int) else i).toNat]?) = found
    cases found with
    | none => exact behaves_raiseError _ _
    | some item =>
      refine behaves_pure fun hm _ => ?_
      have hitem : item ∈ items :=
        Array.mem_of_getElem? (Option.ite_none_left_eq_some.mp hplace).2
      obtain ⟨o, ho, hb⟩ := Heap.read_eq_ok_iff.mp hread
      have hsuits := hm.shaped.suits receiver o ho
      rw [← Facet.lawful_array.put_eq hb] at hsuits
      exact hsuits item hitem

theorem behaves_message_bind {receiver : Value} {f : ExceptionBody → Effect α} {goal : α → Machine → Prop}
    (hp : m.Typed ∅ → pre → m.Meets receiver (.body .exception))
    (hf : ∀ e, (m.Typed ∅ → m.Public e.message) → Behaves quiet pre (f e) m goal) :
    Behaves quiet pre (read Facet.exception receiver >>= f) m goal := by
  refine Behaves.read_bind (fun hm h => (hp hm h).exists_read Facet.lawful_exception) fun e hread =>
    hf e fun hm => ?_
  obtain ⟨o, ho, hb⟩ := Heap.read_eq_ok_iff.mp hread
  have hsuits := hm.shaped.suits receiver o ho
  rw [← Facet.lawful_exception.put_eq hb] at hsuits
  exact hsuits.1

theorem behaves_exceptionText {receiver : Value}
    (hp : m.Typed ∅ → pre → m.Meets receiver (.body .exception)) :
    Behaves quiet pre (exceptionText receiver) m fun v m' => m'.Public v := by
  refine behaves_message_bind hp fun e he => Behaves.ask_bind ?_
  cases m.heap.read? Facet.text e.message with
  | none => exact behaves_text _
  | some _ => exact behaves_pure fun hm _ => he hm

end Effect

/-! ### The built-in methods -/

/-- Values that programs may hold and that are rooted. -/
def Machine.InHand (m : Machine) (vs : List Value) : Prop := ∀ v ∈ vs, v ∈ m.roots ∧ m.Public v

theorem Machine.Persists.inHand {quiet : Prop} {m m' : Machine} {vs : List Value} (hk : m.Persists quiet m')
    (h : m.InHand vs) : m'.InHand vs := fun v hv =>
  ⟨hk.carries.roots_subset (h v hv).1, hk.public_root (h v hv).2 (h v hv).1⟩

/-- Whether a built-in method can be run on a receiver and arguments, which are held meanwhile. -/
structure Machine.Takes (m : Machine) (p : Primitive) (receiver : Value) (args : List Value) : Prop where
  meets : m.Meets receiver p.demand
  length_eq : args.length = p.uses
  inHand : m.InHand (receiver :: args)

/-- What a built-in method takes it can work with: its answer is a value that programs may hold, and
otherwise it raises an error. -/
theorem Primitive.behaves_perform {quiet pre : Prop} {m : Machine} {calls : Calls} {receiver : Value}
    {args : List Value} (p : Primitive) (hp : m.Typed ∅ → pre → m.Takes p receiver args)
    (hplain : p.plain = true ∨ ¬ quiet ∧ calls.Obliging) :
    Behaves quiet pre (p.perform calls receiver args) m fun v m' => m'.Public v := by
  have hreceiver : m.Typed ∅ → pre → m.Public receiver := fun hm h =>
    ((hp hm h).inHand receiver List.mem_cons_self).2
  have hargs : m.Typed ∅ → pre → ∀ {i : Nat} {v : Value}, args[i]? = some v → v ∈ m.roots ∧ m.Public v :=
    fun hm h {i v} hv => (hp hm h).inHand v (List.mem_cons_of_mem _ (List.mem_of_getElem? hv))
  have hone : p.uses = 1 → m.Typed ∅ → pre → 0 < args.length := fun h hm hpre => by
    rw [(hp hm hpre).length_eq, h]
    exact Nat.one_pos
  have hmeets : ∀ {d}, p.demand = d → m.Typed ∅ → pre → m.Meets receiver d := fun hd hm h =>
    hd ▸ (hp hm h).meets
  have hread : ∀ {α : Type} {facet : Facet α} (_ : facet.Lawful) (_ : p.demand = .body facet.kind),
      m.Typed ∅ → pre → ∃ x, m.heap.read facet receiver = .ok x := fun hfacet hd hm h =>
    (hmeets hd hm h).exists_read hfacet
  cases p with
  | compare c => exact behaves_compareNumbers c receiver (hone rfl)
  | numberHash =>
    refine Behaves.ask_bind ?_
    cases hnumber : m.number? receiver with
    | some n => exact behaves_atomic (.ofInt _)
    | none =>
      refine .of_never rfl fun hm h => ?_
      obtain ⟨n, hn⟩ := hmeets rfl hm h
      rw [hnumber] at hn
      cases hn
  | fixnumBinary op =>
    exact behaves_argument_bind (hone rfl) fun rhs _ => behaves_expectFixnum_bind (hmeets rfl) fun _ =>
      behaves_binary op _ receiver rhs
  | fixnumNegate => exact behaves_expectFixnum_bind (hmeets rfl) fun _ => behaves_newInteger _
  | fixnumIdentity => exact behaves_expectFixnum_bind (hmeets rfl) fun _ => behaves_pure hreceiver
  | fixnumInvert => exact behaves_expectFixnum_bind (hmeets rfl) fun _ => behaves_atomic (.ofInt _)
  | fixnumText => exact behaves_expectFixnum_bind (hmeets rfl) fun _ => behaves_text _
  | bignumBinary op =>
    exact behaves_argument_bind (hone rfl) fun rhs _ => Behaves.read_bind
      (hread Facet.lawful_bignum rfl) fun _ _ => behaves_binary op _ receiver rhs
  | bignumNegate => exact Behaves.read_bind (hread Facet.lawful_bignum rfl) fun _ _ => behaves_newInteger _
  | bignumIdentity =>
    exact Behaves.read_bind (hread Facet.lawful_bignum rfl) fun _ _ => behaves_pure hreceiver
  | bignumInvert => exact Behaves.read_bind (hread Facet.lawful_bignum rfl) fun _ _ => behaves_newInteger _
  | bignumText => exact Behaves.read_bind (hread Facet.lawful_bignum rfl) fun _ _ => behaves_text _
  | floatBinary op =>
    exact behaves_argument_bind (hone rfl) fun rhs _ => Behaves.read_bind
      (hread Facet.lawful_float rfl) fun _ _ => behaves_binary op _ receiver rhs
  | floatNegate =>
    exact Behaves.read_bind (hread Facet.lawful_float rfl) fun _ _ => (behaves_newFloat _).weaken
      fun _ _ _ _ _ h => h.isPublic fun _ ht => by cases ht
  | floatIdentity =>
    exact Behaves.read_bind (hread Facet.lawful_float rfl) fun _ _ => behaves_pure hreceiver
  | floatText => exact Behaves.read_bind (hread Facet.lawful_float rfl) fun _ _ => behaves_text _
  | objectEqual => exact behaves_argument_bind (hone rfl) fun _ _ => behaves_atomic (.ofBool _)
  | objectNotEqual =>
    obtain ⟨-, hcalls⟩ := hplain.resolve_left (by simp [plain])
    refine behaves_argument_bind (hone rfl) fun other hother => Behaves.bind
      ((hcalls.send (by decide) fun hm h v hv => ?_).loud fun _ => trivial)
      fun v _ => behaves_atomic (.ofBool _)
    rcases List.mem_cons.mp hv with rfl | hv
    · exact hreceiver hm h
    · exact List.mem_singleton.mp hv ▸ (hargs hm h hother).2
  | objectHash => exact behaves_objectHash hreceiver
  | objectText => exact behaves_objectText hreceiver
  | objectClass =>
    refine (behaves_classOf hreceiver).weaken fun cls m' _ _ _ ⟨heq, _, b, hb⟩ => ?_
    exact heq ▸ public_of_read Facet.lawful_cls (by simp [Facet.cls]) hb
  | objectKindOf => exact behaves_objectKindOf fun hm h => ⟨hreceiver hm h, hone rfl hm h⟩
  | classNew =>
    obtain ⟨hloud, -⟩ := hplain.resolve_left (by simp [plain])
    exact behaves_instantiate hloud (hread Facet.lawful_cls rfl)
  | className => exact Behaves.ask_bind (behaves_text _)
  | nilText => exact behaves_text _
  | boolText => exact behaves_text _
  | symbolText => exact Behaves.ask_bind (behaves_text _)
  | stringEqual => exact behaves_stringEqual fun hm h => ⟨hmeets rfl hm h, hone rfl hm h⟩
  | stringHash =>
    exact Behaves.read_bind (hread Facet.lawful_of_text rfl) fun _ _ => behaves_atomic (.ofInt _)
  | stringText => exact Behaves.read_bind (hread Facet.lawful_of_text rfl) fun _ _ => behaves_pure hreceiver
  | stringConcat => exact behaves_stringConcat fun hm h => ⟨hmeets rfl hm h, hone rfl hm h⟩
  | stringSize =>
    exact Behaves.read_bind (hread Facet.lawful_of_text rfl) fun _ _ => behaves_atomic (.ofInt _)
  | stringToNumber =>
    exact Behaves.read_bind (hread Facet.lawful_of_text rfl) fun _ _ => behaves_parseNumber _
  | arraySize => exact Behaves.read_bind (hread Facet.lawful_array rfl) fun _ _ => behaves_atomic (.ofInt _)
  | arrayAt => exact behaves_arrayAt fun hm h => ⟨hmeets rfl hm h, hone rfl hm h⟩
  | arrayPush =>
    refine behaves_argument_bind (hone rfl) fun item hitem => Behaves.bind (behaves_pushArray fun hm h =>
      ⟨hread Facet.lawful_array rfl hm h, (hargs hm h hitem).2⟩) fun _ _ => behaves_pure fun _ h => ?_
    obtain ⟨hr, hpublic⟩ := (hp h.typed h.before).inHand receiver List.mem_cons_self
    exact h.persists.public_root hpublic hr
  | dictFetch =>
    obtain ⟨-, hcalls⟩ := hplain.resolve_left (by simp [plain])
    refine behaves_argument_bind (hone rfl) fun key hkey => hcalls.behaves_fetch fun hm h => ?_
    obtain ⟨hr, hpublic⟩ := hargs hm h hkey
    exact ⟨hmeets rfl hm h, hreceiver hm h, hpublic, hr⟩
  | dictStore =>
    obtain ⟨hloud, hcalls⟩ := hplain.resolve_left (by simp [plain])
    have htwo : ∀ {i}, i < 2 → m.Typed ∅ → pre → i < args.length := fun hi hm h => by
      rw [(hp hm h).length_eq]
      exact hi
    refine behaves_argument_bind (htwo Nat.one_lt_two) fun v hv => behaves_argument_bind
      (htwo Nat.two_pos) fun key hkey => Behaves.bind (hcalls.behaves_insert (fun hm h => ?_) hloud)
      fun _ _ => behaves_pure fun _ h => ?_
    · exact ⟨hmeets rfl hm h, hreceiver hm h, (hargs hm h hkey).2, (hargs hm h hv).2⟩
    · obtain ⟨hr, hpublic⟩ := hargs h.typed h.before hv
      exact h.persists.public_root hpublic hr
  | dictGet =>
    obtain ⟨-, hcalls⟩ := hplain.resolve_left (by simp [plain])
    refine behaves_argument_bind (hone rfl) fun key hkey => Behaves.map (hcalls.behaves_lookup
      fun hm h => ⟨hmeets rfl hm h, hreceiver hm h, (hargs hm h hkey).2⟩) _ fun found _ _ _ _ h => ?_
    cases found with
    | none => exact Or.inl .nil
    | some v => exact h v rfl
  | dictInclude =>
    obtain ⟨-, hcalls⟩ := hplain.resolve_left (by simp [plain])
    exact behaves_argument_bind (hone rfl) fun key hkey => Behaves.bind (hcalls.behaves_lookup
      fun hm h => ⟨hmeets rfl hm h, hreceiver hm h, (hargs hm h hkey).2⟩)
      fun _ _ => behaves_atomic (.ofBool _)
  | dictDelete =>
    obtain ⟨hloud, hcalls⟩ := hplain.resolve_left (by simp [plain])
    refine behaves_argument_bind (hone rfl) fun key hkey => Behaves.map (hcalls.behaves_delete
      (fun hm h => ⟨hmeets rfl hm h, hreceiver hm h, (hargs hm h hkey).2⟩) hloud) _
      fun found _ _ _ _ h => ?_
    cases found with
    | none => exact Or.inl .nil
    | some v => exact h v rfl
  | dictSize =>
    have hsize : Behaves quiet pre (Dictionary.size receiver) m fun _ _ => True :=
      Behaves.read_bind (hread Facet.lawful_table rfl) fun _ _ => behaves_pure fun _ _ => trivial
    exact hsize.bind fun _ _ => behaves_atomic (.ofInt _)
  | exceptionText => exact behaves_exceptionText (hmeets rfl)
  | exceptionMessage =>
    exact behaves_message_bind (hmeets rfl) fun e he => behaves_pure fun hm _ => he hm

end ObjectMachine
