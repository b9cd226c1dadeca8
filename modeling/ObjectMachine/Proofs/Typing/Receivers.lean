import Mathlib.Tactic
import ObjectMachine.Proofs.Machine.BuiltinKeys
import ObjectMachine.Proofs.Typing.Classes

/-! What built-in methods take for granted.

A built-in method reads its receiver without looking at its kind first, and its arguments without
counting them.  What it takes for granted is met because it is only found through a class that it was
installed in: the instances of this class, and of the classes below it, are of the kind it demands, and
the number of its arguments is checked against its arity. -/

namespace ObjectMachine

open Machine

namespace Facet

theorem lawful_of_text : Lawful text where
  put_eq {b x} h := by cases b <;> simp_all [text]
  kind_put _ := rfl
  exists_get? {b} h := by cases b <;> simp_all [text, Body.kind]

theorem lawful_bignum : Lawful bignum where
  put_eq {b x} h := by cases b <;> simp_all [bignum]
  kind_put _ := rfl
  exists_get? {b} h := by cases b <;> simp_all [bignum, Body.kind]

theorem lawful_float : Lawful float where
  put_eq {b x} h := by cases b <;> simp_all [float]
  kind_put _ := rfl
  exists_get? {b} h := by cases b <;> simp_all [float, Body.kind]

end Facet

/-- What a method may demand of its receiver. -/
inductive Demand where
  | anything | fixnum | number
  | body (kind : ObjectKind)
  deriving DecidableEq

namespace Primitive

/-- What a built-in method demands of its receiver. -/
def demand : Primitive → Demand
  | .numberHash => .number
  | .fixnumBinary _ | .fixnumNegate | .fixnumIdentity | .fixnumInvert | .fixnumText => .fixnum
  | .bignumBinary _ | .bignumNegate | .bignumIdentity | .bignumInvert | .bignumText => .body .bignum
  | .floatBinary _ | .floatNegate | .floatIdentity | .floatText => .body .float
  | .classNew => .body .cls
  | .stringEqual | .stringHash | .stringText | .stringConcat | .stringSize | .stringToNumber =>
    .body .text
  | .arraySize | .arrayAt | .arrayPush => .body .array
  | .dictFetch | .dictStore | .dictGet | .dictInclude | .dictDelete | .dictSize => .body .table
  | .exceptionText | .exceptionMessage => .body .exception
  | _ => .anything

/-- How many arguments a built-in method uses. -/
def uses : Primitive → Nat
  | .compare _ | .fixnumBinary _ | .bignumBinary _ | .floatBinary _ | .objectEqual | .objectNotEqual
  | .objectKindOf | .stringEqual | .stringConcat | .arrayAt | .arrayPush | .dictFetch | .dictGet
  | .dictInclude | .dictDelete => 1
  | .dictStore => 2
  | _ => 0

/-- Whether a built-in method sends no messages, makes no instances, and leaves tables alone. -/
def plain : Primitive → Bool
  | .objectNotEqual | .classNew | .dictFetch | .dictStore | .dictGet | .dictInclude | .dictDelete => false
  | _ => true

end Primitive

/-- The names of the messages that the built-in methods and the tables send. -/
def internalNames : List String := ["hash", "==", "to_s"]

namespace BuiltinClass

/-- Whether the instances of a class and of the classes below it meet a demand. -/
def meets (c : BuiltinClass) : Demand → Bool
  | .anything => true
  | .fixnum => c == .fixnum
  | .number => c ∈ [.fixnum, .bignum, .float]
  | .body kind => c ≠ .object && c.bodyKind == some kind

/-- Every built-in method is installed where its demand is met and with the arity it has, and those that
hash, compare and render are plain. -/
theorem Provides.fitting {c : BuiltinClass} {p : PrimitiveMethod} (h : c.Provides p) :
    c.meets p.primitive.demand = true ∧ p.primitive.uses = p.arity ∧
      (p.name ∈ internalNames → p.primitive.plain = true) := by
  have hall : ∀ x ∈ Bootstrap.installation, ∀ p ∈ x.2.methods,
      x.1.meets p.primitive.demand = true ∧ p.primitive.uses = p.arity ∧
        (p.name ∈ internalNames → p.primitive.plain = true) := by decide
  obtain ⟨l, hl, hp⟩ := h
  exact hall (c, l) hl p hp

end BuiltinClass

namespace Machine

variable {m : Machine} {bare : Set Value} {v cls : Value} {c : BuiltinClass}

/-- Whether a value meets a demand. -/
def Meets (m : Machine) (v : Value) : Demand → Prop
  | .anything => True
  | .fixnum => v.isFixnum = true
  | .number => ∃ n, m.number? v = some n
  | .body kind => ∃ o, m.heap.get? v = some o ∧ o.kind = kind

theorem Meets.exists_read {facet : Facet α} (hfacet : facet.Lawful) (h : m.Meets v (.body facet.kind)) :
    ∃ x, m.heap.read facet v = .ok x := by
  obtain ⟨o, ho, hkind⟩ := h
  obtain ⟨x, hx⟩ := hfacet.exists_get? hkind
  exact ⟨x, Heap.read_eq_ok_iff.mpr ⟨o, ho, hx⟩⟩

theorem Meets.exists_read_value (h : m.Meets v (.body .table)) (hv : m.Public v) :
    ∃ t, m.heap.read Facet.table v = .ok t ∧ t.strategy = .value := by
  obtain ⟨t, ht⟩ := h.exists_read Facet.lawful_table
  exact ⟨t, ht, hv.strategy_eq ht⟩

/-- What a value is, of which a built-in class is above its class. -/
theorem Shaped.instance_cases (hs : m.Shaped bare) (hv : m.Public v) (hcls : m.classOf v = .ok cls)
    (hbelow : m.Below (m.classValue c) cls) : c = .object ∨ c = .fixnum ∧ v.isFixnum = true ∨
      c = .symbol ∨ c = .nil ∨ c = .bool ∨ ∃ o, m.heap.get? v = some o ∧ c.bodyKind = some o.kind := by
  have hbuiltin : ∀ {d : BuiltinClass}, (∀ kind, d ≠ .error kind) → m.classValue d = cls →
      c = d ∨ c = .object := fun {d} hd hcls => by
    rcases hs.below_builtin (hcls ▸ hbelow) with h | h | ⟨-, kind, h⟩
    · exact Or.inl h
    · exact Or.inr h
    · exact absurd h (hd kind)
  unfold classOf at hcls
  split at hcls
  · rename_i hfixnum
    rcases hbuiltin (by simp) (Except.ok.inj hcls) with rfl | rfl
    · exact Or.inr (Or.inl ⟨rfl, hfixnum⟩)
    · exact Or.inl rfl
  split at hcls
  · rcases hv with hv | ⟨o, ho, -⟩
    · simp_all [hv.isRef_eq]
    rw [Heap.get_of_get?_eq_some ho] at hcls
    obtain rfl := Except.ok.inj hcls
    rcases hs.permits_of_bears hbelow (hs.bears v o ho) with rfl | hkind
    · exact Or.inl rfl
    · exact Or.inr (Or.inr (Or.inr (Or.inr (Or.inr ⟨o, ho, hkind⟩))))
  split at hcls
  · rcases hbuiltin (by simp) (Except.ok.inj hcls) with rfl | rfl <;> simp
  split at hcls
  · rcases hbuiltin (by simp) (Except.ok.inj hcls) with rfl | rfl <;> simp
  split at hcls
  · rcases hbuiltin (by simp) (Except.ok.inj hcls) with rfl | rfl <;> simp
  · cases hcls

/-- Instances meet the demands that their classes meet. -/
theorem Shaped.meets (hs : m.Shaped bare) (hv : m.Public v) (hcls : m.classOf v = .ok cls)
    (hbelow : m.Below (m.classValue c) cls) {d : Demand} (hd : c.meets d = true) : m.Meets v d := by
  have hcases := hs.instance_cases hv hcls hbelow
  have hobject : ∀ {kind}, c ≠ .object → c.bodyKind = some kind →
      ∃ o, m.heap.get? v = some o ∧ o.kind = kind := fun {kind} hne hkind => by
    obtain ⟨o, ho, hsame⟩ : ∃ o, m.heap.get? v = some o ∧ c.bodyKind = some o.kind := by
      rcases hcases with rfl | ⟨rfl, -⟩ | rfl | rfl | rfl | h
      · exact absurd rfl hne
      · cases hkind
      · cases hkind
      · cases hkind
      · cases hkind
      · exact h
    exact ⟨o, ho, Option.some.inj (hsame.symm.trans hkind)⟩
  cases d with
  | anything => trivial
  | fixnum =>
    obtain rfl := beq_iff_eq.mp hd
    show v.isFixnum = true
    simpa [BuiltinClass.bodyKind] using hcases
  | body kind =>
    simp only [BuiltinClass.meets, Bool.and_eq_true, decide_eq_true_eq, beq_iff_eq] at hd
    exact hobject hd.1 hd.2
  | number =>
    have hc : c = .fixnum ∨ c = .bignum ∨ c = .float := by simpa [BuiltinClass.meets] using hd
    show ∃ n, m.number? v = some n
    unfold number?
    rcases hc with rfl | rfl | rfl
    · have hfixnum : v.isFixnum = true := by simpa [BuiltinClass.bodyKind] using hcases
      exact ⟨_, by rw [Value.fixnum?, if_pos hfixnum]⟩
    · obtain ⟨o, ho, hkind⟩ := hobject (by simp) rfl
      obtain ⟨n, hn⟩ := Facet.lawful_bignum.exists_get? hkind
      have hread : m.heap.read? Facet.bignum v = some n := by rw [Heap.read?, ho]; exact hn
      rw [hread]
      split
      · exact ⟨_, rfl⟩
      · split
        · exact ⟨_, rfl⟩
        · exact ⟨_, rfl⟩
    · obtain ⟨o, ho, hkind⟩ := hobject (by simp) rfl
      obtain ⟨x, hx⟩ := Facet.lawful_float.exists_get? hkind
      have hread : m.heap.read? Facet.float v = some x := by rw [Heap.read?, ho]; exact hx
      rw [hread]
      split
      · exact ⟨_, rfl⟩
      · exact ⟨_, rfl⟩

/-- What programs may hold has a class, from which the way leads up to the root. -/
theorem Typed.exists_classOf (hm : m.Typed bare) (hv : m.Public v) :
    ∃ cls b, m.classOf v = .ok cls ∧ m.heap.read Facet.cls cls = .ok b := by
  have hbuiltin : ∀ c : BuiltinClass, ∃ b, m.heap.read Facet.cls (m.classValue c) = .ok b := fun c => by
    obtain ⟨b, hb, -⟩ := hm.shaped.builtin c
    exact ⟨b, hb⟩
  have hatomic : v.Atomic → ∃ c : BuiltinClass, m.classOf v = .ok (m.classValue c) := by
    intro hv
    unfold classOf
    have href := hv.isRef_eq
    split
    · exact ⟨_, rfl⟩
    rw [if_neg (by simp [href])]
    split
    · exact ⟨_, rfl⟩
    split
    · exact ⟨_, rfl⟩
    split
    · exact ⟨_, rfl⟩
    · rcases hv with h | h | h | h <;> exact absurd h (by assumption)
  rcases hv with hv | ⟨o, ho, -⟩
  · obtain ⟨c, hc⟩ := hatomic hv
    obtain ⟨b, hb⟩ := hbuiltin c
    exact ⟨_, b, hc, hb⟩
  · obtain ⟨b, hb⟩ := Typed.exists_cls_of_bears hm.shaped (hm.shaped.bears v o ho)
    refine ⟨o.cls, b, ?_, hb⟩
    have href := (Heap.get?_eq_some_iff.mp ho).1
    rw [classOf, (Value.kinds_of_isRef href).1, href, Heap.get_of_get?_eq_some ho]
    rfl

end Machine

end ObjectMachine
