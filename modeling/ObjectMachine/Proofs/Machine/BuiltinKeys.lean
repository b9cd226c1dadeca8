import Mathlib
import ObjectMachine.Program.Evaluate
import ObjectMachine.Proofs.Dictionary.Invariant
import ObjectMachine.Proofs.Machine.Secure
import ObjectMachine.Proofs.Number.Equality

/-! The built-in `==` and `hash` as methods of keys.

A message with a built-in method finds it without leaving a trace: the searches see no handles, and
the method itself only looks at the heap.  What a built-in key stands for, the exact value of a
number, the characters of a text, or else the value itself, decides `==`, and `hash` agrees with
it. -/

namespace ObjectMachine

namespace Effect

/-! ### Effects that see no handles -/

/-- The same result with other handles. -/
def relocate (handles : Array Value) : EStateM.Result Unwind Machine α → EStateM.Result Unwind Machine α
  | .ok x m => .ok x { m with handles := handles }
  | .error u m => .error u { m with handles := handles }

/-- Whether an effect neither sees nor changes the handles. -/
def Blind (a : Effect α) : Prop :=
  ∀ m handles, a { m with handles := handles } = relocate handles (a m)

variable {a : Effect α} {f : α → Effect β}

theorem Blind.bind (ha : Blind a) (hf : ∀ x, Blind (f x)) : Blind (a >>= f) := by
  intro m handles
  have hm := ha m handles
  cases h : a m with
  | ok x m' =>
    rw [h] at hm
    rw [bind_of_ok hm, bind_of_ok h]
    exact hf x m' handles
  | error u m' =>
    rw [h] at hm
    rw [bind_of_error hm, bind_of_error h]
    rfl

theorem blind_pure (x : α) : Blind (pure x : Effect α) := fun _ _ => rfl

theorem blind_fault (f : Fault) : Blind (fault f : Effect α) := fun _ _ => rfl

theorem blind_record (e : Event) : Blind (record e) := fun _ _ => rfl

theorem blind_read (facet : Facet α) (v : Value) : Blind (read facet v) := by
  intro m handles
  unfold read
  cases m.heap.read facet v <;> rfl

/-- Pinning makes no difference to an effect that ends the same way whatever the handles are. -/
theorem pinned_eq {m : Machine} {r : EStateM.Result Unwind Machine α}
    (h : ∀ handles, a { m with handles := handles } = relocate handles r) (vs : List Value) :
    (withHandles do
      pinAll vs
      a) m = relocate m.handles r := by
  have hshrink : (m.handles ++ vs.toArray).shrink m.handles.size = m.handles := by
    rw [Array.shrink_eq_take, Array.take_eq_extract, Array.extract_append_left]
    simp
  rw [withHandles_eq, bind_of_ok (pinAll_eq vs m), h]
  cases r with
  | ok x m' => simp only [relocate, hshrink]
  | error u m' => simp only [relocate, hshrink]

theorem Blind.pinned (ha : Blind a) (vs : List Value) :
    Blind (withHandles do
      pinAll vs
      a) := by
  have hsame : (withHandles do
      pinAll vs
      a) = a := funext fun m => (pinned_eq (ha m) vs).trans (ha m m.handles).symm
  rwa [hsame]

end Effect

/-! ### Finding a method -/

namespace Dictionary

open Effect

theorem blind_findTextFrom (t : Table) (text : String) (hash : UInt64) :
    ∀ (fuel : Nat) (cursor : Option EntryId), Blind (findTextFrom t text hash fuel cursor)
  | _, none => by
    rw [findTextFrom]
    exact blind_pure _
  | 0, some _ => blind_fault _
  | fuel + 1, some id => by
    rw [findTextFrom]
    cases t.get? id with
    | none => exact blind_fault _
    | some e =>
      have hgo : ∀ hit : Bool, Blind (if hit = true then pure (some e.record)
          else findTextFrom t text hash fuel e.next) := by
        intro hit
        cases hit with
        | true => exact blind_pure _
        | false => exact blind_findTextFrom t text hash fuel e.next
      by_cases hc : (e.hash == hash && !e.isTombstone) = true
      · simp only [hc, if_true]
        exact (blind_read _ _).bind fun _ => (blind_pure _).bind hgo
      · simp only [hc]
        exact (blind_pure _).bind hgo

theorem blind_lookupText (table : Value) (text : String) : Blind (lookupText table text) := by
  refine (blind_read _ _).bind fun t => ?_
  split
  · exact blind_findTextFrom t text _ _ _
  · exact blind_fault _

theorem blind_findFrom (table key : Value) (hash : UInt64) :
    ∀ (fuel : Nat) (cursor : Option EntryId), Blind (findFrom Keys.symbol table key hash fuel cursor)
  | _, none => by
    rw [findFrom]
    exact blind_pure _
  | 0, some _ => blind_fault _
  | fuel + 1, some id => by
    rw [findFrom]
    refine (blind_read _ _).bind fun t => ?_
    cases t.get? id with
    | none => exact (blind_record _).bind fun _ => blind_pure _
    | some e =>
      have hmatch : Blind (isMatch Keys.symbol key hash e) := by
        unfold isMatch
        split
        · split <;> exact blind_pure _
        · exact blind_pure _
      refine hmatch.bind fun hit => ?_
      cases hit with
      | true => exact blind_pure _
      | false => exact blind_findFrom table key hash fuel e.next

/-- Looking a symbol up sees no handles. -/
theorem blind_lookup (table key : Value) : Blind (lookup (fun _ => Keys.symbol) table key) := by
  refine Blind.pinned ?_ [table, key]
  rw [keysOf_bind]
  refine (blind_read _ _).bind fun t => (blind_pure _).bind fun hash => ?_
  refine Blind.bind ((blind_read _ _).bind fun _ => blind_findFrom _ _ _ _ _) fun found => ?_
  cases found with
  | none => exact blind_pure _
  | some id => exact (blind_read _ _).bind fun _ => blind_pure _

end Dictionary

open Effect Dictionary in
theorem Effect.blind_findMethod (cls selector : Value) : Blind (findMethod cls selector) := by
  have hfrom : ∀ (fuel : Nat) (cursor : Value), Blind (findMethodFrom selector fuel cursor) := by
    intro fuel
    induction fuel with
    | zero => exact fun _ => blind_fault _
    | succ fuel ih =>
      intro cursor
      rw [findMethodFrom]
      split
      · exact blind_pure _
      · refine (blind_read _ _).bind fun c => (blind_lookup _ _).bind fun found => ?_
        cases found with
        | none => exact ih _
        | some method => exact blind_pure _
  exact Blind.bind (fun _ _ => rfl) fun fuel => hfrom fuel cls

/-- A message that reaches a built-in method: its name is that of a symbol, and the search from the
receiver's class on finds the method. -/
def Machine.Resolves (m : Machine) (receiver : Value) (name : String) (arity : Nat) (p : Primitive) :
    Prop :=
  ∃ selector cls method own,
    Dictionary.lookupText m.symbols.table name m = .ok (some selector) m ∧
    m.classOf receiver = .ok cls ∧
    Effect.findMethod cls selector m = .ok (some method) m ∧
    m.heap.read Facet.native method = .ok ⟨own, arity, .primitive p⟩

/-- Whether an effect answers from the heap alone and changes nothing. -/
def Effect.Answers (a : Effect α) (h : Heap) (x : α) : Prop := ∀ m, m.heap = h → a m = .ok x m

theorem Effect.Answers.callFrame [Rooted α] {body : Effect α} {h : Heap} {x : α}
    (hbody : Answers body h x) (run : Program → Effect Value) (kind : FrameKind) (name : String)
    (receiver : Value) : Answers (callFrame run kind name receiver body) h x := by
  intro m hm
  let entered := { m with frames := { kind := kind, name := name, receiver := receiver } :: m.frames }
  have houtcome : outcome body entered = .ok (.ok x) entered := by
    rw [outcome, hbody entered hm]
  exact bind_of_ok houtcome

open Effect in
/-- A message to a built-in method that answers from the heap is answered without a trace. -/
theorem Machine.Resolves.callMethod {m : Machine} {x : Value} {name : String} {args : List Value}
    {p : Primitive} (hr : m.Resolves x name args.length p) {calls : Calls} {v : Value}
    (ha : Answers (p.perform calls x args) m.heap v) : calls.callMethod x name args m = .ok v m := by
  obtain ⟨selector, cls, method, own, hselector, hcls, hmethod, hnative⟩ := hr
  refine pinned_eq (r := .ok v m) (fun handles => ?_) (x :: args)
  have hintern : intern name { m with handles := handles } =
      .ok selector { m with handles := handles } := by
    have hlookup := Dictionary.blind_lookupText m.symbols.table name m handles
    rw [hselector] at hlookup
    exact bind_of_ok hlookup
  have hclass : Effect.classOf x { m with handles := handles } =
      .ok cls { m with handles := handles } := by
    have hask : ask (·.classOf x) { m with handles := handles } =
        .ok (.ok cls) { m with handles := handles } := congrArg (EStateM.Result.ok · _) hcls
    exact bind_of_ok hask
  have hfind := blind_findMethod cls selector m handles
  rw [hmethod] at hfind
  rw [bind_of_ok hintern, bind_of_ok hclass, bind_of_ok hfind]
  dsimp only
  have hread : read Facet.native method { m with handles := handles } =
      .ok ⟨own, args.length, .primitive p⟩ { m with handles := handles } := read_of_ok hnative
  rw [bind_of_ok hread]
  simp only [ne_eq, not_true_eq_false, if_false]
  exact ha.callFrame calls.run .method _ x { m with handles := handles } rfl

/-! ### What a key stands for -/

/-- What the built-in `==` looks at: the exact value of a number, the characters of a text, and any
other value itself. -/
inductive Content where
  | number (extent : Extent)
  | text (s : String)
  | itself (v : Value)
  deriving DecidableEq

namespace Machine

variable {m : Machine} {x y z : Value} {calls : Calls}

def content (m : Machine) (v : Value) : Content :=
  match m.number? v, m.heap.read? Facet.text v with
  | some n, _ => .number n.extent
  | none, some s => .text s
  | none, none => .itself v

/-- Whether two keys are equal: they stand for the same, and not for a NaN. -/
def sameKey (m : Machine) (x y : Value) : Bool :=
  decide (m.content x = m.content y ∧ m.content x ≠ .number .nan)

/-- The built-in hash of a live value. -/
def keyHash (m : Machine) (v : Value) : Int :=
  match m.number? v, m.heap.read? Facet.text v, m.heap.get? v with
  | some n, _, _ => n.hash
  | none, some s, _ => Number.foldWord (textHash s)
  | none, none, some o => Number.foldWord (UInt64.ofNat o.serial)
  | none, none, none => Number.foldWord (v.word / 4)

/-- The list that the built-in `==` and `hash` of a value belong to. -/
def keyMethods (m : Machine) (v : Value) : PrimitiveList :=
  match m.content v with
  | .number _ => .comparison
  | .text _ => .string
  | .itself _ => .object

/-- A live value whose class resolves `==` and `hash` to the built-in methods of its kind; if it is a
bignum, it lies outside the range of fixnums. -/
structure BuiltinKey (m : Machine) (v : Value) : Prop where
  equal : ∃ p, (m.keyMethods v).find? "==" = some p ∧ m.Resolves v "==" 1 p
  hash : ∃ p, (m.keyMethods v).find? "hash" = some p ∧ m.Resolves v "hash" 0 p
  normalised : ∀ n, m.number? v = some (.big n) → ¬ (-2 ^ 62 ≤ n ∧ n < 2 ^ 62)

theorem number?_congr {m m' : Machine} (h : m'.heap = m.heap) (v : Value) :
    m'.number? v = m.number? v := by
  unfold number?
  rw [h]

theorem fixnum?_of_get? {o : Object} (ho : m.heap.get? x = some o) : x.fixnum? = none := by
  have href := (Heap.get?_eq_some_iff.mp ho).1
  rw [Value.fixnum?, (Value.kinds_of_isRef href).1]
  rfl

/-- A reference whose class is known is live. -/
theorem exists_get?_of_classOf {cls : Value} (h : m.classOf x = .ok cls) (href : x.isRef = true) :
    ∃ o, m.heap.get x = .ok o ∧ m.heap.get? x = some o := by
  rw [classOf, (Value.kinds_of_isRef href).1, href] at h
  cases ho : m.heap.get? x with
  | none => simp [Heap.get, href, ho, Except.map] at h
  | some o => exact ⟨o, by rw [Heap.get, href, ho]; rfl, rfl⟩

/-- No number is a text. -/
theorem read?_text_of_number {n : Number} (h : m.number? x = some n) :
    m.heap.read? Facet.text x = none := by
  unfold number? at h
  unfold Heap.read? at h ⊢
  cases ho : m.heap.get? x with
  | none => rfl
  | some o =>
    simp only [fixnum?_of_get? ho, ho, Option.bind_some] at h ⊢
    cases hb : o.body <;> simp [hb, Facet.float, Facet.bignum, Facet.text] at h ⊢

/-- The three kinds of keys. -/
theorem content_cases (m : Machine) (v : Value) :
    (∃ n, m.number? v = some n ∧ m.heap.read? Facet.text v = none ∧
      m.content v = .number n.extent) ∨
    (∃ s, m.number? v = none ∧ m.heap.read? Facet.text v = some s ∧ m.content v = .text s) ∨
    m.number? v = none ∧ m.heap.read? Facet.text v = none ∧ m.content v = .itself v := by
  unfold content
  cases hn : m.number? v with
  | some n => exact Or.inl ⟨n, rfl, read?_text_of_number hn, rfl⟩
  | none =>
    cases hs : m.heap.read? Facet.text v with
    | some s => exact Or.inr (Or.inl ⟨s, rfl, rfl, rfl⟩)
    | none => exact Or.inr (Or.inr ⟨rfl, rfl, rfl⟩)

/-! ### The answers of the built-in methods -/

open Effect

theorem sameKey_iff : m.sameKey x y = true ↔ m.content x = m.content y ∧ m.content x ≠ .number .nan :=
  decide_eq_true_iff

/-- The methods by which keys are compared. -/
theorem keyMethods_equal (m : Machine) (v : Value) : (m.keyMethods v).find? "==" =
    some (match m.content v with
      | .number _ => .compare .equal
      | .text _ => .stringEqual
      | .itself _ => .objectEqual) := by
  unfold keyMethods
  cases m.content v <;> rfl

/-- The methods by which keys are hashed. -/
theorem keyMethods_hash (m : Machine) (v : Value) : (m.keyMethods v).find? "hash" =
    some (match m.content v with
      | .number _ => .numberHash
      | .text _ => .stringHash
      | .itself _ => .objectHash) := by
  unfold keyMethods
  cases m.content v <;> rfl

theorem numbersEqual_answers {n : Number} (hx : m.number? x = some n) (y : Value) :
    Answers (numbersEqual x y) m.heap (m.sameKey x y) := by
  intro m' hm
  have hsame : m.sameKey x y = (m.number? y).any (Number.compare? n · == some .eq) := by
    rw [Bool.eq_iff_iff, sameKey_iff]
    rcases content_cases m x with ⟨n', hn, -, hc⟩ | ⟨s, hn, -, -⟩ | ⟨hn, -, -⟩
    · obtain rfl : n' = n := Option.some.inj (hn.symm.trans hx)
      rcases content_cases m y with ⟨k, hk, -, hd⟩ | ⟨s, hk, -, hd⟩ | ⟨hk, -, hd⟩
      · simp [hc, hd, hk, Number.compare?_eq_iff]
      · simp [hc, hd, hk]
      · simp [hc, hd, hk]
    · cases hx.symm.trans hn
    · cases hx.symm.trans hn
  rw [hsame, ← number?_congr hm]
  rw [← number?_congr hm] at hx
  unfold numbersEqual
  have hleft : ask (·.number? x) m' = .ok (some n) m' := by rw [ask, hx]
  have hright : ask (·.number? y) m' = .ok (m'.number? y) m' := rfl
  rw [bind_of_ok hleft, bind_of_ok hright]
  cases m'.number? y <;> rfl

theorem stringEqual_answers {s : String} (hx : m.heap.read? Facet.text x = some s) (y : Value) :
    Answers (stringEqual x [y]) m.heap (.ofBool (m.sameKey x y)) := by
  intro m' hm
  have hsame : m.sameKey x y = (m.heap.read? Facet.text y == some s) := by
    rw [Bool.eq_iff_iff, sameKey_iff, beq_iff_eq]
    rcases content_cases m x with ⟨n, -, hs, -⟩ | ⟨s', -, hs, hc⟩ | ⟨-, hs, -⟩
    · cases hx.symm.trans hs
    · obtain rfl : s' = s := Option.some.inj (hs.symm.trans hx)
      rcases content_cases m y with ⟨k, -, ht, hd⟩ | ⟨s, -, ht, hd⟩ | ⟨-, ht, hd⟩
      · simp [hc, hd, ht]
      · simp [hc, hd, ht, eq_comm]
      · simp [hc, hd, ht]
    · cases hx.symm.trans hs
  have hread : m'.heap.read Facet.text x = .ok s := by
    obtain ⟨o, ho, hb⟩ := Option.bind_eq_some_iff.mp (hm ▸ hx)
    exact Heap.read_eq_ok_iff.mpr ⟨o, ho, hb⟩
  rw [hsame, ← hm]
  exact bind_of_ok (read_of_ok hread)

theorem objectEqual_answers (hx : m.content x = .itself x) (calls : Calls) (y : Value) :
    Answers (Primitive.objectEqual.perform calls x [y]) m.heap (.ofBool (m.sameKey x y)) := by
  have hsame : m.sameKey x y = (x == y) := by
    rw [Bool.eq_iff_iff, sameKey_iff, beq_iff_eq, hx, and_iff_left nofun]
    refine ⟨fun h => ?_, fun h => by rw [← h, hx]⟩
    rcases content_cases m y with ⟨n, -, -, hd⟩ | ⟨s, -, -, hd⟩ | ⟨-, -, hd⟩
    · rw [hd] at h
      exact absurd h nofun
    · rw [hd] at h
      exact absurd h nofun
    · rw [hd] at h
      exact Content.itself.inj h
  intro m' hm
  rw [hsame]
  rfl

/-- `==` of a built-in key answers whether the keys are the same. -/
theorem BuiltinKey.callMethod_equal (hx : m.BuiltinKey x) (calls : Calls) (y : Value) :
    calls.callMethod x "==" [y] m = .ok (.ofBool (m.sameKey x y)) m := by
  obtain ⟨p, hp, hr⟩ := hx.equal
  have hr : m.Resolves x "==" [y].length p := hr
  refine hr.callMethod ?_
  rw [keyMethods_equal] at hp
  rcases content_cases m x with ⟨n, hn, -, hc⟩ | ⟨s, -, hs, hc⟩ | ⟨-, -, hc⟩
  · rw [hc] at hp
    obtain rfl := Option.some.inj hp
    exact fun m' hm => bind_of_ok (numbersEqual_answers hn y m' hm)
  · rw [hc] at hp
    obtain rfl := Option.some.inj hp
    exact stringEqual_answers hs y
  · rw [hc] at hp
    obtain rfl := Option.some.inj hp
    exact objectEqual_answers hc calls y

theorem objectHash_answers {cls : Value} (hcls : m.classOf x = .ok cls) (hn : m.number? x = none)
    (hs : m.heap.read? Facet.text x = none) :
    Answers (objectHash x) m.heap (.ofInt (m.keyHash x)) := by
  intro m' hm
  unfold objectHash keyHash
  by_cases href : x.isRef = true
  · obtain ⟨o, hget, ho⟩ := exists_get?_of_classOf hcls href
    have hask : ask (·.heap.get x) m' = .ok (.ok o) m' := by rw [ask, hm, hget]
    rw [if_pos href, bind_of_ok hask, hn, hs, ho]
    rfl
  · have hnone : m.heap.get? x = none := by
      cases ho : m.heap.get? x with
      | none => rfl
      | some o => exact absurd (Heap.get?_eq_some_iff.mp ho).1 href
    rw [if_neg href, hn, hs, hnone]
    rfl

/-- `hash` of a built-in key answers its hash. -/
theorem BuiltinKey.callMethod_hash (hx : m.BuiltinKey x) (calls : Calls) :
    calls.callMethod x "hash" [] m = .ok (.ofInt (m.keyHash x)) m := by
  obtain ⟨p, hp, hr⟩ := hx.hash
  have hr : m.Resolves x "hash" ([] : List Value).length p := hr
  refine hr.callMethod ?_
  rw [keyMethods_hash] at hp
  intro m' hm
  rcases content_cases m x with ⟨n, hn, -, hc⟩ | ⟨s, hn, hs, hc⟩ | ⟨hn, hs, hc⟩
  · rw [hc] at hp
    obtain rfl := Option.some.inj hp
    have hask : ask (·.number? x) m' = .ok (some n) m' := by rw [ask, number?_congr hm, hn]
    rw [keyHash, hn]
    exact bind_of_ok hask
  · rw [hc] at hp
    obtain rfl := Option.some.inj hp
    have hread : m'.heap.read Facet.text x = .ok s := by
      obtain ⟨o, ho, hb⟩ := Option.bind_eq_some_iff.mp (hm ▸ hs)
      exact Heap.read_eq_ok_iff.mpr ⟨o, ho, hb⟩
    rw [keyHash, hn, hs]
    exact bind_of_ok (read_of_ok hread)
  · rw [hc] at hp
    obtain rfl := Option.some.inj hp
    obtain ⟨-, cls, -, -, -, hcls, -, -⟩ := hr
    exact objectHash_answers hcls hn hs m' hm

/-! ### Coherence -/

theorem BuiltinKey.stored (hx : m.BuiltinKey x) {n : Number} (hn : m.number? x = some n) :
    n.Stored := by
  cases n with
  | fixed k =>
    have hfix : x.fixnum? = some k := by
      unfold number? at hn
      cases hf : x.fixnum? with
      | some i => simpa [hf] using hn
      | none => cases hr : m.heap.read? Facet.float x <;> simp [hf, hr] at hn
    exact Value.fits_of_fixnum? hfix
  | big k => exact hx.normalised k hn
  | float f => trivial

theorem BuiltinKey.keyHash_fits (hx : m.BuiltinKey x) :
    -2 ^ 62 ≤ m.keyHash x ∧ m.keyHash x < 2 ^ 62 := by
  unfold keyHash
  split
  next n hn => exact (hx.stored hn).hash_fits
  next => exact Number.foldWord_fits _
  next => exact Number.foldWord_fits _
  next => exact Number.foldWord_fits _

/-- The same keys have the same hash. -/
theorem BuiltinKey.keyHash_eq (hx : m.BuiltinKey x) (hy : m.BuiltinKey y)
    (h : m.sameKey x y = true) : m.keyHash x = m.keyHash y := by
  obtain ⟨hsame, hnan⟩ := sameKey_iff.mp h
  rcases content_cases m x with ⟨n, hn, -, hc⟩ | ⟨s, hn, hs, hc⟩ | ⟨-, -, hc⟩
  · rcases content_cases m y with ⟨k, hk, -, hd⟩ | ⟨t, -, -, hd⟩ | ⟨-, -, hd⟩
    · rw [hc, hd] at hsame
      rw [hc] at hnan
      rw [keyHash, keyHash, hn, hk]
      exact Number.hash_eq_of_extent_eq (hx.stored hn) (hy.stored hk) (Content.number.inj hsame)
        fun hextent => hnan (congrArg Content.number hextent)
    · simp [hc, hd] at hsame
    · simp [hc, hd] at hsame
  · rcases content_cases m y with ⟨k, -, -, hd⟩ | ⟨t, hk, ht, hd⟩ | ⟨-, -, hd⟩
    · simp [hc, hd] at hsame
    · rw [hc, hd] at hsame
      rw [keyHash, keyHash, hn, hs, hk, ht, Content.text.inj hsame]
    · simp [hc, hd] at hsame
  · rcases content_cases m y with ⟨k, -, -, hd⟩ | ⟨t, -, -, hd⟩ | ⟨-, -, hd⟩
    · simp [hc, hd] at hsame
    · simp [hc, hd] at hsame
    · rw [hc, hd] at hsame
      rw [Content.itself.inj hsame]

/-- Whether `x == y` gives something that counts as true. -/
def Equals (m : Machine) (calls : Calls) (x y : Value) : Prop :=
  ∃ v m', calls.callMethod x "==" [y] m = .ok v m' ∧ v.isTruthy = true

theorem BuiltinKey.equals_iff (hx : m.BuiltinKey x) :
    m.Equals calls x y ↔ m.sameKey x y = true := by
  unfold Equals
  rw [hx.callMethod_equal calls y]
  constructor
  · rintro ⟨v, m', h, hv⟩
    obtain ⟨rfl, -⟩ := EStateM.Result.ok.inj h
    cases hs : m.sameKey x y with
    | true => rfl
    | false =>
      rw [hs] at hv
      exact absurd hv (by decide)
  · intro h
    exact ⟨_, m, rfl, by rw [h]; decide⟩

end Machine

/-- The built-in `==` and `hash` are coherent.  Let `x` and `y` be live values of any kind whose
classes resolve `==` and `hash` to the built-in methods.  Both methods answer and leave the machine as
it is; a hash is always a fixnum; values that are equal have the same hash; and `==` is symmetric and
transitive.  So a table with value keys, whose hash and equality are messages, gets an answer for
such keys, and the same hash for equal ones. -/
theorem builtin_keys_coherent (calls : Calls) (m : Machine) (x y z : Value) (hx : m.BuiltinKey x)
    (hy : m.BuiltinKey y) :
    (∃ b, calls.callMethod x "==" [y] m = .ok (.ofBool b) m) ∧
    (∃ v n, calls.callMethod x "hash" [] m = .ok v m ∧ v.fixnum? = some n) ∧
    (m.Equals calls x y → ∃ v n, v.fixnum? = some n ∧
      calls.callMethod x "hash" [] m = .ok v m ∧ calls.callMethod y "hash" [] m = .ok v m) ∧
    (m.Equals calls x y → m.Equals calls y x) ∧
    (m.Equals calls x y → m.Equals calls y z → m.Equals calls x z) ∧
    ∀ outer : Calls, outer.send = calls.callMethod → ∃ hash b,
      outer.valueKeys.hash x m = .ok hash m ∧ outer.valueKeys.equal x y m = .ok b m ∧
        (b = true → outer.valueKeys.hash y m = .ok hash m) := by
  have hfix : ∀ {v}, m.BuiltinKey v → (Value.ofInt (m.keyHash v)).fixnum? = some (m.keyHash v) :=
    fun hv => Value.fixnum?_ofInt hv.keyHash_fits
  refine ⟨⟨_, hx.callMethod_equal calls y⟩, ⟨_, _, hx.callMethod_hash calls, hfix hx⟩, ?_, ?_, ?_, ?_⟩
  · intro h
    refine ⟨_, _, hfix hx, hx.callMethod_hash calls, ?_⟩
    rw [hy.callMethod_hash, hx.keyHash_eq hy (hx.equals_iff.mp h)]
  · rw [hx.equals_iff, hy.equals_iff, Machine.sameKey_iff, Machine.sameKey_iff]
    rintro ⟨hsame, hnan⟩
    exact ⟨hsame.symm, hsame ▸ hnan⟩
  · rw [hx.equals_iff, hy.equals_iff, hx.equals_iff, Machine.sameKey_iff, Machine.sameKey_iff,
      Machine.sameKey_iff]
    rintro ⟨hxy, hnan⟩ ⟨hyz, -⟩
    exact ⟨hxy.trans hyz, hnan⟩
  · intro outer hsend
    have hhash : ∀ {v}, m.BuiltinKey v →
        outer.valueKeys.hash v m = .ok (UInt64.ofInt (m.keyHash v)) m := by
      intro v hv
      have hcall : outer.send v "hash" [] m = .ok (.ofInt (m.keyHash v)) m := by
        rw [hsend, hv.callMethod_hash]
      refine (Effect.bind_of_ok hcall).trans ?_
      rw [hfix hv]
      rfl
    have hequal : outer.valueKeys.equal x y m = .ok (m.sameKey x y) m := by
      have hcall : Effect.outcome (outer.send x "==" [y]) m =
          .ok (.ok (.ofBool (m.sameKey x y))) m := by
        rw [hsend, Effect.outcome, hx.callMethod_equal]
      refine (Effect.bind_of_ok hcall).trans ?_
      cases m.sameKey x y <;> rfl
    refine ⟨_, _, hhash hx, hequal, fun h => ?_⟩
    rw [hhash hy, hx.keyHash_eq hy h]

/-- A machine with one class for all numbers, which has their `==` and `hash`, and with the double 1.0
in slot 7. -/
def Machine.counting : Machine :=
  let boot : Effect Unit := do
    let symbols ← Effect.newTable .text 0
    let methods ← Effect.newTable .symbol 0
    let cls ← Effect.alloc .nil (.cls { methods := methods })
    Effect.update fun m => { m with
      symbols := { m.symbols with table := symbols }, classes := Array.replicate 13 cls }
    Effect.definePrimitives cls [⟨"==", 1, .compare .equal⟩, ⟨"hash", 0, .numberHash⟩]
    let _ ← Effect.alloc cls (.float ⟨0x3ff0000000000000⟩)
  boot.after { heap := { settings := {} } }

theorem Machine.counting_resolves {v : Value} (hv : counting.classOf v = .ok (.ofSlot 2 0)) :
    counting.Resolves v "==" 1 (.compare .equal) ∧ counting.Resolves v "hash" 0 .numberHash :=
  ⟨⟨.ofSymbol 0, .ofSlot 2 0, .ofSlot 4 0, "==", by cbv, hv, by cbv, by cbv⟩,
    ⟨.ofSymbol 1, .ofSlot 2 0, .ofSlot 6 0, "hash", by cbv, hv, by cbv, by cbv⟩⟩

theorem Machine.counting_builtinKey {v : Value} {n : Number} (hn : counting.number? v = some n)
    (hsmall : ∀ k, n ≠ .big k) (hv : counting.classOf v = .ok (.ofSlot 2 0)) :
    counting.BuiltinKey v := by
  have hlist : counting.keyMethods v = .comparison := by rw [keyMethods, content, hn]
  obtain ⟨hequal, hhash⟩ := counting_resolves hv
  refine ⟨⟨_, by rw [hlist]; rfl, hequal⟩, ⟨_, by rw [hlist]; rfl, hhash⟩, fun k hk => ?_⟩
  exact absurd (Option.some.inj (hn.symm.trans hk)) (hsmall k)

/-- The fixnum 1 and the double 1.0 are equal keys with one hash. -/
theorem builtin_keys_coherent_one :
    Machine.counting.Equals .exhausted (.ofInt 1) (.ofSlot 7 0) ∧
    Machine.counting.Equals .exhausted (.ofSlot 7 0) (.ofInt 1) ∧
    ∃ v n, v.fixnum? = some n ∧
      Calls.exhausted.callMethod (.ofInt 1) "hash" [] Machine.counting = .ok v Machine.counting ∧
      Calls.exhausted.callMethod (.ofSlot 7 0) "hash" [] Machine.counting = .ok v Machine.counting := by
  have hone : Machine.counting.number? (.ofInt 1) = some (.fixed 1) := by cbv
  have hdouble : Machine.counting.number? (.ofSlot 7 0) = some (.float ⟨0x3ff0000000000000⟩) := by cbv
  have hx : Machine.counting.BuiltinKey (.ofInt 1) :=
    Machine.counting_builtinKey hone (by simp) (by cbv)
  have hy : Machine.counting.BuiltinKey (.ofSlot 7 0) :=
    Machine.counting_builtinKey hdouble (by simp) (by cbv)
  obtain ⟨-, -, hhash, hsymm, -, -⟩ :=
    builtin_keys_coherent .exhausted Machine.counting _ _ .nil hx hy
  have hequals : Machine.counting.Equals .exhausted (.ofInt 1) (.ofSlot 7 0) := by
    refine hx.equals_iff.mpr (Machine.sameKey_iff.mpr ?_)
    rw [Machine.content, Machine.content, hone, hdouble]
    decide
  exact ⟨hequals, hsymm hequals, hhash hequals⟩

end ObjectMachine
