import Mathlib.Tactic
import ObjectMachine.Proofs.Naming.Startup
import ObjectMachine.Proofs.Program.Operations

/-! Methods.

Whatever clients do with a new machine, the way from a class up to the root leads over older and older
classes and comes to an end.  So the search for a method ends, and what it finds is the latest method
that was defined under the name in the nearest class.  A new method is found from the classes below it
that have no nearer one, and nothing else changes. -/

namespace ObjectMachine

open Machine Effect Judgement Naming

namespace Machine

variable {m m' : Machine} {new : Value → Value → Option Value} {v w selector : Value} {l : List Value}

/-- A value that is a class. -/
def IsClass (m : Machine) (v : Value) : Prop := ∃ c, m.heap.read Facet.cls v = .ok c

theorem Lineage.isClass (h : m.Lineage v l) (hw : w ∈ l) : m.IsClass w := by
  induction h with
  | top _ => cases hw
  | up hread _ ih =>
    rcases List.mem_cons.mp hw with rfl | hw
    · exact ⟨_, hread⟩
    · exact ih hw

/-- The classes on the way up are those that a class is below. -/
theorem Lineage.mem_iff (h : m.Lineage v l) : w ∈ l ↔ m.Below w v := by
  induction h with
  | top hnil =>
    refine iff_of_false List.not_mem_nil fun hbelow => ?_
    cases hbelow with
    | here hw => simp [hw] at hnil
    | up hread _ => simp [read_cls_ne_nil hread] at hnil
  | @up cls c rest hread _ ih =>
    rw [List.mem_cons, ih]
    constructor
    · rintro (rfl | hbelow)
      · exact .here (read_cls_ne_nil hread)
      · exact .up hread hbelow
    · intro hbelow
      cases hbelow with
      | here _ => exact Or.inl rfl
      | up hread' hrest =>
        obtain rfl := Except.ok.inj (hread.symm.trans hread')
        exact Or.inr hrest

theorem Below.trans {u : Value} (h : m.Below v w) (h' : m.Below u v) : m.Below u w := by
  induction h with
  | here _ => exact h'
  | up hread _ ih => exact .up hread ih

/-- Classes that are below each other are the same. -/
theorem Lineage.antisymm {l' : List Value} (h : m.Lineage v l) (h' : m.Lineage w l')
    (hw : m.Below w v) (hv : m.Below v w) : v = w := by
  rw [← h.mem_iff] at hw
  rw [← h'.mem_iff] at hv
  cases h with
  | top _ => cases hw
  | up hread hrest =>
    rcases List.mem_cons.mp hw with rfl | hw
    · rfl
    · -- otherwise each of the two ways would be longer than the other
      obtain ⟨k, hk, hle⟩ := hrest.of_mem hw
      obtain ⟨k', hk', hle'⟩ := h'.of_mem hv
      rw [hk.unique h'] at hle
      rw [hk'.unique (.up hread hrest), List.length_cons] at hle'
      omega

/-- A class is no table. -/
theorem Settled.usable_of_isClass (hm : m.Settled) (hv : m.IsClass v) : m.Usable v := by
  obtain ⟨c, hc⟩ := hv
  exact (public_of_read Facet.lawful_cls nofun hc).usable hm.discreet.reserves

/-- The way up from every class comes to an end. -/
theorem Settled.exists_lineage (hm : m.Settled) (hv : m.IsClass v) : ∃ l, m.Lineage v l := by
  obtain ⟨c, hread⟩ := hv
  obtain ⟨o, ho, hbody⟩ := Heap.read_eq_ok_iff.mp hread
  replace hbody := (Facet.lawful_cls.put_eq hbody).symm
  induction hn : o.serial using Nat.strong_induction_on generalizing v o c with
  | _ n ih =>
    rcases hm.neat.superclass ho hbody with hnil | ⟨p, b, hp, hb, hlt⟩
    · exact ⟨_, .up hread (.top (by rw [hnil]; rfl))⟩
    · have hread' : m.heap.read Facet.cls c.superclass = .ok b :=
        Heap.read_eq_ok_iff.mpr ⟨p, hp, by rw [hb]; rfl⟩
      obtain ⟨l, hl⟩ := ih p.serial (hn ▸ hlt) b hread' p hp hb rfl
      exact ⟨_, .up hread hl⟩

/-- As long as a class is there, the way up from it is the same. -/
theorem Lineage.later (hl : m.Lineage v l) (h : m.Binds new m') (hlive : l = [] ∨ m'.heap.isLive v = true) :
    m'.Lineage v l := by
  induction hl with
  | top hnil => exact .top hnil
  | @up cls c rest hread hrest ih =>
    have hlive := hlive.resolve_left (List.cons_ne_nil _ _)
    obtain ⟨o, ho, hbody⟩ := Heap.read_eq_ok_iff.mp hread
    obtain ⟨o', ho'⟩ := Heap.isLive_iff.mp hlive
    obtain ⟨c', hc', hsuper, -⟩ := Body.exists_cls_of_outline_eq (h.later.follows ho ho').outline_eq
      (Facet.lawful_cls.put_eq hbody).symm
    refine .up (c := c') (Heap.read_eq_ok_iff.mpr ⟨o', ho', by rw [hc']; rfl⟩) ?_
    rw [hsuper]
    refine ih ?_
    cases hrest with
    | top _ => exact Or.inl rfl
    | up hread' _ =>
      refine Or.inr (h.settled.whole cls o' ho' _ ?_
        (Heap.isRef_of_isLive (Heap.isLive_of_read hread')))
      simp [Object.edges, hc', Body.edges, hsuper]

/-! ### Searching the way up -/

/-- The methods of a class are looked up in its own table. -/
theorem Settled.lookup_methods (hm : m.Settled) {c : ClassBody} (hread : m.heap.read Facet.cls v = .ok c)
    (hselector : selector ≠ .absent) :
    Dictionary.lookup (fun _ => Keys.symbol) c.methods selector m =
      .ok (m.heap.binding? v selector) m := by
  obtain ⟨o, ho, hbody⟩ := Heap.read_eq_ok_iff.mp hread
  have hbody := (Facet.lawful_cls.put_eq hbody).symm
  have hnames : o.body.names? = some c.methods := by rw [hbody]; rfl
  obtain ⟨t, s, ht, hs⟩ := hm.neat.tables ho hnames (hm.neat.methods ho hbody)
  rw [Dictionary.lookup_names ht hs hselector, Heap.binding?, Heap.names?_eq_some ho hnames ht]
  rfl

/-- The search finds what is bound in the first class that has the selector bound. -/
theorem Lineage.findMethodFrom_eq (hl : m.Lineage v l) (hm : m.Settled) (hselector : selector ≠ .absent)
    {fuel : Nat} (hfuel : l.length < fuel) :
    findMethodFrom selector fuel v m = .ok (l.findSome? fun c => m.heap.binding? c selector) m := by
  induction hl generalizing fuel with
  | top hnil =>
    obtain ⟨fuel, rfl⟩ := Nat.exists_eq_add_of_lt hfuel
    rw [findMethodFrom, if_pos hnil]
    rfl
  | @up cls c rest hread _ ih =>
    obtain ⟨fuel, rfl⟩ : ∃ n, fuel = n + 1 := ⟨fuel - 1, by omega⟩
    rw [findMethodFrom, if_neg (by simp [read_cls_ne_nil hread]), bind_of_ok (read_of_ok hread),
      bind_of_ok (hm.lookup_methods hread hselector), List.findSome?_cons]
    cases m.heap.binding? cls selector with
    | some x => rfl
    | none => exact ih (by simpa using hfuel)

theorem Lineage.findMethod_eq (hl : m.Lineage v l) (hm : m.Settled) (hselector : selector ≠ .absent) :
    findMethod v selector m = .ok (l.findSome? fun c => m.heap.binding? c selector) m :=
  hl.findMethodFrom_eq hm hselector (Nat.lt_of_le_of_lt hl.length_le (Nat.lt_add_of_pos_right two_pos))

/-! ### Being a subclass -/

/-- Whether a class is a subclass is decided by the way up. -/
theorem Lineage.isSubclass_eq (hl : m.Lineage v l) (w : Value) : ∃ b, m.isSubclass v w = .ok b ∧
    (b = true ↔ m.Below w v) := by
  obtain ⟨b, hb⟩ := hl.exists_subclassFrom w
    (Nat.lt_of_le_of_lt hl.length_le (Nat.lt_add_of_pos_right two_pos : _ < m.heap.slots.size + 2))
  exact ⟨b, hb, subclassFrom_eq_ok hb⟩

theorem Lineage.isSubclass_iff (hl : m.Lineage v l) : m.isSubclass v w = .ok true ↔ m.Below w v := by
  obtain ⟨b, hb, hbelow⟩ := hl.isSubclass_eq w
  rw [hb, ← hbelow, Except.ok.injEq]

/-! ### What the ledger says -/

variable {attributes : List (Naming Value)} {methods : List (Naming NativeMethod)} {name : String} {i : Nat}

/-- The latest method of a name in the first class that has one. -/
def nearest? (log : List (Naming NativeMethod)) (l : List Value) (name : String) : Option NativeMethod :=
  l.findSome? fun c => latest? log c name

namespace Accounts

theorem binding?_cases (h : m.Accounts attributes methods) (hroom : m.HasRoom) (hv : m.IsClass v)
    (hi : m.symbols.names[i]? = some name) :
    m.heap.binding? v (.ofSymbol i) = none ∧ latest? methods v name = none ∨
      ∃ x method, m.heap.binding? v (.ofSymbol i) = some x ∧ latest? methods v name = some method ∧
        m.heap.read Facet.native x = .ok method := by
  obtain ⟨c, hread⟩ := id hv
  obtain ⟨o, ho, -⟩ := Heap.read_eq_ok_iff.mp hread
  exact h.methods.binding?_cases h.settled hroom ho ((exists_read_cls_iff ho).mp hv) hi

/-- What is found first is the nearest method. -/
theorem nearest_cases (h : m.Accounts attributes methods) (hroom : m.HasRoom)
    (hi : m.symbols.names[i]? = some name) : ∀ {l : List Value}, (∀ w ∈ l, m.IsClass w) →
    (l.findSome? fun c => m.heap.binding? c (.ofSymbol i)) = none ∧ nearest? methods l name = none ∨
      ∃ x method, (l.findSome? fun c => m.heap.binding? c (.ofSymbol i)) = some x ∧
        nearest? methods l name = some method ∧ m.heap.read Facet.native x = .ok method
  | [], _ => Or.inl ⟨rfl, rfl⟩
  | c :: l, hl => by
    rw [nearest?, List.findSome?_cons, List.findSome?_cons]
    rcases h.binding?_cases hroom (hl c List.mem_cons_self) hi with ⟨hx, hb⟩ | ⟨x, b, hx, hb, hread⟩
    · rw [hx, hb]
      exact h.nearest_cases hroom hi fun w hw => hl w (List.mem_cons_of_mem _ hw)
    · rw [hx, hb]
      exact Or.inr ⟨x, b, rfl, rfl, hread⟩

/-- Classes have nothing bound but names. -/
theorem binding?_eq_none (h : m.Accounts attributes methods) (hv : m.IsClass v)
    (hselector : ∀ i name, m.symbols.names[i]? = some name → selector ≠ .ofSymbol i) :
    m.heap.binding? v selector = none := by
  obtain ⟨c, hread⟩ := id hv
  obtain ⟨o, ho, -⟩ := Heap.read_eq_ok_iff.mp hread
  refine Option.eq_none_iff_forall_ne_some.mpr fun x hx => ?_
  obtain ⟨i, name, -, heq, hi, -⟩ := h.methods.bound ho ((exists_read_cls_iff ho).mp hv) hx
  exact hselector i name hi heq

/-- Whether a class has a method of a name that may be new. -/
theorem binding?_eq_none_iff (h : m.Accounts attributes methods) (hbinds : m.Binds new m')
    (hroom : m'.HasRoom) (hv : m.IsClass v) (hi : m'.symbols.names[i]? = some name) :
    m.heap.binding? v (.ofSymbol i) = none ↔ latest? methods v name = none := by
  obtain ⟨c, hread⟩ := id hv
  obtain ⟨o, ho, -⟩ := Heap.read_eq_ok_iff.mp hread
  have hkind := (exists_read_cls_iff ho).mp hv
  constructor
  · intro hnone
    refine Option.eq_none_iff_forall_ne_some.mpr fun b hb => ?_
    obtain ⟨j, x, hj, hx, -⟩ := h.methods.found ho hkind hb
    obtain rfl := index_unique hbinds.settled.discreet.nodup hi (hbinds.names hj)
    rw [hnone] at hx
    cases hx
  · intro hnone
    refine Option.eq_none_iff_forall_ne_some.mpr fun x hx => ?_
    obtain ⟨j, other, b, heq, hj, hb⟩ := h.methods.bound ho hkind hx
    have hj := hbinds.names hj
    obtain rfl := Value.ofSymbol_inj (hbinds.settled.index_lt hroom hi)
      (hbinds.settled.index_lt hroom hj) heq
    obtain rfl := Option.some.inj (hi.symm.trans hj)
    rw [hnone] at hb
    cases hb

end Accounts

theorem findSome?_congr {f g : Value → Option Value} : ∀ {l : List Value}, (∀ e ∈ l, f e = g e) →
    l.findSome? f = l.findSome? g
  | [], _ => rfl
  | e :: l, h => by
    rw [List.findSome?_cons, List.findSome?_cons, h e List.mem_cons_self,
      findSome?_congr fun w hw => h w (List.mem_cons_of_mem e hw)]

/-- A search that stops at a class, unless it has found something before. -/
theorem findSome?_stop (f : Value → Option Value) (c x : Value) : ∀ l : List Value,
    (l.findSome? fun e => (if e = c then some x else none).or (f e)) =
      if c ∈ l ∧ ∀ e ∈ l.takeWhile (· != c), f e = none then some x else l.findSome? f
  | [] => by simp
  | e :: l => by
    by_cases he : e = c
    · subst he
      simp
    · have he' : (e != c) = true := bne_iff_ne.mpr he
      rw [List.findSome?_cons, if_neg he, Option.none_or, List.findSome?_cons, List.takeWhile_cons,
        if_pos he']
      cases hf : f e with
      | some y => simp [hf]
      | none => simp [hf, findSome?_stop f c x l, Ne.symm he]

/-! ### Finding methods -/

/-- Classes stand above each other in order, and methods are found by a ledger. -/
structure FindsMethods (log : List (Naming NativeMethod)) (m : Machine) : Prop where
  /-- A class has no class above it, or an older one. -/
  superclass : ∀ {v o c}, m.heap.get? v = some o → o.body = .cls c → c.superclass = .nil ∨
    ∃ p b, m.heap.get? c.superclass = some p ∧ p.body = .cls b ∧ p.serial < o.serial
  /-- The way up from a class leads over classes and comes to an end. -/
  lineage : ∀ {v}, m.IsClass v → ∃ l, m.Lineage v l ∧ ∀ w ∈ l, m.IsClass w
  subclass : ∀ {v l}, m.Lineage v l → ∀ w, ∃ b, m.isSubclass v w = .ok b ∧ (b = true ↔ w ∈ l)
  refl : ∀ {v}, m.IsClass v → m.isSubclass v v = .ok true
  antisymm : ∀ {v w}, m.IsClass v → m.IsClass w → m.isSubclass v w = .ok true →
    m.isSubclass w v = .ok true → v = w
  trans : ∀ {u v w}, m.IsClass u → m.IsClass v → m.isSubclass u v = .ok true →
    m.isSubclass v w = .ok true → m.isSubclass u w = .ok true
  /-- The search finds the latest method of the nearest class that has one. -/
  found : ∀ {v l i name}, m.Lineage v l → m.symbols.names[i]? = some name →
    match nearest? log l name with
    | some method => ∃ x, findMethod v (.ofSymbol i) m = .ok (some x) m ∧
        m.heap.read Facet.native x = .ok method
    | none => findMethod v (.ofSymbol i) m = .ok none m
  unknown : ∀ {v l selector}, m.Lineage v l → selector ≠ .absent →
    (∀ i name, m.symbols.names[i]? = some name → selector ≠ .ofSymbol i) →
    findMethod v selector m = .ok none m
  /-- A new method is found from the classes below, as far as they have no nearer one. -/
  defined : ∀ {cls method m'}, m.IsClass cls → method.code.Avoids m.symbols.table →
    m' = (defineMethod cls method).after m → m'.HasRoom →
    defineMethod cls method m = .ok () m' ∧ ∃ (i : Nat) (x : Value),
      m'.symbols.names[i]? = some method.name ∧ m'.heap.read Facet.native x = .ok method ∧
      ∀ {v l selector}, m.Lineage v l → m'.IsClass v → selector ≠ .absent →
        ∃ old, findMethod v selector m = .ok old m ∧ old ≠ some x ∧
          findMethod v selector m' = .ok
            (if selector = .ofSymbol i ∧ cls ∈ l ∧
                ∀ w ∈ l.takeWhile (· != cls), latest? log w method.name = none
              then some x else old) m'

namespace Accounts

theorem defined (h : m.Accounts attributes methods) {cls : Value} {method : NativeMethod}
    (hcls : m.IsClass cls) (hcode : method.code.Avoids m.symbols.table)
    (hm' : m' = (defineMethod cls method).after m) (hroom : m'.HasRoom) :
    defineMethod cls method m = .ok () m' ∧ ∃ (i : Nat) (x : Value),
      m'.symbols.names[i]? = some method.name ∧ m'.heap.read Facet.native x = .ok method ∧
      ∀ {v l selector}, m.Lineage v l → m'.IsClass v → selector ≠ .absent →
        ∃ old, findMethod v selector m = .ok old m ∧ old ≠ some x ∧
          findMethod v selector m' = .ok
            (if selector = .ofSymbol i ∧ cls ∈ l ∧
                ∀ w ∈ l.takeWhile (· != cls), latest? methods w method.name = none
              then some x else old) m' := by
  have hends := (settles_defineMethod method fun _ _ =>
    ⟨h.settled.usable_of_isClass hcls, hcode⟩).ends h.settled trivial
    (hm' ▸ hroom)
  cases hdefine : defineMethod cls method m with
  | error u m'' =>
    rw [hdefine] at hends
    obtain ⟨c, hc⟩ := hcls
    exact absurd hc (hends.2.2 c)
  | ok _ m'' =>
    rw [hdefine] at hends
    obtain rfl : m' = m'' := hm'.trans (after_of_ok hdefine)
    obtain ⟨-, i, x, hi, hbinds, hx, hfresh⟩ := hends
    refine ⟨rfl, i, x, hi, hx, fun {v l selector} hl hv hselector => ?_⟩
    obtain ⟨c, hc⟩ := hv
    have hl' := hl.later hbinds (Or.inr (Heap.isLive_of_read hc))
    refine ⟨_, hl.findMethod_eq h.settled hselector, fun hold => ?_, ?_⟩
    · -- the object of the method was not there before
      obtain ⟨e, -, he⟩ := List.exists_of_findSome?_eq_some hold
      have hres := h.settled.neat.resolves_binding h.settled.whole he
      obtain ⟨o, ho⟩ := Heap.isLive_iff.mp (hres (Heap.isRef_of_isLive (Heap.isLive_of_read hx)))
      rw [hfresh] at ho
      cases ho
    · rw [hl'.findMethod_eq hbinds.settled hselector, findSome?_congr fun e he =>
        hbinds.bindings (hl'.isLive he) selector]
      by_cases hsame : selector = .ofSymbol i
      · subst hsame
        have hnearer : (∀ e ∈ l.takeWhile (· != cls), m.heap.binding? e (.ofSymbol i) = none) ↔
            ∀ e ∈ l.takeWhile (· != cls), latest? methods e method.name = none :=
          forall₂_congr fun e he => h.binding?_eq_none_iff hbinds hroom
            (hl.isClass (List.takeWhile_subset _ he)) hi
        simp only [single, and_true, true_and, findSome?_stop, hnearer]
      · simp only [single, hsame, and_false, false_and, if_false, Option.none_or]

/-- A machine that records a ledger of methods finds methods by it. -/
theorem findsMethods (h : m.Accounts attributes methods) (hroom : m.HasRoom) :
    m.FindsMethods methods where
  superclass ho hc := h.settled.neat.superclass ho hc
  lineage hv := by
    obtain ⟨l, hl⟩ := h.settled.exists_lineage hv
    exact ⟨l, hl, fun _ => hl.isClass⟩
  subclass hl w := by
    obtain ⟨b, hb, hbelow⟩ := hl.isSubclass_eq w
    exact ⟨b, hb, hbelow.trans hl.mem_iff.symm⟩
  refl {v} hv := by
    obtain ⟨l, hl⟩ := h.settled.exists_lineage hv
    obtain ⟨c, hc⟩ := hv
    exact hl.isSubclass_iff.mpr (.here (read_cls_ne_nil hc))
  antisymm hv hw hvw hwv := by
    obtain ⟨l, hl⟩ := h.settled.exists_lineage hv
    obtain ⟨l', hl'⟩ := h.settled.exists_lineage hw
    exact hl.antisymm hl' (hl.isSubclass_iff.mp hvw) (hl'.isSubclass_iff.mp hwv)
  trans hu hv huv hvw := by
    obtain ⟨l, hl⟩ := h.settled.exists_lineage hu
    obtain ⟨l', hl'⟩ := h.settled.exists_lineage hv
    exact hl.isSubclass_iff.mpr ((hl.isSubclass_iff.mp huv).trans (hl'.isSubclass_iff.mp hvw))
  found {v l i name} hl hi := by
    have hselector : Value.ofSymbol i ≠ .absent := (Value.Atomic.ofSymbol i).ne_absent
    rw [hl.findMethod_eq h.settled hselector]
    rcases h.nearest_cases hroom hi fun _ => hl.isClass with ⟨hx, hb⟩ | ⟨x, method, hx, hb, hread⟩
    · rw [hb, hx]
    · rw [hb, hx]
      exact ⟨x, rfl, hread⟩
  unknown {v l selector} hl hne hselector := by
    rw [hl.findMethod_eq h.settled hne, List.findSome?_eq_none_iff.mpr fun w hw =>
      h.binding?_eq_none (hl.isClass hw) hselector]
  defined hcls hcode hm' hroom' := h.defined hcls hcode hm' hroom'

end Accounts

end Machine

/-- Method lookup ends, and finds the nearest definition. -/
theorem methods_found (settings : HeapSettings) (commands : List Command)
    (hfair : Command.FairAll commands (Machine.new settings)) {m : Machine}
    (hm : m = Command.serve commands (Machine.new settings)) (hroom : m.HasRoom) :
    m.FindsMethods (Bootstrap.installed (Machine.new settings) Bootstrap.installation ++
      commands.flatMap Command.definitions) := by
  subst hm
  exact ((Bootstrap.accounts_new settings).serve hfair hroom).findsMethods hroom

/-- A class is derived and kept, and gets a method under a name that its superclass has one for. -/
def overriding (superclass derived : Value) : List Command :=
  [.newClass "Pear" superclass, .keep derived, .defineMethod derived ⟨"to_s", 0, .primitive .nilText⟩]

theorem nearest_overriding (log : List (Naming NativeMethod)) (superclass derived : Value)
    (l : List Value) :
    nearest? (log ++ (overriding superclass derived).flatMap Command.definitions) (derived :: l) "to_s" =
      some ⟨"to_s", 0, .primitive .nilText⟩ := by
  have hlog : (overriding superclass derived).flatMap Command.definitions =
      [⟨derived, "to_s", ⟨"to_s", 0, .primitive .nilText⟩⟩] := rfl
  rw [nearest?, List.findSome?_cons, hlog, latest?_append, latest?_singleton, if_pos ⟨rfl, rfl⟩,
    Option.some_or]

theorem within_newClass (name : String) (superclass : Value) : Within 4 (newClass name superclass) :=
  Within.withHandles ((frugal_pin superclass).andThen fun _ => (meets_read _ _).andThen fun _ =>
    (within_intern name).bind (k := 2) fun _ => (within_newTable _ _).bind (k := 1) fun _ =>
      (meets_ask _).andThen fun _ => within_alloc _ _)

/-- A kept class is given a method. -/
theorem exists_defined {m₀ : Machine} {derived : Value} (hm : m₀.Settled) (hclass : m₀.IsClass derived)
    (hkept : derived ∈ m₀.handles) (method : NativeMethod) (hcode : method.code.Avoids m₀.symbols.table)
    (hroom : m₀.heap.slots.size + 3 ≤ 2 ^ 32) : ∃ (m' : Machine) (i : Nat),
      defineMethod derived method m₀ = .ok () m' ∧
      m'.HasRoom ∧ m'.IsClass derived ∧ m'.symbols.names[i]? = some method.name := by
  have hsize := (within_defineMethod derived method m₀).1
  have hends := (settles_defineMethod method fun _ _ => ⟨hm.usable_of_isClass hclass, hcode⟩).ends hm
    trivial (hsize.trans hroom)
  have hsteady : m₀.Balanced false ∅ ((defineMethod derived method).after m₀) :=
    steady_defineMethod derived method m₀
  obtain ⟨c, hc⟩ := hclass
  cases hdefine : defineMethod derived method m₀ with
  | error u m' =>
    rw [hdefine] at hends
    exact absurd hc (hends.2.2 c)
  | ok _ m' =>
    rw [hdefine] at hends
    rw [after_of_ok hdefine] at hsize hsteady
    obtain ⟨-, i, x, hi, hbinds, -⟩ := hends
    refine ⟨m', i, rfl, hsize.trans hroom, ?_, hi⟩
    -- the handle is still there, so the class is
    have hkept' : derived ∈ m'.handles := by
      obtain ⟨n, hn, hget⟩ := Array.mem_iff_getElem.mp hkept
      exact Array.mem_of_getElem? ((hsteady.slot n hn (Set.notMem_empty n)).trans
        ((Array.getElem?_eq_getElem hn).trans (congrArg some hget)))
    obtain ⟨o, ho, -⟩ := Heap.read_eq_ok_iff.mp hc
    obtain ⟨o', ho'⟩ := Heap.isLive_iff.mp (hbinds.settled.intact.closed.roots derived
      (by simp [roots, hkept']) (Heap.get?_eq_some_iff.mp ho).1)
    rw [IsClass, exists_read_cls_iff ho', hbinds.kind_eq ho ho', ← exists_read_cls_iff ho]
    exact ⟨c, hc⟩

/-- A machine with some room carries these commands out. -/
theorem exists_overridden {m₀ : Machine} {superclass : Value} (hm : m₀.Settled)
    (hclass : m₀.IsClass superclass) (hsize : m₀.heap.slots.size + 7 ≤ 2 ^ 32) :
    ∃ (derived : Value) (m : Machine) (i : Nat), m = Command.serve (overriding superclass derived) m₀ ∧
      Command.FairAll (overriding superclass derived) m₀ ∧ m.HasRoom ∧ m.IsClass derived ∧
      m.symbols.names[i]? = some "to_s" := by
  have hsuper := hm.usable_of_isClass hclass
  obtain ⟨b, hb⟩ := hclass
  have hsize₁ := (within_newClass "Pear" superclass m₀).1
  have hends := (settles_newClass "Pear" fun _ _ => hsuper).ends hm trivial (hsize₁.trans (by omega))
  cases hnew : newClass "Pear" superclass m₀ with
  | error u m₁ =>
    rw [hnew] at hends
    exact absurd hb (hends.2.2 b)
  | ok derived m₁ =>
    rw [hnew] at hends
    rw [after_of_ok hnew] at hsize₁
    obtain ⟨hbinds, hclass⟩ := hends
    have hderived := hbinds.settled.usable_of_isClass hclass
    have hpin : Settles True (pin derived) m₁ (fun _ _ => False) _ := Settles.pin fun _ _ => hderived
    have hkept := (hpin.ends hbinds.settled trivial (hsize₁.trans (by omega))).1.settled
    obtain ⟨m', i, hdefine, hroom, hclass', hi⟩ := exists_defined hkept hclass
      Array.mem_push_self ⟨"to_s", 0, .primitive .nilText⟩ trivial
      (by change m₁.heap.slots.size + 3 ≤ _; omega)
    have hfirst : (Command.newClass "Pear" superclass).perform.after m₀ = m₁ := by
      rw [Command.perform, after_map, after_of_ok hnew]
    have hsecond : (Command.keep derived).perform.after m₁ = { m₁ with handles := m₁.handles.push derived } :=
      rfl
    have hthird := after_of_ok hdefine
    refine ⟨derived, m', i, ?_, ⟨hsuper, ?_, ?_, trivial⟩, hroom, hclass', hi⟩
    · rw [Command.serve, overriding, List.foldl_cons, hfirst, List.foldl_cons, hsecond, List.foldl_cons,
        List.foldl_nil, Command.perform, hthird]
    · rw [hfirst]
      exact hderived
    · rw [hfirst, hsecond]
      exact ⟨hderived, trivial⟩

/-- The method of the new class is found, and not that of the class above. -/
theorem methods_found_override : ∃ (derived : Value) (m : Machine) (i : Nat) (x : Value),
    m = Command.serve (overriding ((Machine.new {}).classValue .object) derived) (Machine.new {}) ∧
      findMethod derived (.ofSymbol i) m = .ok (some x) m ∧
      m.heap.read Facet.native x = .ok ⟨"to_s", 0, .primitive .nilText⟩ := by
  have hobject : IsClass (Machine.new {}) ((Machine.new {}).classValue .object) :=
    ((Bootstrap.typed_new {}).shaped.builtin .object).imp fun _ hb => hb.1
  have hsize := (Bootstrap.size_new_le {}).1
  obtain ⟨derived, m, i, hrun, hfair, hroom, hclass, hi⟩ := exists_overridden
    (Bootstrap.accounts_new {}).settled hobject (by omega)
  have h := methods_found {} _ hfair hrun hroom
  obtain ⟨l, hl, -⟩ := h.lineage hclass
  have hfound := h.found hl hi
  cases hl with
  | top hnil =>
    obtain ⟨c, hc⟩ := hclass
    rw [read_cls_ne_nil hc] at hnil
    cases hnil
  | up _ _ =>
    rw [nearest_overriding] at hfound
    obtain ⟨x, hx, hread⟩ := hfound
    exact ⟨derived, m, i, x, hrun, hx, hread⟩

end ObjectMachine
