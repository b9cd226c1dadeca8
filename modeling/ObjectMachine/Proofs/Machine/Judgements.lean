import Mathlib.Tactic
import ObjectMachine.Proofs.Machine.Runs

/-! Judgements on runs.

A judgement says something of a run: of the machine it started on, how it ended and the machine it left.
It has to respect how runs are put together; then it passes over code by rules that follow the way
effects are built.  The rules are stated here once, with what they give for the code that raises
exceptions.  A property of effects is made an instance, and only what its own primitive effects do is
left to prove. -/

namespace ObjectMachine

open Effect

theorem Heap.get_ne_corrupted (h : Heap) (v : Value) (how : Corruption) :
    h.get v ≠ .error (.corruptedTable how) := by
  unfold get
  cases h.get? v <;> by_cases hr : v.isRef = true <;> simp [hr]

theorem Heap.read_ne_corrupted (h : Heap) (facet : Facet α) (v : Value) (how : Corruption) :
    h.read facet v ≠ .error (.corruptedTable how) := by
  unfold read get
  cases h.get? v with
  | none => by_cases hr : v.isRef = true <;> simp [hr]
  | some o => cases hf : facet.get? o.body <;> by_cases hr : v.isRef = true <;> simp [hr, hf]

/-- What can be said of the runs of effects.  To look and to fail on a machine that stays as it was is
always in order, unless a table was found corrupted; and of a sequence it can be said if it can be said
of the first effect and, from the machine that its answer left, of the second. -/
structure Judgement where
  /-- Whether it can be said of the run on a machine. -/
  At {α : Type} (a : Effect α) (m : Machine) : Prop
  look {α : Type} {a : Effect α} {m : Machine} {x : α} : a m = .ok x m → At a m
  fail {α : Type} {a : Effect α} {m : Machine} {u : Fault} (hu : ∀ how, u ≠ .corruptedTable how) :
    a m = .error (.fatal u) m → At a m
  bind {α β : Type} {a : Effect α} {f : α → Effect β} {m : Machine} :
    At a m → (∀ x m', a m = .ok x m' → At (f x) m') → At (a >>= f) m

namespace Judgement

/-- Whether it can be said of all runs of an effect. -/
def Meets (J : Judgement) (a : Effect α) : Prop := ∀ m, J.At a m

/-- Whether every fault is in order, also that a table is corrupted. -/
def Excuses (J : Judgement) : Prop := ∀ ⦃α : Type⦄ (u : Fault), J.Meets (fault u : Effect α)

/-- Whether a failure that is caught is no worse than an answer. -/
def Forgets (J : Judgement) : Prop :=
  ∀ ⦃α : Type⦄ ⦃a : Effect α⦄ ⦃m : Machine⦄, J.At a m → J.At (outcome a) m

/-! ### Two ways to judge -/

/-- The judgement on how runs end, and on which machine.  It is enough that what follows an answer may
be added, and that a failure may take the place of any answer. -/
def ofEnds (Ends : {α : Type} → Machine → Except Unwind α → Machine → Prop)
    (look : ∀ {α : Type} (m : Machine) (x : α), Ends m (.ok x) m)
    (fail : ∀ {α : Type} (m : Machine) {u : Fault}, (∀ how, u ≠ .corruptedTable how) →
      Ends m (.error (.fatal u) : Except Unwind α) m)
    (next : ∀ {α β : Type} {m m' m'' : Machine} {x : α} {r : Except Unwind β},
      Ends m (.ok x) m' → Ends m' r m'' → Ends m r m'')
    (pass : ∀ {α β : Type} {m m' : Machine} {u : Unwind},
      Ends m (.error u : Except Unwind α) m' → Ends m (.error u : Except Unwind β) m') :
    Judgement where
  At a m := Ends m (a.ending m) (a.after m)
  look {_ _ m x} h := by
    rw [ending_of_ok h, after_of_ok h]
    exact look m x
  fail {_ _ m _} hu h := by
    rw [ending_of_error h, after_of_error h]
    exact fail m hu
  bind {α _ a f m} ha hf := by
    cases h : a m with
    | ok x m' =>
      rw [ending_of_ok h, after_of_ok h] at ha
      rw [ending_bind_of_ok h, after_bind_of_ok h]
      exact next ha (hf x m' h)
    | error u m' =>
      rw [ending_of_error h, after_of_error h] at ha
      rw [ending_bind_of_error h, after_bind_of_error h]
      exact pass ha

/-- The judgement that asks for a relation between the machines before and after. -/
def ofRel (R : Machine → Machine → Prop) (refl : ∀ m, R m m)
    (trans : ∀ ⦃m m' m''⦄, R m m' → R m' m'' → R m m'') : Judgement :=
  ofEnds (fun m _ m' => R m m') (fun m _ => refl m) (fun m _ _ => refl m)
    (fun h h' => trans h h') fun h => h

variable {α β : Type} {J : Judgement} {a : Effect α} {f : α → Effect β} {m m' : Machine}

/-! ### Rules -/

theorem meets_pure (x : α) : J.Meets (pure x : Effect α) := fun _ => J.look rfl

theorem meets_ask (g : Machine → α) : J.Meets (ask g) := fun _ => J.look rfl

theorem meets_fault {u : Fault} (hu : ∀ how, u ≠ .corruptedTable how) :
    J.Meets (fault u : Effect α) := fun _ => J.fail hu rfl

theorem meets_read (facet : Facet α) (v : Value) : J.Meets (read facet v) := by
  intro m
  cases h : m.heap.read facet v with
  | ok x => exact J.look (read_of_ok h)
  | error u =>
    refine J.fail (fun how hu => ?_) (read_of_error h)
    exact m.heap.read_ne_corrupted facet v how (h.trans (congrArg _ hu))

/-- One effect after the other. -/
theorem At.bind (ha : J.At a m) (hf : ∀ x m', a m = .ok x m' → J.At (f x) m') :
    J.At (a >>= f) m := J.bind ha hf

theorem Meets.bind (ha : J.Meets a) (hf : ∀ x, J.Meets (f x)) : J.Meets (a >>= f) := fun m =>
  J.bind (ha m) fun x m' _ => hf x m'

theorem At.ask_bind {g : Machine → α} (hf : J.At (f (g m)) m) : J.At (ask g >>= f) m :=
  J.bind (meets_ask g m) fun x m' h => by
    obtain ⟨rfl, rfl⟩ := EStateM.Result.ok.inj h
    exact hf

/-- Of what was read it is known where it was found. -/
theorem At.read_bind {facet : Facet α} {v : Value}
    (hf : ∀ x, m.heap.read facet v = .ok x → J.At (f x) m) : J.At (read facet v >>= f) m :=
  J.bind (meets_read facet v m) fun x m' h => by
    obtain ⟨hx, rfl⟩ := of_read_eq_ok h
    exact hf x hx

/-- Writing reads first, and only then changes the heap. -/
theorem meets_write {facet : Facet α} {v : Value} {g : α → α}
    (hg : J.Meets (update fun m => { m with heap := m.heap.modify facet v g })) :
    J.Meets (write facet v g) := (meets_read facet v).bind fun _ => hg

/-- Where there is nothing to write to, nothing is written. -/
theorem at_write {facet : Facet α} {v : Value} {g : α → α}
    (h : ∀ x, m.heap.read facet v = .ok x → J.At (write facet v g) m) :
    J.At (write facet v g) m := by
  cases hx : m.heap.read facet v with
  | ok x => exact h x hx
  | error u => exact At.read_bind fun x hread => absurd (hread.symm.trans hx) nofun

theorem meets_ofExcept {x : Except Fault α} (hx : ∀ how, x ≠ .error (.corruptedTable how)) :
    J.Meets (ofExcept x) := by
  cases x with
  | ok x => exact meets_pure x
  | error u => exact meets_fault fun how hu => hx how (congrArg _ hu)

theorem Excuses.ofExcept (hJ : J.Excuses) (x : Except Fault α) : J.Meets (ofExcept x) := by
  cases x with
  | ok x => exact meets_pure x
  | error u => exact hJ u

section Relations

variable {R : Machine → Machine → Prop} {refl : ∀ m, R m m}
  {trans : ∀ ⦃m m' m''⦄, R m m' → R m' m'' → R m m''}

theorem excuses_ofRel : (ofRel R refl trans).Excuses := fun _ _ => refl

theorem forgets_ofRel : (ofRel R refl trans).Forgets := fun _ a m h => by
  show R m ((outcome a).after m)
  rwa [after_outcome]

theorem meets_throw_ofRel (u : Unwind) : (ofRel R refl trans).Meets (throw u : Effect α) := refl

theorem meets_resume_ofRel (x : Except Unwind α) : (ofRel R refl trans).Meets (resume x) := by
  cases x with
  | ok x => exact meets_pure x
  | error u => exact refl

theorem meets_throwException_ofRel (h : ∀ m : Machine, R m { m with unwindState := .unwinding })
    (exc : Value) : (ofRel R refl trans).Meets (throwException exc : Effect α) := h

end Relations

/-! ### Scopes of handles -/

/-- What code in a scope of handles has to meet that is opened on a machine, for the scope as a whole to
be judged well.  It may pin values. -/
structure Scope (J : Judgement) (m : Machine) where
  inner : Judgement
  pin (v : Value) : inner.Meets (pin v)
  close {α : Type} {a : Effect α} : inner.At a m → J.At (withHandles a) m

/-- A relation for which handles do not matter goes through their scopes. -/
def scopeOfRel {R : Machine → Machine → Prop} {refl : ∀ m, R m m}
    {trans : ∀ ⦃m m' m''⦄, R m m' → R m' m'' → R m m''}
    (h : ∀ (m : Machine) (handles : Array Value), R m { m with handles := handles }) (m : Machine) :
    (ofRel R refl trans).Scope m where
  inner := ofRel R refl trans
  pin _ m := h m _
  close {_ a} ha := by
    show R m ((withHandles a).after m)
    rw [after_withHandles]
    exact trans ha (h _ _)

theorem meets_pinAll (hpin : ∀ v, J.Meets (pin v)) : ∀ vs : List Value, J.Meets (pinAll vs)
  | [] => meets_pure ()
  | v :: vs => (hpin v).bind fun _ => meets_pinAll hpin vs

/-! ### Making objects -/

/-- Whether objects may be made that are no tables and have no context, and traces taken. -/
structure Makes (J : Judgement) : Prop where
  alloc (cls : Value) {body : Body} (htable : Facet.table.get? body = none)
    (hcontext : ∀ e, body = .exception e → e.context.isNil = true) : J.Meets (alloc cls body)
  push (lines line : Value) : J.Meets (write Facet.array lines (·.push line))
  setTrace (exc trace : Value) :
    J.Meets (write Facet.exception exc fun e => { e with stackTrace := trace })

namespace Makes

variable (hJ : J.Makes)

include hJ

theorem newText (s : String) : J.Meets (newText s) :=
  (meets_ask _).bind fun _ => hJ.alloc _ rfl nofun

theorem newFloat (x : Binary64) : J.Meets (newFloat x) :=
  (meets_ask _).bind fun _ => hJ.alloc _ rfl nofun

theorem newBignum (n : Int) : J.Meets (newBignum n) :=
  (meets_ask _).bind fun _ => hJ.alloc _ rfl nofun

theorem newArray (items : List Value) : J.Meets (newArray items) :=
  (meets_ask _).bind fun _ => hJ.alloc _ rfl nofun

theorem newInteger (n : Int) : J.Meets (newInteger n) := by
  unfold Effect.newInteger
  cases Value.ofInt? n with
  | some v => exact meets_pure v
  | none => exact hJ.newBignum n

theorem newException (cls : Value) (message : String) : J.Meets (newException cls message) := by
  refine (hJ.newText message).bind fun _ => hJ.alloc cls rfl fun e he => ?_
  obtain rfl := Body.exception.inj he
  rfl

theorem pushTraceLines (trace : Value) :
    ∀ names : List String, J.Meets (pushTraceLines trace names)
  | [] => meets_pure ()
  | name :: names => (hJ.newText name).bind fun line => (hJ.push trace line).bind fun _ =>
      pushTraceLines trace names

theorem takeTrace (hpin : ∀ v, J.Meets (pin v)) (exc : Value) (names : List String) :
    J.Meets (takeTrace exc names) :=
  (hJ.newArray []).bind fun trace => (hpin trace).bind fun _ =>
    (hJ.pushTraceLines trace names).bind fun _ => hJ.setTrace exc trace

end Makes

theorem meets_captureTrace (scope : ∀ m, J.Scope m) (hmakes : ∀ m, (scope m).inner.Makes)
    (exc : Value) : J.Meets (captureTrace exc) := by
  refine (meets_ask _).bind fun names m => (scope m).close ?_
  exact ((scope m).pin exc).bind (fun _ => (hmakes m).takeTrace (scope m).pin exc names) m

/-! ### Raising -/

/-- Whether exceptions may be made and thrown. -/
structure Raises (J : Judgement) : Prop where
  makes : J.Makes
  captureTrace (exc : Value) : J.Meets (captureTrace exc)
  throwException {α : Type} (exc : Value) : J.Meets (throwException exc : Effect α)

theorem Raises.raiseError (hJ : J.Raises) (kind : ErrorKind) (message : String) :
    J.Meets (raiseError kind message : Effect α) :=
  (meets_ask _).bind fun cls => (hJ.makes.newException cls message).bind fun exc =>
    (hJ.captureTrace exc).bind fun _ => hJ.throwException exc

theorem Raises.raiseValue (hJ : J.Raises) (exc : Value) : J.Meets (raiseValue exc : Effect α) := by
  refine (meets_ask _).bind fun found => ?_
  cases found with
  | ok e =>
    dsimp only
    split
    · exact (hJ.captureTrace exc).bind fun _ => hJ.throwException exc
    · exact (meets_pure ()).bind fun _ => hJ.throwException exc
  | error f => exact (meets_ask _).bind fun _ => hJ.raiseError _ _

theorem meets_discardException (hrecord : ∀ e, J.Meets (record e))
    (hstate : J.Meets (update fun m => { m with unwindState := .running })) (exc : Value)
    (context : String) : J.Meets (discardException exc context) :=
  (meets_ask _).bind fun _ => (meets_ask _).bind fun _ => (hrecord _).bind fun _ => hstate

/-! ### Judgements for which the heap does not matter -/

/-- Whether nothing on the heap matters, as long as no event is forgotten. -/
def Heedless (J : Judgement) : Prop :=
  ∀ ⦃α : Type⦄ ⦃a : Effect α⦄ ⦃m : Machine⦄ ⦃x : α⦄ ⦃heap : Heap⦄ ⦃events : Array Event⦄,
    a m = .ok x { m with heap := heap, events := events } → (∀ e ∈ m.events, e ∈ events) → J.At a m

theorem heedless_ofRel {R : Machine → Machine → Prop} {refl : ∀ m, R m m}
    {trans : ∀ ⦃m m' m''⦄, R m m' → R m' m'' → R m m''}
    (h : ∀ (m : Machine) (heap : Heap) (events : Array Event), (∀ e ∈ m.events, e ∈ events) →
      R m { m with heap := heap, events := events }) : (ofRel R refl trans).Heedless := by
  intro α a m x heap events hrun hevents
  show R m (a.after m)
  rw [after_of_ok hrun]
  exact h m heap events hevents

namespace Heedless

variable (hJ : J.Heedless)

include hJ

theorem record (e : Event) : J.Meets (record e) := fun _ =>
  hJ rfl fun _ he => Array.mem_push_of_mem _ he

theorem write (facet : Facet α) (v : Value) (g : α → α) : J.Meets (write facet v g) :=
  meets_write fun _ => hJ rfl fun _ he => he

theorem collectGarbage : J.Meets collectGarbage := fun _ =>
  hJ rfl fun _ he => Array.mem_push_of_mem _ (Array.mem_append_left _ he)

theorem alloc (cls : Value) (body : Body) : J.Meets (alloc cls body) := by
  intro m
  rcases alloc_cases cls body m with h | h
  · exact hJ h fun _ he => he
  · exact hJ h fun _ he => Array.mem_push_of_mem _ (Array.mem_append_left _ he)

theorem makes : J.Makes where
  alloc cls _ _ _ := hJ.alloc cls _
  push _ _ := hJ.write _ _ _
  setTrace _ _ := hJ.write _ _ _

theorem newTable (strategy : Strategy) (size : Nat) : J.Meets (newTable strategy size) :=
  (meets_ask _).bind fun _ => hJ.alloc _ _

theorem discardException (hstate : J.Meets (update fun m => { m with unwindState := .running }))
    (exc : Value) (context : String) : J.Meets (discardException exc context) :=
  meets_discardException hJ.record hstate exc context

theorem chainContext (replacement earlier : Value) :
    J.Meets (chainContext replacement earlier) := by
  unfold Effect.chainContext
  split
  · exact meets_pure ()
  refine (meets_ask _).bind fun found => ?_
  cases found with
  | none => exact meets_pure ()
  | some e =>
    dsimp only
    split
    · exact (hJ.write _ _ _).bind fun _ => hJ.record _
    · exact meets_pure ()

end Heedless

end Judgement

end ObjectMachine
