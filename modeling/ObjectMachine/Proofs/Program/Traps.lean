import Mathlib.Tactic
import ObjectMachine.Proofs.Program.Operations

/-! The branches for stacks out of balance.

Leaving a frame, the machine looks whether there is one; closing a rescue, whether its target is still
there; and a handle is a place on the stack of handles, which may have become shorter.  `Traps` puts
anything at all into these branches.  Around balanced code an operation runs the same way whatever the
traps are (`Agree`): it never gets to one. -/

namespace ObjectMachine

open Effect Judgement

/-- What is done when a frame or a rescue is left and none is open, and when a handle is read or
overwritten that is gone. -/
structure Traps : Type 1 where
  frame : (α : Type) → Effect α
  target : (α : Type) → Effect α
  get : Effect Value
  set : Effect Unit

namespace Traps

/-- What the machine does. -/
def own : Traps where
  frame _ := fault .noActiveFrame
  target _ := fault (.other "rescue target vanished")
  get := pure .absent
  set := pure ()

variable (traps : Traps)

/-- Whether handles that are gone are treated as the machine treats them. -/
def OwnsHandles : Prop := traps.get = own.get ∧ traps.set = own.set

def getHandle (place : Nat) : Effect Value := do
  if place < (← ask (·.handles.size)) then Effect.getHandle place else traps.get

def setHandle (place : Nat) (v : Value) : Effect Unit := do
  if place < (← ask (·.handles.size)) then Effect.setHandle place v else traps.set

def leaveFrame [Rooted α] (run : Program → Effect Value) (result : Except Unwind α) :
    Effect α := do
  match ← ask (·.frames) with
  | [] => traps.frame α
  | frame :: rest =>
    update fun m => { m with frames := rest }
    let result ← runCleanups run frame.cleanups result
    resume result

def callFrame [Rooted α] (run : Program → Effect Value) (kind : FrameKind) (name : String)
    (receiver : Value) (body : Effect α) : Effect α := do
  update fun m => { m with frames := { kind := kind, name := name, receiver := receiver } :: m.frames }
  let result ← outcome body
  traps.leaveFrame run result

def rescue (classes : List Value) (body : Effect α) (handler : Value → Effect α) : Effect α := do
  update fun m => { m with targets := ⟨classes, m.frames.length⟩ :: m.targets }
  let result ← outcome body
  match ← ask (·.targets) with
  | [] => traps.target α
  | target :: rest =>
    update fun m => { m with targets := rest }
    concludeRescue target.classes handler result

/-- The traversal of a table overwrites the handles of the key and the record. -/
def visitFrom (table : Value) (handles : Dictionary.VisitHandles)
    (visitor : Value → Value → Effect Dictionary.Visit) :
    Nat → Nat → Option EntryId → Effect Bool
  | 0, _, _ => fault .depthExceeded
  | fuel + 1, bin, none => do
    let t ← read Facet.table table
    if bin + 1 < t.bins.size then visitFrom table handles visitor fuel (bin + 1) (t.binHead (bin + 1))
    else return true
  | fuel + 1, bin, some id => do
    let t ← read Facet.table table
    match t.get? id with
    | none => return false
    | some e =>
      if e.isTombstone then visitFrom table handles visitor fuel bin e.next
      else do
        traps.setHandle handles.key e.key
        traps.setHandle handles.record e.record
        let action ← visitor e.key e.record
        match ← Dictionary.afterVisit table id action with
        | .inl next => visitFrom table handles visitor fuel bin next
        | .inr answer => return answer

def forEach (patience : Nat) (table : Value)
    (visitor : Value → Value → Effect Dictionary.Visit) : Effect Bool :=
  withHandles do
    let _ ← pin table
    let key ← pin .nil
    let record ← pin .nil
    let t ← read Facet.table table
    let fuel := t.bins.size + t.slots.size + 1 + patience
    traps.visitFrom table ⟨key, record⟩ visitor fuel 0 (t.binHead 0)

def callMethod (calls : Calls) (receiver : Value) (name : String) (args : List Value) :
    Effect Value :=
  withHandles do
    pinAll (receiver :: args)
    let selector ← intern name
    let cls ← classOf receiver
    match ← findMethod cls selector with
    | none => noAttribute (← ask (·.className cls)) name
    | some method =>
      let native ← read Facet.native method
      if args.length ≠ native.arity then
        let arity := Digits.ofNat 10 native.arity
        let given := Digits.ofNat 10 args.length
        raiseError .argumentError s!"{name}() takes exactly {arity} argument(s) ({given} given)"
      else
        let className ← ask (·.className cls)
        traps.callFrame calls.run .method s!"{className}#{name}" receiver
          (calls.invoke receiver args native.code)

def perform (calls : Calls) : Operation → List Value → Effect Value
  | .object (.call name), receiver :: args => traps.callMethod calls receiver name args
  | op, operands => op.perform calls operands

theorem own_getHandle (place : Nat) : own.getHandle place = Effect.getHandle place := by
  funext m
  show (if place < m.handles.size then Effect.getHandle place else pure .absent) m = _
  split
  · rfl
  · rename_i h
    simp [Effect.getHandle, ask, pure, EStateM.pure, h]

theorem own_setHandle (place : Nat) (v : Value) :
    own.setHandle place v = Effect.setHandle place v := by
  funext m
  show (if place < m.handles.size then Effect.setHandle place v else pure ()) m = _
  split
  · rfl
  · rename_i h
    simp [Effect.setHandle, update, pure, EStateM.pure, Array.setIfInBounds, h]

theorem own_callFrame [Rooted α] (run : Program → Effect Value) (kind : FrameKind) (name : String)
    (receiver : Value) (body : Effect α) :
    own.callFrame run kind name receiver body = Effect.callFrame run kind name receiver body := rfl

/-- A body that drops its own frame gets to a trap. -/
example [Rooted α] (run : Program → Effect Value) (x : α) (m : Machine) :
    traps.callFrame run .native "f" .nil (do
      update fun m => { m with frames := [] }
      return x) m = traps.frame α { m with frames := [] } := rfl

theorem own_rescue (classes : List Value) (body : Effect α) (handler : Value → Effect α) :
    own.rescue classes body handler = Effect.rescue classes body handler := rfl

theorem own_visitFrom (table : Value) (handles : Dictionary.VisitHandles)
    (visitor : Value → Value → Effect Dictionary.Visit) :
    ∀ (fuel bin : Nat) (cursor : Option EntryId), own.visitFrom table handles visitor fuel bin cursor =
      Dictionary.visitFrom table handles visitor fuel bin cursor
  | 0, _, _ => rfl
  | fuel + 1, bin, none => by
    simp only [visitFrom, Dictionary.visitFrom, own_visitFrom table handles visitor fuel]
  | fuel + 1, bin, some id => by
    refine bind_congr fun t => ?_
    cases t.get? id with
    | none => rfl
    | some e =>
      dsimp only
      rw [own_setHandle, own_setHandle, own_visitFrom table handles visitor fuel bin e.next]
      congr 1
      refine bind_congr fun _ => bind_congr fun _ => bind_congr fun action => ?_
      refine bind_congr fun answer => ?_
      cases answer with
      | inl next => exact own_visitFrom table handles visitor fuel bin next
      | inr answer => rfl

theorem own_forEach (patience : Nat) (table : Value)
    (visitor : Value → Value → Effect Dictionary.Visit) :
    own.forEach patience table visitor = Dictionary.forEach patience table visitor := by
  simp only [forEach, Dictionary.forEach, own_visitFrom]

theorem own_callMethod (calls : Calls) (receiver : Value) (name : String) (args : List Value) :
    own.callMethod calls receiver name args = calls.callMethod receiver name args := rfl

theorem own_perform (calls : Calls) (op : Operation) (operands : List Value) :
    own.perform calls op operands = op.perform calls operands := by
  unfold perform
  split
  · rfl
  · rfl

end Traps

/-! ### Running the same way -/

/-- Whether two effects run the same way on every machine with at least so many handles. -/
def Effect.Agree (height : Nat) (a b : Effect α) : Prop :=
  ∀ m : Machine, height ≤ m.handles.size → a m = b m

namespace Effect.Agree

variable {height height' : Nat} {places places' : Set Nat} {a b : Effect α}

theorem refl (a : Effect α) : Agree height a a := fun _ _ => rfl

theorem mono (h : Agree height a b) (hle : height ≤ height') : Agree height' a b :=
  fun m hm => h m (hle.trans hm)

/-- One effect after the other; the second need agree only where the first leads. -/
theorem bind_of {f g : α → Effect β} (h : Agree height a b)
    (hfg : ∀ m x m', height ≤ m.handles.size → b m = .ok x m' → f x m' = g x m') :
    Agree height (a >>= f) (b >>= g) := by
  intro m hm
  have hab := h m hm
  cases hrun : b m with
  | ok x m' =>
    rw [bind_of_ok (hab.trans hrun), bind_of_ok hrun]
    exact hfg m x m' hm hrun
  | error u m' => rw [bind_of_error (hab.trans hrun), bind_of_error hrun]

theorem bind_left (h : Agree height a b) (f : α → Effect β) : Agree height (a >>= f) (b >>= f) :=
  h.bind_of fun _ _ _ _ _ => rfl

theorem bind {f g : α → Effect β} (h : Agree height a b) (hb : Steady true places' b)
    (hfg : ∀ x, Agree height (f x) (g x)) : Agree height (a >>= f) (b >>= g) :=
  h.bind_of fun m x m' hm hrun => hfg x m' (hm.trans (after_of_ok hrun ▸ (hb m).size_le))

theorem bind_right {f g : α → Effect β} (ha : Steady true ∅ a)
    (hfg : ∀ x, Agree height (f x) (g x)) : Agree height (a >>= f) (a >>= g) := (refl a).bind ha hfg

theorem outcome (h : Agree height a b) : Agree height (outcome a) (outcome b) := fun m hm => by
  rw [Effect.outcome, Effect.outcome, h m hm]

theorem withHandles (h : Agree height a b) : Agree height (withHandles a) (withHandles b) :=
  fun m hm => by rw [withHandles_eq, withHandles_eq, h m hm]

theorem withInFlight (h : Agree height a b) (values : List Value) :
    Agree height (withInFlight values a) (withInFlight values b) := fun m hm => by
  rw [withInFlight_eq, withInFlight_eq, ending, ending, after, after,
    h (Observer.flying m values) hm]

theorem handle {handler handler' : Value → Effect α} {exc : Value}
    (h : Agree height (handler exc) (handler' exc)) (hhandler : Steady true places' (handler' exc)) :
    Agree height (handle exc handler) (handle exc handler') :=
  bind_right (steady_setUnwindState _) fun _ =>
    (h.withInFlight _).bind (hhandler.withInFlight _) fun _ => refl _

theorem concludeRescue {handler handler' : Value → Effect α}
    (h : ∀ exc, Agree height (handler exc) (handler' exc))
    (hhandler : ∀ exc, Steady true places' (handler' exc)) (classes : List Value)
    (result : Except Unwind α) :
    Agree height (concludeRescue classes handler result) (concludeRescue classes handler' result) := by
  rcases result with (exc | f) | x
  · refine bind_right (meets_ask _) fun found => ?_
    refine bind_right (steady_excuses.ofExcept found) fun accepted => ?_
    cases accepted with
    | true => exact (h exc).handle (hhandler exc)
    | false => exact refl _
  · exact refl _
  · exact refl _

/-- A new handle lies on top of those that are there. -/
theorem pin_bind {next next' : Nat → Effect β} (v : Value)
    (h : ∀ place, height ≤ place → Agree (place + 1) (next place) (next' place)) :
    Agree height (pin v >>= next) (pin v >>= next') := fun m hm =>
  h m.handles.size hm { m with handles := m.handles.push v } (Array.size_push v).ge

end Effect.Agree

namespace Traps

variable (traps : Traps) {height : Nat} {places' : Set Nat}

theorem agree_getHandle {place : Nat} (hp : place < height) :
    Agree height (traps.getHandle place) (own.getHandle place) := fun m hm => by
  rw [own_getHandle]
  show (if place < m.handles.size then Effect.getHandle place else traps.get) m = _
  rw [if_pos (hp.trans_le hm)]

theorem agree_setHandle {place : Nat} (hp : place < height) (v : Value) :
    Agree height (traps.setHandle place v) (own.setHandle place v) := fun m hm => by
  rw [own_setHandle]
  show (if place < m.handles.size then Effect.setHandle place v else traps.set) m = _
  rw [if_pos (hp.trans_le hm)]

theorem OwnsHandles.getHandle_eq {traps : Traps} (h : traps.OwnsHandles) (place : Nat) :
    traps.getHandle place = own.getHandle place := by rw [getHandle, getHandle, h.1]

theorem OwnsHandles.setHandle_eq {traps : Traps} (h : traps.OwnsHandles) (place : Nat) (v : Value) :
    traps.setHandle place v = own.setHandle place v := by rw [setHandle, setHandle, h.2]

/-- When a balanced body ends there is a frame to leave, its own. -/
theorem agree_callFrame [Rooted α] (run : Program → Effect Value) (kind : FrameKind) (name : String)
    (receiver : Value) {body body' : Effect α} (h : Agree height body body')
    (hbody : Steady true places' body') :
    Agree height (traps.callFrame run kind name receiver body)
      (own.callFrame run kind name receiver body') := by
  intro m hm
  obtain ⟨f, hframes⟩ := hbody.frames_after_body kind name receiver m
  have hask : ask (·.frames) (body'.after (entered kind name receiver m)) =
    .ok (f :: m.frames) (body'.after (entered kind name receiver m)) := by rw [ask, hframes]
  have hopen : ∀ (τ : Traps) (b : Effect α), τ.callFrame run kind name receiver b m =
    (outcome b >>= τ.leaveFrame run) (entered kind name receiver m) := fun _ _ => rfl
  have hend := (h.outcome (entered kind name receiver m) hm).trans (outcome_eq body' _)
  rw [hopen, hopen, bind_of_ok hend, outcome_bind, leaveFrame, leaveFrame, bind_of_ok hask,
    bind_of_ok hask]

/-- When a balanced body ends its target is there, on top of those that were there before. -/
theorem agree_rescue (classes : List Value) {body body' : Effect α} {handler handler' : Value → Effect α}
    (h : Agree height body body') (hbody : Steady true places' body')
    (hagree : ∀ exc, Agree height (handler exc) (handler' exc))
    (hhandler : ∀ exc, Steady true places' (handler' exc)) :
    Agree height (traps.rescue classes body handler) (own.rescue classes body' handler') := by
  intro m hm
  have hbalanced := hbody (guarded classes m)
  have hask : ask (·.targets) (body'.after (guarded classes m)) =
      .ok (⟨classes, m.frames.length⟩ :: m.targets) (body'.after (guarded classes m)) := by
    rw [ask, hbalanced.targets]
    rfl
  have hend := (h.outcome (guarded classes m) hm).trans (outcome_eq body' _)
  unfold rescue
  have hopen : update (fun m => { m with targets := ⟨classes, m.frames.length⟩ :: m.targets }) m =
    .ok () (guarded classes m) := rfl
  rw [bind_of_ok hopen, bind_of_ok hopen, bind_of_ok hend, outcome_bind, bind_of_ok hask,
    bind_of_ok hask]
  exact Agree.concludeRescue hagree hhandler classes _
    { body'.after (guarded classes m) with targets := m.targets } (hm.trans hbalanced.size_le)

theorem agree_visitFrom (table : Value) {handles : Dictionary.VisitHandles}
    (hkey : handles.key < height) (hrecord : handles.record < height)
    {visitor visitor' : Value → Value → Effect Dictionary.Visit}
    (h : ∀ key v, Agree height (visitor key v) (visitor' key v))
    (hvisitor : ∀ key v, Steady true places' (visitor' key v)) :
    ∀ (fuel bin : Nat) (cursor : Option EntryId),
      Agree height (traps.visitFrom table handles visitor fuel bin cursor)
        (own.visitFrom table handles visitor' fuel bin cursor)
  | 0, _, _ => .refl _
  | fuel + 1, bin, none => by
    refine .bind_right (meets_read _ _) fun t => ?_
    split
    · exact agree_visitFrom table hkey hrecord h hvisitor fuel _ _
    · exact .refl _
  | fuel + 1, bin, some id => by
    refine .bind_right (meets_read _ _) fun t => ?_
    cases t.get? id with
    | none => exact .refl _
    | some e =>
      dsimp only
      split
      · exact agree_visitFrom table hkey hrecord h hvisitor fuel _ _
      have hset (place : Nat) (v : Value) : Steady true {place} (own.setHandle place v) := by
        rw [own_setHandle]
        exact steady_setHandle (Set.mem_singleton place) v
      refine (traps.agree_setHandle hkey _).bind (hset _ _) fun _ => ?_
      refine (traps.agree_setHandle hrecord _).bind (hset _ _) fun _ => ?_
      refine (h _ _).bind (hvisitor _ _) fun action => ?_
      refine .bind_right (steady_heedless.afterVisit steady_excuses _ _) fun answer => ?_
      cases answer with
      | inl next => exact agree_visitFrom table hkey hrecord h hvisitor fuel _ _
      | inr answer => exact .refl _

theorem agree_forEach (patience : Nat) (table : Value)
    {visitor visitor' : Value → Value → Effect Dictionary.Visit}
    (h : ∀ key v, Agree height (visitor key v) (visitor' key v))
    (hvisitor : ∀ key v, Steady true places' (visitor' key v)) :
    Agree height (traps.forEach patience table visitor) (own.forEach patience table visitor') := by
  refine Agree.withHandles (.bind_right (steady_pin table) fun _ => ?_)
  refine Agree.pin_bind _ fun key hkey => Agree.pin_bind _ fun record hrecord => ?_
  refine .bind_right (meets_read _ _) fun t => ?_
  have hle : height ≤ record + 1 := by omega
  refine traps.agree_visitFrom table ?_ (Nat.lt_succ_self record) (fun k v => (h k v).mono hle) hvisitor
    _ _ _
  show key < record + 1
  omega

theorem callMethod_eq_own {calls : Calls} (hcalls : SteadyCalls calls) (receiver : Value)
    (name : String) (args : List Value) :
    traps.callMethod calls receiver name args = own.callMethod calls receiver name args := by
  have hagree : Agree 0 (traps.callMethod calls receiver name args)
      (own.callMethod calls receiver name args) := by
    refine Agree.withHandles (.bind_right (meets_pinAll steady_pin _) fun _ => ?_)
    refine .bind_right (steady_intern name) fun selector => ?_
    refine .bind_right (steady_classOf _) fun cls => ?_
    refine .bind_right (steady_findMethod _ _) fun found => ?_
    cases found with
    | none => exact .refl _
    | some method =>
      refine .bind_right (meets_read _ _) fun native => ?_
      dsimp only
      split
      · exact .refl _
      · refine .bind_right (meets_ask _) fun className => ?_
        have hinvoke : Steady true ∅ (calls.invoke receiver args native.code) := hcalls.invoke _ _ _
        exact traps.agree_callFrame _ _ _ _ (.refl _) hinvoke
  funext m
  exact hagree m (Nat.zero_le _)

theorem perform_eq_own {calls : Calls} (hcalls : SteadyCalls calls) (op : Operation)
    (operands : List Value) : traps.perform calls op operands = own.perform calls op operands := by
  unfold perform
  split
  · exact traps.callMethod_eq_own hcalls _ _ _
  · rfl

end Traps

end ObjectMachine
