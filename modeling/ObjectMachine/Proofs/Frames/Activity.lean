import Mathlib.Tactic
import ObjectMachine.Proofs.Frames.UnwindState

/-! Programs that raise and catch, and what the unwind state tells while they run.

An activity nests frames, cleanups, rescues, boundary frames, raises and operations on tables with
value keys.  Messages and stored programs are activities again: `answer` says which one a message
runs, `decode` which one a stored program is.

Whatever the activity does, an end without exception leaves the state it was entered in, or `running`;
an exception leaves `unwinding`, or `running`; and a handler starts in `handled`.  The state is
`running` in the wrong place only after something was caught inside a handler or a cleanup.  If
handlers and cleanups catch nothing, it always tells the truth. -/

namespace ObjectMachine

open Effect

/-! ### Tables -/

/-- A comparison that raises is a catch. -/
theorem truthful_keys {t : Terms} {calls : Calls} (hcatch : t.Catching)
    (hsend : ∀ receiver name args, (calls.send receiver name args).Truthful t) (s : Strategy) :
    (Judgement.truthful t).MeetsKeys (calls.keys s) :=
  Judgement.meetsKeys_of_send truthful_raises hsend
    (fun key other => (hsend key "==" [other]).swallow hcatch _) s

/-! ### Activities -/

/-- An operation that looks for a key. -/
inductive KeyedOp : Type → Type where
  | lookup : KeyedOp (Option Value)
  | insert (record : Value) : KeyedOp Bool
  | add (record : Value) : KeyedOp Unit
  | delete : KeyedOp (Option Value)
  | deleteSafe : KeyedOp (Option Value)

def KeyedOp.perform (meaning : KeyMeaning) (table key : Value) : KeyedOp α → Effect α
  | .lookup => Dictionary.lookup meaning table key
  | .insert record => Dictionary.insert meaning table key record
  | .add record => Dictionary.add meaning table key record
  | .delete => Dictionary.delete meaning table key
  | .deleteSafe => Dictionary.deleteSafe meaning table key

theorem KeyedOp.truthful_perform {t : Terms} {meaning : KeyMeaning}
    (hk : ∀ s, (Judgement.truthful t).MeetsKeys (meaning s)) (table key : Value) (op : KeyedOp α) :
    (op.perform meaning table key).Truthful t := by
  intro m
  have hopen := truthfulScope_open (t := t) m
  cases op with
  | lookup => exact hopen.lookup hk
  | insert record => exact hopen.insert hk
  | add record => exact hopen.add hk
  | delete => exact hopen.delete hk
  | deleteSafe => exact hopen.deleteSafe hk

/-- A program that raises and catches. -/
inductive Activity : Type → Type 1 where
  /-- A step that leaves state and frames alone and raises nothing. -/
  | step {α : Type} (a : Effect α) (calm : a.Calm) : Activity α
  | andThen {α β : Type} (first : Activity α) (next : α → Activity β) : Activity β
  | raiseError {α : Type} (kind : ErrorKind) (message : String) : Activity α
  | raiseValue {α : Type} (exc : Value) : Activity α
  | callFrame {α : Type} [Rooted α] (kind : FrameKind) (name : String) (receiver : Value)
      (body : Activity α) : Activity α
  | addCleanup (c : Cleanup) : Activity Unit
  | ensure {α : Type} [Rooted α] (body : Activity α) (cleanup : Program) : Activity α
  | rescue {α : Type} (classes : List Value) (body : Activity α) (handler : Value → Activity α) :
      Activity α
  | execute (name : String) (body : Activity Value) : Activity (Termination Value)
  | send (receiver : Value) (name : String) (args : List Value) : Activity Value
  | keyed {α : Type} (op : KeyedOp α) (table key : Value) : Activity α

namespace Activity

/-- Runs an activity with the operations of the machine. -/
def denote (calls : Calls) : Activity α → Effect α
  | .step a _ => a
  | .andThen first next => first.denote calls >>= fun x => (next x).denote calls
  | .raiseError kind message => Effect.raiseError kind message
  | .raiseValue exc => Effect.raiseValue exc
  | @callFrame _ _ kind name receiver body =>
    Effect.callFrame calls.run kind name receiver (body.denote calls)
  | .addCleanup c => Effect.addCleanup c
  | @ensure _ _ body cleanup => Effect.ensure calls.run (body.denote calls) cleanup
  | .rescue classes body handler =>
    Effect.rescue classes (body.denote calls) fun exc => (handler exc).denote calls
  | .execute name body => Effect.execute calls.run name (body.denote calls)
  | .send receiver name args => calls.send receiver name args
  | .keyed op table key => op.perform calls.keys table key

/-- Whether an activity can be judged on the terms: it registers the cleanups that they allow, and it
catches nothing (no rescue, no boundary frame, no message, no value key) where they do not.  Handlers
are judged on the terms of handlers. -/
def Suits : Terms → Activity α → Prop
  | _, .step _ _ => True
  | t, .andThen first next => first.Suits t ∧ ∀ x, (next x).Suits t
  | _, .raiseError _ _ => True
  | _, .raiseValue _ => True
  | t, @callFrame _ _ _ _ _ body => body.Suits t
  | t, .addCleanup c => c.program ∈ t.cleanups
  | t, @ensure _ _ body cleanup => body.Suits t ∧ cleanup ∈ t.cleanups
  | t, .rescue _ body handler => t.Catching ∧ body.Suits t ∧ ∀ exc, (handler exc).Suits t.inner
  | t, .execute _ body => t.Catching ∧ body.Suits t
  | t, .send _ _ _ => t.Catching
  | t, .keyed _ _ _ => t.Catching

theorem suits_loose (p : Activity α) : p.Suits .loose := by
  induction p with
  | step a calm => trivial
  | andThen first next ihfirst ihnext => exact ⟨ihfirst, ihnext⟩
  | raiseError kind message => trivial
  | raiseValue exc => trivial
  | callFrame kind name receiver body ih => exact ih
  | addCleanup c => trivial
  | ensure body cleanup ih => exact ⟨ih, trivial⟩
  | rescue classes body handler ihbody ihhandler =>
    exact ⟨Terms.catching_loose, ihbody, ihhandler⟩
  | execute name body ih => exact ⟨Terms.catching_loose, ih⟩
  | send receiver name args => exact Terms.catching_loose
  | keyed op table key => exact Terms.catching_loose

end Activity

/-- Whether messages and cleanups keep the terms, those of handlers included. -/
structure TruthfulCalls (t : Terms) (calls : Calls) : Prop where
  send : t.Catching → ∀ receiver name args, (calls.send receiver name args).Truthful t
  sendInner : t.inner.Catching → ∀ receiver name args,
    (calls.send receiver name args).Truthful t.inner
  cleanup : ∀ p ∈ t.cleanups, (calls.run p).Truthful t.inner

theorem TruthfulCalls.inner {t : Terms} {calls : Calls} (h : TruthfulCalls t calls) :
    TruthfulCalls t.inner calls := ⟨h.sendInner, h.sendInner, h.cleanup⟩

namespace Activity

theorem truthful_denote {calls : Calls} (p : Activity α) :
    ∀ {t : Terms}, TruthfulCalls t calls → p.Suits t → (p.denote calls).Truthful t := by
  induction p with
  | step a calm => exact fun _ _ => calm.truthful
  | andThen first next ihfirst ihnext =>
    exact fun hcalls hp => (ihfirst hcalls hp.1).bind fun x => ihnext x hcalls (hp.2 x)
  | raiseError kind message => exact fun _ _ => truthful_raises.raiseError kind message
  | raiseValue exc => exact fun _ _ => truthful_raises.raiseValue exc
  | callFrame kind name receiver body ih =>
    exact fun hcalls hp => (ih hcalls hp).callFrame hcalls.cleanup kind name receiver
  | addCleanup c => exact fun _ hp => truthful_addCleanup hp
  | ensure body cleanup ih => exact fun hcalls hp => (ih hcalls hp.1).ensure hcalls.cleanup hp.2
  | rescue classes body handler ihbody ihhandler =>
    intro t hcalls ⟨hcatch, hbody, hhandler⟩
    exact (ihbody hcalls hbody).rescue hcatch
      (fun exc => ihhandler exc hcalls.inner (hhandler exc)) classes
  | execute name body ih =>
    exact fun hcalls hp => (ih hcalls hp.2).execute hp.1 hcalls.cleanup name
  | send receiver name args => exact fun hcalls hp => hcalls.send hp receiver name args
  | keyed op table key =>
    exact fun hcalls hp => op.truthful_perform (truthful_keys hp (hcalls.send hp)) table key

/-! ### Messages and stored programs -/

variable (decode : Program → Activity Value) (answer : Value → String → List Value → Activity Value)

/-- The calls of a machine that can nest `depth` of them. -/
def callsTo : Nat → Calls
  | 0 => .exhausted
  | depth + 1 =>
    { send := fun receiver name args => (answer receiver name args).denote (callsTo depth)
      run := fun p => (decode p).denote (callsTo depth)
      patience := depth + 1 }

variable {decode answer}

theorem truthfulCalls_callsTo {t : Terms} (hdecode : ∀ p ∈ t.cleanups, (decode p).Suits t.inner)
    (hanswer : t.Catching → ∀ receiver name args, (answer receiver name args).Suits t)
    (hinner : t.inner.Catching → ∀ receiver name args, (answer receiver name args).Suits t.inner) :
    ∀ depth : Nat, TruthfulCalls t (callsTo decode answer depth)
  | 0 => ⟨fun _ _ _ _ => truthful_excuses _, fun _ _ _ _ => truthful_excuses _,
      fun _ _ => truthful_excuses _⟩
  | depth + 1 => by
    have hcalls := truthfulCalls_callsTo hdecode hanswer hinner depth
    refine ⟨fun hcatch receiver name args => ?_, fun hcatch receiver name args => ?_, fun p hp => ?_⟩
    · exact truthful_denote _ hcalls (hanswer hcatch receiver name args)
    · exact truthful_denote _ hcalls.inner (hinner hcatch receiver name args)
    · exact truthful_denote _ hcalls.inner (hdecode p hp)

end Activity

/-! ### What the state tells -/

namespace Effect

/-- Runs a handler if the state is `handled`, and something else otherwise. -/
def ifHandled (handler elsewhere : Value → Effect α) (exc : Value) : Effect α := do
  if (← ask (·.unwindState)) = .handled then handler exc else elsewhere exc

/-- A handler starts in `handled`. -/
theorem handle_ifHandled (exc : Value) (handler elsewhere : Value → Effect α) :
    handle exc (ifHandled handler elsewhere) = handle exc handler := rfl

theorem rescue_ifHandled (classes : List Value) (body : Effect α)
    (handler elsewhere : Value → Effect α) :
    rescue classes body (ifHandled handler elsewhere) = rescue classes body handler := by
  unfold rescue
  simp only [handle_ifHandled]

/-- A truthful end, for those who know that no run was aborted. -/
theorem Truthful.state_of_ok {t : Terms} {a : Effect α} (ha : Truthful t a) {m m' : Machine} {x : α}
    (hm : m.unwindState ∈ t.entry) (h : a m = .ok x m') (hm' : ¬ m'.Aborted) :
    m'.unwindState = m.unwindState ∨ t.slips ∧ m'.unwindState = .running := by
  have hend := ha m (Or.inr hm)
  rw [ending_of_ok h, after_of_ok h] at hend
  exact hend.state.resolve_left hm'

theorem Truthful.state_of_raise {t : Terms} {a : Effect α} (ha : Truthful t a) {m m' : Machine}
    {exc : Value} (hm : m.unwindState ∈ t.entry) (h : a m = .error (.raise exc) m')
    (hm' : ¬ m'.Aborted) :
    m'.unwindState = .unwinding ∨ t.slips ∧ m'.unwindState = .running := by
  have hend := ha m (Or.inr hm)
  rw [ending_of_error h, after_of_error h] at hend
  exact hend.state.resolve_left hm'

end Effect

open Activity

/-- What the state tells after an activity in which no run was aborted.  It is the state the activity
was entered in, or `unwinding` if an exception is on its way; else it is `running`.  The latter does
not happen if handlers and cleanups catch nothing, and the activity itself is not part of a handler or
of a cleanup that catches something.  A handler always starts in `handled`, so what it does in other
states does not matter. -/
theorem unwind_state_after_activity (decode : Program → Activity Value)
    (answer : Value → String → List Value → Activity Value) (depth : Nat) (p : Activity α)
    (m m' : Machine) (hm' : ¬ m'.Aborted) :
    let run := p.denote (callsTo decode answer depth)
    ((∀ x, run m = .ok x m' →
        m'.unwindState = m.unwindState ∨ m'.unwindState = .running) ∧
      ∀ exc, run m = .error (.raise exc) m' →
        m'.unwindState = .unwinding ∨ m'.unwindState = .running) ∧
    (∀ cleanups : Set Program,
      (∀ q ∈ cleanups, (decode q).Suits (Terms.outermost cleanups).inner) →
      (∀ receiver name args, (answer receiver name args).Suits (Terms.outermost cleanups)) →
      (m.unwindState = .running ∧ p.Suits (Terms.outermost cleanups) ∨
        p.Suits (Terms.outermost cleanups).inner) →
      (∀ x, run m = .ok x m' → m'.unwindState = m.unwindState) ∧
        ∀ exc, run m = .error (.raise exc) m' → m'.unwindState = .unwinding) ∧
    ∀ (classes : List Value) (body : Activity α) (handler : Value → Activity α)
      (elsewhere : Value → Effect α), p = .rescue classes body handler →
      run = rescue classes (body.denote (callsTo decode answer depth))
        (ifHandled (fun exc => (handler exc).denote (callsTo decode answer depth)) elsewhere) := by
  intro run
  refine ⟨?_, fun cleanups hdecode hanswer hp => ?_, fun classes body handler elsewhere hp => ?_⟩
  · have hcalls : TruthfulCalls .loose (callsTo decode answer depth) :=
      truthfulCalls_callsTo (t := .loose) (fun q _ => (decode q).suits_loose)
        (fun _ _ _ _ => suits_loose _) (fun _ _ _ _ => suits_loose _) depth
    have hrun : run.Truthful .loose := p.truthful_denote hcalls p.suits_loose
    refine ⟨fun x h => ?_, fun exc h => ?_⟩
    · exact (hrun.state_of_ok trivial h hm').imp_right And.right
    · exact (hrun.state_of_raise trivial h hm').imp_right And.right
  · have hquiet : ¬ (Terms.outermost cleanups).inner.Catching := by
      rintro (hslips | hentry)
      · exact hslips
      · exact absurd (hentry (Set.mem_univ UnwindState.handled)) (by decide)
    have hcalls : TruthfulCalls (.outermost cleanups) (callsTo decode answer depth) :=
      truthfulCalls_callsTo hdecode (fun _ => hanswer) (fun h => absurd h hquiet) depth
    -- Both terms allow no slips; they differ in the states that code is entered in.
    have hstrict : ∀ {t : Terms}, run.Truthful t → ¬ t.slips → m.unwindState ∈ t.entry →
        (∀ x, run m = .ok x m' → m'.unwindState = m.unwindState) ∧
          ∀ exc, run m = .error (.raise exc) m' → m'.unwindState = .unwinding := by
      intro t hrun hslips hm
      refine ⟨fun x h => ?_, fun exc h => ?_⟩
      · exact (hrun.state_of_ok hm h hm').resolve_right fun h => hslips h.1
      · exact (hrun.state_of_raise hm h hm').resolve_right fun h => hslips h.1
    rcases hp with ⟨hm, hp⟩ | hp
    · exact hstrict (p.truthful_denote hcalls hp) id hm
    · exact hstrict (p.truthful_denote hcalls.inner hp) id trivial
  · subst hp
    exact (rescue_ifHandled classes _ _ elsewhere).symm

/-- A machine with one exception, which has been raised before. -/
def Machine.raising : Machine where
  heap := ({ settings := {} } : Heap).insert .nil (.exception { stackTrace := .no })

/-- The exception is raised and caught. -/
def Activity.caught : Activity Value :=
  .rescue [] (.raiseValue (.ofSlot 0 0)) fun _ => .step (pure .nil) (Judgement.meets_pure _)

/-- The exception is caught in a run that was entered in `running`. -/
theorem unwind_state_after_activity_caught :
    let m' := (caught.denote .exhausted).after Machine.raising
    ¬ m'.Aborted ∧ m'.unwindState = .running := by
  intro m'
  have hm' : ¬ m'.Aborted := fun ⟨f, hf⟩ => absurd hf (Array.not_mem_empty _)
  have hsuits : caught.Suits (Terms.outermost ∅) :=
    ⟨Terms.catching_outermost ∅, trivial, fun _ => trivial⟩
  obtain ⟨-, hstrict, -⟩ := unwind_state_after_activity (fun _ => .raiseValue .nil)
    (fun _ _ _ => .raiseValue .nil) 0 caught Machine.raising m' hm'
  exact ⟨hm', (hstrict ∅ nofun (fun _ _ _ => trivial) (Or.inl ⟨rfl, hsuits⟩)).1 .nil rfl⟩

/-- A catch inside a handler makes the state forget the handler, and a catch inside a cleanup makes it
forget the exception on its way. -/
theorem catch_forgets_unwinding :
    let state : Activity UnwindState := .step (ask (·.unwindState)) (Judgement.meets_ask _)
    let handler : Activity (UnwindState × UnwindState) := .andThen state fun before =>
      .andThen caught fun _ => .andThen state fun after => .step (pure (before, after)) (Judgement.meets_pure _)
    let frame : Activity Value := .callFrame .native "f" .nil (.andThen
      (.addCleanup ⟨.nil, .self, false⟩) fun _ => .raiseValue (.ofSlot 0 0))
    let calls := callsTo (fun _ => caught) (fun _ _ _ => caught) 1
    ((Activity.rescue [] (.raiseValue (.ofSlot 0 0)) fun _ => handler).denote calls).ending
        Machine.raising = .ok (.handled, .running) ∧
      (frame.denote calls).ending Machine.raising = .error (.raise (.ofSlot 0 0)) ∧
      ((frame.denote calls).after Machine.raising).unwindState = .running := ⟨rfl, rfl, rfl⟩

end ObjectMachine
