import Mathlib.Tactic
import ObjectMachine.Proofs.Program.Native

/-! What native programs leave on the stacks.

A program never leaves fewer handles than it found, and it overwrites only those that were lent to it;
the frames, the open rescues and the values in flight are as they were (`keeps_denote`).  More handles
are left by programs that pin into scopes around them, and a handle is gone before its scope ends if it
was pinned while an inner scope was open.  Programs whose pins go to the innermost scope find all their
handles (`stands_denote`), and so none of the traps for stacks out of balance is ever reached
(`agree_denote`). -/

namespace ObjectMachine

open Effect Judgement

variable {n : Nat} {K J J' K' : Known} {α β : Type} {inScope : Bool} {places : K.Name → Nat}

/-! ### What is kept -/

/-- What an effect with handles at `places` does to the stacks, and what handles it hands on. -/
structure KeepsStacks (K J : Known) (inScope : Bool) (places : K.Name → Nat)
    (a : Effect (α × (J.Name → Nat))) : Prop where
  steady : Steady inScope (K.writable places) a
  hands {m m' : Machine} {x : α} {new : J.Name → Nat} :
    a m = .ok (x, new) m' → K.Hands places m.handles.size J new

namespace KeepsStacks

theorem plain {a : Effect α} (ha : Steady inScope (K.writable places) a) :
    KeepsStacks K .none inScope places (Native.plain a) where
  steady := Meets.bind ha fun _ => meets_pure _
  hands _ := nofun

theorem answer {a : Effect (α × (J.Name → Nat))} (ha : KeepsStacks K J inScope places a) :
    Steady inScope (K.writable places) (Native.answer a) :=
  ha.steady.bind fun _ => meets_pure _

/-- A program whose end is looked at: code that follows an answer may overwrite the handles that came
with it. -/
theorem attempt {a : Effect (α × (J.Name → Nat))}
    {next : Except Unwind (α × (J.Name → Nat)) → Effect (β × (J'.Name → Nat))}
    (ha : KeepsStacks K J inScope places a)
    (hok : ∀ r, KeepsStacks (J.join K) J' inScope (Sum.elim r.2 places) (next (.ok r)))
    (herror : ∀ u, KeepsStacks K J' inScope places (next (.error u))) :
    KeepsStacks K J' inScope places (outcome a >>= next) where
  steady m := by
    have hm := ha.steady.balanced m
    show m.Balanced inScope (K.writable places) (Effect.after _ m)
    rw [after, outcome_bind]
    cases hend : a.ending m with
    | ok r =>
      have hhands := ha.hands (eq_ok_of_ending hend)
      exact hm.trans_above ((hok r).steady _) id fun _ => hhands.mem_writable_or
    | error u => exact hm.trans ((herror u).steady _)
  hands {m m' x new} h := by
    have hsize := (ha.steady m).size_le
    rw [outcome_bind] at h
    cases hend : a.ending m with
    | ok r =>
      rw [hend] at h
      exact (ha.hands (eq_ok_of_ending hend)).trans ((hok r).hands h) hsize
    | error u =>
      rw [hend] at h
      exact ((herror u).hands h).mono hsize

theorem andThen {a : Effect (α × (J.Name → Nat))}
    {next : α × (J.Name → Nat) → Effect (β × (J'.Name → Nat))} (ha : KeepsStacks K J inScope places a)
    (hnext : ∀ r, KeepsStacks (J.join K) J' inScope (Sum.elim r.2 places) (next r)) :
    KeepsStacks K J' inScope places (a >>= next) where
  steady m := by
    have hm := ha.steady.balanced m
    show m.Balanced inScope (K.writable places) (Effect.after _ m)
    cases hrun : a m with
    | ok r m₁ =>
      rw [after_of_ok hrun] at hm
      rw [after_bind_of_ok hrun]
      have hhands := ha.hands hrun
      exact hm.trans_above ((hnext r).steady m₁) id fun _ => hhands.mem_writable_or
    | error u m₁ =>
      rw [after_bind_of_error hrun, ← after_of_error hrun]
      exact hm
  hands {m m' x new} h := by
    obtain ⟨r, m₁, hrun, h⟩ := exists_of_bind_eq_ok h
    have hsize := (ha.steady m).size_le
    rw [after_of_ok hrun] at hsize
    exact (ha.hands hrun).trans ((hnext r).hands h) hsize

theorem give (share : J.Share K) (x : α) :
    KeepsStacks K J inScope places (pure (x, places ∘ share.name)) where
  steady := meets_pure _
  hands h := by
    obtain ⟨hr, -⟩ := EStateM.Result.ok.inj h
    rw [← (Prod.mk.inj hr).2]
    exact .of_share share

theorem part (share : K'.Share K) {a : Effect (α × (J.Name → Nat))}
    (ha : KeepsStacks K' J inScope (places ∘ share.name) a) : KeepsStacks K J inScope places a where
  steady := ha.steady.mono (Known.writable_share share)
  hands h := (ha.hands h).share

theorem withHandles {a : Effect (α × (J.Name → Nat))} (ha : KeepsStacks K J true places a) :
    KeepsStacks K J inScope places (Effect.withHandles a) where
  steady := ha.steady.withHandles
  hands h := by
    obtain ⟨m₁, hrun⟩ := exists_of_withHandles_eq_ok h
    exact ha.hands hrun

theorem pin (scope : Nat) (v : Value) :
    KeepsStacks K (.one scope) true places (Effect.pin v >>= fun place => pure ((), fun _ => place)) where
  steady := (steady_pin v).bind fun _ => meets_pure _
  hands {m m' x new} h := by
    obtain ⟨hr, -⟩ := EStateM.Result.ok.inj h
    rw [← (Prod.mk.inj hr).2]
    exact fun _ => Or.inr le_rfl

variable {run : Program → Effect Value}

theorem callFrame [Rooted α] (hrun : ∀ p, Steady false ∅ (run p)) {a : Effect (α × (J.Name → Nat))}
    (ha : KeepsStacks K J inScope places a) (kind : FrameKind) (name : String) (receiver : Value) :
    KeepsStacks K J inScope places (Effect.callFrame run kind name receiver a) where
  steady := ha.steady.callFrame hrun kind name receiver
  hands h := by
    obtain ⟨m₁, hbody, -⟩ := exists_of_callFrame_eq_ok hrun h
    exact (ha.hands hbody).mono le_rfl

theorem rescue {a : Effect (α × (J.Name → Nat))} {handler : Value → Effect (α × (J.Name → Nat))}
    (ha : KeepsStacks K J inScope places a)
    (hhandler : ∀ exc, KeepsStacks K J inScope places (handler exc))
    (classes : List Value) : KeepsStacks K J inScope places (Effect.rescue classes a handler) where
  steady := ha.steady.rescue (fun exc => (hhandler exc).steady) classes
  hands h := by
    rcases exists_of_rescue_eq_ok ha.steady.weaken h with ⟨m₁, hbody, -⟩ | ⟨exc, m₁, m₂, hh, hsize, -⟩
    · exact (ha.hands hbody).mono le_rfl
    · exact ((hhandler exc).hands hh).mono hsize

end KeepsStacks

namespace Native

/-- A program keeps the stacks, up to handles in scopes around it.  If it pins only in scopes of its own,
it leaves no handles there either. -/
theorem keeps_denote {calls : Calls} (hcalls : SteadyCalls calls) (p : Native n K J α)
    (places : K.Name → Nat) (hin : inScope = false → p.Contained) :
    KeepsStacks K J inScope places (p.denote .own calls places) := by
  induction p generalizing inScope with
  | step a idle => exact .plain idle.steady
  | andThen first next ihfirst ihnext =>
    exact (ihfirst places fun h => (hin h).1).andThen fun r => ihnext r.1 _ fun h => (hin h).2 r.1
  | attempt body returned failed ihbody ihreturned ihfailed =>
    rw [denote]
    refine (ihbody places fun h => (hin h).1).attempt (fun r => ?_) fun u => ?_
    · exact ihreturned r.1 _ fun h => (hin h).2.1 r.1
    · exact ihfailed u places fun h => (hin h).2.2 u
  | give share x => exact .give share x
  | part share body ih => exact .part share (ih _ hin)
  | withHandles body outer ih => exact .withHandles (ih places fun h => by cases h)
  | pin scope reach v =>
    cases inScope with
    | true => exact .pin scope v
    | false => exact (hin rfl).elim
  | get k =>
    rw [denote, Traps.own_getHandle]
    exact .plain (meets_ask _)
  | set k lent v =>
    rw [denote, Traps.own_setHandle]
    have hk : places k ∈ (_ : Known).writable places := ⟨k, lent, rfl⟩
    exact .plain (steady_setHandle hk v)
  | callFrame kind name receiver body ih => exact (ih places hin).callFrame hcalls.run _ _ _
  | addCleanup c => exact .plain (steady_addCleanup c)
  | rescue classes body handler ihbody ihhandler =>
    exact (ihbody places fun h => (hin h).1).rescue
      (fun exc => ihhandler exc places fun h => (hin h).2 exc) classes
  | execute name body ih =>
    have hbody := (ih places hin).answer.callFrame hcalls.run .finish name .nil
    exact .plain (hbody.outcome.bind fun r => steady_terminate r)
  | symbol name => exact .plain (steady_intern name)
  | global name => exact .plain (steady_getGlobal name)
  | defineMethod cls method => exact .plain (steady_defineMethod cls method)
  | perform op operands =>
    rw [denote, Traps.own_perform]
    exact .plain (hcalls.operation op operands)
  | forEach table visitor ih =>
    rw [denote, Traps.own_forEach]
    have hvisitor : ∀ key v, KeepsStacks _ _ true places _ := fun key v =>
      ih key v places fun h => by cases h
    exact .plain (Dictionary.steady_forEach (fun key v => (hvisitor key v).answer) _ _)

/-! ### Handles that are found -/

theorem size_le_denote {calls : Calls} (hcalls : SteadyCalls calls) (p : Native n K J α)
    (places : K.Name → Nat) (m : Machine) :
    m.handles.size ≤ ((p.denote .own calls places).after m).handles.size :=
  have hkeeps : KeepsStacks K J true places _ := p.keeps_denote hcalls places nofun
  (hkeeps.steady m).size_le

/-- The handles that a program with local pins hands on are there when it ends, and those of a scope lie
below the bases of the scopes further in. -/
theorem stands_denote {calls : Calls} (hcalls : SteadyCalls calls) (p : Native n K J α) :
    ∀ {places : K.Name → Nat} {bases : Nat → Nat} {m m' : Machine} {x : α} {new : J.Name → Nat},
      p.Local → K.Stands n bases m.handles.size places →
      p.denote .own calls places m = .ok (x, new) m' → J.Stands n bases m'.handles.size new := by
  induction p with
  | andThen first next ihfirst ihnext =>
    intro places bases m m' x new hlocal h hrun
    obtain ⟨r, m₁, hfirst, hnext⟩ := exists_of_bind_eq_ok hrun
    have hsize := first.size_le_denote hcalls places m
    rw [after_of_ok hfirst] at hsize
    exact ihnext r.1 (hlocal.2 r.1) ((h.mono hsize).join (ihfirst hlocal.1 h hfirst)) hnext
  | attempt body returned failed ihbody ihreturned ihfailed =>
    intro places bases m m' x new hlocal h hrun
    have hsize := body.size_le_denote hcalls places m
    rw [denote, outcome_bind] at hrun
    cases hend : (body.denote .own calls places).ending m with
    | ok r =>
      rw [hend] at hrun
      have hbody := ihbody hlocal.1 h (eq_ok_of_ending hend)
      exact ihreturned r.1 (hlocal.2.1 r.1) ((h.mono hsize).join hbody) hrun
    | error u =>
      rw [hend] at hrun
      exact ihfailed u (hlocal.2.2 u) (h.mono hsize) hrun
  | give share x =>
    intro places bases m m' y new hlocal h hrun
    obtain ⟨hr, rfl⟩ := EStateM.Result.ok.inj hrun
    rw [← (Prod.mk.inj hr).2]
    exact h.share share
  | part share body ih => exact fun hlocal h hrun => ih hlocal (h.share share) hrun
  | withHandles body outer ih =>
    intro places bases m m' x new hlocal h hrun
    obtain ⟨m₁, hbody⟩ := exists_of_withHandles_eq_ok hrun
    have hkeeps : KeepsStacks _ _ false places _ :=
      (Native.withHandles body outer).keeps_denote hcalls places fun _ => True.intro
    have hsize := (hkeeps.steady m).size_eq rfl
    rw [after_of_ok hrun] at hsize
    rw [hsize]
    exact (ih hlocal h.enter hbody).leave outer
  | pin scope reach v =>
    intro places bases m m' x new hlocal h hrun
    obtain ⟨hr, rfl⟩ := EStateM.Result.ok.inj hrun
    rw [← (Prod.mk.inj hr).2]
    have hscope : scope + 1 = _ := hlocal
    have hpushed : m.handles.size < (m.handles.push v).size := by simp
    exact fun _ => ⟨hpushed, fun s hs hlt => absurd (show scope < s from hlt) (by omega)⟩
  | callFrame kind name receiver body ih =>
    intro places bases m m' x new hlocal h hrun
    obtain ⟨m₁, hbody, hsize⟩ := exists_of_callFrame_eq_ok hcalls.run hrun
    exact (ih hlocal (m := entered kind name receiver m) h hbody).mono hsize
  | rescue classes body handler ihbody ihhandler =>
    intro places bases m m' x new hlocal h hrun
    have hkeeps : KeepsStacks _ _ true places _ := body.keeps_denote hcalls places fun h => by cases h
    rcases exists_of_rescue_eq_ok hkeeps.steady hrun with
      ⟨m₁, hbody, hsize⟩ | ⟨exc, m₁, m₂, hhandler, hentry, hsize⟩
    · exact (ihbody hlocal.1 (m := guarded classes m) h hbody).mono hsize
    · exact (ihhandler exc (hlocal.2 exc) (h.mono hentry) hhandler).mono hsize
  | _ => exact fun _ _ _ k => Empty.elim k

/-- Balanced code never gets to the traps for frames and rescues.  It gets to those for handles only if
something is pinned into a scope while another one is open inside. -/
theorem agree_denote (traps : Traps) {calls : Calls} (hcalls : SteadyCalls calls) (p : Native n K J α) :
    ∀ (bases : Nat → Nat) {places : K.Name → Nat} {height : Nat},
      traps.OwnsHandles ∨ p.Local ∧ K.Stands n bases height places →
      Agree height (p.denote traps calls places) (p.denote .own calls places) := by
  have hkeeps : ∀ {n : Nat} {K J : Known} {β : Type} (q : Native n K J β) (places : K.Name → Nat),
    KeepsStacks K J true places (q.denote .own calls places) := fun q places =>
      q.keeps_denote hcalls places nofun
  induction p with
  | andThen first next ihfirst ihnext =>
    intro bases places height hsafe
    refine (ihfirst bases (hsafe.imp_right fun h => ⟨h.1.1, h.2⟩)).bind_of fun m r m' hm hrun => ?_
    refine ihnext r.1 bases (hsafe.imp_right fun h => ?_) m' le_rfl
    have hsize := first.size_le_denote hcalls places m
    rw [after_of_ok hrun] at hsize
    have hnew := first.stands_denote hcalls h.1.1 (h.2.mono hm) hrun
    exact ⟨h.1.2 r.1, (h.2.mono (hm.trans hsize)).join hnew⟩
  | attempt body returned failed ihbody ihreturned ihfailed =>
    intro bases places height hsafe
    have hbody := ihbody bases (hsafe.imp_right fun h => ⟨h.1.1, h.2⟩)
    rw [denote, denote]
    refine hbody.outcome.bind_of fun m ended m' hm hrun => ?_
    rw [outcome_eq] at hrun
    obtain ⟨rfl, rfl⟩ := EStateM.Result.ok.inj hrun
    have hsize := hm.trans (body.size_le_denote hcalls places m)
    cases hend : (body.denote .own calls places).ending m with
    | ok r =>
      refine ihreturned r.1 bases (hsafe.imp_right fun h => ?_) _ le_rfl
      have hnew := body.stands_denote hcalls h.1.1 (h.2.mono hm) (eq_ok_of_ending hend)
      exact ⟨h.1.2.1 r.1, (h.2.mono hsize).join hnew⟩
    | error u =>
      refine ihfailed u bases (hsafe.imp_right fun h => ?_) _ le_rfl
      exact ⟨h.1.2.2 u, h.2.mono hsize⟩
  | give share x => exact fun _ _ _ _ => .refl _
  | part share body ih =>
    intro bases places height hsafe
    exact ih bases (hsafe.imp_right fun h => ⟨h.1, h.2.share share⟩)
  | withHandles body outer ih =>
    intro bases places height hsafe
    exact (ih _ (hsafe.imp_right fun h => ⟨h.1, h.2.enter⟩)).withHandles
  | get k =>
    intro bases places height hsafe
    refine Agree.bind_left ?_ _
    rcases hsafe with hown | h
    · rw [hown.getHandle_eq]
      exact .refl _
    · exact traps.agree_getHandle (h.2 k).1
  | set k lent v =>
    intro bases places height hsafe
    refine Agree.bind_left ?_ _
    rcases hsafe with hown | h
    · rw [hown.setHandle_eq]
      exact .refl _
    · exact traps.agree_setHandle (h.2 k).1 v
  | callFrame kind name receiver body ih =>
    intro bases places height hsafe
    exact traps.agree_callFrame _ _ _ _ (ih bases hsafe) (hkeeps body places).steady
  | rescue classes body handler ihbody ihhandler =>
    intro bases places height hsafe
    refine traps.agree_rescue classes (ihbody bases (hsafe.imp_right fun h => ⟨h.1.1, h.2⟩))
      (hkeeps body places).steady (fun exc => ?_) fun exc => (hkeeps (handler exc) places).steady
    exact ihhandler exc bases (hsafe.imp_right fun h => ⟨h.1.2 exc, h.2⟩)
  | execute name body ih =>
    intro bases places height hsafe
    have hanswer := hkeeps body places |>.answer
    have hbody := traps.agree_callFrame calls.run .finish name .nil ((ih bases hsafe).bind_left _) hanswer
    exact (hbody.outcome.bind_left _).bind_left _
  | perform op operands =>
    intro bases places height _
    rw [denote, denote, traps.perform_eq_own hcalls]
    exact .refl _
  | forEach table visitor ih =>
    intro bases places height hsafe
    have hvisitor := fun key v => (hkeeps (visitor key v) places).answer
    refine Agree.bind_left (traps.agree_forEach _ _ (fun key v => ?_) hvisitor) _
    exact (ih key v bases (hsafe.imp_right fun h => ⟨h.1 key v, h.2⟩)).bind_left _
  | _ => exact fun _ _ _ _ => .refl _

/-! ### Stored programs -/

/-- The calls of a machine that can nest `depth` of them; `decode` says what stored programs do. -/
def callsTo (decode : Program → Native 0 .none .none Value) (traps : Traps) : Nat → Calls
  | 0 => .exhausted
  | depth + 1 =>
    { send := traps.callMethod (callsTo decode traps depth)
      run := fun p => answer ((decode p).denote traps (callsTo decode traps depth) nofun)
      patience := depth + 1 }

variable (decode : Program → Native 0 .none .none Value)

theorem steadyCalls_callsTo : ∀ depth : Nat, SteadyCalls (callsTo decode .own depth)
  | 0 => .exhausted
  | depth + 1 => by
    have hcalls := steadyCalls_callsTo depth
    refine ⟨fun receiver name args => hcalls.callMethod receiver name args, fun p => ?_⟩
    rw [← Known.writable_none nofun]
    exact ((decode p).keeps_denote hcalls nofun fun _ => contained_of_zero _).answer

theorem callsTo_eq_own (traps : Traps) (hsafe : traps.OwnsHandles ∨ ∀ p, (decode p).Local) :
    ∀ depth : Nat, callsTo decode traps depth = callsTo decode .own depth
  | 0 => rfl
  | depth + 1 => by
    have hcalls := steadyCalls_callsTo decode depth
    have hsend : traps.callMethod (callsTo decode .own depth) =
        Traps.own.callMethod (callsTo decode .own depth) := by
      funext receiver name args
      exact traps.callMethod_eq_own hcalls receiver name args
    have hrun : (fun p => answer ((decode p).denote traps (callsTo decode .own depth) nofun)) =
        fun p => answer ((decode p).denote .own (callsTo decode .own depth) nofun) := by
      funext p m
      have hp : traps.OwnsHandles ∨ (decode p).Local ∧ Known.none.Stands 0 (fun _ => 0) 0 nofun :=
        hsafe.imp_right fun h => ⟨h p, nofun⟩
      exact ((agree_denote traps hcalls (decode p) _ hp).bind_left _) m (Nat.zero_le _)
    rw [callsTo, callsTo_eq_own traps hsafe depth, hsend, hrun]
    rfl

end Native

/-- A native program never leaves fewer handles than it found, however it ends, and all handles that it
found hold what they held unless they were lent to it; the frames, the open rescues and the values in
flight are the same, but for cleanups on the innermost frame.  It leaves no more handles either if it pins
only into scopes of its own.  A handle that it hands on is one that it was given, or lies above all that it
found, and so is gone with the scope that the program ran in.

Frames and rescues are always there to be left: the program runs the same way whatever is done when they
are not.  If pins go to the innermost scope around them, handles are always there to be read, too.  The
programs that the machine evaluates are balanced in every way. -/
theorem native_calls_balanced (decode : Program → Native 0 .none .none Value) (depth : Nat)
    (p : Native n K J α) (places : K.Name → Nat) (m : Machine) (traps : Traps) (q : Program) :
    let run := p.denote .own (Native.callsTo decode .own depth) places
    let other := p.denote traps (Native.callsTo decode traps depth) places
    m.Balanced true (K.writable places) (run.after m) ∧
      (run.after m).frames.length = m.frames.length ∧
      (p.Contained → m.Balanced false (K.writable places) (run.after m)) ∧
      (∀ x new m', run m = .ok (x, new) m' → K.Hands places m.handles.size J new) ∧
      (traps.OwnsHandles → other m = run m) ∧
      ((∀ stored, (decode stored).Local) → p.Local →
        (∃ bases, K.Stands n bases m.handles.size places) → other m = run m) ∧
      m.Balanced false ∅ ((q.eval (Calls.toDepth depth)).after m) := by
  intro run other
  have hcalls := Native.steadyCalls_callsTo decode depth
  have hkeeps : KeepsStacks K J true places run := p.keeps_denote hcalls places nofun
  have hbalanced := hkeeps.steady m
  have hsame (bases : Nat → Nat) (hstored : traps.OwnsHandles ∨ ∀ stored, (decode stored).Local)
      (hsafe : traps.OwnsHandles ∨ p.Local ∧ K.Stands n bases m.handles.size places) :
      other m = run m := by
    show p.denote traps (Native.callsTo decode traps depth) places m = _
    rw [Native.callsTo_eq_own decode traps hstored depth]
    exact p.agree_denote traps hcalls bases hsafe m le_rfl
  refine ⟨hbalanced, hbalanced.depth_eq, fun hp => ?_, fun x new m' => hkeeps.hands, fun hown => ?_,
    fun hstored hp ⟨bases, hplaces⟩ => ?_, q.steady_eval (Calls.steady_toDepth depth) m⟩
  · have hcontained : KeepsStacks K J false places run := p.keeps_denote hcalls places fun _ => hp
    exact hcontained.steady m
  · exact hsame (fun _ => 0) (Or.inl hown) (Or.inl hown)
  · exact hsame bases (Or.inr hstored) (Or.inr ⟨hp, hplaces⟩)

/-- The exception that a run ended with. -/
def Effect.raised? : EStateM.Result Unwind Machine α → Option Value
  | .error (.raise exc) _ => some exc
  | _ => none

theorem exists_of_raised? {r : EStateM.Result Unwind Machine α} {exc : Value} (h : raised? r = some exc) :
    ∃ m', r = .error (.raise exc) m' := by
  rcases r with ⟨x, m'⟩ | ⟨other | f, m'⟩
  · cases h
  · exact ⟨m', by rw [Option.some.inj h]⟩
  · cases h

/-- A scope with a frame in it whose body raises, and whose cleanup raises over it. -/
def Native.failing : Native 0 .none .none Value :=
  .withHandles (.andThen (.pin 0 (by decide) (.ofInt 7)) fun _ =>
    .callFrame .native "f" .nil (.andThen (.addCleanup ⟨.nil, .constant .nil, false⟩) fun _ =>
      .perform (.frame (.raise .valueError "body")) [])) nofun

theorem native_calls_balanced_failing :
    let decode (_ : Program) : Native 0 .none .none Value :=
      .perform (.frame (.raise .typeError "cleanup")) []
    let m : Machine := { heap := { settings := {} } }
    let run := Native.failing.denote .own (Native.callsTo decode .own 2) Empty.elim
    (∃ exc m', run m = .error (.raise exc) m') ∧ m.Balanced false ∅ (run.after m) ∧
      ∀ traps, Native.failing.denote traps (Native.callsTo decode traps 2) Empty.elim m = run m := by
  intro decode m run
  have hlocal : Native.failing.Local := ⟨rfl, fun _ => ⟨trivial, fun _ => trivial⟩⟩
  have hplaces : Known.none.Stands 0 (fun _ => 0) m.handles.size Empty.elim := fun k => Empty.elim k
  obtain ⟨-, -, hcontained, -⟩ :=
    native_calls_balanced decode 2 .failing Empty.elim m .own (.constant .nil)
  have hbalanced := hcontained (Native.contained_of_zero _)
  have hnothing : Known.none.writable Empty.elim = ∅ := Known.writable_none _
  rw [hnothing] at hbalanced
  refine ⟨?_, hbalanced, fun traps => ?_⟩
  · have hraises : (raised? (run m)).isSome = true := by decide +kernel
    obtain ⟨exc, hexc⟩ := Option.isSome_iff_exists.mp hraises
    exact ⟨exc, exists_of_raised? hexc⟩
  · obtain ⟨-, -, -, -, -, hsame, -⟩ :=
      native_calls_balanced decode 2 .failing Empty.elim m traps (.constant .nil)
    exact hsame (fun _ => trivial) hlocal ⟨_, hplaces⟩

/-- Pins through a scope while another one is open inside, and reads the handle after that. -/
def Native.readingLate : Native 0 .none .none Value :=
  .withHandles (.andThen (.withHandles (.pin 0 Nat.two_pos .nil) fun _ => Nat.one_pos) fun _ =>
    .get (.inl ())) nofun

/-- Pins through a scope while a frame is open inside. -/
def Native.pinningInFrame : Native 1 .none (.one 0) Unit :=
  .callFrame .native "f" .nil (.pin 0 Nat.one_pos .nil)

/-- The handle is gone before its scope ends, and reading it is an access out of bounds; and the frame is
left with one handle more than there were when it was entered. -/
theorem outer_pin_lost :
    let m : Machine := { heap := { settings := {} } }
    let outOfBounds : Unwind := .fatal (.other "index out of bounds")
    (∃ m', Native.readingLate.denote { Traps.own with get := throw outOfBounds } .exhausted nofun m =
      .error outOfBounds m') ∧
    ((Native.pinningInFrame.denote .own .exhausted nofun).after m).handles.size = m.handles.size + 1 :=
  ⟨⟨_, rfl⟩, rfl⟩

end ObjectMachine
