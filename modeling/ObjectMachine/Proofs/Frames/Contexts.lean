import Mathlib.Tactic
import ObjectMachine.Proofs.Frames.Activity
import ObjectMachine.Proofs.Frames.Remembering
import ObjectMachine.Proofs.Heap.Contexts

/-! Contexts of exceptions, and the programs that make them.

A cleanup that raises makes the exception on its way the context of the one it raises, if that one has
none.  This closes a loop exactly if the exception raised is on the chain of the one on its way.  An
exception that was made while the cleanup ran cannot be: contexts are older than their exceptions, and
frames, cleanups and rescues keep it so as long as no cleanup raises an old exception without
context. -/

namespace ObjectMachine

open Effect
open Observer (flying landed exists_chainContext)
open Relation (ReflTransGen)

namespace Effect

variable {α β : Type} {inScope : Bool} {a : Effect α} {m : Machine}

/-! ### Giving an exception a context -/

/-- An exception gets the one on its way as its context if it is another one and has none yet. -/
theorem chainContext_cases (replacement earlier : Value) (m : Machine) :
    (∃ c, replacement ≠ earlier ∧ m.heap.Context replacement c ∧ c.isNil = true ∧
      (chainContext replacement earlier).after m =
        { m with heap := m.heap.chain replacement earlier,
                 events := m.events.push (.chained replacement earlier) }) ∨
    (replacement = earlier ∨ ∀ c, m.heap.Context replacement c → c.isNil = false) ∧
      (chainContext replacement earlier).after m = m := by
  unfold chainContext
  split
  case isTrue heq => exact Or.inr ⟨Or.inl (eq_of_beq heq), rfl⟩
  case isFalse hne =>
    have hask : ask (·.heap.read? Facet.exception replacement) m =
      .ok (m.heap.read? Facet.exception replacement) m := rfl
    rw [after_bind_of_ok hask]
    cases hread : m.heap.read? Facet.exception replacement with
    | none =>
      refine Or.inr ⟨Or.inr fun c hc => ?_, rfl⟩
      obtain ⟨e, he, -⟩ := Heap.context_iff.mp hc
      obtain ⟨o, ho, hb⟩ := Heap.read_eq_ok_iff.mp he
      rw [Heap.read?, ho, Option.bind_some, hb] at hread
      cases hread
    | some e =>
      obtain ⟨o, ho, hb⟩ := Option.bind_eq_some_iff.mp hread
      have hok : m.heap.read Facet.exception replacement = .ok e := Heap.read_eq_ok_iff.mpr ⟨o, ho, hb⟩
      have hcontext : m.heap.Context replacement e.context := Heap.context_iff.mpr ⟨e, hok, rfl⟩
      dsimp only
      split
      case isTrue hnil =>
        refine Or.inl ⟨e.context, fun heq => hne (beq_iff_eq.mpr heq), hcontext, hnil, ?_⟩
        have hwrite : ∀ g, write Facet.exception replacement g m =
          .ok () { m with heap := m.heap.modify Facet.exception replacement g } :=
            fun _ => bind_of_ok (read_of_ok hok)
        rw [after_congr (bind_of_ok (hwrite _))]
        rfl
      case isFalse hsome =>
        refine Or.inr ⟨Or.inr fun c hc => ?_, rfl⟩
        rw [← hcontext.unique hc]
        exact Bool.eq_false_iff.mpr hsome

/-- A loop is closed exactly if an exception without context gets one that leads back to it. -/
theorem contextsEnd_chainContext_iff {replacement earlier d : Value} (hends : m.heap.ContextsEnd)
    (hearlier : m.heap.Context earlier d) :
    ((chainContext replacement earlier).after m).heap.ContextsEnd ↔
      ¬ (replacement ≠ earlier ∧ (∃ c, m.heap.Context replacement c ∧ c.isNil = true) ∧
        ReflTransGen m.heap.Context earlier replacement) := by
  rcases chainContext_cases replacement earlier m with ⟨c, hne, hc, hnil, hafter⟩ | ⟨hcase, hafter⟩
  · rw [hafter, Heap.contextsEnd_chain_iff hends hc hearlier]
    simp [hne, show ∃ c, m.heap.Context replacement c ∧ c.isNil = true from ⟨c, hc, hnil⟩]
  · rw [hafter]
    refine iff_of_true hends ?_
    rintro ⟨hne, ⟨c, hc, hnil⟩, -⟩
    exact absurd hnil (by simp [hcase.resolve_left hne c hc])

/-- Whether what a cleanup raises may replace the exception on its way: it was made while the cleanup
ran, has a context already, or is the one on its way itself, which is in flight below the resource. -/
def RaisesSafely (a : Effect α) : Prop := ∀ m : Machine, m.heap.Aged → (a.after m).HasRoom →
  ∀ exc, a.ending m = .error (.raise exc) →
    (∃ n, (a.after m).heap.Dates exc n ∧ m.heap.nextSerial ≤ n) ∨
    (∃ c, (a.after m).heap.Context exc c ∧ c.isNil = false) ∨ m.inFlight[1]? = some exc

/-- What a cleanup that failed makes of the end so far. -/
theorem concludes_replaceOutcome {m₀ m₁ : Machine} {result : Except Unwind α} {raised : Unwind}
    (h : m₀.Concludes result m) (h' : m.Concludes (.error raised : Except Unwind Unit) m₁)
    (hkept : m.heap.Aged → m₁.HasRoom → ∀ exc n, result = .error (.raise exc) →
      m.heap.Dates exc n → m₁.heap.Dates exc n)
    (hsafe : m.heap.Aged → m₁.HasRoom → ∀ earlier replacement, result = .error (.raise earlier) →
      raised = .raise replacement →
      (∃ n, m₁.heap.Dates replacement n ∧ m.heap.nextSerial ≤ n) ∨
      (∃ c, m₁.heap.Context replacement c ∧ c.isNil = false) ∨ replacement = earlier) :
    ∃ m₂, replaceOutcome raised result m₁ = .ok (supersede raised result) m₂ ∧
      m₀.Concludes (supersede raised result) m₂ := by
  have hboth := h.precede h'
  have hreplaced : m₀.Concludes (.error raised : Except Unwind α) m₁ :=
    ⟨hboth.grows, hboth.recalls, fun hm hroom exc he =>
      hboth.raises hm hroom exc (congrArg _ (Except.error.inj he))⟩
  rcases result with (earlier | f) | x
  · cases raised with
    | fatal f => exact ⟨m₁, rfl, hreplaced⟩
    | raise replacement =>
      obtain ⟨m₂, hchain⟩ := exists_chainContext replacement earlier m₁
      refine ⟨m₂, bind_of_ok hchain, ?_⟩
      rw [← after_of_ok hchain]
      rcases chainContext_cases replacement earlier m₁ with
        ⟨c, hne, hc, hnil, hafter⟩ | ⟨-, hafter⟩
      · -- the exception has no context and is another one, so it is young
        rw [hafter]
        have hages : m₀.heap.Aged → m₁.HasRoom → ∃ n k, m₁.heap.Dates replacement n ∧
            m₁.heap.Dates earlier k ∧ k < n := by
          intro hm hroom
          have hm' := (h.recalls hm (le_trans h'.grows hroom)).aged
          obtain ⟨k, hk⟩ := h.raises hm (le_trans h'.grows hroom) earlier rfl
          rcases hsafe hm' hroom earlier replacement rfl rfl with ⟨n, hn, hle⟩ | ⟨d, hd, hsome⟩ | heq
          · exact ⟨n, k, hn, hkept hm' hroom earlier k rfl hk, (hm'.lt hk).trans_le hle⟩
          · rw [hc.unique hd, hsome] at hnil
            cases hnil
          · exact absurd heq hne
        have hsize : (m₁.heap.chain replacement earlier).slots.size = m₁.heap.slots.size :=
          Heap.size_modifyObject m₁.heap replacement _
        refine ⟨hboth.grows.trans hsize.ge, fun hm hroom => ?_, fun hm hroom exc he => ?_⟩
        · have hroom₁ : m₁.HasRoom := hsize.symm.trans_le hroom
          obtain ⟨n, k, hn, hk, hlt⟩ := hages hm hroom₁
          exact (hboth.recalls hm hroom₁).trans ⟨m₁.carries_with _ _,
            (hboth.recalls hm hroom₁).aged.chain hn hk hlt,
            (Heap.nextSerial_modifyObject m₁.heap replacement _).ge,
            fun _ _ _ hn => hn.modify_exception _⟩
        · obtain rfl := Unwind.raise.inj (Except.error.inj he)
          obtain ⟨n, k, hn, -⟩ := hages hm (hsize.symm.trans_le hroom)
          exact ⟨n, hn.modify_exception _⟩
      · rw [hafter]
        exact hreplaced
  · exact ⟨m₁, rfl, hboth.grows, hboth.recalls, fun _ _ _ he => by cases he⟩
  · exact ⟨m₁, rfl, hreplaced⟩

/-! ### Cleanups -/

theorem RaisesSafely.withResource (ha : RaisesSafely a) (resource : Value) :
    RaisesSafely (withResource resource a) := by
  intro m hm hroom exc he
  obtain ⟨entered, left, hend, hafter⟩ := withResource_eq resource a m
  rw [hend] at he
  rw [hafter] at hroom ⊢
  exact ha { m with session := entered } hm hroom exc he

theorem RaisesSafely.map (ha : RaisesSafely a) (g : α → β) :
    RaisesSafely (a >>= fun x => pure (g x)) := by
  intro m hm hroom exc he
  rw [after_map] at hroom ⊢
  refine ha m hm hroom exc ?_
  cases h : a m with
  | ok x m' =>
    rw [ending, bind_of_ok h] at he
    cases he
  | error u m' =>
    rw [ending_bind_of_error h] at he
    rw [ending_of_error h, Except.error.inj he]

section Frames

variable {run : Program → Effect Value}

theorem recalls_runCleanup (hrun : ∀ p, Recalls false (run p)) (c : Cleanup) :
    Recalls false (runCleanup run c) := earns_runCleanup (hrun c.program)

theorem raisesSafely_runCleanup (hrun : ∀ p, RaisesSafely (run p)) (c : Cleanup) :
    RaisesSafely (runCleanup run c) := by
  unfold runCleanup
  split
  · exact ((hrun c.program).withResource c.resource).map fun _ => ()
  · exact (hrun c.program).map fun _ => ()

/-- What runs with values in flight loses none of them. -/
theorem Recalls.landed (ha : Recalls false a) (values : List Value) (m : Machine) :
    m.Concludes (a.ending (flying m values)) (landed m (a.after (flying m values))) ∧
      (m.heap.Aged → (a.after (flying m values)).HasRoom → ∀ v ∈ values, ∀ n, m.heap.Dates v n →
        (a.after (flying m values)).heap.Dates v n) := by
  refine ⟨Earns.landed ha values m, fun hm hroom v hv n hn => ?_⟩
  exact ((ha.concludes (flying m values)).recalls hm hroom).dates v (mem_roots_flying.mpr (Or.inr hv)) n hn

/-- Cleanups keep contexts older than their exceptions, one after the other. -/
theorem concludes_runCleanups [Rooted α] (hrun : ∀ p, Recalls false (run p))
    (hsafe : ∀ p, RaisesSafely (run p)) {m₀ : Machine} :
    ∀ (cs : List Cleanup) (result : Except Unwind α) (m : Machine), m₀.Concludes result m →
      m₀.Concludes ((runCleanups run cs result >>= fun r => resume r).ending m)
        ((runCleanups run cs result >>= fun r => resume r).after m)
  | [], result, m, h => by
    have heq : (runCleanups run [] result >>= fun r => resume r) m = resume result m := rfl
    rw [ending_congr heq, after_congr heq, ending_resume, after_resume]
    exact h
  | c :: rest, result, m, h => by
    have hrest : ∀ (result : Except Unwind α) m, m₀.Concludes result m → _ :=
      concludes_runCleanups hrun hsafe rest
    obtain ⟨hcleanup, hflight⟩ := (recalls_runCleanup hrun c).landed (outcomeRoots result ++ [c.resource]) m
    have hraises := raisesSafely_runCleanup hsafe c (flying m (outcomeRoots result ++ [c.resource]))
    have hkept : m.heap.Aged → ((runCleanup run c).after
        (flying m (outcomeRoots result ++ [c.resource]))).HasRoom → ∀ exc n,
        result = .error (.raise exc) → m.heap.Dates exc n → ((runCleanup run c).after
          (flying m (outcomeRoots result ++ [c.resource]))).heap.Dates exc n := by
      rintro hm hroom exc n rfl hn
      exact hflight hm hroom exc (List.mem_append_left _ (List.mem_singleton_self exc)) n hn
    rw [runCleanups, bind_assoc, ending_bind_of_ok (withInFlight_eq _ _ m),
      after_bind_of_ok (withInFlight_eq _ _ m)]
    generalize hended : (runCleanup run c).ending _ = ended at *
    generalize (runCleanup run c).after _ = m₁ at *
    cases ended with
    | ok u =>
      refine hrest result _ ⟨h.grows.trans hcleanup.grows, (h.precede hcleanup).recalls, ?_⟩
      intro hm hroom exc he
      have hroom' := le_trans hcleanup.grows hroom
      obtain ⟨n, hn⟩ := h.raises hm hroom' exc he
      exact ⟨n, hkept (h.recalls hm hroom').aged hroom exc n he hn⟩
    | error raised =>
      obtain ⟨m₂, hm₂, h₂⟩ := concludes_replaceOutcome h hcleanup hkept fun hm hroom earlier
        replacement hresult hraised => by
          subst hresult hraised
          refine (hraises hm hroom replacement rfl).imp_right (Or.imp_right fun hin => ?_)
          exact (Option.some.inj hin).symm
      dsimp only
      rw [bind_assoc, ending_bind_of_ok hm₂, after_bind_of_ok hm₂]
      exact hrest _ m₂ h₂

theorem Recalls.callFrame [Rooted α] (hrun : ∀ p, Recalls false (run p))
    (hsafe : ∀ p, RaisesSafely (run p)) {body : Effect α} (hbody : Recalls false body)
    (kind : FrameKind) (name : String) (receiver : Value) :
    Recalls inScope (callFrame run kind name receiver body) := by
  refine fun m => ⟨(hbody.steady.callFrame (fun p => (hrun p).steady) kind name receiver).lift m, ?_⟩
  obtain ⟨f, hframes⟩ := hbody.steady.frames_after_body kind name receiver m
  have heq : Effect.callFrame run kind name receiver body m = _ :=
    (callFrame_eq kind name receiver body m).trans (leaveFrame_of_cons hframes _)
  rw [ending_congr heq, after_congr heq]
  exact concludes_runCleanups hrun hsafe _ _ _ (Earns.left hbody kind name receiver m)

theorem Recalls.ensure [Rooted α] (hrun : ∀ p, Recalls false (run p))
    (hsafe : ∀ p, RaisesSafely (run p)) {body : Effect α} (hbody : Recalls false body)
    (cleanup : Program) : Recalls inScope (ensure run body cleanup) :=
  Recalls.callFrame hrun hsafe ((earns_addCleanup _).bind fun _ => hbody) _ _ _

end Frames

end Effect

/-! ### Programs -/

namespace Control

/-- Whether the other steps of a program keep contexts older than their exceptions. -/
def Tame : Control α → Prop
  | .other a _ => a.Recalls false
  | .raise _ => True
  | .andThen first next => first.Tame ∧ ∀ x, (next x).Tame
  | .attempt body => body.Tame
  | @frame _ _ _ _ _ body => body.Tame
  | .addCleanup _ => True
  | @ensure _ _ body _ => body.Tame
  | .rescue _ body handler => body.Tame ∧ ∀ exc, (handler exc).Tame

theorem recalls_denote {run : Program → Effect Value} (hrun : ∀ p, (run p).Recalls false)
    (hsafe : ∀ p, (run p).RaisesSafely) (program : Control α) (htame : program.Tame) :
    (program.denote run).Recalls false := by
  induction program with
  | other a level => exact htame
  | raise exc => exact recalls_raiseValue exc
  | andThen first next ihfirst ihnext =>
    exact (ihfirst htame.1).bind fun x => ihnext x (htame.2 x)
  | attempt body ih => exact fun m => Verdict.recalling.forgets (ih htame m)
  | frame kind name receiver body ih => exact (ih htame).callFrame hrun hsafe kind name receiver
  | addCleanup c => exact earns_addCleanup c
  | ensure body cleanup ih => exact (ih htame).ensure hrun hsafe cleanup
  | rescue classes body handler ihbody ihhandler =>
    exact Earns.rescue (ihbody htame.1) (fun exc => ihhandler exc (htame.2 exc)) classes

theorem recalls_denoteTo {decode : Program → Control Value} (hdecode : ∀ p, (decode p).Tame)
    (hsafe : ∀ depth p, (denoteTo decode depth p).RaisesSafely) :
    ∀ (depth : Nat) (p : Program), (denoteTo decode depth p).Recalls false
  | 0, _ => Verdict.recalling.excuses _
  | depth + 1, p =>
    recalls_denote (recalls_denoteTo hdecode hsafe depth) (hsafe depth) (decode p) (hdecode p)

end Control

/-- The contexts of exceptions end after every program that starts from exceptions without context, if
no cleanup raises an old exception without context, other than the one on its way.  Without that, a
loop is closed exactly if the exception raised by a cleanup is on the chain of the one on its way. -/
theorem contexts_end (decode : Program → Control Value) (depth : Nat) (program : Control α)
    (htame : program.Tame) (hdecode : ∀ p, (decode p).Tame)
    (hsafe : ∀ depth p, (Control.denoteTo decode depth p).RaisesSafely) (m : Machine)
    (hs : m.heap.Sound) (hu : m.heap.Unmarked)
    (hserial : ∀ v o, m.heap.get? v = some o → o.serial < m.heap.nextSerial)
    (hfresh : ∀ v c, m.heap.Context v c → c.isNil = true)
    (hroom : ((program.denote (Control.denoteTo decode depth)).after m).HasRoom) :
    ((program.denote (Control.denoteTo decode depth)).after m).heap.ContextsEnd ∧
    ∀ (m : Machine) (replacement earlier d : Value), m.heap.ContextsEnd →
      m.heap.Context earlier d →
      (((chainContext replacement earlier).after m).heap.ContextsEnd ↔
        ¬ (replacement ≠ earlier ∧ (∃ c, m.heap.Context replacement c ∧ c.isNil = true) ∧
          ReflTransGen m.heap.Context earlier replacement)) := by
  have haged : m.heap.Aged := Heap.aged_of_no_context hs hu hserial hfresh
  have hrun := Control.recalls_denoteTo hdecode hsafe depth
  have hrecalls := Control.recalls_denote hrun (hsafe depth) program htame
  refine ⟨((hrecalls.concludes m).recalls haged hroom).aged.contextsEnd, ?_⟩
  exact fun m replacement earlier d hends hearlier => contextsEnd_chainContext_iff hends hearlier

/-- A body that raises an error, in a frame whose cleanup raises another one. -/
def Control.failingTwice : Control Value :=
  .ensure (.other (raiseError .keyError "first") (level_raises.raiseError _ _)) .self

/-- The cleanup's error. -/
def Control.failing (_ : Program) : Control Value :=
  .other (raiseError .ioError "second") (level_raises.raiseError _ _)

theorem contexts_end_new_error :
    let m : Machine := { heap := { settings := {} } }
    let m' := (Control.failingTwice.denote (Control.denoteTo Control.failing 1)).after m
    m'.heap.Context (.ofSlot 5 0) (.ofSlot 1 0) ∧ m'.heap.ContextsEnd := by
  intro m m'
  have hm : m.Intact := Machine.intact_fresh {}
  have hsafe : ∀ depth p, (Control.denoteTo Control.failing depth p).RaisesSafely := by
    rintro (_ | depth) p m₀ hm hroom exc he
    · cases he
    · exact Or.inl (raises_raiseError _ _ hm hroom he)
  have hcontext : (m'.heap.get? (.ofSlot 5 0)).bind (·.body.context?) = some (.ofSlot 1 0) := by
    decide +kernel
  have hroom : m'.HasRoom := by
    unfold Machine.HasRoom
    decide +kernel
  refine ⟨Option.bind_eq_some_iff.mp hcontext, ?_⟩
  exact (contexts_end Control.failing 1 Control.failingTwice (recalls_raiseError _ _) (fun _ => recalls_raiseError _ _) hsafe m hm.sound
    hm.unmarked (fun v o ho => by simp [m, Heap.get?_eq_some_iff] at ho)
    (fun v c hc => absurd hc (Heap.not_context_fresh {})) hroom).1

/-- A machine with two exceptions that have been raised before. -/
def Machine.raisingTwo : Machine where
  heap := Machine.raising.heap.insert .nil (.exception { stackTrace := .no })

/-- The first program raises the one exception in a frame whose cleanup raises the other, the second
program does it the other way round. -/
def Control.grudge : Control Value :=
  let caught (exc : Value) (cleanup : Program) : Control Value :=
    .rescue [] (.frame .native "f" .nil (.andThen (.addCleanup ⟨.nil, cleanup, false⟩) fun _ =>
      .raise exc)) fun _ => .other (pure .nil) (Judgement.meets_pure _)
  .andThen (caught (.ofSlot 0 0) (.constant (.ofSlot 1 0))) fun _ =>
    caught (.ofSlot 1 0) (.constant (.ofSlot 0 0))

/-- Cleanups that raise an old exception. -/
def Control.raising : Program → Control Value
  | .constant exc => .raise exc
  | _ => .raise .nil

/-- Two exceptions that replace each other, one after the other, become each other's context. -/
theorem contexts_loop_after_raising_again :
    let m' := (Control.grudge.denote (Control.denoteTo Control.raising 1)).after .raisingTwo
    (∀ v c, Machine.raisingTwo.heap.Context v c → c.isNil = true) ∧
      m'.heap.Context (.ofSlot 0 0) (.ofSlot 1 0) ∧ m'.heap.Context (.ofSlot 1 0) (.ofSlot 0 0) ∧
      ¬ m'.heap.ContextsEnd := by
  intro m'
  have hsecond : ∀ v c, Machine.raising.heap.Context v c → c.isNil = true := fun v c hc =>
    Heap.context_insert (Heap.sound_fresh {}) (fun _ _ hc => absurd hc (Heap.not_context_fresh {})) _
      (fun e he => by obtain rfl := Body.exception.inj he; rfl) hc
  have hfirst : (m'.heap.get? (.ofSlot 0 0)).bind (·.body.context?) = some (.ofSlot 1 0) := by
    decide +kernel
  have hback : (m'.heap.get? (.ofSlot 1 0)).bind (·.body.context?) = some (.ofSlot 0 0) := by
    decide +kernel
  have hfirst := Option.bind_eq_some_iff.mp hfirst
  have hback := Option.bind_eq_some_iff.mp hback
  refine ⟨fun v c hc => ?_, hfirst, hback, fun hends => ?_⟩
  · exact Heap.context_insert ((Heap.sound_fresh {}).insert _ _) hsecond _
      (fun e he => by obtain rfl := Body.exception.inj he; rfl) hc
  · exact (hends _ _ hfirst).not_loop (.head hfirst (.single hback))

end ObjectMachine
