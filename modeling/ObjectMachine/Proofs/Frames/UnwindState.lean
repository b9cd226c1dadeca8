import Mathlib.Tactic
import ObjectMachine.Proofs.Frames.Nesting

/-! What the unwind state tells.

The state is `unwinding` while an exception is on its way and `handled` while a handler runs.  Whoever
catches an exception sets it to `running`, whatever was going on around: so a catch inside a handler,
or inside a cleanup that runs while another exception is on its way, makes the state forget what it
told before.

`Terms` are the terms on which code is judged: the states it is entered in, whether its state may
slip to `running`, and the programs it may leave behind as cleanups.  `Truthful` code gives back the
state it found, or leaves `unwinding` behind when it raises, and the rules follow the way effects are
built.  Nothing is said of code that ends with a fault, nor of what follows an aborted run. -/

namespace ObjectMachine

open Observer (flying landed)

/-! ### What a run may do to the state -/

/-- Whether a run on the machine was aborted by a fault. -/
def Machine.Aborted (m : Machine) : Prop := ∃ f, Event.aborted f ∈ m.events

/-- The terms on which code runs. -/
structure Terms where
  /-- The states the code is entered in. -/
  entry : Set UnwindState
  /-- Whether the state may be `running` where it should be something else. -/
  slips : Prop
  /-- The programs that may be registered as cleanups. -/
  cleanups : Set Program
  running_mem : slips → .running ∈ entry

namespace Terms

/-- All code, in every state. -/
def loose : Terms := ⟨Set.univ, True, Set.univ, fun _ => trivial⟩

/-- Code that is neither part of a handler nor of a cleanup that runs while an exception is on its
way. -/
def outermost (cleanups : Set Program) : Terms := ⟨{.running}, False, cleanups, False.elim⟩

/-- The terms of handlers and cleanups. -/
def inner (t : Terms) : Terms := { t with entry := Set.univ, running_mem := fun _ => trivial }

/-- The terms on which code can catch exceptions. -/
def Catching (t : Terms) : Prop := t.slips ∨ t.entry ⊆ {.running}

theorem catching_loose : loose.Catching := Or.inl trivial

theorem catching_outermost (cleanups : Set Program) : (outermost cleanups).Catching := Or.inr subset_rfl

end Terms

namespace Machine

/-- Whether state and frames are the same and no aborted run is forgotten. -/
structure Undisturbed (m m' : Machine) : Prop where
  aborted : m.Aborted → m'.Aborted
  frames : m'.frames = m.frames
  state : m'.unwindState = m.unwindState

/-- Whether a run from `m` to `m'` forgot no aborted run and registered cleanups on the given terms
only. -/
structure Leaves (t : Terms) (m m' : Machine) : Prop where
  aborted : m.Aborted → m'.Aborted
  frames : ∃ cs, m'.frames = register cs m.frames ∧ ∀ c ∈ cs, c.program ∈ t.cleanups

/-- Whether it brought the state to `target`, too. -/
structure Reaches (t : Terms) (target : UnwindState) (m m' : Machine) : Prop extends
    m.Leaves t m' where
  state : m'.Aborted ∨ m'.unwindState = target ∨ t.slips ∧ m'.unwindState = .running

/-- Whether code may be entered on a machine. -/
def Enters (t : Terms) (m : Machine) : Prop := m.Aborted ∨ m.unwindState ∈ t.entry

/-- Whether a run from `m` to `m'` that ended with `r` was truthful. -/
def Ends (t : Terms) (m : Machine) (r : Except Unwind α) (m' : Machine) : Prop :=
  match r with
  | .ok _ => m.Reaches t m.unwindState m'
  | .error (.raise _) => m.Reaches t .unwinding m'
  | .error (.fatal _) => m.Leaves t m'

theorem Undisturbed.refl (m : Machine) : m.Undisturbed m := ⟨id, rfl, rfl⟩

theorem Undisturbed.trans {m m₁ m₂ : Machine} (h : m.Undisturbed m₁) (h' : m₁.Undisturbed m₂) :
    m.Undisturbed m₂ :=
  ⟨h'.aborted ∘ h.aborted, h'.frames.trans h.frames, h'.state.trans h.state⟩

variable {t : Terms} {s s' : UnwindState} {m m₁ m₂ : Machine}

theorem Undisturbed.reaches (h : m.Undisturbed m₁) : m.Reaches t m.unwindState m₁ :=
  ⟨⟨h.aborted, ⟨[], h.frames.trans (register_nil _).symm, nofun⟩⟩, Or.inr (Or.inl h.state)⟩

theorem Leaves.trans (h : m.Leaves t m₁) (h' : m₁.Leaves t m₂) : m.Leaves t m₂ := by
  obtain ⟨cs, hcs, hgood⟩ := h.frames
  obtain ⟨cs', hcs', hgood'⟩ := h'.frames
  refine ⟨h'.aborted ∘ h.aborted, cs ++ cs', ?_, fun c hc => ?_⟩
  · rw [hcs', hcs, register_append]
  · exact (List.mem_append.mp hc).elim (hgood c) (hgood' c)

theorem Reaches.trans (h : m.Reaches t s m₁) (h' : m₁.Reaches t m₁.unwindState m₂) :
    m.Reaches t s m₂ := by
  refine ⟨h.toLeaves.trans h'.toLeaves, ?_⟩
  rcases h'.state with habort | hsame | hslip
  · exact Or.inl habort
  · rcases h.state with habort | hs | ⟨hslips, hs⟩
    · exact Or.inl (h'.aborted habort)
    · exact Or.inr (Or.inl (hsame.trans hs))
    · exact Or.inr (Or.inr ⟨hslips, hsame.trans hs⟩)
  · exact Or.inr (Or.inr hslip)

/-- What the state was on the way does not matter, once it is set anew. -/
theorem Reaches.after (h : m.Leaves t m₁) (h' : m₁.Reaches t s m₂) : m.Reaches t s m₂ :=
  ⟨h.trans h'.toLeaves, h'.state⟩

theorem Reaches.enters (h : m.Reaches t m.unwindState m₁) (hm : m.Enters t) : m₁.Enters t := by
  rcases h.state with habort | hs | ⟨hslips, hs⟩
  · exact Or.inl habort
  · exact hm.imp h.aborted fun hmem => hs ▸ hmem
  · exact Or.inr (hs ▸ t.running_mem hslips)

theorem enters_inner (m : Machine) : m.Enters t.inner := Or.inr trivial

theorem Ends.leaves {r : Except Unwind α} (h : m.Ends t r m₁) : m.Leaves t m₁ := by
  rcases r with (exc | f) | x
  · exact Reaches.toLeaves h
  · exact h
  · exact Reaches.toLeaves h

theorem Ends.precede {r : Except Unwind α} (h : m.Reaches t m.unwindState m₁) (h' : m₁.Ends t r m₂) :
    m.Ends t r m₂ := by
  rcases r with (exc | f) | x
  · exact Reaches.after h.toLeaves h'
  · exact Leaves.trans h.toLeaves h'
  · exact Reaches.trans h h'

/-- Code that gives back the state it found may follow. -/
theorem Ends.follow {r : Except Unwind α} (h : m.Ends t r m₁)
    (h' : m₁.Reaches t m₁.unwindState m₂) : m.Ends t r m₂ := by
  rcases r with (exc | f) | x
  · exact Reaches.trans h h'
  · exact Leaves.trans h h'.toLeaves
  · exact Reaches.trans h h'

/-- The end of a run on a machine that tells the same of exceptions. -/
theorem Ends.transport {t' : Terms} {r : Except Unwind α} {m' m₁' : Machine} (h : m.Ends t' r m₁)
    (hslips : t'.slips → t.slips) (hleaves : m'.Leaves t m₁')
    (hstate : m'.unwindState = m.unwindState) (h₁ : m₁.Undisturbed { m₁' with frames := m₁.frames }) :
    m'.Ends t r m₁' := by
  have hreach : ∀ {s}, m.Reaches t' s m₁ → m'.Reaches t s m₁' := fun h =>
    ⟨hleaves, h.state.imp h₁.aborted
      (Or.imp h₁.state.trans (And.imp hslips h₁.state.trans))⟩
  rcases r with (exc | f) | x
  · exact hreach h
  · exact hleaves
  · rw [Ends, hstate]
    exact hreach h

end Machine

/-- That state and frames are left alone and nothing is raised. -/
def Judgement.calm : Judgement :=
  .ofEnds (fun m r m' => m.Undisturbed m' ∧ ∀ exc, r ≠ .error (.raise exc))
    (fun m _ => ⟨.refl m, nofun⟩) (fun m _ _ => ⟨.refl m, nofun⟩)
    (fun h h' => ⟨h.1.trans h'.1, h'.2⟩)
    fun h => ⟨h.1, fun exc he => h.2 exc (congrArg _ (Except.error.inj he))⟩

/-- That code which is entered on the terms keeps them. -/
def Judgement.truthful (t : Terms) : Judgement where
  At a m := m.Enters t → m.Ends t (a.ending m) (a.after m)
  look {_ _ m _} h _ := by
    rw [Effect.ending_of_ok h, Effect.after_of_ok h]
    exact (Machine.Undisturbed.refl m).reaches
  fail {_ _ m _} _ h _ := by
    rw [Effect.ending_of_error h, Effect.after_of_error h]
    exact (Machine.Undisturbed.refl m).reaches.toLeaves
  bind {_ _ a f m} ha hf hm := by
    have hfirst := ha hm
    cases h : a m with
    | ok x m₁ =>
      rw [Effect.ending_of_ok h, Effect.after_of_ok h] at hfirst
      rw [Effect.ending_bind_of_ok h, Effect.after_bind_of_ok h]
      exact Machine.Ends.precede hfirst (hf x m₁ h (Machine.Reaches.enters hfirst hm))
    | error u m₁ =>
      rw [Effect.ending_of_error h, Effect.after_of_error h] at hfirst
      rw [Effect.ending_bind_of_error h, Effect.after_bind_of_error h]
      cases u with
      | raise exc => exact hfirst
      | fatal f => exact hfirst

namespace Effect

open Judgement

variable {t : Terms} {a : Effect α} {f : α → Effect β} {m m' : Machine}

/-- Whether an effect leaves state and frames alone and raises nothing. -/
def Calm (a : Effect α) : Prop := Judgement.calm.Meets a

/-- Whether an effect that is entered on the terms keeps them. -/
def Truthful (t : Terms) (a : Effect α) : Prop := (Judgement.truthful t).Meets a

/-! ### Rules -/

theorem Calm.truthful (ha : Calm a) : Truthful t a := by
  intro m _
  obtain ⟨hsame, hraise⟩ := ha m
  rcases h : a.ending m with (exc | f) | x
  · exact absurd h (hraise exc)
  · exact hsame.reaches.toLeaves
  · exact hsame.reaches

/-- Something that is done however an effect ends. -/
theorem truthful_finally (ha : (Judgement.truthful t).At a m) {g : Machine → Machine}
    (hg : ∀ m : Machine, m.Undisturbed (g m)) :
    (Judgement.truthful t).At (do let r ← outcome a; update g; resume r) m := by
  intro hm
  have hend := (ha hm).follow (hg (a.after m)).reaches
  rw [ending, after, outcome_bind]
  generalize a.ending m = r at *
  rcases r with (exc | f) | x
  · exact hend
  · exact hend
  · exact hend

theorem calm_update {g : Machine → Machine} (hg : ∀ m : Machine, m.Undisturbed (g m)) :
    Calm (update g) :=
  fun m => ⟨hg m, nofun⟩

theorem calm_setSession (g : Machine → Session) :
    Calm (update fun m => { m with session := g m }) := calm_update fun _ => ⟨id, rfl, rfl⟩

theorem calm_pin (v : Value) : Calm (pin v) := fun _ => ⟨⟨id, rfl, rfl⟩, nofun⟩

theorem calm_heedless : Judgement.calm.Heedless := by
  intro α a m x heap events h hevents
  show m.Undisturbed (a.after m) ∧ ∀ exc, a.ending m ≠ .error (.raise exc)
  rw [after_of_ok h, ending_of_ok h]
  exact ⟨⟨fun ⟨f, hf⟩ => ⟨f, hevents _ hf⟩, rfl, rfl⟩, nofun⟩

theorem truthful_heedless : (Judgement.truthful t).Heedless := by
  intro α a m x heap events h hevents _
  rw [ending_of_ok h, after_of_ok h]
  have hsame : m.Undisturbed { m with heap := heap, events := events } :=
    ⟨fun ⟨f, hf⟩ => ⟨f, hevents _ hf⟩, rfl, rfl⟩
  exact hsame.reaches

theorem truthful_excuses : (Judgement.truthful t).Excuses := fun _ _ m _ =>
  (Machine.Undisturbed.refl m).reaches.toLeaves

def calmScope (m : Machine) : Judgement.calm.Scope m where
  inner := Judgement.calm
  pin := calm_pin
  close {_ a} ha := by
    obtain ⟨hsame, hraise⟩ := ha
    show m.Undisturbed ((withHandles a).after m) ∧ ∀ exc, (withHandles a).ending m ≠ _
    rw [after_withHandles, ending_withHandles]
    exact ⟨⟨hsame.aborted, hsame.frames, hsame.state⟩, hraise⟩

def truthfulScope (m : Machine) : (Judgement.truthful t).Scope m where
  inner := .truthful t
  pin v := (calm_pin v).truthful
  close ha := At.ask_bind (truthful_finally ha fun _ => ⟨id, rfl, rfl⟩)

theorem truthfulScope_open (m : Machine) :
    (truthfulScope m : (Judgement.truthful t).Scope m).Open :=
  ⟨truthful_heedless, truthful_excuses⟩

/-! ### Raising -/

theorem calm_captureTrace (exc : Value) : Calm (captureTrace exc) :=
  meets_captureTrace calmScope (fun _ => calm_heedless.makes) exc

theorem truthful_raises : (Judgement.truthful t).Raises where
  makes := truthful_heedless.makes
  captureTrace exc := (calm_captureTrace exc).truthful
  throwException _ m _ := ⟨⟨id, [], (register_nil m.frames).symm, nofun⟩, Or.inr (Or.inl rfl)⟩

/-! ### Frames -/

theorem ends_withInFlight (ha : Truthful t.inner a) (values : List Value) (m : Machine) :
    m.Ends t (a.ending (flying m values)) (landed m (a.after (flying m values))) := by
  have h := ha (flying m values) (Machine.enters_inner _)
  exact h.transport id ⟨h.leaves.aborted, h.leaves.frames⟩ rfl ⟨id, rfl, rfl⟩

/-- A fault stays, whatever follows; an exception that replaces an end leaves the state behind that
it was raised with. -/
theorem ends_replaceOutcome {m₀ : Machine} {raised : Unwind} {result : Except Unwind α}
    {k : Except Unwind α → Effect β}
    (hk : ∀ result m, m₀.Ends t result m → m₀.Ends t ((k result).ending m) ((k result).after m))
    (h : m₀.Ends t result m) (h' : m.Ends t (.error raised : Except Unwind Unit) m') :
    m₀.Ends t ((replaceOutcome raised result >>= k).ending m')
      ((replaceOutcome raised result >>= k).after m') := by
  have hleaves : m₀.Leaves t m' := h.leaves.trans h'.leaves
  have hreplaced : m₀.Ends t (.error raised : Except Unwind α) m' := by
    cases raised with
    | fatal f => exact hleaves
    | raise replacement => exact Machine.Reaches.after h.leaves h'
  rcases result with (earlier | f) | x
  · cases raised with
    | fatal f => exact hk _ m' hreplaced
    | raise replacement =>
      obtain ⟨hsame, hraise⟩ := calm_heedless.chainContext replacement earlier m'
      cases hchain : chainContext replacement earlier m' with
      | ok u m₁ =>
        have heq : replaceOutcome (.raise replacement) (.error (.raise earlier)) m' =
          .ok (.error (.raise replacement) : Except Unwind α) m₁ := bind_of_ok hchain
        rw [after_of_ok hchain] at hsame
        rw [ending_bind_of_ok heq, after_bind_of_ok heq]
        exact hk _ m₁ (hreplaced.follow hsame.reaches)
      | error u m₁ =>
        have heq : replaceOutcome (.raise replacement) (.error (.raise earlier)) m' =
          .error (α := Except Unwind α) u m₁ := bind_of_error hchain
        rw [after_of_error hchain] at hsame
        cases u with
        | raise exc => exact absurd (ending_of_error hchain) (hraise exc)
        | fatal f =>
          rw [ending_bind_of_error heq, after_bind_of_error heq]
          exact hleaves.trans hsame.reaches.toLeaves
  · exact hk _ m' hleaves
  · exact hk _ m' hreplaced

section Frames

variable {run : Program → Effect Value}

theorem truthful_runCleanup {c : Cleanup} (hc : Truthful t (run c.program)) :
    Truthful t (runCleanup run c) := by
  unfold runCleanup
  split
  · refine Meets.bind ?_ fun _ => meets_pure ()
    exact (calm_setSession _).truthful.bind fun _ m => truthful_finally (hc m) fun _ => ⟨id, rfl, rfl⟩
  · exact hc.bind fun _ => meets_pure ()

theorem ends_runCleanups [Rooted α] (hrun : ∀ p ∈ t.cleanups, Truthful t.inner (run p))
    {m₀ : Machine} : ∀ (cs : List Cleanup), (∀ c ∈ cs, c.program ∈ t.cleanups) →
      ∀ (result : Except Unwind α) (m : Machine), m₀.Ends t result m →
        m₀.Ends t ((runCleanups run cs result >>= fun r => resume r).ending m)
          ((runCleanups run cs result >>= fun r => resume r).after m)
  | [], _, result, m, h => by
    rcases result with (exc | f) | x
    · exact h
    · exact h
    · exact h
  | c :: rest, hcs, result, m, h => by
    have hrest : ∀ (result : Except Unwind α) m, m₀.Ends t result m → _ :=
      ends_runCleanups hrun rest fun c hc => hcs c (List.mem_cons_of_mem _ hc)
    have hcleanup := ends_withInFlight (truthful_runCleanup (hrun _ (hcs c List.mem_cons_self)))
      (outcomeRoots result ++ [c.resource]) m
    rw [runCleanups, bind_assoc, ending_bind_of_ok (withInFlight_eq _ _ m),
      after_bind_of_ok (withInFlight_eq _ _ m)]
    generalize (runCleanup run c).ending _ = ended at *
    cases ended with
    | ok u => exact hrest result _ (h.follow hcleanup)
    | error raised =>
      dsimp only
      rw [bind_assoc]
      exact ends_replaceOutcome hrest h hcleanup

theorem Truthful.callFrame [Rooted α] (hrun : ∀ p ∈ t.cleanups, Truthful t.inner (run p))
    {body : Effect α} (hbody : Truthful t body) (kind : FrameKind) (name : String)
    (receiver : Value) : Truthful t (callFrame run kind name receiver body) := by
  intro m hm
  have h := hbody (entered kind name receiver m) hm
  rw [ending, after, callFrame_eq]
  generalize body.ending (entered kind name receiver m) = result at *
  generalize body.after (entered kind name receiver m) = m₁ at *
  -- The frame of the body is on top again, with the cleanups that the body registered.
  obtain ⟨cs, hcs, hgood⟩ := h.leaves.frames
  have hleft : m.Ends t result { m₁ with frames := m.frames } :=
    h.transport id ⟨h.leaves.aborted, [], (register_nil _).symm,
      fun _ hc => absurd hc List.not_mem_nil⟩ rfl ⟨id, rfl, rfl⟩
  rw [leaveFrame_of_cons hcs]
  refine ends_runCleanups hrun _ (fun c hc => hgood c ?_) result _ hleft
  simpa using hc

theorem truthful_addCleanup {c : Cleanup} (hc : c.program ∈ t.cleanups) :
    Truthful t (addCleanup c) := by
  intro m _
  cases hframes : m.frames with
  | nil =>
    have hfault := addCleanup_of_nil hframes c
    rw [ending_of_error hfault, after_of_error hfault]
    exact (Machine.Undisturbed.refl m).reaches.toLeaves
  | cons f rest =>
    have hadd := addCleanup_of_cons hframes c
    rw [ending_of_ok hadd, after_of_ok hadd]
    refine ⟨⟨id, [c], ?_, fun c' hc' => ?_⟩, Or.inr (Or.inl rfl)⟩
    · rw [hframes]
      rfl
    · rwa [List.mem_singleton.mp hc']

theorem Truthful.ensure [Rooted α] (hrun : ∀ p ∈ t.cleanups, Truthful t.inner (run p))
    {body : Effect α} (hbody : Truthful t body) {cleanup : Program} (hc : cleanup ∈ t.cleanups) :
    Truthful t (ensure run body cleanup) :=
  Truthful.callFrame hrun ((truthful_addCleanup hc).bind fun _ => hbody) _ _ _

end Frames

/-! ### Catching -/

/-- Whoever catches an exception sets the state to `running`: the state the code was entered in, if
that is known, or a slip. -/
theorem reaches_running (hcatch : t.Catching) {m₀ : Machine} (hm₀ : m₀.Enters t)
    (h : m₀.Leaves t m) : m₀.Reaches t m₀.unwindState { m with unwindState := .running } := by
  refine ⟨⟨h.aborted, h.frames⟩, ?_⟩
  rcases hcatch with hslips | hentry
  · exact Or.inr (Or.inr ⟨hslips, rfl⟩)
  · exact hm₀.imp h.aborted fun hmem => Or.inl (hentry hmem).symm

theorem handle_eq (exc : Value) (handler : Value → Effect α) (m : Machine) :
    handle exc handler m = (do
        match (handler exc).ending (flying { m with unwindState := .handled } [exc]) with
        | .ok _ => update fun m => { m with unwindState := .running }
        | .error (.raise _) => update fun m => { m with unwindState := .unwinding }
        | .error (.fatal _) => pure ()
        resume ((handler exc).ending (flying { m with unwindState := .handled } [exc])))
      (landed { m with unwindState := .handled }
        ((handler exc).after (flying { m with unwindState := .handled } [exc]))) :=
  bind_of_ok (withInFlight_eq [exc] (handler exc) { m with unwindState := .handled })

theorem ends_handle (hcatch : t.Catching) {m₀ : Machine} (hm₀ : m₀.Enters t) (h : m₀.Leaves t m)
    {exc : Value} {handler : Value → Effect α} (hhandler : Truthful t.inner (handler exc)) :
    m₀.Ends t ((handle exc handler).ending m) ((handle exc handler).after m) := by
  have hset : m₀.Leaves t { m with unwindState := .handled } := ⟨h.aborted, h.frames⟩
  have hleaves := hset.trans (ends_withInFlight hhandler [exc] _).leaves
  rw [ending, after, handle_eq]
  generalize (handler exc).ending _ = r at *
  generalize landed _ _ = m' at *
  rcases r with (exc' | f) | x
  · exact ⟨⟨hleaves.aborted, hleaves.frames⟩, Or.inr (Or.inl rfl)⟩
  · exact hleaves
  · exact reaches_running hcatch hm₀ hleaves

theorem ends_concludeRescue (hcatch : t.Catching) {m₀ : Machine} (hm₀ : m₀.Enters t)
    {result : Except Unwind α} (h : m₀.Ends t result m) {handler : Value → Effect α}
    (hhandler : ∀ exc, Truthful t.inner (handler exc)) (classes : List Value) :
    m₀.Ends t ((concludeRescue classes handler result).ending m)
      ((concludeRescue classes handler result).after m) := by
  rcases result with (exc | f) | x
  · have hask : ask (·.exceptionMatches exc classes) m = .ok (m.exceptionMatches exc classes) m := rfl
    rw [concludeRescue, ending_bind_of_ok hask, after_bind_of_ok hask]
    cases m.exceptionMatches exc classes with
    | error f => exact h.leaves
    | ok accepted =>
      cases accepted with
      | true => exact ends_handle hcatch hm₀ h.leaves (hhandler exc)
      | false => exact h
  · exact h
  · exact h

theorem Truthful.rescue (hcatch : t.Catching) {body : Effect α} {handler : Value → Effect α}
    (hbody : Truthful t body) (hhandler : ∀ exc, Truthful t.inner (handler exc))
    (classes : List Value) : Truthful t (rescue classes body handler) := by
  intro m hm
  have h := hbody (guarded classes m) hm
  cases htargets : (body.after (guarded classes m)).targets with
  | nil =>
    have hask : ask (·.targets) (body.after (guarded classes m)) =
      .ok [] (body.after (guarded classes m)) := by rw [ask, htargets]
    have hend : Effect.rescue classes body handler m = _ := outcome_bind body _ (guarded classes m)
    have hfault := hend.trans (bind_of_ok hask)
    rw [ending, after, hfault]
    exact ⟨h.leaves.aborted, h.leaves.frames⟩
  | cons target rest =>
    rw [ending, after, rescue_eq classes body handler m htargets]
    have hback : m.Ends t (body.ending (guarded classes m))
        { body.after (guarded classes m) with targets := rest } :=
      h.transport id ⟨h.leaves.aborted, h.leaves.frames⟩ rfl ⟨id, rfl, rfl⟩
    exact ends_concludeRescue hcatch hm hback hhandler target.classes

theorem Truthful.execute {run : Program → Effect Value} (hcatch : t.Catching)
    (hrun : ∀ p ∈ t.cleanups, Truthful t.inner (run p)) {body : Effect Value}
    (hbody : Truthful t body) (name : String) : Truthful t (execute run name body) := by
  intro m hm
  have h := hbody.callFrame hrun .finish name .nil m hm
  rw [execute_eq, ending, after, outcome_bind]
  generalize (Effect.callFrame run .finish name .nil body).ending m = r at *
  generalize (Effect.callFrame run .finish name .nil body).after m = m₁ at *
  rcases r with (exc | f) | v
  · exact reaches_running hcatch hm
      (h.leaves.trans (calm_heedless.record (.unhandled _ _ _) m₁).1.reaches.toLeaves)
  · exact ⟨h.leaves.trans (calm_heedless.record (.aborted f) m₁).1.reaches.toLeaves,
      Or.inl ⟨f, Array.mem_push_self⟩⟩
  · exact h

/-- An exception raised by a comparison is dropped. -/
theorem Truthful.swallow (hcatch : t.Catching) {a : Effect Value} (ha : Truthful t a)
    (context : String) : Truthful t (do
      match ← outcome a with
      | .ok v => return v.isTruthy
      | .error (.raise exc) => do
        discardException exc context
        return false
      | .error (.fatal f) => fault f) := by
  intro m hm
  have h := ha m hm
  rw [ending, after, outcome_bind]
  generalize a.ending m = r at *
  generalize a.after m = m₁ at *
  rcases r with (exc | f) | v
  · exact reaches_running hcatch hm
      (h.leaves.trans (calm_heedless.record (.discarded _ _ _) m₁).1.reaches.toLeaves)
  · exact h
  · exact h

end Effect

end ObjectMachine
