import Mathlib.Tactic
import ObjectMachine.Proofs.Frames.Guarding

/-! What comes out of a frame has survived its cleanups.

The result of a body is a value or a nest of options, lists and pairs of values.  While the cleanups
run it is held by the values in flight alone, and any of them may collect or replace it.  What comes
out in the end is the body's own result, each value of it the object it was, or an exception that is
live with all its contexts. -/

namespace ObjectMachine

open Effect
open Relation (ReflTransGen)

/-- The shapes of the results of frames. -/
inductive Shape where
  | value
  | nothing
  | option (item : Shape)
  | list (item : Shape)
  | pair (first second : Shape)

namespace Shape

/-- The results of a shape. -/
def Result : Shape → Type
  | .value => Value
  | .nothing => Unit
  | .option item => Option item.Result
  | .list item => List item.Result
  | .pair first second => first.Result × second.Result

instance rooted : (s : Shape) → Rooted s.Result
  | .value => inferInstanceAs (Rooted Value)
  | .nothing => inferInstanceAs (Rooted Unit)
  | .option item =>
    have := item.rooted
    inferInstanceAs (Rooted (Option item.Result))
  | .list item =>
    have := item.rooted
    inferInstanceAs (Rooted (List item.Result))
  | .pair first second =>
    have := first.rooted
    have := second.rooted
    inferInstanceAs (Rooted (first.Result × second.Result))

/-- Whether a value is somewhere in a result. -/
def Holds : (s : Shape) → s.Result → Value → Prop
  | .value => fun (x : Value) v => x = v
  | .nothing => fun _ _ => False
  | .option item => fun (x : Option item.Result) v => ∃ y ∈ x, item.Holds y v
  | .list item => fun (x : List item.Result) v => ∃ y ∈ x, item.Holds y v
  | .pair first second => fun (x : first.Result × second.Result) v =>
    first.Holds x.1 v ∨ second.Holds x.2 v

/-- The values kept alive are those in the result. -/
theorem mem_roots_iff : ∀ (s : Shape) (x : s.Result) (v : Value), v ∈ Rooted.roots x ↔ s.Holds x v
  | .value, x, v => List.mem_singleton.trans eq_comm
  | .nothing, x, v => List.mem_nil_iff v
  | .option item, none, v => by
    refine iff_of_false List.not_mem_nil ?_
    rintro ⟨y, hy, -⟩
    cases hy
  | .option item, some y, v => by
    refine (mem_roots_iff item y v).trans ⟨fun h => ⟨y, rfl, h⟩, ?_⟩
    rintro ⟨z, hz, h⟩
    rwa [Option.some.inj hz]
  | .list item, x, v =>
    List.mem_flatMap.trans (exists_congr fun y => and_congr_right fun _ => mem_roots_iff item y v)
  | .pair first second, x, v =>
    List.mem_append.trans (or_congr (mem_roots_iff first x.1 v) (mem_roots_iff second x.2 v))

end Shape

/-- For every body that ends on a linked heap, in a result of any shape whose values are live or in a live
exception, and whatever its cleanups do as long as each loses no root and raises live exceptions only:
if the frame returns, it returns the result of the body, in which every value is live and the object it
was; if it raises, the exception is live, and so are all its contexts. -/
theorem results_survive_cleanups (run : Program → Effect Value) (s : Shape) (kind : FrameKind)
    (name : String) (receiver : Value) (body : Effect s.Result) (m : Machine) :
    let entry := entered kind name receiver m
    let inner := body.after entry
    let left := (callFrame run kind name receiver body).after m
    inner.heap.Linked →
    (∀ x, body.ending entry = .ok x → ∀ v, s.Holds x v → inner.heap.Resolves v) →
    (∀ exc, body.ending entry = .error (.raise exc) → inner.heap.IsException exc) →
    (∀ f rest, inner.frames = f :: rest → ∀ c ∈ f.cleanups, (run c.program).Shelters false) →
    left.HasRoom →
    (∀ x, (callFrame run kind name receiver body).ending m = .ok x → body.ending entry = .ok x ∧
      ∀ v, s.Holds x v → left.heap.Resolves v ∧ inner.heap.Retains left.heap v) ∧
    ∀ exc, (callFrame run kind name receiver body).ending m = .error (.raise exc) →
      left.heap.IsException exc ∧
      ∀ c, ReflTransGen left.heap.Context exc c → c.isNil = true ∨ left.heap.IsException c := by
  intro entry inner left hlinked hlive hraised hcleanups hroom
  cases hframes : inner.frames with
  | nil =>
    -- a body that took its own frame off ends in a fault
    have hask : ask (·.frames) inner = .ok [] inner := by rw [ask, hframes]
    have hfault : callFrame run kind name receiver body m = _ :=
      (callFrame_eq kind name receiver body m).trans (bind_of_ok hask)
    rw [ending_congr hfault]
    constructor
    · intro x hx
      cases hx
    · intro exc he
      cases he
  | cons f rest =>
    have heq : callFrame run kind name receiver body m = _ :=
      callFrame_eq_settle kind name receiver hframes
    have hafter : left = (settle run f.cleanups (body.ending entry)).after { inner with frames := rest } :=
      after_congr heq
    have hleft : Machine.Shelters { inner with frames := rest } (body.ending entry)
        { inner with frames := rest } := .of_heap_eq rfl (.refl _) fun _ => hraised
    obtain ⟨hends, -, hthrough⟩ := shelters_settle f.cleanups _ _ (hcleanups f rest hframes) hleft
    rw [← hafter] at hends hthrough
    rw [ending_congr heq]
    refine ⟨fun x hx => ?_, fun exc he => ?_⟩
    · obtain ⟨hresult, hretains⟩ := hthrough hlinked hroom x hx
      refine ⟨hresult, fun v hv => ?_⟩
      have hkept := hretains v ((s.mem_roots_iff x v).mpr hv)
      exact ⟨hkept.resolves (hlive x hresult v hv), hkept⟩
    · have hexc := hends.raises hlinked hroom exc he
      exact ⟨hexc, fun c hpath => (hends.guards hlinked hroom).linked.chain_live hexc hpath⟩

/-- Cleanups that collect, or raise an error of their own. -/
def Effect.upkeep : Program → Effect Value
  | .self => do
    collectGarbage
    return .nil
  | _ => raiseError .ioError "second"

theorem Effect.shelters_upkeep (p : Program) : (upkeep p).Shelters false := by
  unfold upkeep
  split
  · exact shelters_collectGarbage.bind fun _ => Judgement.meets_pure _
  · exact shelters_raiseError _ _

theorem Heap.linked_fresh (settings : HeapSettings) : Linked { settings := settings } where
  sound := sound_fresh settings
  unmarked := (Machine.intact_fresh settings).unmarked
  context _ _ hc := absurd hc (not_context_fresh settings)

/-- A text that only the result holds survives a collection, and an exception on its way survives as the
context of another one. -/
theorem results_survive_cleanups_collecting :
    let m : Machine := { heap := { settings := {} } }
    let kept : Effect (Value × Option Value) := do
      addCleanup ⟨.nil, .self, false⟩
      let text ← newText "kept"
      return (text, some text)
    let failing : Effect Value := do
      addCleanup ⟨.nil, .resource, false⟩
      raiseError .keyError "first"
    (∃ v, (callFrame upkeep .native "f" .nil kept).ending m = .ok (v, some v) ∧
      ((callFrame upkeep .native "f" .nil kept).after m).heap.Resolves v) ∧
    ∃ exc c, (callFrame upkeep .native "f" .nil failing).ending m = .error (.raise exc) ∧
      ((callFrame upkeep .native "f" .nil failing).after m).heap.Context exc c ∧
      ((callFrame upkeep .native "f" .nil failing).after m).heap.IsException c := by
  intro m kept failing
  have hlinked : m.heap.Linked := Heap.linked_fresh {}
  have hkept : kept.Shelters false :=
    (earns_addCleanup _).bind fun _ => (sheltering_makes.newText _).bind fun _ => Judgement.meets_pure _
  have hfailing : failing.Shelters false := (earns_addCleanup _).bind fun _ => shelters_raiseError _ _
  have hroom : (kept.after (entered .native "f" .nil m)).HasRoom ∧
      ((callFrame upkeep .native "f" .nil kept).after m).HasRoom ∧
      (failing.after (entered .native "f" .nil m)).HasRoom ∧
      ((callFrame upkeep .native "f" .nil failing).after m).HasRoom := by
    unfold Machine.HasRoom
    decide +kernel
  constructor
  · have hreturns : kept.ending (entered .native "f" .nil m) =
      .ok (.ofSlot 0 0, some (.ofSlot 0 0)) := by decide +kernel
    have hlive : ∀ x, kept.ending (entered .native "f" .nil m) = .ok x → ∀ v,
        Shape.Holds (.pair .value (.option .value)) x v →
          (kept.after (entered .native "f" .nil m)).heap.Resolves v := by
      intro x hx v hv
      obtain rfl := Except.ok.inj (hreturns.symm.trans hx)
      obtain rfl : Value.ofSlot 0 0 = v := by
        rcases hv with hv | ⟨y, hy, hv⟩
        · exact hv
        · exact (Option.some.inj hy).trans hv
      exact fun _ => by decide +kernel
    have hend : (callFrame upkeep .native "f" .nil kept).ending m =
      .ok (.ofSlot 0 0, some (.ofSlot 0 0)) := by decide +kernel
    have hsurvive := results_survive_cleanups upkeep (.pair .value (.option .value)) .native "f" .nil kept m
      ((hkept.shelters (entered .native "f" .nil m)).guards hlinked hroom.1).linked hlive
      ((hkept.shelters (entered .native "f" .nil m)).raises hlinked hroom.1)
      (fun _ _ _ c _ => shelters_upkeep c.program) hroom.2.1
    exact ⟨_, hend, ((hsurvive.1 _ hend).2 _ (Or.inl rfl)).1⟩
  · have hraises : failing.ending (entered .native "f" .nil m) = .error (.raise (.ofSlot 1 0)) := by
      decide +kernel
    have hlive : ∀ x, failing.ending (entered .native "f" .nil m) = .ok x → ∀ v,
        Shape.Holds .value x v → (failing.after (entered .native "f" .nil m)).heap.Resolves v := by
      intro x hx
      rw [hraises] at hx
      cases hx
    have hend : (callFrame upkeep .native "f" .nil failing).ending m = .error (.raise (.ofSlot 5 0)) := by
      decide +kernel
    have hsurvive := results_survive_cleanups upkeep .value .native "f" .nil failing m
      ((hfailing.shelters (entered .native "f" .nil m)).guards hlinked hroom.2.2.1).linked hlive
      ((hfailing.shelters (entered .native "f" .nil m)).raises hlinked hroom.2.2.1)
      (fun _ _ _ c _ => shelters_upkeep c.program) hroom.2.2.2
    have hcontext : (((callFrame upkeep .native "f" .nil failing).after m).heap.get? (.ofSlot 5 0)).bind
        (·.body.context?) = some (.ofSlot 1 0) := by decide +kernel
    have hstep := Option.bind_eq_some_iff.mp hcontext
    refine ⟨_, _, hend, hstep, ?_⟩
    exact ((hsurvive.2 _ hend).2 _ (.single hstep)).resolve_left (by decide)

/-- A machine with an exception that has a context, and on which the collector's mark is set. -/
def Machine.premarked : Machine where
  heap := (Machine.raisingTwo.heap.chain (.ofSlot 0 0) (.ofSlot 1 0)).modifyObject (.ofSlot 0 0)
    fun o => { o with flags := o.flags.change .add .marked }

theorem Machine.context_premarked : Machine.premarked.heap.Context =
    (Machine.raisingTwo.heap.chain (.ofSlot 0 0) (.ofSlot 1 0)).Context := by
  funext v c
  unfold Heap.Context premarked
  by_cases hv : v = .ofSlot 0 0
  · subst hv
    rw [Heap.get?_modifyObject_self]
    refine propext ⟨?_, ?_⟩
    · rintro ⟨o, ho, hc⟩
      obtain ⟨p, hp, rfl⟩ := Option.map_eq_some_iff.mp ho
      exact ⟨p, hp, hc⟩
    · rintro ⟨o, ho, hc⟩
      exact ⟨_, Option.map_eq_some_iff.mpr ⟨o, ho, rfl⟩, hc⟩
  · rw [Heap.get?_modifyObject_of_ne _ hv]

/-- The collector does not look at what a marked object holds, so a collection in a cleanup frees the
context of the exception on its way. -/
theorem marked_exception_loses_context :
    let m := Machine.premarked
    let body : Effect Value := do
      addCleanup ⟨.nil, .self, false⟩
      raiseValue (.ofSlot 0 0)
    let inner := body.after (entered .native "f" .nil m)
    let left := (callFrame upkeep .native "f" .nil body).after m
    body.ending (entered .native "f" .nil m) = .error (.raise (.ofSlot 0 0)) ∧
    (∀ c, ReflTransGen inner.heap.Context (.ofSlot 0 0) c → c.isNil = true ∨ inner.heap.IsException c) ∧
    (∀ f rest, inner.frames = f :: rest → ∀ c ∈ f.cleanups, (upkeep c.program).Shelters false) ∧
    (callFrame upkeep .native "f" .nil body).ending m = .error (.raise (.ofSlot 0 0)) ∧
    left.heap.Context (.ofSlot 0 0) (.ofSlot 1 0) ∧ left.heap.isLive (.ofSlot 1 0) = false := by
  intro m body inner left
  have hlinked : (Machine.raisingTwo.heap.chain (.ofSlot 0 0) (.ofSlot 1 0)).Linked := by
    have hfirst : Machine.raising.heap.Linked := (Heap.linked_fresh {}).insert _ fun e he => by
      obtain rfl := Body.exception.inj he
      rfl
    have hsecond : Machine.raisingTwo.heap.Linked := hfirst.insert _ fun e he => by
      obtain rfl := Body.exception.inj he
      rfl
    have hcontext : (Machine.raisingTwo.heap.get? (.ofSlot 1 0)).bind (·.body.context?) = some .nil := by
      decide +kernel
    exact hsecond.chain ⟨_, Option.bind_eq_some_iff.mp hcontext⟩ _
  have hexc : ((Machine.raisingTwo.heap.chain (.ofSlot 0 0) (.ofSlot 1 0)).get? (.ofSlot 0 0)).bind
      (·.body.context?) = some (.ofSlot 1 0) := by decide +kernel
  have hchain : ∀ c, ReflTransGen m.heap.Context (.ofSlot 0 0) c → c.isNil = true ∨ m.heap.IsException c := by
    unfold Heap.IsException
    rw [Machine.context_premarked]
    exact fun c hpath => hlinked.chain_live ⟨_, Option.bind_eq_some_iff.mp hexc⟩ hpath
  have hlost : (left.heap.get? (.ofSlot 0 0)).bind (·.body.context?) = some (.ofSlot 1 0) := by
    decide +kernel
  exact ⟨by decide +kernel, hchain, fun _ _ _ c _ => shelters_upkeep c.program,
    by decide +kernel, Option.bind_eq_some_iff.mp hlost, by decide +kernel⟩

end ObjectMachine
