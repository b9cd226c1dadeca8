import Mathlib.Tactic
import ObjectMachine.Proofs.Machine.Raising

/-! What is raised is complete.

An exception takes several allocations, for its message, itself, its trace and the lines of the trace,
and each of them may collect.  On a machine in order nothing of it is lost, whoever else holds it: what
is raised is live, with its class, its message and the trace of its first raise.  No raise writes to a
trace that is there already. -/

namespace ObjectMachine

/-- A live exception of a class, whose message is a live text.  The class is live too, unless it is no
reference. -/
structure Machine.Complete (m : Machine) (cls : Value) (message : String) (exc : Value) : Prop where
  object : ∃ o e, m.heap.get? exc = some o ∧ o.cls = cls ∧ o.body = .exception e ∧
    m.heap.read Facet.text e.message = .ok message
  resolves : m.heap.Resolves cls

/-- An effect that raises a complete exception and leaves a machine in order.  The traces that can be
reached are what they were. -/
structure Effect.Delivers (a : Effect α) (m : Machine) (cls : Value) (message : String) (exc : Value)
    (m' : Machine) : Prop where
  raises : a m = .error (.raise exc) m'
  intact : m'.Intact
  complete : m'.Complete cls message exc
  lasting : ∀ v lines, m.Anchored v → m.HasTrace v lines → m'.HasTrace v lines

namespace Machine

variable {m m' : Machine} {cls exc : Value} {message : String}

theorem Intact.setUnwindState (hm : m.Intact) (state : UnwindState) :
    Intact { m with unwindState := state } :=
  ⟨hm.sound, hm.unmarked, hm.tables, ⟨hm.closed.roots, hm.closed.edges⟩⟩

theorem IsError.complete {kind : ErrorKind} (hm : m.Intact) (h : m.IsError kind message exc) :
    m.Complete (m.classValue (.error kind)) message exc := by
  obtain ⟨o, e, ho, hcls, hbody, hmessage⟩ := h
  exact ⟨⟨o, e, ho, hcls, hbody, hmessage⟩, (hm.anchored_classValue _).resolves⟩

/-- Taking the trace leaves an exception complete; its class is live because the machine is closed. -/
theorem Complete.traced (h : m.Complete cls message exc) (hm' : m'.Intact) (ht : Effect.Traced m exc m') :
    m'.Complete cls message exc := by
  obtain ⟨⟨o, e, ho, hcls, hbody, hmessage⟩, -⟩ := h
  obtain ⟨o', ho', hcls', -, hkept⟩ := ht.object o ho
  obtain ⟨e', hbody', he'⟩ := hkept e hbody
  have hread : m.heap.read Facet.exception exc = .ok e :=
    Heap.read_eq_ok_iff.mpr ⟨o, ho, by rw [hbody]; rfl⟩
  have hclass : o'.cls = cls := hcls'.trans hcls
  refine ⟨⟨o', e', ho', hclass, hbody', ?_⟩, ?_⟩
  · rw [he']
    exact ht.text e message hread hmessage
  · exact hclass ▸ hm'.closed.edges exc o' ho' _ List.mem_cons_self

/-- The lines of the trace are what the program reads from it. -/
theorem HasTrace.stackTrace_eq {lines : List String} (h : m.HasTrace exc lines) :
    m.stackTrace exc = lines := by
  obtain ⟨e, he, items, hitems, hlines⟩ := h
  have hread : m.stackTrace exc = items.toList.filterMap (m.heap.read? Facet.text) := by
    rw [stackTrace, Heap.read?_eq_some_iff.mpr he, Option.bind_some, Heap.read?_eq_some_iff.mpr hitems]
  rw [hread]
  generalize items.toList = values at hlines
  induction hlines with
  | nil => rfl
  | cons hline _ ih => rw [List.filterMap_cons_some (Heap.read?_eq_some_iff.mpr hline), ih]

end Machine

namespace Effect

open Machine

variable {α : Type} {m : Machine} {cls exc : Value} {message : String} {e : ExceptionBody}

/-- An exception that has been raised before is only sent on its way. -/
theorem raiseValue_again (he : m.heap.read Facet.exception exc = .ok e)
    (htrace : e.stackTrace.isNil = false) :
    (raiseValue exc : Effect α) m = .error (.raise exc) { m with unwindState := .unwinding } := by
  rw [raiseValue_of_exception he]
  simp only [htrace, Bool.false_eq_true, if_false]
  rfl

/-- An exception gets its trace when it is first raised. -/
theorem raiseValue_first (he : m.heap.read Facet.exception exc = .ok e)
    (htrace : e.stackTrace.isNil = true) :
    (raiseValue exc : Effect α) m = (captureTrace exc >>= fun _ => throwException exc) m := by
  rw [raiseValue_of_exception he]
  simp only [htrace, if_true]

theorem raiseValue_other {v : Value} (hv : ∀ e, m.heap.read Facet.exception v ≠ .ok e) :
    (raiseValue v : Effect α) m = (raiseError .typeError
      s!"exceptions must derive from Exception, not {m.typeName v}" : Effect α) m := by
  cases hread : m.heap.read Facet.exception v with
  | ok e => exact absurd hread (hv e)
  | error u => exact raiseValue_of_other hread

theorem delivers_raiseError (hm : m.Intact) (kind : ErrorKind) (message : String)
    (hroom : ((raiseError kind message : Effect α).after m).HasRoom) :
    ∃ exc m', Delivers (raiseError kind message : Effect α) m (m.classValue (.error kind)) message exc m' ∧
      m'.HasTrace exc m.frameNames := by
  obtain ⟨exc, m', hraise, hk, herror, htrace⟩ := exists_raised_traced (α := α) hm kind message hroom
  refine ⟨exc, m', ⟨hraise, hk.intact, ?_, ?_⟩, htrace⟩
  · rw [← hk.carries.classValue_eq]
    exact herror.complete hk.intact
  · -- nothing that was there before is written
    intro v lines hv htrace
    exact htrace.kept hm hk hv fun _ hin => hin.elim

/-- What is raised again stays as it is, what is raised for the first time gets a trace. -/
theorem delivers_raiseValue (hm : m.Intact) (h : m.Complete cls message exc)
    (he : m.heap.read Facet.exception exc = .ok e)
    (hroom : ((raiseValue exc : Effect α).after m).HasRoom) :
    ∃ m', Delivers (raiseValue exc : Effect α) m cls message exc m' ∧
      if e.stackTrace.isNil then m'.HasTrace exc m.frameNames else m'.heap = m.heap := by
  cases htrace : e.stackTrace.isNil with
  | false =>
    exact ⟨_, ⟨raiseValue_again he htrace, hm.setUnwindState _, ⟨h.object, h.resolves⟩,
      fun _ _ _ h => h⟩, rfl⟩
  | true =>
    have hnone : e.stackTrace.isRef = false := by
      rw [(beq_iff_eq.mp htrace : e.stackTrace = .nil)]
      rfl
    have heq := raiseValue_first (α := α) he htrace
    have hroom' : ((captureTrace exc).after m).HasRoom := by
      rwa [after_congr heq, HasRoom, heap_after_throwing] at hroom
    obtain ⟨m', hcapture, hk, htraced, hlines⟩ := exists_captureTrace hm he hnone hroom'
    have hkept : ∀ v lines, m.Anchored v → m.HasTrace v lines → m'.HasTrace v lines := by
      intro v lines hv hlines
      have hwritten : ∀ w ∈ ({exc} : Set Value),
          ∃ e, m.heap.read Facet.exception w = .ok e ∧ e.stackTrace.isRef = false := by
        rintro w rfl
        exact ⟨e, he, hnone⟩
      exact hlines.kept hm hk hv hwritten
    have hcomplete : m'.Complete cls message exc := h.traced hk.intact htraced
    exact ⟨_, ⟨heq.trans ((bind_of_ok hcapture).trans rfl), hk.intact.setUnwindState _,
      ⟨hcomplete.object, hcomplete.resolves⟩, hkept⟩, hlines⟩

/-- On every machine in order, whatever its settings, its frames and what else holds the exception: a
new exception of a class that is held has that class and its message; a built-in error is raised with
its class, its message and the names of the open frames, the innermost first; an exception that is
raised keeps its class and its message and gets the names of the open frames when it has no trace, and
otherwise nothing is written at all; any other value raises a type error.  All of it is live, and no
raise changes a trace that can be reached. -/
theorem raised_exceptions_complete (α : Type) (m : Machine) (hm : m.Intact) :
    (∀ cls message, m.Anchored cls → ((newException cls message).after m).HasRoom →
      ∃ exc m', newException cls message m = .ok exc m' ∧ m'.Intact ∧ m'.Complete cls message exc ∧
        ∃ e, m'.heap.read Facet.exception exc = .ok e ∧ e.stackTrace.isNil = true) ∧
    (∀ kind message, ((raiseError kind message : Effect α).after m).HasRoom →
      ∃ exc m', Delivers (raiseError kind message : Effect α) m (m.classValue (.error kind)) message exc m' ∧
        m'.HasTrace exc m.frameNames) ∧
    (∀ exc cls message e, m.Complete cls message exc → m.heap.read Facet.exception exc = .ok e →
      ((raiseValue exc : Effect α).after m).HasRoom →
      ∃ m', Delivers (raiseValue exc : Effect α) m cls message exc m' ∧
        if e.stackTrace.isNil then m'.HasTrace exc m.frameNames else m'.heap = m.heap) ∧
    ∀ v, (∀ e, m.heap.read Facet.exception v ≠ .ok e) → ((raiseValue v : Effect α).after m).HasRoom →
      ∃ exc m', Delivers (raiseValue v : Effect α) m (m.classValue (.error .typeError))
        s!"exceptions must derive from Exception, not {m.typeName v}" exc m' ∧
        m'.HasTrace exc m.frameNames := by
  refine ⟨?_, ?_, ?_, ?_⟩
  · intro cls message hcls hroom
    obtain ⟨exc, m', hnew, hk, o, text, ho, hocls, hbody, htext⟩ :=
      exists_newException_made hm hcls message hroom
    have hread : m'.heap.read Facet.exception exc = .ok { message := text } :=
      Heap.read_eq_ok_iff.mpr ⟨o, ho, by rw [hbody]; rfl⟩
    exact ⟨exc, m', hnew, hk.intact, ⟨⟨o, _, ho, hocls, hbody, htext⟩, (hk.anchored hcls).resolves⟩,
      _, hread, rfl⟩
  · intro kind message hroom
    exact delivers_raiseError hm kind message hroom
  · intro exc cls message e h he hroom
    exact delivers_raiseValue hm h he hroom
  · intro v hv hroom
    have heq := raiseValue_other (α := α) hv
    rw [after_congr heq] at hroom
    obtain ⟨exc, m', hdelivered, htrace⟩ := delivers_raiseError hm .typeError _ hroom
    exact ⟨exc, m', ⟨heq.trans hdelivered.raises, hdelivered.intact, hdelivered.complete,
      hdelivered.lasting⟩, htrace⟩

end Effect

/-- A machine that collects at every allocation, in two calls, with a class and an exception of it that
nothing holds. -/
def Machine.cornered : Machine where
  heap := ((({ settings := { stress := true } } : Heap).insert .nil (.cls {})).insert .nil
    (.text "bad")).insert (.ofSlot 0 0) (.exception { message := .ofSlot 1 0 })
  frames := [⟨.native, "inner", .nil, []⟩, ⟨.native, "outer", .nil, []⟩]

/-- The machine with the collector's mark on the exception. -/
def Machine.corneredMarked : Machine :=
  { Machine.cornered with heap := Machine.cornered.heap.modifyObject (.ofSlot 2 0) fun o =>
    { o with flags := o.flags.change .add .marked } }

namespace Machine

theorem intact_cornered : cornered.Intact := by
  have himmediate : ∀ {h : Heap} {v : Value}, v.isRef = false → h.Resolves v := Heap.resolves_of_not_isRef
  have hcls : ∀ {m : Machine}, m.Admits .nil (.cls {}) := by
    refine ⟨himmediate rfl, fun v hv => himmediate ?_, fun t ht => by cases ht⟩
    have hedges : ∀ v ∈ (Body.cls {}).edges, v.isRef = false := by decide
    exact hedges v hv
  have htext : ∀ {m : Machine}, m.Admits .nil (.text "bad") :=
    ⟨himmediate rfl, by simp [Body.edges], fun t ht => by cases ht⟩
  have h₁ : Keeps ∅ ∅ ∅ _ _ := (intact_fresh { stress := true }).store hcls (by decide)
  have h₂ : Keeps ∅ ∅ ∅ _ _ := h₁.intact.store htext (by decide)
  have h₃ : Keeps ∅ ∅ ∅ _ { heap := cornered.heap } :=
    h₂.intact.store (Effect.admits_exception (fun _ => by decide) fun _ => by decide) (by decide)
  have hroots : ∀ v ∈ cornered.roots, v.isRef = false := by decide +kernel
  exact ⟨h₃.intact.sound, h₃.intact.unmarked, h₃.intact.tables,
    ⟨fun v hv => himmediate (hroots v hv), h₃.intact.closed.edges⟩⟩

theorem complete_cornered : cornered.Complete (.ofSlot 0 0) "bad" (.ofSlot 2 0) :=
  ⟨⟨_, _, rfl, rfl, rfl, rfl⟩, fun _ => by decide +kernel⟩

/-- The mark is no reference. -/
theorem closed_corneredMarked : corneredMarked.Closed := by
  have hclosed := intact_cornered.closed
  have hlive : ∀ {v}, cornered.heap.Resolves v → corneredMarked.heap.Resolves v := fun hv hr =>
    (Heap.isLive_modifyObject _ _ _ _).trans (hv hr)
  refine ⟨fun v hv => hlive (hclosed.roots v hv), fun u o ho v hv => hlive ?_⟩
  by_cases hu : u = .ofSlot 2 0
  · subst hu
    obtain ⟨p, hp, rfl⟩ := Option.map_eq_some_iff.mp ((Heap.get?_modifyObject_self _ _ _).symm.trans ho)
    exact hclosed.edges _ p hp v hv
  · exact hclosed.edges u o ((Heap.get?_modifyObject_of_ne _ hu _).symm.trans ho) v hv

end Machine

namespace Effect

open Machine

/-- A new error, and the exception that nothing holds. -/
theorem raised_exceptions_complete_cornered : cornered.Intact ∧
    (∃ exc m', Delivers (raiseError .valueError "worse" : Effect Value) cornered
      (cornered.classValue (.error .valueError)) "worse" exc m' ∧ m'.stackTrace exc = ["inner", "outer"]) ∧
    ∃ m', Delivers (raiseValue (.ofSlot 2 0) : Effect Value) cornered (.ofSlot 0 0) "bad" (.ofSlot 2 0) m' ∧
      m'.stackTrace (.ofSlot 2 0) = ["inner", "outer"] := by
  have h := raised_exceptions_complete Value cornered intact_cornered
  have hroom : ((raiseError .valueError "worse" : Effect Value).after cornered).HasRoom ∧
      ((raiseValue (.ofSlot 2 0) : Effect Value).after cornered).HasRoom := by
    unfold HasRoom
    decide +kernel
  obtain ⟨exc, m', hdelivered, htrace⟩ := h.2.1 .valueError "worse" hroom.1
  obtain ⟨m'', hdelivered', htrace'⟩ := h.2.2.1 _ _ _ _ complete_cornered rfl hroom.2
  exact ⟨intact_cornered, ⟨exc, m', hdelivered, htrace.stackTrace_eq⟩,
    m'', hdelivered', htrace'.stackTrace_eq⟩

/-- Two ways to lose a part: a class that nothing holds is freed when the message is made, and the
collector does not look at what a marked exception holds. -/
theorem raising_frees_unheld_class_and_marked_message :
    let made := newException (.ofSlot 0 0) "worse"
    let raised : Effect Value := raiseValue (.ofSlot 2 0)
    (cornered.Closed ∧ cornered.heap.isLive (.ofSlot 0 0) = true ∧
      made.ending cornered = .ok (.ofSlot 1 1) ∧
      ((made.after cornered).heap.get? (.ofSlot 1 1)).map (·.cls) = some (.ofSlot 0 0) ∧
      (made.after cornered).heap.isLive (.ofSlot 0 0) = false) ∧
    corneredMarked.Closed ∧ corneredMarked.Complete (.ofSlot 0 0) "bad" (.ofSlot 2 0) ∧
      raised.ending corneredMarked = .error (.raise (.ofSlot 2 0)) ∧
      ((raised.after corneredMarked).heap.read? Facet.exception (.ofSlot 2 0)).map (·.message) =
        some (.ofSlot 1 0) ∧
      (raised.after corneredMarked).heap.isLive (.ofSlot 1 0) = false := by
  intro made raised
  refine ⟨⟨intact_cornered.closed, ?_, ?_, ?_, ?_⟩, closed_corneredMarked,
    ⟨⟨_, _, rfl, rfl, rfl, rfl⟩, fun _ => ?_⟩, ?_, ?_, ?_⟩
  all_goals decide +kernel

end Effect

end ObjectMachine
