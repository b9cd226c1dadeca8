import Mathlib.Tactic
import ObjectMachine.Proofs.Frames.Unwinding
import ObjectMachine.Program.Evaluate
import ObjectMachine.Proofs.Machine.Secure

/-! The resources of cleanups.

A frame holds the resources of its cleanups until it is left.  From then on a resource is held while
its own cleanup runs, and by whatever else refers to it.  So the cleanup that runs first always finds
its resource; the others do if theirs is held elsewhere, and may find a stale reference otherwise. -/

namespace ObjectMachine

open Machine Effect

/-- An effect that keeps a machine closed and its roots alive.  Frames, open rescues and values in
flight are as before, but for cleanups registered on the innermost frame. -/
structure Effect.Tidy (a : Effect α) : Prop where
  secure : ∀ m, Secure Set.univ ∅ Set.univ False True a m fun _ _ => True
  frames : ∀ m, ∃ cs, (a.after m).frames = register cs m.frames
  targets : ∀ m, (a.after m).targets = m.targets
  inFlight : ∀ m, (a.after m).inFlight = m.inFlight

/-- Every root is still one, and a live one is the object it was. -/
def Machine.Holds (m m' : Machine) : Prop :=
  ∀ v ∈ m.roots, v ∈ m'.roots ∧ ∀ o, m.heap.get? v = some o →
    ∃ o', m'.heap.get? v = some o' ∧ o'.serial = o.serial ∧ o'.cls = o.cls

namespace Machine

variable {m m' m'' : Machine}

theorem Holds.trans (h : m.Holds m') (h' : m'.Holds m'') : m.Holds m'' := by
  intro v hv
  obtain ⟨hv', hobject⟩ := h v hv
  obtain ⟨hv'', hobject'⟩ := h' v hv'
  refine ⟨hv'', fun o ho => ?_⟩
  obtain ⟨o', ho', hserial, hcls⟩ := hobject o ho
  obtain ⟨o'', ho'', hserial', hcls'⟩ := hobject' o' ho'
  exact ⟨o'', ho'', hserial'.trans hserial, hcls'.trans hcls⟩

theorem Keeps.holds {avoided lost written : Set Value} (h : Keeps avoided lost written m m') :
    m.Holds m' := by
  intro v hv
  refine ⟨h.carries.roots_subset hv, fun o ho => ?_⟩
  obtain ⟨o', ho', hk⟩ := h.root hv ho
  exact ⟨o', ho', hk.serial_eq, hk.cls_eq⟩

/-- A value is live or immediate on a later machine, and if it was live, the object it was. -/
def Finds (m : Machine) (v : Value) (m' : Machine) : Prop :=
  m'.heap.Resolves v ∧ ∀ o, m.heap.get? v = some o →
    ∃ o', m'.heap.get? v = some o' ∧ o'.serial = o.serial ∧ o'.cls = o.cls

theorem Holds.finds {v : Value} (h : m.Holds m') (hv : v ∈ m.roots) (h' : m'.Finds v m'') :
    m.Finds v m'' := by
  refine ⟨h'.1, fun o ho => ?_⟩
  obtain ⟨o', ho', hserial, hcls⟩ := (h v hv).2 o ho
  obtain ⟨o'', ho'', hserial', hcls'⟩ := h'.2 o' ho'
  exact ⟨o'', ho'', hserial'.trans hserial, hcls'.trans hcls⟩

end Machine

/-! ### Running a cleanup -/

namespace Effect

variable {sure pre : Prop} {m : Machine}

theorem secure_resume {r : Except Unwind α} {avoided lost written : Set Value}
    {post : α → Machine → Prop} (hok : m.Intact → pre → ∀ x, r = .ok x → post x m)
    (hexc : m.Intact → pre → ∀ exc, r = .error (.raise exc) → m.heap.isLive exc = true) :
    Secure avoided lost written False pre (resume r) m post := by
  rcases r with (exc | f) | x
  · refine ⟨le_rfl, fun hm _ _ => .refl hm, fun _ _ x m' h => ?_, fun hm h exc' m' he _ => ?_,
      fun _ _ => False.elim⟩
    · cases h
    · cases he
      exact hexc hm h exc rfl
  · exact .of_fatal rfl fun _ _ => id
  · exact secure_pure fun hm h => hok hm h x rfl

/-- Values beside the heap and the roots are free to change. -/
theorem keeps_session {avoided lost written : Set Value} (hm : m.Intact) (session : Session) :
    Keeps avoided lost written m { m with session := session } :=
  .of_heap_eq hm rfl (List.Subset.refl _) ⟨rfl, rfl, rfl, List.prefix_rfl, List.Subset.refl _⟩

theorem Tidy.map {a : Effect α} (ha : Tidy a) (g : α → β) : Tidy (a >>= fun x => pure (g x)) where
  secure m := (ha.secure m).map g fun _ _ _ _ _ => trivial
  frames m := by rw [after_map]; exact ha.frames m
  targets m := by rw [after_map]; exact ha.targets m
  inFlight m := by rw [after_map]; exact ha.inFlight m

/-- A current resource concerns nobody but the program that asks for it. -/
theorem after_withResource (resource : Value) (a : Effect α) (m : Machine) :
    ∃ entered left, (withResource resource a).after m =
      { a.after { m with session := entered } with session := left } := by
  refine ⟨{ m.session with resources := resource :: m.session.resources }, ?_⟩
  let m₁ : Machine :=
    { m with session := { m.session with resources := resource :: m.session.resources } }
  have hentered : ∀ r m', outcome a m₁ = .ok r m' → withResource resource a m =
      resume r { m' with session := { m'.session with resources := m'.session.resources.tail } } :=
    fun r m' h => bind_of_ok h
  cases h : a m₁ with
  | ok x m' =>
    rw [after_of_ok h, after, hentered (.ok x) m' (by rw [outcome, h])]
    exact ⟨_, rfl⟩
  | error u m' =>
    rw [after_of_error h, after, hentered (.error u) m' (by rw [outcome, h])]
    exact ⟨_, rfl⟩

theorem Tidy.withResource {a : Effect α} (ha : Tidy a) (resource : Value) :
    Tidy (withResource resource a) := by
  refine ⟨fun m => ?_, fun m => ?_, fun m => ?_, fun m => ?_⟩
  · refine Secure.update_bind le_rfl (fun hm _ _ => keeps_session hm _) ?_
    refine Secure.bind ((ha.secure _).imp (fun _ _ => trivial) fun _ _ _ _ _ _ _ h => h).outcome
      fun r m' _ => ?_
    refine Secure.update_bind le_rfl (fun hm _ _ => keeps_session hm _) ?_
    exact secure_resume (fun _ _ _ _ => trivial) fun _ h exc hexc => h.1.2.2.2 exc hexc
  · obtain ⟨_, _, h⟩ := after_withResource resource a m
    rw [h]
    exact ha.frames _
  · obtain ⟨_, _, h⟩ := after_withResource resource a m
    rw [h]
    exact ha.targets _
  · obtain ⟨_, _, h⟩ := after_withResource resource a m
    rw [h]
    exact ha.inFlight _

theorem Tidy.runCleanup {run : Program → Effect Value} (hrun : ∀ p, Tidy (run p)) (c : Cleanup) :
    Tidy (runCleanup run c) := by
  unfold Effect.runCleanup
  split
  · exact ((hrun c.program).withResource c.resource).map fun _ => ()
  · exact (hrun c.program).map fun _ => ()

/-- Chaining exceptions frees nothing. -/
theorem secure_chainContext {replacement earlier : Value}
    (hp : m.Intact → pre → m.heap.Resolves earlier) :
    Secure Set.univ ∅ Set.univ sure pre (chainContext replacement earlier) m
      fun _ m' => ∀ v, m'.heap.isLive v = m.heap.isLive v := by
  unfold chainContext
  split
  · exact secure_pure fun _ _ _ => rfl
  refine Secure.ask_bind ?_
  cases hread : m.heap.read? Facet.exception replacement with
  | none => exact secure_pure fun _ _ _ => rfl
  | some e =>
    dsimp only
    split
    · obtain ⟨o, ho, hbody⟩ := Option.bind_eq_some_iff.mp hread
      refine Secure.bind (Secure.write Facet.lawful_exception (fun hm h e he =>
        ⟨fun w hw => ?_, nofun, Set.mem_univ _, fun hn => absurd (Or.inl (Set.mem_univ _)) hn⟩)
        fun _ _ _ => ⟨e, Heap.read_eq_ok_iff.mpr ⟨o, ho, hbody⟩⟩) fun _ m' _ => ?_
      · simp only [Facet.exception, Body.edges, List.mem_cons, List.not_mem_nil, or_false] at hw
        rcases hw with rfl | rfl | rfl | rfl
        · exact hm.resolves_of_read Facet.lawful_exception he (by simp [Facet.exception, Body.edges])
        · exact hm.resolves_of_read Facet.lawful_exception he (by simp [Facet.exception, Body.edges])
        · exact hp hm h
        · exact hm.resolves_of_read Facet.lawful_exception he (by simp [Facet.exception, Body.edges])
      · refine (Secure.record _).imp (fun _ h => h) fun _ m'' _ h _ _ _ hheap v => ?_
        rw [hheap, h.2.2]
        exact Heap.isLive_modifyObject _ _ _ _
    · exact secure_pure fun _ _ _ => rfl

theorem secure_replaceOutcome [Rooted α] (raised : Unwind) {result : Except Unwind α}
    (hp : m.Intact → pre → ∀ v ∈ outcomeRoots result, m.heap.Resolves v) :
    Secure Set.univ ∅ Set.univ sure pre (replaceOutcome raised result) m fun r m' =>
      r = supersede raised result ∧ ∀ v, m'.heap.isLive v = m.heap.isLive v := by
  rcases result with (earlier | f) | x
  · cases raised with
    | raise replacement =>
      have hearlier : m.Intact → pre → m.heap.Resolves earlier := fun hm h =>
        hp hm h earlier (List.mem_singleton_self _)
      exact (secure_chainContext hearlier).map _ fun _ _ _ _ h => ⟨rfl, h⟩
    | fatal f => exact secure_pure fun _ _ => ⟨rfl, fun _ => rfl⟩
  · exact secure_pure fun _ _ => ⟨rfl, fun _ => rfl⟩
  · exact secure_pure fun _ _ => ⟨rfl, fun _ => rfl⟩

end Effect

/-! ### One cleanup after the other -/

open Observer

/-- Frames with more cleanups hold all that they held. -/
theorem frameRoots_subset_register (cs : List Cleanup) (frames : List Frame) :
    frames.reverse.flatMap (fun f => f.receiver :: f.cleanups.reverse.map (·.resource)) ⊆
      (register cs frames).reverse.flatMap
        fun f => f.receiver :: f.cleanups.reverse.map (·.resource) := by
  cases frames with
  | nil => exact List.Subset.refl _
  | cons f rest =>
    intro v hv
    simp only [register, List.reverse_cons, List.flatMap_append, List.flatMap_singleton,
      List.mem_append, List.mem_cons, List.reverse_append, List.reverse_reverse,
      List.map_append] at hv ⊢
    tauto

/-- Registering cleanups frees no root of the running calls. -/
theorem callRoots_subset_of_register {m m' : Machine} {cs : List Cleanup}
    (hframes : m'.frames = register cs m.frames) (htargets : m'.targets = m.targets)
    (hinFlight : m'.inFlight = m.inFlight) : m.callRoots ⊆ m'.callRoots := by
  intro v hv
  simp only [callRoots, List.mem_append, hframes, htargets, hinFlight] at hv ⊢
  exact hv.imp (Or.imp (fun hv => frameRoots_subset_register cs m.frames hv) id) id

theorem landed_inFlight {m m' : Machine} {values : List Value}
    (h : m'.inFlight = (flying m values).inFlight) : (landed m m').inFlight = m.inFlight := by
  show m'.inFlight.drop (m'.inFlight.length - m.inFlight.length) = m.inFlight
  rw [h, flying, List.length_append, Nat.add_sub_cancel]
  exact List.drop_left

theorem mem_roots_flying {m : Machine} {values : List Value} {v : Value} :
    v ∈ (flying m values).roots ↔ v ∈ m.roots ∨ v ∈ values := by
  simp only [flying, Machine.roots, List.reverse_append, List.reverse_reverse, List.mem_append]
  tauto

theorem Machine.Intact.flying {m : Machine} (hm : m.Intact) {values : List Value}
    (hvalues : ∀ v ∈ values, m.heap.Resolves v) : (flying m values).Intact := by
  refine ⟨hm.sound, hm.unmarked, hm.tables, ⟨fun v hv => ?_, hm.closed.edges⟩⟩
  rcases mem_roots_flying.mp hv with hv | hv
  · exact hm.closed.roots v hv
  · exact hvalues v hv

/-- An effect that ran with values in flight: they are live at its end, and all that was held before
still is. -/
theorem Effect.Tidy.landed {a : Effect α} (ha : Tidy a) {m : Machine} (hm : m.Intact)
    {values : List Value} (hvalues : ∀ v ∈ values, m.heap.Resolves v)
    (hroom : (a.after (flying m values)).HasRoom) :
    (landed m (a.after (flying m values))).Intact ∧
      m.Holds (landed m (a.after (flying m values))) ∧
      ∀ v ∈ values, (a.after (flying m values)).heap.Resolves v := by
  have hk := (ha.secure _).keeps (hm.flying hvalues) trivial hroom
  have hinFlight := landed_inFlight (ha.inFlight (flying m values))
  obtain ⟨cs, hframes⟩ := ha.frames (flying m values)
  have htargets := ha.targets (flying m values)
  generalize a.after (flying m values) = m' at *
  refine ⟨⟨hk.intact.sound, hk.intact.unmarked, hk.intact.tables,
    ⟨fun v hv => ?_, hk.intact.closed.edges⟩⟩, fun v hv => ⟨?_, fun o ho => ?_⟩, fun v hv => ?_⟩
  · refine hk.intact.closed.roots v ?_
    simp only [Observer.landed, Machine.roots, List.mem_append, List.mem_reverse] at hv ⊢
    exact hv.imp id List.mem_of_mem_drop
  · have hcalls : m.callRoots ⊆ (Observer.landed m m').callRoots :=
      callRoots_subset_of_register hframes htargets hinFlight
    have hcarries : m.Carries (Observer.landed m m') :=
      ⟨hk.carries.classes_eq, hk.carries.symbols_eq, hk.carries.globals_eq, hk.carries.handles_le, hcalls⟩
    exact hcarries.roots_subset hv
  · obtain ⟨o', ho', hkept⟩ := hk.root (mem_roots_flying.mpr (Or.inl hv)) ho
    exact ⟨o', ho', hkept.serial_eq, hkept.cls_eq⟩
  · exact hk.intact.closed.roots v (hk.carries.roots_subset (mem_roots_flying.mpr (Or.inr hv)))

/-! ### Observing effects of which nothing is recorded -/

namespace Observer

theorem machine_eq (a : Observer α) (m : Machine) : (a m).machine = a.erase.after m := by
  cases h : (a m).ending with
  | ok x => rw [after_of_ok (erase_of_ok h)]
  | error u => rw [after_of_error (erase_of_error h)]

/-- Whether an observer makes no marks. -/
def Silent (a : Observer α) : Prop := ∀ m, (a m).marks = []

theorem silent_lift (a : Effect α) : Silent (lift a) := by
  intro m
  unfold lift
  cases a m with
  | ok x m' => rfl
  | error u m' => rfl

theorem Silent.bind {a : Observer α} {f : α → Observer β} (ha : Silent a) (hf : ∀ x, Silent (f x)) :
    Silent (a >>= f) := by
  intro m
  cases h : (a m).ending with
  | ok x =>
    rw [bind_of_ok h, Observed.precede, ha m, hf x]
    rfl
  | error u =>
    rw [bind_of_error h]
    exact ha m

theorem Silent.outcome {a : Observer α} (ha : Silent a) : Silent (outcome a) := ha

theorem Silent.runCleanup {run : Program → Observer Value} (hrun : ∀ p, Silent (run p))
    (c : Cleanup) : Silent (runCleanup run c) := by
  unfold Observer.runCleanup withResource
  split
  · refine Silent.bind ?_ fun _ => silent_lift (pure ())
    refine (silent_lift _).bind fun _ => (hrun c.program).outcome.bind fun r => ?_
    exact (silent_lift _).bind fun _ => silent_lift (resume r)
  · exact (hrun c.program).bind fun _ => silent_lift (pure ())

end Observer

section Leaving

variable [Rooted α] {run : Program → Effect Value}

/-- What a failed cleanup makes of the end so far keeps no value alive but its exception. -/
theorem eq_raise_of_mem {raised : Unwind} {result : Except Unwind α} {v : Value}
    (hv : v ∈ outcomeRoots (supersede raised result)) : raised = .raise v := by
  have hself : v ∈ outcomeRoots (.error raised : Except Unwind α) := by
    rcases result with (earlier | f) | x
    · exact hv
    · cases hv
    · exact hv
  cases raised with
  | raise exc => rw [List.mem_singleton.mp hself]
  | fatal f => cases hself

/-- What the first of some cleanups leaves to the rest. -/
theorem runCleanups_step (hrun : ∀ p, Tidy (run p)) (c : Cleanup) (rest : List Cleanup)
    (result : Except Unwind α) (m : Machine) :
    ∃ result' m₂ ending,
      Observer.runCleanups (fun p => lift (run p)) (c :: rest) result m =
        (Observer.runCleanups (fun p => lift (run p)) rest result' m₂).precede
          [.called c (flying m (outcomeRoots result ++ [c.resource])), .returned ending] ∧
      m.heap.slots.size ≤ m₂.heap.slots.size ∧
      (m.Intact → (∀ v ∈ outcomeRoots result ++ [c.resource], m.heap.Resolves v) → m₂.HasRoom →
        m₂.Intact ∧ m.Holds m₂ ∧ ∀ v ∈ outcomeRoots result', m₂.heap.Resolves v) := by
  let called := flying m (outcomeRoots result ++ [c.resource])
  let o := Observer.runCleanup (fun p => lift (run p)) c called
  have htidy : Tidy (Effect.runCleanup run c) := Tidy.runCleanup hrun c
  have herase : (Observer.runCleanup (fun p => lift (run p)) c).erase = Effect.runCleanup run c := by
    rw [erase_runCleanup]
    simp only [erase_lift]
  have hmachine : o.machine = (Effect.runCleanup run c).after called := by
    rw [← herase, ← machine_eq]
  have hraised : ∀ u, o.ending = .error u → Effect.runCleanup run c called = .error u o.machine := by
    intro u hu
    rw [← herase]
    exact erase_of_error hu
  have hmarks : o.marks = [] := Silent.runCleanup (fun p => silent_lift (run p)) c called
  have hgrows : m.heap.slots.size ≤ o.machine.heap.slots.size := by
    rw [hmachine]
    exact (htidy.secure called).grows
  have hlanded : m.Intact → (∀ v ∈ outcomeRoots result ++ [c.resource], m.heap.Resolves v) →
      o.machine.HasRoom → (landed m o.machine).Intact ∧ m.Holds (landed m o.machine) ∧
        ∀ v ∈ outcomeRoots result, o.machine.heap.Resolves v := by
    intro hm hvalues hroom
    rw [hmachine] at hroom ⊢
    obtain ⟨hintact, hholds, hlive⟩ := htidy.landed hm hvalues hroom
    exact ⟨hintact, hholds, fun v hv => hlive v (List.mem_append_left _ hv)⟩
  rw [runCleanups_cons, show Observer.runCleanup (fun p => lift (run p)) c _ = o from rfl, hmarks]
  cases hending : o.ending with
  | ok x => exact ⟨result, landed m o.machine, .ok x, rfl, hgrows, hlanded⟩
  | error raised =>
    -- the exception that was raised is live, and stays so while it is chained
    have hsecure : Secure Set.univ ∅ Set.univ True
        (∀ v ∈ outcomeRoots result, o.machine.heap.Resolves v) (replaceOutcome raised result)
        (landed m o.machine) _ := secure_replaceOutcome raised fun _ h => h
    obtain ⟨m₂, hm₂, -⟩ := exists_replaceOutcome raised result (landed m o.machine)
    have hgrows' := hsecure.grows
    have hkeeps := hsecure.keeps
    rw [after_of_ok hm₂] at hgrows' hkeeps
    refine ⟨supersede raised result, m₂, .error raised, ?_, hgrows.trans hgrows', ?_⟩
    · dsimp only
      rw [lift_bind_of_ok hm₂]
      rfl
    · intro hm hvalues hroom
      have hroom' : o.machine.HasRoom := le_trans hgrows' hroom
      obtain ⟨hintact, hholds, hlive⟩ := hlanded hm hvalues hroom'
      have hk := hkeeps hintact hlive hroom
      obtain ⟨-, hsame⟩ := hsecure.answers hintact hlive _ _ hm₂ hroom
      refine ⟨hk.intact, hholds.trans hk.holds, fun v hv => ?_⟩
      obtain rfl := eq_raise_of_mem hv
      refine Heap.resolves_of_isLive ((hsame v).trans ?_)
      exact (htidy.secure called).raises (hm.flying hvalues) trivial v o.machine
        (hraised _ hending) hroom'

/-- The heap only grows while cleanups run. -/
theorem size_le_runCleanups (hrun : ∀ p, Tidy (run p)) :
    ∀ (cleanups : List Cleanup) (result : Except Unwind α) (m : Machine), m.heap.slots.size ≤
      (Observer.runCleanups (fun p => lift (run p)) cleanups result m).machine.heap.slots.size
  | [], _, _ => le_rfl
  | c :: rest, result, m => by
    obtain ⟨result', m₂, ending, heq, hgrows, -⟩ := runCleanups_step hrun c rest result m
    rw [heq]
    exact hgrows.trans (size_le_runCleanups hrun rest result' m₂)

theorem exists_runCleanups (hrun : ∀ p, Tidy (run p)) :
    ∀ (cleanups : List Cleanup) (result : Except Unwind α) (m : Machine), ∃ left,
      (Observer.runCleanups (fun p => lift (run p)) cleanups result m).ending = .ok left
  | [], result, _ => ⟨result, rfl⟩
  | c :: rest, result, m => by
    obtain ⟨result', m₂, ending, heq, -⟩ := runCleanups_step hrun c rest result m
    rw [heq]
    exact exists_runCleanups hrun rest result' m₂

/-- The cleanups are called one after the other, whatever becomes of them. -/
theorem calls_runCleanups (hrun : ∀ p, Tidy (run p)) :
    ∀ (cleanups : List Cleanup) (result : Except Unwind α) (m : Machine),
      calls (Observer.runCleanups (fun p => lift (run p)) cleanups result m).marks = cleanups
  | [], _, _ => rfl
  | c :: rest, result, m => by
    obtain ⟨result', m₂, ending, heq, -⟩ := runCleanups_step hrun c rest result m
    rw [heq, Observed.precede, calls_append, calls_runCleanups hrun rest result' m₂]
    rfl

/-- The first cleanup finds its resource, and each of the others if its resource and those of the
cleanups called since the first are roots. -/
theorem finds_of_called (hrun : ∀ p, Tidy (run p)) {c : Cleanup} {m' : Machine} :
    ∀ (cleanups : List Cleanup) (result : Except Unwind α) (m : Machine) (before : List Mark),
      m.Intact → (∀ v ∈ outcomeRoots result, m.heap.Resolves v) →
      (∀ d ∈ cleanups.head?, m.heap.Resolves d.resource) →
      (∀ d ∈ (calls before ++ [c]).tail, d.resource.isRef = false ∨ d.resource ∈ m.roots) →
      (Observer.runCleanups (fun p => lift (run p)) cleanups result m).machine.HasRoom →
      before ++ [.called c m'] <+:
        (Observer.runCleanups (fun p => lift (run p)) cleanups result m).marks →
      m.Finds c.resource m'
  | [], _, _, before, _, _, _, _, _, hmarks => by
    have hlen := hmarks.length_le
    rw [List.length_append] at hlen
    exact absurd hlen (Nat.not_succ_le_zero _)
  | first :: rest, result, m, before, hm, hresult, hlive, hheld, hroom, hmarks => by
    obtain ⟨result', m₂, ending, heq, -, hstep⟩ := runCleanups_step hrun first rest result m
    rw [heq] at hroom hmarks
    match before with
    | [] =>
      -- the machine it is called on has the heap of before
      obtain ⟨rfl, rfl⟩ := Mark.called.inj (List.cons_prefix_cons.mp hmarks).1
      exact ⟨hlive _ rfl, fun o ho => ⟨o, ho, rfl, rfl⟩⟩
    | [_] => cases (List.cons_prefix_cons.mp (List.cons_prefix_cons.mp hmarks).2).1
    | k :: k' :: before =>
      obtain ⟨hk, hmarks'⟩ := List.cons_prefix_cons.mp hmarks
      obtain ⟨hk', hrest⟩ := List.cons_prefix_cons.mp hmarks'
      subst hk hk'
      have hheld : ∀ d ∈ calls before ++ [c], d.resource.isRef = false ∨ d.resource ∈ m.roots := hheld
      have hvalues : ∀ v ∈ outcomeRoots result ++ [first.resource], m.heap.Resolves v := by
        intro v hv
        rcases List.mem_append.mp hv with hv | hv
        · exact hresult v hv
        · rw [List.mem_singleton.mp hv]
          exact hlive first rfl
      obtain ⟨hm₂, hholds, hresult'⟩ :=
        hstep hm hvalues (le_trans (size_le_runCleanups hrun rest result' m₂) hroom)
      have hlater : ∀ d ∈ calls before ++ [c], d.resource.isRef = false ∨ d.resource ∈ m₂.roots :=
        fun d hd => (hheld d hd).imp id fun hroot => (hholds d.resource hroot).1
      have hnext : ∀ d ∈ rest.head?, m₂.heap.Resolves d.resource := by
        have hcalls : calls (before ++ [.called c m']) <+: rest := by
          rw [← calls_runCleanups hrun rest result' m₂]
          exact hrest.filterMap _
        obtain ⟨after, rfl⟩ := hcalls
        intro d hd
        rw [calls_append, List.head?_append_of_ne_nil _ (by simp [calls])] at hd
        exact (hlater d (List.mem_of_mem_head? hd)).elim Heap.resolves_of_not_isRef
          (hm₂.closed.roots _)
      have hfinds := finds_of_called hrun rest result' m₂ before hm₂ hresult' hnext
        (fun d hd => hlater d (List.mem_of_mem_tail hd)) hroom hrest
      rcases hheld c (List.mem_append_right _ (List.mem_singleton.mpr rfl)) with hplain | hroot
      · refine ⟨Heap.resolves_of_not_isRef hplain, fun o ho => ?_⟩
        rw [(Heap.get?_eq_some_iff.mp ho).1] at hplain
        cases hplain
      · exact hholds.finds hroot hfinds

/-- A frame holds the resources of its cleanups. -/
theorem mem_roots_of_cleanup {m : Machine} {g : Frame} {c : Cleanup} (hg : g ∈ m.frames)
    (hc : c ∈ g.cleanups) : c.resource ∈ m.roots := by
  refine mem_roots.mpr (Or.inr (Or.inr (Or.inr (Or.inr ?_))))
  refine List.mem_append_left _ (List.mem_append_left _ ?_)
  refine List.mem_flatMap.mpr ⟨g, List.mem_reverse.mpr hg, List.mem_cons_of_mem _ ?_⟩
  exact List.mem_map_of_mem (List.mem_reverse.mpr hc)

theorem Machine.Intact.popped {m : Machine} (hm : m.Intact) {f : Frame} {rest : List Frame}
    (hframes : m.frames = f :: rest) : ({ m with frames := rest } : Machine).Intact := by
  refine ⟨hm.sound, hm.unmarked, hm.tables, ⟨fun v hv => hm.closed.roots v ?_, hm.closed.edges⟩⟩
  simp only [Machine.roots, hframes, List.reverse_cons, List.flatMap_append, List.mem_append] at hv ⊢
  tauto

/-- The values that the end of a body keeps alive are there when it ends. -/
theorem Effect.Secure.resolves_ending {avoided lost written : Set Value} {sure : Prop}
    {body : Effect α} {m : Machine} (hbody : Secure avoided lost written sure True body m
      fun x m' => ∀ v ∈ Rooted.roots x, m'.heap.Resolves v)
    (hm : m.Intact) (hroom : (body.after m).HasRoom) :
    ∀ v ∈ outcomeRoots (lift body m).ending, (body.after m).heap.Resolves v := by
  intro v hv
  cases h : body m with
  | ok x mb =>
    rw [lift, h] at hv
    rw [after_of_ok h] at hroom ⊢
    exact hbody.answers hm trivial x mb h hroom v hv
  | error u mb =>
    rw [lift, h] at hv
    rw [after_of_error h] at hroom ⊢
    cases u with
    | raise exc =>
      rw [List.mem_singleton.mp hv]
      exact Heap.resolves_of_isLive (hbody.raises hm trivial exc mb h hroom)
    | fatal g => cases hv

/-- From some moment in the body of a frame on: the body goes on, keeping the machine closed, and the
frame is left; cleanups do the same, and both may collect.  The cleanups of the frame are called, the
latest first.  The first one is called while its resource is live; so is each of the others, if its
resource and those of the cleanups called in between are held elsewhere too.  If the cleanup was
registered by then and its resource was live, this is still the same object. -/
theorem cleanups_find_resources (hrun : ∀ p, Tidy (run p)) {body : Effect α} {m : Machine}
    (hm : m.Intact) (hbody : Secure Set.univ ∅ Set.univ False True body m
      fun x m' => ∀ v ∈ Rooted.roots x, m'.heap.Resolves v)
    {f : Frame} {rest : List Frame} (hframes : (body.after m).frames = f :: rest)
    (hroom : ((outcome body >>= leaveFrame run).after m).HasRoom) :
    let observer := Observer.outcome (lift body) >>= Observer.leaveFrame fun p => lift (run p)
    observer.erase = (outcome body >>= leaveFrame run) ∧ calls (observer m).marks = f.cleanups ∧
    ∀ before c m', before ++ [.called c m'] <+: (observer m).marks →
      (∀ d ∈ (calls before ++ [c]).tail, d.resource.isRef = false ∨
        d.resource ∈ ({ body.after m with frames := rest } : Machine).roots) →
      m'.heap.Resolves c.resource ∧ ∀ g ∈ m.frames, c ∈ g.cleanups → m.Finds c.resource m' := by
  intro observer
  have herase : observer.erase = (outcome body >>= leaveFrame run) := by
    simp only [observer, erase_bind, erase_outcome, erase_lift, erase_leaveFrame]
  let r := (lift body m).ending
  have hmachine : (lift body m).machine = body.after m := by rw [machine_eq, erase_lift]
  -- the frame is left on the machine that the body leaves, and its cleanups run
  let popped : Machine := { body.after m with frames := rest }
  let o := Observer.runCleanups (fun p => lift (run p)) f.cleanups r popped
  obtain ⟨left, hleft⟩ : ∃ left, o.ending = .ok left := exists_runCleanups hrun f.cleanups r popped
  have hobserver : observer m = ⟨left, o.machine, o.marks ++ [.left left]⟩ := by
    show (Observer.leaveFrame _ r (lift body m).machine).precede (lift body m).marks = _
    rw [hmachine, leaveFrame_cons _ r hframes rfl hleft, silent_lift]
    rfl
  have hroom' : o.machine.HasRoom := by
    rwa [← herase, ← machine_eq, hobserver] at hroom
  have hbodyroom : (body.after m).HasRoom :=
    le_trans (size_le_runCleanups hrun f.cleanups r popped) hroom'
  have hk := hbody.keeps hm trivial hbodyroom
  have hresources : ∀ c ∈ f.cleanups, popped.heap.Resolves c.resource := fun c hc =>
    hk.intact.closed.roots _ (mem_roots_of_cleanup (hframes ▸ List.mem_cons_self) hc)
  rw [hobserver]
  refine ⟨herase, ?_, fun before c m' hmarks hheld => ?_⟩
  · rw [calls_append, calls_runCleanups hrun]
    exact List.append_nil _
  -- the last mark, of the frame being left, is no call
  have hcalled : before ++ [.called c m'] <+: o.marks := by
    refine (List.prefix_concat_iff.mp hmarks).resolve_left fun hlast => ?_
    cases (List.append_inj' hlast rfl).2
  have hfinds := finds_of_called hrun f.cleanups r popped before (hk.intact.popped hframes)
    (hbody.resolves_ending hm hbodyroom) (fun d hd => hresources d (List.mem_of_mem_head? hd)) hheld
    hroom' hcalled
  exact ⟨hfinds.1, fun g hg hcg => hk.holds.finds (mem_roots_of_cleanup hg hcg) hfinds⟩

end Leaving

/-! ### Where resources get lost -/

theorem secure_collectGarbage {m : Machine} :
    Secure Set.univ ∅ Set.univ False True collectGarbage m fun _ _ => True := by
  refine .of_ok rfl (le_of_eq (Heap.size_collect m.heap _).symm) (fun hm _ _ => ?_)
    fun _ _ _ => trivial
  exact (hm.collectWith fun v hv => absurd hv List.not_mem_nil).1

theorem tidy_collectGarbage : Tidy (do collectGarbage; return Value.nil) where
  secure _ := secure_collectGarbage.map _ fun _ _ _ _ _ => trivial
  frames _ := ⟨[], (register_nil _).symm⟩
  targets _ := rfl
  inFlight _ := rfl

/-- A machine with one text, to which nothing refers but the cleanups of the innermost frame. -/
def Machine.guarding (cleanups : List Cleanup) : Machine where
  heap := ({ settings := {} } : Heap).insert .nil (.text "guarded")
  frames := [{ kind := .native, name := "f", receiver := .nil, cleanups := cleanups }]

theorem Machine.intact_guarding {c : Cleanup} (hc : c.resource = .ofSlot 0 0) :
    (guarding [c]).Intact := by
  have hstored : Keeps ∅ ∅ ∅ _ _ := (intact_fresh {}).store
    (⟨Heap.resolves_of_not_isRef rfl, nofun, nofun⟩ : Admits _ .nil (.text "guarded")) (by decide)
  refine ⟨hstored.intact.sound, hstored.intact.unmarked, hstored.intact.tables,
    ⟨fun v hv => ?_, hstored.intact.closed.edges⟩⟩
  have hcases : v = .absent ∨ v = .nil ∨ v = c.resource := by
    simpa [guarding, Machine.roots, or_assoc] using hv
  rcases hcases with rfl | rfl | rfl
  · exact Heap.resolves_of_not_isRef rfl
  · exact Heap.resolves_of_not_isRef rfl
  · have hlive : (({ settings := {} } : Heap).insert .nil (.text "guarded")).isLive (.ofSlot 0 0) =
      true := by decide
    rw [hc]
    exact fun _ => hlive

/-- With one cleanup the text survives a collection in the body, and is there when the cleanup is
called, although nothing else refers to it. -/
theorem cleanups_find_resources_alone :
    let text : Cleanup := ⟨.ofSlot 0 0, .resource, true⟩
    let m := Machine.guarding [text]
    let run : Program → Effect Value := fun _ => do collectGarbage; return .nil
    (m.Intact ∧ ((outcome collectGarbage >>= leaveFrame run).after m).HasRoom) ∧
    ∃ m', .called text m' ∈ ((Observer.outcome (lift collectGarbage) >>=
        Observer.leaveFrame fun p => lift (run p)) m).marks ∧
      m'.heap.Resolves text.resource ∧ m.Finds text.resource m' := by
  intro text m run
  have hm : m.Intact := intact_guarding rfl
  have hroom : ((outcome collectGarbage >>= leaveFrame run).after m).HasRoom := by
    unfold HasRoom
    decide
  have hbody : Secure Set.univ ∅ Set.univ False True collectGarbage m
      fun x m' => ∀ v ∈ Rooted.roots x, m'.heap.Resolves v := by
    refine secure_collectGarbage.imp (fun _ h => h) fun _ _ _ _ _ _ _ _ v hv => ?_
    exact absurd hv List.not_mem_nil
  have hcalled : ∃ m', [] ++ [.called text m'] <+: ((Observer.outcome (lift collectGarbage) >>=
      Observer.leaveFrame fun p => lift (run p)) m).marks := ⟨_, _, rfl⟩
  obtain ⟨m', hc⟩ := hcalled
  obtain ⟨hlive, hfinds⟩ := (cleanups_find_resources (fun _ => tidy_collectGarbage) hm hbody rfl
    hroom).2.2 [] text m' hc nofun
  exact ⟨⟨hm, hroom⟩, m', hc.subset List.mem_cons_self, hlive,
    hfinds _ List.mem_cons_self List.mem_cons_self⟩

/-- A collection in the cleanup that runs first takes away the resource of the second one. -/
theorem resource_lost_between_cleanups :
    let text : Cleanup := ⟨.ofSlot 0 0, .resource, true⟩
    let other : Cleanup := ⟨.nil, .apply (.heap .collect) [], true⟩
    let m := Machine.guarding []
    m.heap.isLive text.resource = true ∧
    ∃ m', .called text m' ∈ (Observer.callFrame (fun p => lift (p.eval .exhausted)) .native "f" .nil
        (do Observer.addCleanup text; Observer.addCleanup other) m).marks ∧
      m'.heap.isLive text.resource = false := by
  refine ⟨by decide, _, List.mem_of_getElem? (i := 6) rfl, by decide⟩

end ObjectMachine
