import Mathlib.Tactic
import ObjectMachine.Proofs.Frames.Contexts
import ObjectMachine.Proofs.Heap.Linking

/-! Effects that lose no root.

An effect guards its roots if, on a linked heap, it leaves a linked heap in which every root is still
the object it was, and raises live exceptions only.  Allocating, collecting and raising do so, and so
does what frames, cleanups and rescues make of effects that do.  Cleanups get the outcome so far as
further roots, and the context they give to an exception is the one that was in flight, so it is
live. -/

namespace ObjectMachine

open Effect
open Observer (flying landed exists_chainContext)

/-- A later machine: its heap is linked, and every root is one still and the object it was. -/
structure Machine.Guards (m m' : Machine) : Prop where
  carries : m.Carries m'
  linked : m'.heap.Linked
  retains : ∀ v ∈ m.roots, m.heap.Retains m'.heap v

/-- A run from `m` to `m'` that ended with `r`: it lost no root, and what it raised is a live
exception. -/
structure Machine.Shelters (m : Machine) (r : Except Unwind α) (m' : Machine) : Prop where
  grows : m.heap.slots.size ≤ m'.heap.slots.size
  guards : m.heap.Linked → m'.HasRoom → m.Guards m'
  raises : m.heap.Linked → m'.HasRoom → ∀ exc, r = .error (.raise exc) → m'.heap.IsException exc

namespace Machine

variable {m m' m'' : Machine}

theorem Guards.of_heap_eq (hl : m.heap.Linked) (hheap : m'.heap = m.heap) (hc : m.Carries m') :
    m.Guards m' :=
  ⟨hc, hheap ▸ hl, fun v _ => hheap ▸ .refl _ v⟩

theorem Guards.refl (hl : m.heap.Linked) : m.Guards m := .of_heap_eq hl rfl (.refl m)

theorem Guards.trans (h : m.Guards m') (h' : m'.Guards m'') : m.Guards m'' :=
  ⟨h.carries.trans h'.carries, h'.linked, fun v hv =>
    (h.retains v hv).trans (h'.retains v (h.carries.roots_subset hv))⟩

theorem guards_collectWith (hl : m.heap.Linked) (pending : List Value) :
    m.Guards (m.collectWith pending) :=
  ⟨m.carries_with _ _, hl.collect _, fun _ hv =>
    Heap.retains_collect hl.unmarked (.root (List.mem_append_left _ hv))⟩

theorem guards_store (hl : m.heap.Linked) (cls : Value) {body : Body}
    (hbody : ∀ e, body = .exception e → e.context.isNil = true) :
    m.Guards { m with heap := m.heap.insert cls body } :=
  ⟨m.carries_with _ _, hl.insert cls hbody, fun v _ => hl.sound.retains_insert cls body v⟩

/-- What follows a run on the machine it left. -/
theorem Shelters.precede {r : Except Unwind α} {r' : Except Unwind β} (h : m.Shelters r m')
    (h' : m'.Shelters r' m'') : m.Shelters r' m'' where
  grows := h.grows.trans h'.grows
  guards hl hroom :=
    have hm := h.guards hl (le_trans h'.grows hroom)
    hm.trans (h'.guards hm.linked hroom)
  raises hl hroom := h'.raises (h.guards hl (le_trans h'.grows hroom)).linked hroom

theorem Shelters.of_heap_eq {r : Except Unwind α} (hheap : m'.heap = m.heap) (hc : m.Carries m')
    (hr : m.heap.Linked → ∀ exc, r = .error (.raise exc) → m.heap.IsException exc) : m.Shelters r m' :=
  ⟨by rw [hheap], fun hl _ => .of_heap_eq hl hheap hc, fun hl _ => by rw [hheap]; exact hr hl⟩

theorem Shelters.refl (m : Machine) : m.Shelters (.ok () : Except Unwind Unit) m :=
  .of_heap_eq rfl (.refl m) fun _ _ he => by cases he

/-- What can be said of a run inside a frame, a rescue or a flight, can be said from outside, where
there are fewer roots. -/
theorem Shelters.transport {inner inner' : Machine} {r : Except Unwind α} (h : inner.Shelters r inner')
    (hheap : inner.heap = m.heap) (hheap' : m'.heap = inner'.heap) (hroots : m.roots ⊆ inner.roots)
    (hc : inner.Carries inner' → m.Carries m') : m.Shelters r m' := by
  have hinner : m'.HasRoom → inner'.HasRoom := fun hroom => by rwa [HasRoom, ← hheap']
  refine ⟨by rw [← hheap, hheap']; exact h.grows, fun hl hroom => ?_, fun hl hroom => ?_⟩
  · have hk := h.guards (hheap ▸ hl) (hinner hroom)
    refine ⟨hc hk.carries, hheap' ▸ hk.linked, fun v hv => ?_⟩
    rw [← hheap, hheap']
    exact hk.retains v (hroots hv)
  · rw [hheap']
    exact h.raises (hheap ▸ hl) (hinner hroom)

end Machine

/-- Losing no root, as a verdict. -/
def Verdict.sheltering : Verdict where
  Holds m r m' := m.Shelters r m'
  precede h h' := h.precede h'
  ends h hraise := ⟨h.grows, h.guards, fun hl hroom exc he => h.raises hl hroom exc (hraise exc he)⟩
  idle hheap hc := .of_heap_eq hheap hc fun _ _ he => by cases he
  transport h hheap hheap' hroots hc := h.transport hheap hheap' hroots hc

namespace Effect

open Judgement

/-- Whether an effect is balanced, loses no root and raises live exceptions only: every run of it
shelters. -/
def Shelters (inScope : Bool) (a : Effect α) : Prop := Earns .sheltering inScope a

variable {α β γ : Type} {inScope : Bool} {a : Effect α} {f : α → Effect β} {m : Machine}

theorem Shelters.shelters (ha : Shelters inScope a) (m : Machine) :
    m.Shelters (a.ending m) (a.after m) := Earns.holds ha m

theorem Calm.shelters (ha : Calm a) (hgrows : m.heap.slots.size ≤ (a.after m).heap.slots.size)
    (h : m.heap.Linked → m.Guards (a.after m)) : m.Shelters (a.ending m) (a.after m) :=
  ⟨hgrows, fun hl _ => h hl, fun _ _ exc he => absurd he ((ha m).2 exc)⟩

/-! ### Allocating, collecting and writing -/

theorem shelters_collectGarbage : Shelters inScope collectGarbage := by
  refine fun m => ⟨.of_callStacks_eq rfl, ?_, fun hl _ => Machine.guards_collectWith hl [], ?_⟩
  · exact (Heap.size_collect m.heap _).ge
  · rintro - - exc he
    cases he

theorem shelters_alloc (cls : Value) {body : Body}
    (hbody : ∀ e, body = .exception e → e.context.isNil = true) : Shelters inScope (alloc cls body) := by
  have hcalm : Calm (alloc cls body) := calm_heedless.alloc cls body
  refine fun m => ⟨steady_heedless.alloc cls body m, hcalm.shelters (grows_alloc cls body m) fun hl => ?_⟩
  rcases alloc_cases cls body m with h | h
  · rw [after_of_ok (h.trans rfl)]
    exact Machine.guards_store hl cls hbody
  · rw [after_of_ok (h.trans rfl)]
    have hcollected := Machine.guards_collectWith hl (cls :: body.edges)
    exact hcollected.trans (Machine.guards_store hcollected.linked cls hbody)

/-- Writing anything but a context. -/
theorem shelters_write {facet : Facet α} (hfacet : facet.Lawful) {g : α → α}
    (hg : ∀ x, (facet.put (g x)).context? = (facet.put x).context?) (v : Value) :
    Shelters inScope (write facet v g) := by
  have hcalm : Calm (write facet v g) := calm_heedless.write facet v g
  refine fun m => ⟨steady_heedless.write facet v g m, hcalm.shelters ?_ fun hl => ?_⟩
  · exact (size_after_write facet v g m).ge
  · rcases after_write facet v g m with h | h
    · rw [h]
      exact .refl hl
    · rw [h]
      exact ⟨m.carries_with _ _, hl.modify hfacet (fun x c hc => Or.inl (hg x ▸ hc)) v, fun w _ =>
        Heap.retains_modify hfacet g w⟩

theorem sheltering_makes : (Verdict.sheltering.judgement inScope).Makes where
  alloc cls _ _ hbody := shelters_alloc cls hbody
  push lines _ := shelters_write Facet.lawful_array (by intro _; rfl) lines
  setTrace exc _ := shelters_write Facet.lawful_exception (by intro _; rfl) exc

/-! ### Raising -/

theorem shelters_captureTrace (exc : Value) : Shelters inScope (captureTrace exc) :=
  meets_captureTrace verdictScope (fun _ => sheltering_makes) exc

/-- The exception is not lost while its trace is taken. -/
theorem retains_captureTrace (exc : Value) (hl : m.heap.Linked)
    (hroom : ((captureTrace exc).after m).HasRoom) :
    m.heap.Retains ((captureTrace exc).after m).heap exc := by
  have htaken : Shelters true (takeTrace exc m.frameNames) :=
    sheltering_makes.takeTrace earns_pin exc _
  have htrace := htaken.shelters { m with handles := m.handles.push exc }
  rw [Machine.HasRoom, heap_after_captureTrace] at hroom
  rw [heap_after_captureTrace]
  exact (htrace.guards hl hroom).retains exc (mem_roots_push m exc)

theorem Shelters.throwing (ha : Shelters true a) (hcalm : Calm a) (exc : Value) {m₀ : Machine}
    {r : Except Unwind γ} (h₀ : m₀.Shelters r m)
    (hexc : m₀.heap.Linked → (a.after m).HasRoom → (a.after m).heap.IsException exc) :
    m₀.Shelters ((a >>= fun _ => (throwException exc : Effect β)).ending m)
      ((a >>= fun _ => (throwException exc : Effect β)).after m) := by
  obtain ⟨hraised, state, hafter⟩ := hcalm.throwing (β := β) exc m
  have h := h₀.precede (ha.shelters m)
  rw [hafter]
  refine ⟨h.grows, fun hl hroom => ?_, fun hl hroom exc' he => ?_⟩
  · exact (h.guards hl hroom).trans (.of_heap_eq (h.guards hl hroom).linked rfl
      ⟨rfl, rfl, rfl, List.prefix_rfl, List.Subset.refl _⟩)
  · rw [hraised exc' he]
    exact hexc hl hroom

/-- A new exception is there. -/
theorem exists_alloc_exception (cls : Value) (e : ExceptionBody) (m : Machine) :
    ∃ v m', alloc cls (.exception e) m = .ok v m' ∧
      (m.heap.Linked → m'.HasRoom → m'.heap.IsException v) := by
  have hnew : ∀ {h : Heap}, h.Linked → (h.insert cls (.exception e)).slots.size ≤ 2 ^ 32 →
      (h.insert cls (.exception e)).IsException h.nextReference := by
    intro h hl hroom
    obtain ⟨o, ho, hsome, -⟩ := Heap.dates_nextReference hl.sound cls e hroom
    obtain ⟨c, hc⟩ := Option.isSome_iff_exists.mp hsome
    exact ⟨c, o, ho, hc⟩
  rcases alloc_cases cls (.exception e) m with h | h
  · exact ⟨_, _, h, fun hl hroom => hnew hl hroom⟩
  · exact ⟨_, _, h, fun hl hroom => hnew (hl.collect _) hroom⟩

theorem exists_newException_linked (cls : Value) (message : String) (m : Machine) :
    ∃ exc m', newException cls message m = .ok exc m' ∧
      (m.heap.Linked → m'.HasRoom → m'.heap.IsException exc) := by
  obtain ⟨text, m₁, hstored, -⟩ := exists_alloc_dates (m.classValue .string) (.text message) m
  have hnew : newText message m = .ok text m₁ := hstored
  obtain ⟨exc, m', hexc, hexception⟩ := exists_alloc_exception cls { message := text } m₁
  have htext : Shelters true (newText message) := sheltering_makes.newText message
  have hfirst := htext.shelters m
  have hgrows := grows_alloc cls (.exception { message := text }) m₁
  rw [after_of_ok hnew] at hfirst
  rw [after_of_ok hexc] at hgrows
  refine ⟨exc, m', (bind_of_ok hnew).trans hexc, fun hl hroom => ?_⟩
  exact hexception (hfirst.guards hl (le_trans hgrows hroom)).linked hroom

/-- A built-in error is a new exception. -/
theorem shelters_raiseError (kind : ErrorKind) (message : String) :
    Shelters inScope (raiseError kind message : Effect α) := by
  refine fun m => ⟨steady_raiseError kind message m, ?_⟩
  obtain ⟨exc, m', hnew, hexc⟩ := exists_newException_linked (m.classValue (.error kind)) message m
  have heq : (raiseError kind message : Effect α) m =
      (captureTrace exc >>= fun _ => throwException exc) m' := bind_of_ok hnew
  have hmade : Shelters true (newException (m.classValue (.error kind)) message) :=
    sheltering_makes.newException _ message
  have hfirst := hmade.shelters m
  rw [after_of_ok hnew] at hfirst
  have htrace : Shelters true (captureTrace exc) := shelters_captureTrace exc
  rw [ending_congr heq, after_congr heq]
  refine htrace.throwing (calm_captureTrace exc) exc hfirst fun hl hroom => ?_
  have hroom' := le_trans (htrace.shelters m').grows hroom
  exact (retains_captureTrace exc (hfirst.guards hl hroom').linked hroom).isException (hexc hl hroom')

/-- Raising a value: an exception again, or a type error. -/
theorem shelters_raiseValue (exc : Value) : Shelters inScope (raiseValue exc : Effect α) := by
  refine fun m => ⟨steady_raises.raiseValue exc m, ?_⟩
  cases hread : m.heap.read Facet.exception exc with
  | error u =>
    have heq : (raiseValue exc : Effect α) m = _ := raiseValue_of_other hread
    have herror (message : String) : Shelters true (raiseError .typeError message : Effect α) :=
      shelters_raiseError _ message
    rw [ending_congr heq, after_congr heq]
    exact (herror _).shelters m
  | ok e =>
    have heq : (raiseValue exc : Effect α) m = _ := raiseValue_of_exception hread
    rw [ending_congr heq, after_congr heq]
    have hexc : m.heap.IsException exc := ⟨e.context, Heap.context_iff.mpr ⟨e, hread, rfl⟩⟩
    dsimp only
    split
    · exact (shelters_captureTrace exc).throwing (calm_captureTrace exc) exc (.refl m) fun hl hroom =>
        (retains_captureTrace exc hl hroom).isException hexc
    · have hpure : Shelters true (pure () : Effect Unit) := meets_pure ()
      exact hpure.throwing (meets_pure ()) exc (.refl m) fun _ _ => hexc

/-! ### Cleanups -/

/-- What runs with values in flight loses none of them. -/
theorem Shelters.landed (ha : Shelters false a) (values : List Value) (m : Machine) :
    m.Shelters (a.ending (flying m values)) (landed m (a.after (flying m values))) ∧
      (m.heap.Linked → (landed m (a.after (flying m values))).HasRoom →
        ∀ v ∈ values, m.heap.Retains (landed m (a.after (flying m values))).heap v) := by
  refine ⟨Earns.landed ha values m, fun hl hroom v hv => ?_⟩
  exact ((ha.shelters (flying m values)).guards hl hroom).retains v (mem_roots_flying.mpr (Or.inr hv))

/-- What the end of a cleanup makes of the end so far. -/
def answer (ended : Except Unwind Unit) (result : Except Unwind α) : Effect (Except Unwind α) :=
  match ended with
  | .ok _ => pure result
  | .error raised => replaceOutcome raised result

/-- The exception on its way was in flight while the cleanup ran, so it may become a context. -/
theorem shelters_answer {m₀ m₁ : Machine} {result : Except Unwind α} {ended : Except Unwind Unit}
    (h : m₀.Shelters ended m₁)
    (hkept : m₀.heap.Linked → m₁.HasRoom → ∀ exc, result = .error (.raise exc) → m₁.heap.IsException exc) :
    ∃ result' m₂, answer ended result m₁ = .ok result' m₂ ∧ m₀.Shelters result' m₂ ∧
      m₂.heap.slots.size = m₁.heap.slots.size ∧ ∀ x, result' = .ok x → result = .ok x ∧ m₂ = m₁ := by
  cases ended with
  | ok u =>
    exact ⟨result, m₁, rfl, ⟨h.grows, h.guards, hkept⟩, rfl, fun x hx => ⟨hx, rfl⟩⟩
  | error raised =>
    have hreplaced : m₀.Shelters (.error raised : Except Unwind α) m₁ :=
      ⟨h.grows, h.guards, fun hl hroom exc he =>
        h.raises hl hroom exc (congrArg _ (Except.error.inj he))⟩
    rcases result with (earlier | f) | x
    · cases raised with
      | fatal f => exact ⟨_, m₁, rfl, hreplaced, rfl, fun x hx => by cases hx⟩
      | raise replacement =>
        obtain ⟨m₂, hchain⟩ := exists_chainContext replacement earlier m₁
        refine ⟨_, m₂, bind_of_ok hchain, ?_⟩
        rw [← after_of_ok hchain]
        rcases chainContext_cases replacement earlier m₁ with
          ⟨c, -, -, -, hafter⟩ | ⟨-, hafter⟩
        · have hsize : (m₁.heap.chain replacement earlier).slots.size = m₁.heap.slots.size :=
            Heap.size_modifyObject m₁.heap replacement _
          have hretains : ∀ v, m₁.heap.Retains (m₁.heap.chain replacement earlier) v :=
            Heap.retains_modify Facet.lawful_exception _
          rw [hafter]
          refine ⟨⟨h.grows.trans hsize.ge, fun hl hroom => ?_, fun hl hroom exc he => ?_⟩, hsize,
            fun x hx => by cases hx⟩
          · have hroom₁ : m₁.HasRoom := hsize.symm.trans_le hroom
            have hg := h.guards hl hroom₁
            exact hg.trans ⟨m₁.carries_with _ _, hg.linked.chain (hkept hl hroom₁ earlier rfl) _,
              fun v _ => hretains v⟩
          · obtain rfl := Unwind.raise.inj (Except.error.inj he)
            exact (hretains _).isException (h.raises hl (hsize.symm.trans_le hroom) _ rfl)
        · rw [hafter]
          exact ⟨hreplaced, rfl, fun x hx => by cases hx⟩
    · exact ⟨_, m₁, rfl, ⟨h.grows, h.guards, fun _ _ _ he => by cases he⟩, rfl, fun x hx => by cases hx⟩
    · exact ⟨_, m₁, rfl, hreplaced, rfl, fun x hx => by cases hx⟩

section Frames

variable {run : Program → Effect Value} [Rooted α]

/-- The end of a frame once its cleanups have run. -/
def settle (run : Program → Effect Value) (cs : List Cleanup) (result : Except Unwind α) : Effect α :=
  runCleanups run cs result >>= fun r => resume r

theorem settle_nil (result : Except Unwind α) (m : Machine) : settle run [] result m = resume result m := rfl

/-- The first cleanup, then the others with what it has made of the end. -/
theorem settle_cons (c : Cleanup) (rest : List Cleanup) (result : Except Unwind α) (m : Machine) :
    settle run (c :: rest) result m =
      (answer ((runCleanup run c).ending (flying m (outcomeRoots result ++ [c.resource]))) result >>=
        settle run rest)
      (landed m ((runCleanup run c).after (flying m (outcomeRoots result ++ [c.resource])))) := by
  unfold settle
  rw [runCleanups, bind_assoc, bind_of_ok (withInFlight_eq _ _ m)]
  cases (runCleanup run c).ending (flying m (outcomeRoots result ++ [c.resource])) with
  | ok u => rfl
  | error raised => exact congrFun (bind_assoc _ _ _) _

/-- Cleanups lose no root, nor any value of the result if it comes through. -/
theorem shelters_settle {m₀ : Machine} :
    ∀ (cs : List Cleanup) (result : Except Unwind α) (m : Machine),
      (∀ c ∈ cs, Shelters false (run c.program)) → m₀.Shelters result m →
      m₀.Shelters ((settle run cs result).ending m) ((settle run cs result).after m) ∧
      m.heap.slots.size ≤ ((settle run cs result).after m).heap.slots.size ∧
      (m₀.heap.Linked → ((settle run cs result).after m).HasRoom →
        ∀ x, (settle run cs result).ending m = .ok x → result = .ok x ∧
          ∀ v ∈ Rooted.roots x, m.heap.Retains ((settle run cs result).after m).heap v)
  | [], result, m, _, h => by
    rw [ending_congr (settle_nil result m), after_congr (settle_nil result m), ending_resume, after_resume]
    exact ⟨h, le_rfl, fun _ _ x hx => ⟨hx, fun v _ => .refl _ v⟩⟩
  | c :: rest, result, m, hcs, h => by
    have hrun : Shelters false (runCleanup run c) := earns_runCleanup (hcs c List.mem_cons_self)
    obtain ⟨hcleanup, hflight⟩ := hrun.landed (outcomeRoots result ++ [c.resource]) m
    rw [ending_congr (settle_cons c rest result m), after_congr (settle_cons c rest result m)]
    generalize (runCleanup run c).ending _ = ended at *
    generalize Observer.landed m _ = m₁ at *
    have hkept : m₀.heap.Linked → m₁.HasRoom → ∀ exc, result = .error (.raise exc) →
        m₁.heap.IsException exc := by
      rintro hl hroom exc rfl
      have hroom' := le_trans hcleanup.grows hroom
      refine (hflight (h.guards hl hroom').linked hroom exc ?_).isException (h.raises hl hroom' exc rfl)
      exact List.mem_append_left _ (List.mem_singleton_self exc)
    obtain ⟨result', m₂, hanswer, h₂, hsize, hcame⟩ := shelters_answer (h.precede hcleanup) hkept
    rw [ending_bind_of_ok hanswer, after_bind_of_ok hanswer]
    obtain ⟨hends, hgrows, hthrough⟩ :=
      shelters_settle rest result' m₂ (fun c hc => hcs c (List.mem_cons_of_mem _ hc)) h₂
    refine ⟨hends, ?_, fun hl hroom x hx => ?_⟩
    · exact (hcleanup.grows.trans hsize.ge).trans hgrows
    · obtain ⟨hresult, hretains⟩ := hthrough hl hroom x hx
      obtain ⟨hresult, hsame⟩ := hcame x hresult
      subst hresult hsame
      have hroom' := le_trans hgrows hroom
      have hlinked := (h.guards hl (le_trans hcleanup.grows hroom')).linked
      exact ⟨rfl, fun v hv =>
        (hflight hlinked hroom' v (List.mem_append_left _ hv)).trans (hretains v hv)⟩

/-- Leaving a frame settles its end, in a machine without the frame. -/
theorem callFrame_eq_settle (kind : FrameKind) (name : String) (receiver : Value) {body : Effect α}
    {f : Frame} {rest : List Frame} (hframes : (body.after (entered kind name receiver m)).frames = f :: rest) :
    callFrame run kind name receiver body m =
      settle run f.cleanups (body.ending (entered kind name receiver m))
        { body.after (entered kind name receiver m) with frames := rest } :=
  (callFrame_eq kind name receiver body m).trans (leaveFrame_of_cons hframes _)

theorem Shelters.callFrame (hrun : ∀ p, Shelters false (run p)) {body : Effect α}
    (hbody : Shelters false body) (kind : FrameKind) (name : String) (receiver : Value) :
    Shelters inScope (callFrame run kind name receiver body) := by
  refine fun m => ⟨(hbody.steady.callFrame (fun p => (hrun p).steady) kind name receiver).lift m, ?_⟩
  obtain ⟨f, hframes⟩ := hbody.steady.frames_after_body kind name receiver m
  have heq : Effect.callFrame run kind name receiver body m = _ :=
    callFrame_eq_settle kind name receiver hframes
  rw [ending_congr heq, after_congr heq]
  have hleft := Earns.left hbody kind name receiver m
  exact (shelters_settle _ _ _ (fun c _ => hrun c.program) hleft).1

end Frames

theorem Shelters.ensure [Rooted α] {run : Program → Effect Value} (hrun : ∀ p, Shelters false (run p))
    {body : Effect α} (hbody : Shelters false body) (cleanup : Program) :
    Shelters inScope (ensure run body cleanup) :=
  Shelters.callFrame hrun ((earns_addCleanup _).bind fun _ => hbody) _ _ _

end Effect

/-! ### Programs -/

namespace Control

/-- Whether the other steps of a program lose no root. -/
def Sheltering : Control α → Prop
  | .other a _ => a.Shelters false
  | .raise _ => True
  | .andThen first next => first.Sheltering ∧ ∀ x, (next x).Sheltering
  | .attempt body => body.Sheltering
  | @frame _ _ _ _ _ body => body.Sheltering
  | .addCleanup _ => True
  | @ensure _ _ body _ => body.Sheltering
  | .rescue _ body handler => body.Sheltering ∧ ∀ exc, (handler exc).Sheltering

theorem shelters_denote {run : Program → Effect Value} (hrun : ∀ p, (run p).Shelters false)
    (program : Control α) (h : program.Sheltering) : (program.denote run).Shelters false := by
  induction program with
  | other a level => exact h
  | raise exc => exact shelters_raiseValue exc
  | andThen first next ihfirst ihnext => exact (ihfirst h.1).bind fun x => ihnext x (h.2 x)
  | attempt body ih => exact fun m => Verdict.sheltering.forgets (ih h m)
  | frame kind name receiver body ih => exact (ih h).callFrame hrun kind name receiver
  | addCleanup c => exact earns_addCleanup c
  | ensure body cleanup ih => exact (ih h).ensure hrun cleanup
  | rescue classes body handler ihbody ihhandler =>
    exact Earns.rescue (ihbody h.1) (fun exc => ihhandler exc (h.2 exc)) classes

theorem shelters_denoteTo {decode : Program → Control Value} (hdecode : ∀ p, (decode p).Sheltering) :
    ∀ (depth : Nat) (p : Program), (denoteTo decode depth p).Shelters false
  | 0, _ => Verdict.sheltering.excuses _
  | depth + 1, p => shelters_denote (shelters_denoteTo hdecode depth) (decode p) (hdecode p)

end Control

end ObjectMachine
