import Mathlib.Tactic
import ObjectMachine.Proofs.Machine.Contracts

/-! Effects that keep a machine closed.

`Secure` is what holds of an effect started on a closed machine: the machine it leaves has kept what
was reachable, an answer has a property, an exception on its way is live, and if `sure` holds the
effect returns an answer.  This is a contract, and its rules are those of contracts.  A collection may
happen in every allocation; what is not reachable then has to be pinned, or to be part of the object
under construction. -/

namespace ObjectMachine

open Machine

/-- What an effect, started on a closed machine under an assumption, does. -/
structure Effect.Secure (avoided lost written : Set Value) (sure pre : Prop) (a : Effect α)
    (m : Machine) (post : α → Machine → Prop) : Prop where
  grows : m.heap.slots.size ≤ (a.after m).heap.slots.size
  keeps : m.Intact → pre → (a.after m).HasRoom → Keeps avoided lost written m (a.after m)
  answers : m.Intact → pre → ∀ x m', a m = .ok x m' → m'.HasRoom → post x m'
  raises : m.Intact → pre → ∀ exc m', a m = .error (.raise exc) m' → m'.HasRoom →
    m'.heap.isLive exc = true
  returns : m.Intact → pre → sure → (a.after m).HasRoom → ∃ x m', a m = .ok x m'

namespace Machine

variable {m m' : Machine} {v w line exc trace : Value} {name : String} {lines : List String}
  {lost written : Set Value}

/-- An array of texts. -/
def Texts (m : Machine) (v : Value) (lines : List String) : Prop :=
  ∃ items, m.heap.read Facet.array v = .ok items ∧
    List.Forall₂ (fun item line => m.heap.read Facet.text item = .ok line) items.toList lines

/-- An exception whose trace is an array of texts. -/
def HasTrace (m : Machine) (exc : Value) (lines : List String) : Prop :=
  ∃ e, m.heap.read Facet.exception exc = .ok e ∧ m.Texts e.stackTrace lines

/-- A line is added at the end. -/
theorem Texts.push (h : m.Texts v lines) (hname : m.heap.read Facet.text line = .ok name) :
    Texts { m with heap := m.heap.modify Facet.array v (·.push line) } v (lines ++ [name]) := by
  obtain ⟨items, hitems, hlines⟩ := h
  have htext : ∀ {item s}, m.heap.read Facet.text item = .ok s →
      (m.heap.modify Facet.array v (·.push line)).read Facet.text item = .ok s :=
    Heap.read_modify_of_other Facet.lawful_array Facet.lawful_text (by decide)
  refine ⟨items.push line, Heap.read_modify_self (fun _ => rfl) hitems _, ?_⟩
  rw [Array.toList_push]
  exact List.rel_append (hlines.imp fun _ _ => htext) (.cons (htext hname) .nil)

/-- The texts of an array that is reachable outlive what writes to exceptions only. -/
theorem Texts.kept (h : m.Texts v lines) (hm : m.Intact) (hk : Keeps ∅ lost written m m')
    (hv : m.Anchored v) (hw : ∀ w ∈ written, ∃ e, m.heap.read Facet.exception w = .ok e) :
    m'.Texts v lines := by
  have hother {γ : Type} {facet : Facet γ} {w : Value} {x : γ} (hf : facet.Lawful)
      (hne : Facet.exception.kind ≠ facet.kind) (hx : m.heap.read facet w = .ok x) : w ∉ written := by
    intro hin
    obtain ⟨e, he⟩ := hw w hin
    obtain ⟨o, ho, hb⟩ := Heap.read_eq_ok_iff.mp hx
    obtain ⟨p, hp, hbody⟩ := Heap.read_eq_ok_iff.mp he
    obtain rfl := Option.some.inj (ho.symm.trans hp)
    rw [Facet.lawful_exception.get?_eq_none hf hne hb] at hbody
    cases hbody
  obtain ⟨items, hitems, hlines⟩ := h
  have hanchored : ∀ item ∈ items.toList, m.Anchored item := fun item hitem =>
    hm.anchored_of_read Facet.lawful_array hv hitems hitem
  refine ⟨items, hk.read_anchored hv (hother Facet.lawful_array (by decide) hitems) hitems, ?_⟩
  refine ((List.forall₂_and_left _ _).mpr ⟨hanchored, hlines⟩).imp fun item line hline => ?_
  exact hk.read_anchored hline.1 (hother Facet.lawful_text (by decide) hline.2) hline.2

/-- The trace is put into the exception. -/
theorem Texts.hasTrace (h : m.Texts trace lines) {e : ExceptionBody}
    (he : m.heap.read Facet.exception exc = .ok e) :
    HasTrace { m with heap := m.heap.modify Facet.exception exc fun e => { e with stackTrace := trace } }
      exc lines := by
  obtain ⟨items, hitems, hlines⟩ := h
  refine ⟨_, Heap.read_modify_self (fun _ => rfl) he _, items, ?_, hlines.imp fun _ _ hline => ?_⟩
  · exact Heap.read_modify_of_other Facet.lawful_exception Facet.lawful_array (by decide) hitems
  · exact Heap.read_modify_of_other Facet.lawful_exception Facet.lawful_text (by decide) hline

/-- A trace outlives what writes to exceptions without trace only. -/
theorem HasTrace.kept (h : m.HasTrace exc lines) (hm : m.Intact) (hk : Keeps ∅ lost written m m')
    (hv : m.Anchored exc)
    (hw : ∀ w ∈ written, ∃ e, m.heap.read Facet.exception w = .ok e ∧ e.stackTrace.isRef = false) :
    m'.HasTrace exc lines := by
  obtain ⟨e, he, htexts⟩ := h
  have hexc : exc ∉ written := by
    intro hin
    obtain ⟨e', he', hnil⟩ := hw exc hin
    obtain rfl := Except.ok.inj (he.symm.trans he')
    obtain ⟨items, hitems, -⟩ := htexts
    obtain ⟨o, ho, -⟩ := Heap.read_eq_ok_iff.mp hitems
    rw [(Heap.get?_eq_some_iff.mp ho).1] at hnil
    cases hnil
  have htrace : m.Anchored e.stackTrace :=
    hm.anchored_of_read Facet.lawful_exception hv he (by simp [Facet.exception, Body.edges])
  refine ⟨e, hk.read_anchored hv hexc he, htexts.kept hm hk htrace fun w hin => ?_⟩
  obtain ⟨e', he', -⟩ := hw w hin
  exact ⟨e', he'⟩

end Machine

namespace Effect

section Rules

variable {α β : Type} {avoided lost written : Set Value} {sure pre : Prop} {m : Machine}
  {a : Effect α} {f : α → Effect β} {post mid : α → Machine → Prop} {goal : β → Machine → Prop}

/-- What a secure effect promises of its end. -/
structure Secured (avoided lost written : Set Value) (sure : Prop) (m : Machine)
    (post : α → Machine → Prop) (r : Except Unwind α) (m' : Machine) : Prop where
  keeps : Keeps avoided lost written m m'
  answers : ∀ x, r = .ok x → post x m'
  raises : ∀ exc, r = .error (.raise exc) → m'.heap.isLive exc = true
  returns : sure → ∃ x, r = .ok x

theorem secured_ok {x : α} {m' : Machine} (hk : Keeps avoided lost written m m') (hp : post x m') :
    Secured avoided lost written sure m post (.ok x) m' :=
  ⟨hk, fun _ hx => Except.ok.inj hx ▸ hp, nofun, fun _ => ⟨x, rfl⟩⟩

/-- An effect that did not return promises nothing of an answer. -/
theorem Secured.error {lost' written' : Set Value} {u : Unwind} {m' : Machine}
    (h : Secured avoided lost written sure m post (.error u) m') (hl : lost ⊆ lost')
    (hw : written ⊆ written') :
    Secured avoided lost' written' sure m goal (.error u) m' := by
  refine ⟨h.keeps.mono hl hw, nofun, fun exc he => ?_, fun hs => ?_⟩
  · obtain rfl := Except.error.inj he
    exact h.raises exc rfl
  · obtain ⟨x, hx⟩ := h.returns hs
    cases hx

theorem secure_iff : Secure avoided lost written sure pre a m post ↔
    Promises (m.Intact ∧ pre) a m (Secured avoided lost written sure m post) := by
  constructor
  · intro h
    refine ⟨h.grows, fun ⟨hm, hp⟩ hroom => ⟨h.keeps hm hp hroom, fun x hx => ?_, fun exc he => ?_,
      fun hs => ?_⟩⟩
    · exact h.answers hm hp x _ (eq_ok_of_ending hx) hroom
    · exact h.raises hm hp exc _ (eq_error_of_ending he) hroom
    · obtain ⟨x, m', hx⟩ := h.returns hm hp hs hroom
      exact ⟨x, ending_of_ok hx⟩
  · intro h
    refine ⟨h.grows, fun hm hp hroom => (h.keeps ⟨hm, hp⟩ hroom).keeps,
      fun hm hp x m' hx hroom => (h.keeps_of_ok hx ⟨hm, hp⟩ hroom).answers x rfl,
      fun hm hp exc m' he hroom => (h.keeps_of_error he ⟨hm, hp⟩ hroom).raises exc rfl,
      fun hm hp hs hroom => ?_⟩
    obtain ⟨x, hx⟩ := (h.keeps ⟨hm, hp⟩ hroom).returns hs
    exact ⟨x, _, eq_ok_of_ending hx⟩

/-- An effect that returns. -/
theorem Secure.of_ok {x : α} {m' : Machine} (h : a m = .ok x m')
    (hg : m.heap.slots.size ≤ m'.heap.slots.size)
    (hk : m.Intact → pre → m'.HasRoom → Keeps avoided lost written m m')
    (hp : m.Intact → pre → m'.HasRoom → post x m') :
    Secure avoided lost written sure pre a m post :=
  secure_iff.mpr (.of_ok h hg fun ⟨hm, hpre⟩ hroom => secured_ok (hk hm hpre hroom) (hp hm hpre hroom))

/-- An effect that fails and leaves the machine alone. -/
theorem Secure.of_fatal {u : Fault} (h : a m = .error (.fatal u) m) (hs : m.Intact → pre → ¬ sure) :
    Secure avoided lost written sure pre a m post :=
  secure_iff.mpr (.of_error h le_rfl fun ⟨hm, hpre⟩ _ =>
    ⟨.refl hm, nofun, nofun, fun hsure => absurd hsure (hs hm hpre)⟩)

theorem Secure.congr {b : Effect α} (h : a m = b m)
    (hb : Secure avoided lost written sure pre b m post) :
    Secure avoided lost written sure pre a m post := secure_iff.mpr ((secure_iff.mp hb).congr h)

theorem Secure.imp {pre' : Prop} {post' : α → Machine → Prop}
    (ha : Secure avoided lost written sure pre a m post) (hpre : m.Intact → pre' → pre)
    (hpost : ∀ x m', m.Intact → pre' → a m = .ok x m' → m'.HasRoom →
      Keeps avoided lost written m m' → post x m' → post' x m') :
    Secure avoided lost written sure pre' a m post' :=
  secure_iff.mpr ((secure_iff.mp ha).imp (fun h => ⟨h.1, hpre h.1 h.2⟩)
    (fun x m' h hp hroom hs =>
      secured_ok hs.keeps (hpost x m' hp.1 hp.2 h hroom hs.keeps (hs.answers x rfl)))
    fun _ _ _ _ _ hs => hs.error subset_rfl subset_rfl)

/-- What is assumed of the machine anyway may be used in what follows. -/
theorem Secure.intact (ha : Secure avoided lost written sure (m.Intact ∧ pre) a m post) :
    Secure avoided lost written sure pre a m post :=
  ⟨ha.grows, fun hm hp => ha.keeps hm ⟨hm, hp⟩, fun hm hp => ha.answers hm ⟨hm, hp⟩,
    fun hm hp => ha.raises hm ⟨hm, hp⟩, fun hm hp => ha.returns hm ⟨hm, hp⟩⟩

/-- More may be said to be avoided, lost and written. -/
theorem Secure.mono {avoided' lost' written' : Set Value}
    (ha : Secure avoided lost written sure pre a m post) (hsub : avoided ⊆ avoided')
    (hl : m.Intact → pre → lost ⊆ lost') (hw : m.Intact → pre → written ⊆ written') :
    Secure avoided' lost' written' sure pre a m post :=
  ⟨ha.grows, fun hm hp hroom =>
    ((ha.keeps hm hp hroom).mono (hl hm hp) (hw hm hp)).mono_avoided hsub, ha.answers,
    ha.raises, ha.returns⟩

/-- What was kept may be remembered when more is said to be lost and written. -/
theorem Secure.noting {avoided' lost' written' : Set Value}
    (ha : Secure avoided lost written sure pre a m post) (hsub : avoided ⊆ avoided')
    (hl : lost ⊆ lost') (hw : written ⊆ written') :
    Secure avoided' lost' written' sure pre a m
      fun x m' => post x m' ∧ Keeps avoided lost written m m' :=
  (ha.imp (fun _ hp => hp) fun _ _ _ _ _ _ hk hpost => ⟨hpost, hk⟩).mono hsub
    (fun _ _ => hl) fun _ _ => hw

theorem Secure.of_sure {sure' : Prop} (ha : Secure avoided lost written sure pre a m post)
    (hs : m.Intact → pre → sure' → sure) : Secure avoided lost written sure' pre a m post :=
  ⟨ha.grows, ha.keeps, ha.answers, ha.raises, fun hm hp hsure => ha.returns hm hp (hs hm hp hsure)⟩

/-- One effect after the other; what the second one writes need not be mentioned if it could not be
reached before the first. -/
theorem Secure.bind_fresh (lost' written' : α → Set Value)
    (ha : Secure avoided ∅ written sure pre a m mid)
    (hf : ∀ x m', a m = .ok x m' → Secure avoided (lost' x) (written' x) sure
      (pre ∧ Keeps avoided ∅ written m m' ∧ mid x m') (f x) m' goal)
    (hsub : ∀ x, written ⊆ written' x)
    (hl : ∀ x m', m.Intact → pre → mid x m' → ∀ v ∈ lost' x, m.heap.Reachable m.roots v → v ∈ lost)
    (hw : ∀ x m', m.Intact → pre → mid x m' → ∀ v ∈ written' x, m.heap.Reachable m.roots v →
      v ∈ written) :
    Secure avoided lost written sure pre (a >>= f) m goal := by
  refine secure_iff.mpr ((secure_iff.mp ha).bind (fun x m' h => ?_) fun _ _ _ hs =>
    hs.error (Set.empty_subset _) subset_rfl)
  refine (secure_iff.mp (hf x m' h)).mono (fun hp => ?_) fun r m'' hp _ hs => ?_
  · exact ⟨hp.2.keeps.intact, hp.1.2, hp.2.keeps, hp.2.answers x rfl⟩
  · have hmid := hp.2.answers x rfl
    exact ⟨hp.2.keeps.trans_fresh hs.keeps (hl x m' hp.1.1 hp.1.2 hmid) (hsub x)
      (hw x m' hp.1.1 hp.1.2 hmid), hs.answers, hs.raises, hs.returns⟩

theorem Secure.bind (ha : Secure avoided ∅ written sure pre a m mid)
    (hf : ∀ x m', a m = .ok x m' → Secure avoided lost written sure
      (pre ∧ Keeps avoided ∅ written m m' ∧ mid x m') (f x) m' goal) :
    Secure avoided lost written sure pre (a >>= f) m goal :=
  bind_fresh (fun _ => lost) (fun _ => written) ha hf (fun _ => Set.Subset.refl _) (fun _ _ _ _ _ _ hv _ => hv)
    fun _ _ _ _ _ _ hv _ => hv

/-- An effect whose answer is only looked at. -/
theorem Secure.map (ha : Secure avoided lost written sure pre a m post) (g : α → β)
    (hg : ∀ x m', m.Intact → pre → post x m' → goal (g x) m') :
    Secure avoided lost written sure pre (a >>= fun x => pure (g x)) m goal :=
  secure_iff.mpr ((secure_iff.mp ha).map g
    (fun x m' hp hs => secured_ok hs.keeps (hg x m' hp.1 hp.2 (hs.answers x rfl)))
    fun _ _ _ hs => hs.error subset_rfl subset_rfl)

/-- How an effect ended may be looked at: an answer is as it was said to be, an exception live. -/
theorem Secure.outcome {sure' : Prop} (ha : Secure avoided lost written sure pre a m post) :
    Secure avoided lost written sure' pre (outcome a) m fun r m' =>
      (∀ x, r = .ok x → post x m') ∧ ∀ exc, r = .error (.raise exc) → m'.heap.isLive exc = true :=
  secure_iff.mpr ((secure_iff.mp ha).outcome fun _ _ _ hs =>
    secured_ok hs.keeps ⟨hs.answers, hs.raises⟩)

/-! ### Looking and failing -/

theorem secure_pure {x : α} (hp : m.Intact → pre → post x m) :
    Secure avoided lost written sure pre (pure x) m post :=
  .of_ok rfl le_rfl (fun hm _ _ => .refl hm) fun hm h _ => hp hm h

theorem secure_fault (u : Fault) (hs : m.Intact → pre → ¬ sure) :
    Secure avoided lost written sure pre (fault u) m post := .of_fatal rfl hs

theorem Secure.ask_bind {g : Machine → α}
    (hf : Secure avoided lost written sure pre (f (g m)) m goal) :
    Secure avoided lost written sure pre (ask g >>= f) m goal :=
  Secure.congr (bind_of_ok rfl) hf

theorem Secure.read_bind {facet : Facet α} {v : Value}
    (hf : ∀ x, m.heap.read facet v = .ok x →
      Secure avoided lost written sure pre (f x) m goal)
    (hs : m.Intact → pre → sure → ∃ x, m.heap.read facet v = .ok x) :
    Secure avoided lost written sure pre (read facet v >>= f) m goal := by
  refine secure_iff.mpr (.read_bind (fun x h => secure_iff.mp (hf x h)) fun u h hp => ?_)
  refine ⟨.refl hp.1, nofun, nofun, fun hsure => ?_⟩
  obtain ⟨x, hx⟩ := hs hp.1 hp.2 hsure
  exact absurd (h.symm.trans hx) nofun

theorem Secure.update_bind {g : Machine → Machine} {f : Unit → Effect β}
    (hg : m.heap.slots.size ≤ (g m).heap.slots.size)
    (hk : m.Intact → pre → (g m).HasRoom → Keeps avoided ∅ written m (g m))
    (hf : Secure avoided lost written sure (pre ∧ Keeps avoided ∅ written m (g m)) (f ()) (g m)
      goal) :
    Secure avoided lost written sure pre (update g >>= f) m goal := by
  have hupdate : Secure avoided ∅ written sure pre (update g) m fun _ m' => m' = g m :=
    .of_ok rfl hg hk fun _ _ _ => rfl
  refine hupdate.bind fun x m' h => ?_
  obtain ⟨-, rfl⟩ := EStateM.Result.ok.inj h
  exact hf.imp (fun _ hp => ⟨hp.1, hp.2.1⟩) fun _ _ _ _ _ _ _ hq => hq

theorem Secure.record (e : Event) : Secure avoided lost written sure pre (record e) m
    fun _ m' => m'.heap = m.heap :=
  .of_ok rfl le_rfl (fun hm _ _ => .of_heap_eq hm rfl (List.Subset.refl _) (m.carries_with _ _))
    fun _ _ _ => rfl

/-! ### Handles -/

theorem mem_roots_push (m : Machine) (v : Value) :
    v ∈ ({ m with handles := m.handles.push v } : Machine).roots :=
  Machine.mem_roots.mpr (Or.inr (Or.inr (Or.inr (Or.inl (by simp)))))

theorem secure_pin {v : Value} (hv : m.Intact → pre → m.heap.Resolves v) :
    Secure avoided lost written sure pre (pin v) m fun _ m' => v ∈ m'.roots ∧ m'.heap = m.heap := by
  refine .of_ok rfl le_rfl (fun hm hp _ => ?_) fun _ _ _ => ⟨mem_roots_push m v, rfl⟩
  refine ⟨⟨hm.sound, hm.unmarked, hm.tables, ⟨fun w hw => ?_, hm.closed.edges⟩⟩,
    ⟨rfl, rfl, rfl, by simp, List.Subset.refl _⟩, fun w o _ ho => ⟨o, ho, .refl o _ _⟩⟩
  have hcases : w ∈ m.roots ∨ w = v := by
    rw [Machine.mem_roots] at hw ⊢
    simp only [Array.toList_push, List.mem_append, List.mem_singleton] at hw
    tauto
  rcases hcases with hw | rfl
  · exact hm.closed.roots w hw
  · exact hv hm hp

theorem secure_pinAll : ∀ {m : Machine} {pre : Prop} (vs : List Value),
    (m.Intact → pre → ∀ v ∈ vs, m.heap.Resolves v) →
    Secure avoided ∅ written sure pre (pinAll vs) m
      fun _ m' => (∀ v ∈ vs, v ∈ m'.roots) ∧ m'.heap = m.heap
  | m, pre, [], _ => secure_pure fun _ _ => ⟨by simp, rfl⟩
  | m, pre, v :: vs, hvs => by
    refine Secure.intact (Secure.bind (secure_pin fun hm hp => hvs hm hp.2 v List.mem_cons_self) fun _ m' h => ?_)
    obtain ⟨-, rfl⟩ := EStateM.Result.ok.inj h
    refine (secure_pinAll vs fun _ hp w hw => ?_).imp (fun _ hp => hp) ?_
    · exact hvs hp.1.1 hp.1.2 w (List.mem_cons_of_mem _ hw)
    refine fun _ m'' _ _ _ _ hk hq => ⟨fun w hw => ?_, hq.2⟩
    rcases List.mem_cons.mp hw with rfl | hw
    · exact hk.carries.roots_subset (mem_roots_push m w)
    · exact hq.1 w hw

theorem Secure.withHandles (ha : Secure avoided lost written sure pre a m post)
    (hpost : ∀ x m' handles, post x m' → post x { m' with handles := handles }) :
    Secure avoided lost written sure pre (withHandles a) m post :=
  secure_iff.mpr ((secure_iff.mp ha).withHandles fun _ m' _ hs =>
    ⟨hs.keeps.shrink, fun x hx => hpost x m' _ (hs.answers x hx), hs.raises, hs.returns⟩)

/-! ### Allocation -/

/-- A new object: it was not reachable before, and is there with its class and its body. -/
structure Made (m : Machine) (cls : Value) (body : Body) (v : Value) (m' : Machine) : Prop where
  fresh : ¬ m.heap.Reachable m.roots v
  object : ∃ o, m'.heap.get? v = some o ∧ o.cls = cls ∧ o.body = body

theorem Made.isLive {cls v : Value} {body : Body} {m' : Machine} (h : Made m cls body v m') :
    m'.heap.isLive v = true := by
  obtain ⟨o, ho, -⟩ := h.object
  exact Heap.isLive_of_get? ho

theorem Made.read_eq {cls v : Value} {facet : Facet β} {x : β} {m' : Machine} {body : Body}
    (h : Made m cls body v m') (hx : facet.get? body = some x) :
    m'.heap.read facet v = .ok x := by
  obtain ⟨o, ho, -, rfl⟩ := h.object
  exact Heap.read_eq_ok_iff.mpr ⟨o, ho, hx⟩

theorem Secure.store {cls : Value} {body : Body}
    (hp : m.Intact → pre → m.Admits cls body) :
    Secure avoided lost written sure pre (store cls body) m (Made m cls body) := by
  refine .of_ok rfl (m.heap.size_le_insert cls body) (fun hm h hroom => ?_) fun hm h hroom => ?_
  · exact hm.store (hp hm h) hroom
  · refine ⟨fun hr => ?_, _, (hm.sound.get?_insert cls body hroom _).trans (if_pos rfl), rfl, rfl⟩
    obtain ⟨o, ho⟩ := Heap.isLive_iff.mp hr.isLive
    rw [hm.sound.get?_nextReference cls body hroom] at ho
    cases ho

/-- An object whose class and values are live or immediate can be made at any time. -/
theorem Secure.alloc {cls : Value} {body : Body}
    (hp : m.Intact → pre → m.Admits cls body) :
    Secure avoided lost written sure pre (alloc cls body) m (Made m cls body) := by
  rcases alloc_cases cls body m with h | h
  · exact Secure.congr h (.store hp)
  have hpending : m.Intact → pre → ∀ v ∈ cls :: body.edges, m.heap.Resolves v := by
    intro hm hpre v hv
    rcases List.mem_cons.mp hv with rfl | hv
    · exact (hp hm hpre).cls
    · exact (hp hm hpre).edges v hv
  have hcollect : m.Intact ∧ pre → Keeps ∅ ∅ ∅ m (m.collectWith (cls :: body.edges)) ∧
      ∀ v ∈ cls :: body.edges, (m.collectWith (cls :: body.edges)).heap.Resolves v :=
    fun h => h.1.collectWith (hpending h.1 h.2)
  have hbind : (update (·.collectWith (cls :: body.edges)) >>= fun _ => Effect.store cls body) m =
    Effect.store cls body (m.collectWith (cls :: body.edges)) := bind_of_ok rfl
  refine Secure.congr (h.trans hbind.symm) (Secure.intact (Secure.update_bind ?_ ?_ ?_))
  · exact le_of_eq (Heap.size_collect m.heap _).symm
  · exact fun hm hpre _ => (hm.collectWith (hpending hm hpre.2)).1
  · refine (Secure.store fun _ hpre => ?_).imp (fun _ hpre => hpre) fun v m' _ hpre _ _ _ hmade => ?_
    · have hres := (hcollect hpre.1).2
      exact ⟨hres cls List.mem_cons_self, fun v hv => hres v (List.mem_cons_of_mem _ hv),
        (hp hpre.1.1 hpre.1.2).table⟩
    · -- what was reachable before the collection is reachable after it
      refine ⟨fun hr => hmade.fresh ?_, hmade.object⟩
      exact ((hcollect hpre.1).1.reachable hr.around).reachable

/-! ### Writing -/

/-- Writing to an object of the facet's kind. -/
theorem Secure.write {facet : Facet β} (hfacet : facet.Lawful) {v : Value} {g : β → β}
    (hp : m.Intact → pre → ∀ x, m.heap.read facet v = .ok x →
      (∀ w ∈ (facet.put (g x)).edges, m.heap.Resolves w) ∧
      (∀ t, Facet.table.get? (facet.put (g x)) = some t → t.Slotted) ∧ v ∈ written ∧
      (v ∉ avoided ∪ lost → ∀ w ∈ (facet.put x).edges, w.isRef = true →
        w ∈ (facet.put (g x)).edges))
    (hs : m.Intact → pre → sure → ∃ x, m.heap.read facet v = .ok x) :
    Secure avoided lost written sure pre (write facet v g) m fun _ m' =>
      m' = { m with heap := m.heap.modify facet v g } := by
  refine Secure.read_bind (fun x hx => ?_) hs
  obtain ⟨o, ho, hb⟩ := Heap.read_eq_ok_iff.mp hx
  refine .of_ok rfl (le_of_eq (Heap.size_modifyObject _ _ _).symm) (fun hm hpre _ => ?_)
    fun _ _ _ => rfl
  obtain ⟨hedges, htable, hwritten, hlost⟩ := hp hm hpre x hx
  have hbody : o.body = facet.put x := (hfacet.put_eq hb).symm
  have hcls := hm.closed.edges v o ho o.cls List.mem_cons_self
  refine hm.modifyObject ho rfl rfl rfl ?_ ?_ (fun t ht => ?_) hwritten ?_
  · show Body.kind _ = o.body.kind
    rw [hb, hbody, hfacet.kind_put, hfacet.kind_put]
  · intro w hw
    rcases List.mem_cons.mp hw with rfl | hw
    · exact hcls
    · rw [hb] at hw
      exact hedges w hw
  · simp only [hb] at ht
    exact htable t ht
  · intro hn w hw hr
    rcases List.mem_cons.mp hw with rfl | hw
    · exact List.mem_cons_self
    · refine List.mem_cons_of_mem _ ?_
      rw [hb]
      exact hlost hn w (hbody ▸ hw) hr

/-! ### Raising -/

theorem Secure.newText (s : String) : Secure avoided lost written sure pre (newText s) m
    (Made m (m.classValue .string) (.text s)) :=
  Secure.ask_bind (Secure.alloc fun hm _ =>
    ⟨(hm.anchored_classValue _).resolves, nofun, nofun⟩)

theorem Secure.newArray {items : List Value} (hp : m.Intact → pre → ∀ v ∈ items, m.heap.Resolves v) :
    Secure avoided lost written sure pre (newArray items) m
      (Made m (m.classValue .array) (.array items.toArray)) :=
  Secure.ask_bind (Secure.alloc fun hm hpre =>
    ⟨(hm.anchored_classValue _).resolves, fun v hv =>
      hp hm hpre v (by simpa [Body.edges] using hv), fun t ht => by cases ht⟩)

theorem Secure.newTable (strategy : Strategy) (size : Nat) :
    Secure avoided lost written sure pre (newTable strategy size) m
      (Made m (m.classValue .dict) (.table (Table.new strategy size))) := by
  refine Secure.ask_bind (Secure.alloc fun hm _ =>
    ⟨(hm.anchored_classValue _).resolves, fun v hv => ?_, fun t ht => ?_⟩)
  · simp [Body.edges, Table.slab, Table.new] at hv
  · exact Option.some.inj ht ▸ (Table.wellFormed_new strategy size).slotted

/-- An exception of a class that no collection frees. -/
theorem Secure.newException {cls : Value} (hcls : m.Intact → pre → m.Anchored cls)
    (message : String) : Secure ∅ lost written sure pre (newException cls message) m
      fun exc m' => ∃ text, Made m cls (.exception { message := text }) exc m' := by
  refine Secure.intact (Secure.bind (Secure.newText message) fun text m' _ => ?_)
  refine (Secure.alloc fun hm' hp => ⟨?_, fun v hv => ?_, fun t ht => ?_⟩).imp (fun _ hp => hp)
    fun exc m'' _ hp _ _ _ hmade => ⟨text, fun hr => hmade.fresh ?_, hmade.object⟩
  · exact (hp.2.1.anchored (hcls hp.1.1 hp.1.2)).resolves
  · simp only [Body.edges, List.mem_cons, List.not_mem_nil, or_false] at hv
    rcases hv with rfl | rfl | rfl | rfl
    · exact Heap.resolves_of_isLive hp.2.2.isLive
    · exact Heap.resolves_of_not_isRef rfl
    · exact Heap.resolves_of_not_isRef rfl
    · exact Heap.resolves_of_not_isRef rfl
  · cases ht
  · exact (hp.2.1.reachable hr.around).reachable

/-- Lines are added to a trace that is a root, one after the other. -/
theorem Secure.pushTraceLines {trace : Value} (hw : trace ∈ written) :
    ∀ {m : Machine} {pre : Prop} (names : List String), (m.Intact → pre → trace ∈ m.roots) →
      (m.Intact → pre → sure → ∃ items, m.heap.read Facet.array trace = .ok items) →
      Secure ∅ ∅ written sure pre (pushTraceLines trace names) m fun _ m' =>
        ∀ done, m.Texts trace done → m'.Texts trace (done ++ names)
  | m, pre, [], _, _ => secure_pure fun _ _ done hdone => by rwa [List.append_nil]
  | m, pre, name :: names, hroot, hread => by
    have hline : Secure ∅ ∅ written sure (m.Intact ∧ pre) (Effect.newText name) m fun line m' =>
        Made m (m.classValue .string) (.text name) line m' ∧ Keeps ∅ ∅ ∅ m m' :=
      Secure.noting (Secure.newText name) (Set.Subset.refl ∅) (Set.Subset.refl ∅) (Set.empty_subset _)
    refine Secure.intact (Secure.bind hline fun line m' _ => ?_)
    refine Secure.intact (Secure.bind (Secure.write Facet.lawful_array
      (fun hm' hp items hitems => ⟨?_, nofun, hw, ?_⟩) fun _ hp hsure => ?_) fun _ m'' _ =>
        (Secure.pushTraceLines hw names (fun _ hp => ?_) fun _ hp hsure => ?_).imp (fun _ hp => hp)
          fun _ m₃ _ hp _ _ _ hrest done hdone => ?_)
    · intro w hw
      simp only [Facet.array, Body.edges, Array.toList_push, List.mem_append, List.mem_singleton] at hw
      rcases hw with hw | rfl
      · exact hm'.resolves_of_read Facet.lawful_array hitems hw
      · exact Heap.resolves_of_isLive hp.2.2.2.1.isLive
    · intro _ w hw _
      simp only [Facet.array, Body.edges, Array.toList_push, List.mem_append] at hw ⊢
      exact Or.inl hw
    · obtain ⟨items, hitems⟩ := hread hp.2.1.1 hp.2.1.2 hsure
      exact hp.2.2.1.exists_read (hroot hp.2.1.1 hp.2.1.2) Facet.lawful_array hitems
    · have hroot := hroot hp.1.2.1.1 hp.1.2.1.2
      exact hp.2.1.carries.roots_subset (hp.1.2.2.1.carries.roots_subset hroot)
    · have hroot := hroot hp.1.2.1.1 hp.1.2.1.2
      obtain ⟨items, hitems⟩ := hread hp.1.2.1.1 hp.1.2.1.2 hsure
      obtain ⟨items', hitems'⟩ := hp.1.2.2.1.exists_read hroot Facet.lawful_array hitems
      exact hp.2.1.exists_read (hp.1.2.2.1.carries.roots_subset hroot) Facet.lawful_array hitems'
    · obtain ⟨⟨-, ⟨hm, hpre⟩, -, hmade, hk⟩, -, rfl⟩ := hp
      have hkept := hdone.kept hm hk (hm.anchored_of_root (hroot hm hpre)) fun _ hin => hin.elim
      have hpushed := hrest _ (hkept.push (hmade.read_eq rfl))
      rwa [List.append_assoc] at hpushed

/-- A trace is put into an exception that has none. -/
theorem Secure.writeTrace {exc trace : Value} (hw : exc ∈ written)
    (hp : m.Intact → pre → trace ∈ m.roots ∧
      ∀ e, m.heap.read Facet.exception exc = .ok e → e.stackTrace.isRef = false)
    (hs : m.Intact → pre → sure → ∃ e, m.heap.read Facet.exception exc = .ok e) :
    Secure ∅ ∅ written sure pre
      (Effect.write Facet.exception exc fun e => { e with stackTrace := trace }) m fun _ m' =>
        m' = { m with
          heap := m.heap.modify Facet.exception exc fun e => { e with stackTrace := trace } } := by
  refine Secure.write Facet.lawful_exception (fun hm h e he =>
    ⟨fun w hw => ?_, nofun, hw, fun _ w hw hr => ?_⟩) hs
  · simp only [Facet.exception, Body.edges, List.mem_cons, List.not_mem_nil, or_false] at hw
    rcases hw with rfl | rfl | rfl | rfl
    · exact hm.resolves_of_read Facet.lawful_exception he (by simp [Facet.exception, Body.edges])
    · exact hm.closed.roots w (hp hm h).1
    · exact hm.resolves_of_read Facet.lawful_exception he (by simp [Facet.exception, Body.edges])
    · exact hm.resolves_of_read Facet.lawful_exception he (by simp [Facet.exception, Body.edges])
  · simp only [Facet.exception, Body.edges, List.mem_cons, List.not_mem_nil, or_false] at hw ⊢
    rcases hw with rfl | rfl | rfl | rfl
    · exact Or.inl rfl
    · rw [(hp hm h).2 e he] at hr
      cases hr
    · exact Or.inr (Or.inr (Or.inl rfl))
    · exact Or.inr (Or.inr (Or.inr rfl))

/-- The class of an exception, its kind and its message are what they were, whatever has been done for
its trace. -/
structure Traced (m : Machine) (exc : Value) (m' : Machine) : Prop where
  object : ∀ o, m.heap.get? exc = some o → ∃ o', m'.heap.get? exc = some o' ∧ o'.cls = o.cls ∧
    o'.kind = o.kind ∧ ∀ e, o.body = .exception e → ∃ e', o'.body = .exception e' ∧ e'.message = e.message
  text : ∀ e s, m.heap.read Facet.exception exc = .ok e → m.heap.read Facet.text e.message = .ok s →
    m'.heap.read Facet.text e.message = .ok s

theorem Traced.isLive {exc : Value} {m' : Machine} (h : Traced m exc m')
    (hlive : m.heap.isLive exc = true) : m'.heap.isLive exc = true := by
  obtain ⟨o, ho⟩ := Heap.isLive_iff.mp hlive
  obtain ⟨o', ho', -⟩ := h.object o ho
  exact Heap.isLive_of_get? ho'

/-- Putting a trace into an exception changes nothing else of it. -/
theorem get?_modify_stackTrace {h : Heap} {exc trace : Value} {o : Object} (ho : h.get? exc = some o) :
    ∃ o', (h.modify Facet.exception exc fun e => { e with stackTrace := trace }).get? exc = some o' ∧
      o'.cls = o.cls ∧ o'.kind = o.kind ∧
      ∀ e, o.body = .exception e → ∃ e', o'.body = .exception e' ∧ e'.message = e.message := by
  refine ⟨_, (Heap.get?_modifyObject_self _ _ _).trans (congrArg (Option.map _) ho), rfl, ?_, ?_⟩
  · cases hb : o.body <;> simp [Object.kind, hb, Facet.exception, Body.kind]
  · intro e he
    exact ⟨{ e with stackTrace := trace }, by simp [he, Facet.exception], rfl⟩

/-- If the exception and its message are still the same, a trace may be put into the exception. -/
theorem traced_modify {m' : Machine} {exc trace : Value} {o : Object} (ho : m.heap.get? exc = some o)
    (ho' : m'.heap.get? exc = some o)
    (htext : ∀ e s, m.heap.read Facet.exception exc = .ok e → m.heap.read Facet.text e.message = .ok s →
      m'.heap.read Facet.text e.message = .ok s) :
    Traced m exc { m' with
      heap := m'.heap.modify Facet.exception exc fun e => { e with stackTrace := trace } } := by
  refine ⟨fun p hp => ?_, fun e s he hs => ?_⟩
  · obtain rfl := Option.some.inj (ho.symm.trans hp)
    exact get?_modify_stackTrace ho'
  · obtain ⟨q, hq, hqs⟩ := Heap.read_eq_ok_iff.mp (htext e s he hs)
    obtain ⟨p, hp, hb⟩ := Heap.read_eq_ok_iff.mp he
    have hne : e.message ≠ exc := by
      intro heq
      rw [heq, ho'] at hq
      obtain rfl := Option.some.inj hq
      obtain rfl := Option.some.inj (ho.symm.trans hp)
      rw [← Facet.lawful_exception.put_eq hb] at hqs
      cases hqs
    exact Heap.read_eq_ok_iff.mpr ⟨q, (Heap.get?_modifyObject_of_ne m'.heap hne _).trans hq, hqs⟩

/-- An exception that has no trace yet gets one: the names of the open frames. -/
theorem Secure.captureTrace {exc : Value} (hw : exc ∈ written)
    (hp : m.Intact → pre → m.heap.isLive exc = true ∧
      ∀ e, m.heap.read Facet.exception exc = .ok e → e.stackTrace.isRef = false)
    (hs : m.Intact → pre → sure → ∃ e, m.heap.read Facet.exception exc = .ok e) :
    Secure ∅ ∅ written sure pre (captureTrace exc) m fun _ m' => Traced m exc m' ∧
      ∀ e, m.heap.read Facet.exception exc = .ok e → m'.HasTrace exc m.frameNames := by
  refine Secure.ask_bind (Secure.withHandles ?_ fun _ _ _ h => ⟨⟨h.1.object, h.1.text⟩, h.2⟩)
  refine Secure.intact (Secure.bind (secure_pin fun hm h => ?_) fun _ m₁ _ => ?_)
  · exact Heap.resolves_of_isLive (hp hm h.2).1
  refine Secure.bind_fresh (fun _ => ∅) (fun trace => insert trace written)
    (Secure.noting (Secure.newArray fun _ _ v hv => by cases hv) (Set.Subset.refl ∅)
      (Set.Subset.refl ∅) (Set.empty_subset written)) (fun trace m₂ _ => ?_)
    (fun _ => Set.subset_insert _ _) (by simp) fun trace m₂ _ _ hmade v hv hr => ?_
  · refine Secure.bind (secure_pin fun _ h => Heap.resolves_of_isLive h.2.2.1.isLive)
      fun _ m₃ _ => ?_
    refine Secure.bind (Secure.noting
      (Secure.pushTraceLines (Set.mem_singleton trace) _ (fun _ h => h.2.2.1) fun _ h _ =>
        ⟨_, by rw [h.2.2.2]; exact h.1.2.2.1.read_eq rfl⟩) (Set.Subset.refl ∅)
      (Set.Subset.refl ∅) (Set.singleton_subset_iff.mpr (Set.mem_insert _ _))) fun _ m₄ _ => ?_
    have hwrite : Secure ∅ ∅ (insert trace written) sure ((m.Intact ∧ pre) ∧ trace ∈ m₄.roots ∧
        (∃ o, m.heap.get? exc = some o ∧ m₄.heap.get? exc = some o) ∧ m₄.Texts trace m.frameNames ∧
        ∀ e s, m.heap.read Facet.exception exc = .ok e → m.heap.read Facet.text e.message = .ok s →
          m₄.heap.read Facet.text e.message = .ok s) (Effect.write Facet.exception exc
        fun e => { e with stackTrace := trace }) m₄ fun _ m' => Traced m exc m' ∧
          ∀ e, m.heap.read Facet.exception exc = .ok e → m'.HasTrace exc m.frameNames := by
      have hread : ∀ {o e}, m.heap.get? exc = some o → m₄.heap.get? exc = some o →
          (m₄.heap.read Facet.exception exc = .ok e ↔ m.heap.read Facet.exception exc = .ok e) := by
        intro o e ho ho₄
        rw [Heap.read_eq_ok_iff, Heap.read_eq_ok_iff, ho, ho₄]
      refine (Secure.writeTrace (Set.mem_insert_of_mem _ hw) (fun _ h => ?_) fun _ h hsure => ?_).imp
        (fun _ h => h) fun _ m₅ _ h _ _ _ heq => ?_
      · obtain ⟨⟨hm, hpre⟩, htrace, ⟨o, ho, ho₄⟩, -⟩ := h
        exact ⟨htrace, fun e he => (hp hm hpre).2 e ((hread ho ho₄).mp he)⟩
      · obtain ⟨⟨hm, hpre⟩, -, ⟨o, ho, ho₄⟩, -⟩ := h
        obtain ⟨e, he⟩ := hs hm hpre hsure
        exact ⟨e, (hread ho ho₄).mpr he⟩
      · obtain ⟨-, -, ⟨o, ho, ho₄⟩, hlines, htext⟩ := h
        rw [heq]
        exact ⟨traced_modify ho ho₄ htext, fun e he => hlines.hasTrace ((hread ho ho₄).mpr he)⟩
    refine hwrite.imp (fun _ h => ?_) fun _ _ _ _ _ _ _ h => h
    obtain ⟨⟨⟨⟨⟨hm, hpre⟩, hk₁, hroot, heap₁⟩, -, hmade, hk₂⟩, hk₃, htrace, heap₃⟩, -, hpushed, hk₄⟩ := h
    -- nothing has been written to what was reachable before the trace was made
    have hsame : ∀ {w p}, m₁.Anchored w → m.heap.get? w = some p → m₄.heap.get? w = some p := by
      intro w p hw hp
      rw [← heap₁] at hp
      have hp₂ := hk₂.get?_anchored hw (Set.notMem_empty w) hp
      refine hk₄.get?_anchored (hk₃.anchored (hk₂.anchored hw)) (fun heq => ?_) (by rwa [heap₃])
      rw [Set.mem_singleton_iff.mp heq] at hw hp
      rcases hw with hw | hw
      · rw [(Heap.get?_eq_some_iff.mp hp).1] at hw
        cases hw
      · exact hmade.fresh hw
    have hexc : m₁.Anchored exc := hk₁.intact.anchored_of_root hroot
    obtain ⟨o, ho⟩ := Heap.isLive_iff.mp (hp hm hpre).1
    have hempty : m₃.Texts trace [] := ⟨#[], by rw [heap₃]; exact hmade.read_eq rfl, .nil⟩
    refine ⟨⟨hm, hpre⟩, hk₄.carries.roots_subset htrace, ⟨o, ho, hsame hexc ho⟩, hpushed [] hempty,
      fun e s he hs => ?_⟩
    obtain ⟨q, hq, hqs⟩ := Heap.read_eq_ok_iff.mp hs
    refine Heap.read_eq_ok_iff.mpr ⟨q, hsame ?_ hq, hqs⟩
    refine hk₁.intact.anchored_of_read Facet.lawful_exception hexc (by rwa [heap₁]) ?_
    simp [Facet.exception, Body.edges]
  · rcases hv with rfl | hv
    · exact absurd hr hmade.1.fresh
    · exact hv

theorem Secure.throwException {exc : Value} (hp : m.Intact → pre → m.heap.isLive exc = true) :
    Secure avoided lost written False pre (throwException exc : Effect α) m post := by
  let m' : Machine := { m with unwindState := .unwinding }
  have h : (Effect.throwException exc : Effect α) m = .error (.raise exc) m' := rfl
  have hk : m.Intact → Keeps avoided lost written m m' := fun hm =>
    .of_heap_eq hm rfl (List.Subset.refl _) ⟨rfl, rfl, rfl, List.prefix_rfl, List.Subset.refl _⟩
  refine ⟨?_, fun hm _ _ => ?_, fun _ _ x m'' hx => ?_, fun hm hpre exc' m'' he _ => ?_,
    fun _ _ => False.elim⟩
  · rw [after_of_error h]
  · rw [after_of_error h]
    exact hk hm
  · rw [h] at hx
    cases hx
  · obtain ⟨hexc, rfl⟩ := EStateM.Result.error.inj (h.symm.trans he)
    obtain rfl := Unwind.raise.inj hexc
    exact hp hm hpre

/-- Raising an error of a built-in class writes to nothing that was there before. -/
theorem Secure.raiseError (kind : ErrorKind) (message : String) (hs : m.Intact → pre → ¬ sure) :
    Secure avoided lost written sure pre (raiseError kind message : Effect α) m post := by
  have hraise : Secure ∅ ∅ ∅ False pre (Effect.raiseError kind message : Effect α) m post := by
    refine Secure.ask_bind ?_
    refine Secure.bind_fresh (fun _ => ∅) (fun exc => {exc})
      (Secure.newException (fun hm _ => hm.anchored_classValue _) message) (fun exc m' _ => ?_)
      (fun _ => Set.empty_subset _) (by simp) ?_
    · refine Secure.bind (Secure.captureTrace (Set.mem_singleton exc) (fun _ h => ?_)
        fun _ _ => False.elim) fun _ m'' _ => ?_
      · obtain ⟨-, -, text, hmade⟩ := h
        refine ⟨hmade.isLive, fun e he => ?_⟩
        have hread : m'.heap.read Facet.exception exc = .ok { message := text } := hmade.read_eq rfl
        obtain rfl := Except.ok.inj (hread.symm.trans he)
        exact (rfl : Value.nil.isRef = false)
      · exact Secure.throwException fun _ h => h.2.2.1.isLive h.1.2.2.choose_spec.isLive
    · rintro exc m' _ _ ⟨text, hmade⟩ v rfl hr
      exact absurd hr hmade.fresh
  exact (hraise.of_sure fun hm h hsure => absurd hsure (hs hm h)).mono (Set.empty_subset _)
    (fun _ _ => Set.empty_subset _) fun _ _ => Set.empty_subset _

end Rules

end Effect

end ObjectMachine
