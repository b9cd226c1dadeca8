import Mathlib.Tactic
import ObjectMachine.Proofs.Frames.Judging

/-! Effects that keep exceptions in order of age.

An effect recalls its exceptions if it leaves an aged heap, loses no exception that is a root, and
raises nothing but exceptions.  What neither writes contexts nor raises does so if it loses no roots;
raising does, too, and an exception that is made to be raised is younger than all there were. -/

namespace ObjectMachine

/-- A later machine: contexts are older still, and every root is one still; if it is an exception, it
is the same. -/
structure Machine.Recalls (m m' : Machine) : Prop where
  carries : m.Carries m'
  aged : m'.heap.Aged
  serial_le : m.heap.nextSerial ≤ m'.heap.nextSerial
  dates : ∀ v ∈ m.roots, ∀ n, m.heap.Dates v n → m'.heap.Dates v n

/-- A run from `m` to `m'` that ended with `r`: it kept contexts older than their exceptions, and what
it raised is one. -/
structure Machine.Concludes (m : Machine) (r : Except Unwind α) (m' : Machine) : Prop where
  grows : m.heap.slots.size ≤ m'.heap.slots.size
  recalls : m.heap.Aged → m'.HasRoom → m.Recalls m'
  raises : m.heap.Aged → m'.HasRoom → ∀ exc, r = .error (.raise exc) → ∃ n, m'.heap.Dates exc n

namespace Machine

variable {m m' m'' : Machine}

theorem Recalls.of_heap_eq (ha : m.heap.Aged) (hheap : m'.heap = m.heap) (hc : m.Carries m') :
    m.Recalls m' :=
  ⟨hc, hheap ▸ ha, hheap ▸ le_rfl, fun _ _ _ hn => hheap ▸ hn⟩

theorem Recalls.refl (ha : m.heap.Aged) : m.Recalls m := .of_heap_eq ha rfl (.refl m)

theorem Recalls.trans (h : m.Recalls m') (h' : m'.Recalls m'') : m.Recalls m'' :=
  ⟨h.carries.trans h'.carries, h'.aged, h.serial_le.trans h'.serial_le, fun v hv n hn =>
    h'.dates v (h.carries.roots_subset hv) n (h.dates v hv n hn)⟩

theorem recalls_collectWith (ha : m.heap.Aged) (pending : List Value) :
    m.Recalls (m.collectWith pending) := by
  refine ⟨m.carries_with _ _, ha.collect _, le_rfl, fun v hv n hn => ?_⟩
  obtain ⟨o, ho, -⟩ := id hn
  exact hn.collect ha.unmarked (.root (List.mem_append_left _ hv) (Heap.isLive_of_get? ho))

theorem recalls_store (ha : m.heap.Aged) (cls : Value) {body : Body}
    (hbody : ∀ e, body = .exception e → e.context.isNil = true) :
    m.Recalls { m with heap := m.heap.insert cls body } :=
  ⟨m.carries_with _ _, ha.insert cls hbody, by rw [Heap.nextSerial_insert]; exact Nat.le_succ _,
    fun _ _ _ hn => hn.insert ha.sound cls body⟩

/-- What follows a run on the machine it left. -/
theorem Concludes.precede {r : Except Unwind α} {r' : Except Unwind β} (h : m.Concludes r m')
    (h' : m'.Concludes r' m'') : m.Concludes r' m'' where
  grows := h.grows.trans h'.grows
  recalls ha hroom :=
    have hm := h.recalls ha (le_trans h'.grows hroom)
    hm.trans (h'.recalls hm.aged hroom)
  raises ha hroom := h'.raises (h.recalls ha (le_trans h'.grows hroom)).aged hroom

theorem Concludes.of_heap_eq {r : Except Unwind α} (hheap : m'.heap = m.heap) (hc : m.Carries m')
    (hr : m.heap.Aged → ∀ exc, r = .error (.raise exc) → ∃ n, m.heap.Dates exc n) :
    m.Concludes r m' :=
  ⟨by rw [hheap], fun ha _ => .of_heap_eq ha hheap hc, fun ha _ => by rw [hheap]; exact hr ha⟩

/-- What can be said of a run inside a frame, a rescue or a flight, can be said from outside, where
there are fewer roots. -/
theorem Concludes.transport {inner inner' : Machine} {r : Except Unwind α}
    (h : inner.Concludes r inner') (hheap : inner.heap = m.heap) (hheap' : m'.heap = inner'.heap)
    (hroots : m.roots ⊆ inner.roots) (hc : inner.Carries inner' → m.Carries m') :
    m.Concludes r m' := by
  have hinner : m'.HasRoom → inner'.HasRoom := fun hroom => by rwa [HasRoom, ← hheap']
  refine ⟨by rw [← hheap, hheap']; exact h.grows, fun hm hroom => ?_, fun hm hroom => ?_⟩
  · have hk := h.recalls (hheap ▸ hm) (hinner hroom)
    refine ⟨hc hk.carries, hheap' ▸ hk.aged, ?_, fun v hv n hn => ?_⟩
    · rw [← hheap, hheap']
      exact hk.serial_le
    · rw [hheap']
      exact hk.dates v (hroots hv) n (hheap ▸ hn)
  · rw [hheap']
    exact h.raises (hheap ▸ hm) (hinner hroom)

end Machine

/-- Keeping contexts older than their exceptions, as a verdict. -/
def Verdict.recalling : Verdict where
  Holds m r m' := m.Concludes r m'
  precede h h' := h.precede h'
  ends h hraise := ⟨h.grows, h.recalls, fun ha hroom exc he => h.raises ha hroom exc (hraise exc he)⟩
  idle hheap hc := .of_heap_eq hheap hc fun _ _ he => by cases he
  transport h hheap hheap' hroots hc := h.transport hheap hheap' hroots hc

namespace Effect

open Judgement

/-- Whether an effect is balanced, keeps contexts older than their exceptions, and raises exceptions
only: every run of it concludes. -/
def Recalls (inScope : Bool) (a : Effect α) : Prop := Earns .recalling inScope a

variable {α β : Type} {inScope : Bool} {a : Effect α} {f : α → Effect β} {m : Machine}

theorem Recalls.concludes (ha : Recalls inScope a) (m : Machine) :
    m.Concludes (a.ending m) (a.after m) := Earns.holds ha m

theorem Calm.concludes (ha : Calm a) (hgrows : m.heap.slots.size ≤ (a.after m).heap.slots.size)
    (h : m.heap.Aged → m.Recalls (a.after m)) : m.Concludes (a.ending m) (a.after m) :=
  ⟨hgrows, fun hm _ => h hm, fun _ _ exc he => absurd he ((ha m).2 exc)⟩

/-! ### Allocating and writing -/

theorem grows_alloc (cls : Value) (body : Body) (m : Machine) :
    m.heap.slots.size ≤ ((alloc cls body).after m).heap.slots.size := by
  rcases alloc_cases cls body m with h | h
  · rw [after_of_ok (h.trans rfl)]
    exact Heap.size_le_insert _ _ _
  · rw [after_of_ok (h.trans rfl)]
    exact (Heap.size_collect m.heap _).ge.trans (Heap.size_le_insert _ _ _)

theorem recalls_alloc (cls : Value) {body : Body}
    (hbody : ∀ e, body = .exception e → e.context.isNil = true) :
    Recalls inScope (alloc cls body) := by
  have hcalm : Calm (alloc cls body) := calm_heedless.alloc cls body
  refine fun m => ⟨steady_heedless.alloc cls body m, hcalm.concludes (grows_alloc cls body m) fun hm => ?_⟩
  rcases alloc_cases cls body m with h | h
  · rw [after_of_ok (h.trans rfl)]
    exact Machine.recalls_store hm cls hbody
  · rw [after_of_ok (h.trans rfl)]
    have hcollected := Machine.recalls_collectWith hm (cls :: body.edges)
    exact hcollected.trans (Machine.recalls_store hcollected.aged cls hbody)

theorem recalls_write {facet : Facet α} {g : α → α}
    (hg : ∀ b x, facet.get? b = some x → (facet.put (g x)).context? = b.context?) (v : Value) :
    Recalls inScope (write facet v g) := by
  have hcalm : Calm (write facet v g) := calm_heedless.write facet v g
  refine fun m => ⟨steady_heedless.write facet v g m, hcalm.concludes ?_ fun hm => ?_⟩
  · exact (size_after_write facet v g m).ge
  · rcases after_write facet v g m with h | h
    · rw [h]
      exact .refl hm
    · rw [h]
      exact ⟨m.carries_with _ _, hm.modify hg v, (Heap.nextSerial_modifyObject m.heap v _).ge,
        fun _ _ _ hn => hn.modify fun b x hx => by rw [hg b x hx]⟩

theorem recalling_makes : (Verdict.recalling.judgement inScope).Makes where
  alloc cls _ _ hbody := recalls_alloc cls hbody
  push lines _ := recalls_write (fun _ _ hx => by rw [← Facet.lawful_array.put_eq hx]; rfl) lines
  setTrace exc _ := recalls_write (fun _ _ hx => by rw [← Facet.lawful_exception.put_eq hx]; rfl) exc

/-! ### Raising -/

theorem recalls_captureTrace (exc : Value) : Recalls inScope (captureTrace exc) :=
  meets_captureTrace verdictScope (fun _ => recalling_makes) exc

/-- The exception is not lost while its trace is taken. -/
theorem dates_captureTrace {exc : Value} {n : Nat} (hm : m.heap.Aged) (hn : m.heap.Dates exc n)
    (hroom : ((captureTrace exc).after m).HasRoom) :
    ((captureTrace exc).after m).heap.Dates exc n := by
  have htaken : Recalls true (takeTrace exc m.frameNames) := recalling_makes.takeTrace earns_pin exc _
  have htrace := htaken.concludes { m with handles := m.handles.push exc }
  rw [Machine.HasRoom, heap_after_captureTrace] at hroom
  rw [heap_after_captureTrace]
  exact (htrace.recalls hm hroom).dates exc (mem_roots_push m exc) n hn

/-- What is thrown after something that raises nothing. -/
theorem Calm.throwing (ha : Calm a) (exc : Value) (m : Machine) :
    (∀ exc', (a >>= fun _ => (throwException exc : Effect β)).ending m = .error (.raise exc') →
      exc' = exc) ∧
    ∃ state, (a >>= fun _ => (throwException exc : Effect β)).after m =
      { a.after m with unwindState := state } := by
  cases h : a m with
  | ok x m₁ =>
    rw [ending_bind_of_ok h, after_bind_of_ok h, after_of_ok h]
    exact ⟨fun exc' he => (Unwind.raise.inj (Except.error.inj he)).symm, .unwinding, rfl⟩
  | error u m₁ =>
    rw [ending_bind_of_error h, after_bind_of_error h, after_of_error h]
    refine ⟨fun exc' he => absurd ?_ ((ha m).2 exc'), m₁.unwindState, rfl⟩
    rw [ending_of_error h, Except.error.inj he]

theorem Recalls.throwing (ha : Recalls true a) (hcalm : Calm a) (exc : Value) :
    m.Concludes (.ok () : Except Unwind Unit)
      ((a >>= fun _ => (throwException exc : Effect β)).after m) := by
  obtain ⟨-, state, hafter⟩ := hcalm.throwing (β := β) exc m
  have h := ha.concludes m
  rw [hafter]
  exact ⟨h.grows, fun hm hroom => (h.recalls hm hroom).trans (.of_heap_eq (h.recalls hm hroom).aged rfl
    ⟨rfl, rfl, rfl, List.prefix_rfl, List.Subset.refl _⟩), nofun⟩

/-- A new object gets the next serial. -/
theorem exists_alloc_dates (cls : Value) (body : Body) (m : Machine) :
    ∃ v m', alloc cls body m = .ok v m' ∧ ∀ e, body = .exception e → m.heap.Aged → m'.HasRoom →
      m'.heap.Dates v m.heap.nextSerial := by
  rcases alloc_cases cls body m with h | h
  · refine ⟨_, _, h, fun e he hm hroom => ?_⟩
    subst he
    exact Heap.dates_nextReference hm.sound cls e hroom
  · refine ⟨_, _, h, fun e he hm hroom => ?_⟩
    subst he
    exact Heap.dates_nextReference (hm.collect _).sound cls e hroom

/-- A new exception is younger than all there were. -/
theorem exists_newException (cls : Value) (message : String) (m : Machine) :
    ∃ exc m', newException cls message m = .ok exc m' ∧ (m.heap.Aged → m'.HasRoom →
      ∃ n, m'.heap.Dates exc n ∧ m.heap.nextSerial ≤ n) := by
  obtain ⟨text, m₁, hstored, -⟩ := exists_alloc_dates (m.classValue .string) (.text message) m
  obtain ⟨exc, m', hexc, hdates⟩ := exists_alloc_dates cls (.exception { message := text }) m₁
  have hnew : newText message m = .ok text m₁ := hstored
  have htext : Recalls true (newText message) := recalling_makes.newText message
  have hfirst := htext.concludes m
  have hgrows := grows_alloc cls (.exception { message := text }) m₁
  rw [after_of_ok hnew] at hfirst
  rw [after_of_ok hexc] at hgrows
  refine ⟨exc, m', (bind_of_ok hnew).trans hexc, fun hm hroom => ?_⟩
  have hk := hfirst.recalls hm (le_trans hgrows hroom)
  exact ⟨m₁.heap.nextSerial, hdates _ rfl hk.aged hroom, hk.serial_le⟩

/-- Raising an error makes an exception, takes its trace and throws it. -/
theorem exists_raiseError (kind : ErrorKind) (message : String) (m : Machine) :
    ∃ exc m', newException (m.classValue (.error kind)) message m = .ok exc m' ∧
      (raiseError kind message : Effect α) m =
        (captureTrace exc >>= fun _ => throwException exc) m' ∧
      (m.heap.Aged → m'.HasRoom → ∃ n, m'.heap.Dates exc n ∧ m.heap.nextSerial ≤ n) := by
  obtain ⟨exc, m', hnew, hdates⟩ := exists_newException (m.classValue (.error kind)) message m
  exact ⟨exc, m', hnew, bind_of_ok hnew, hdates⟩

/-- A built-in error is a new exception. -/
theorem raises_raiseError (kind : ErrorKind) (message : String) (hm : m.heap.Aged)
    (hroom : ((raiseError kind message : Effect α).after m).HasRoom) {exc : Value}
    (hend : (raiseError kind message : Effect α).ending m = .error (.raise exc)) :
    ∃ n, ((raiseError kind message : Effect α).after m).heap.Dates exc n ∧ m.heap.nextSerial ≤ n := by
  obtain ⟨new, m', hnew, heq, hdates⟩ := exists_raiseError (α := α) kind message m
  have hexc : Recalls true (newException (m.classValue (.error kind)) message) :=
    recalling_makes.newException _ message
  have hfirst := hexc.concludes m
  rw [after_of_ok hnew] at hfirst
  obtain ⟨hraised, state, hafter⟩ := (calm_captureTrace new).throwing (β := α) new m'
  have hthrown : (raiseError kind message : Effect α).after m =
      { (captureTrace new).after m' with unwindState := state } := (after_congr heq).trans hafter
  obtain rfl := hraised exc ((ending_congr heq).symm.trans hend)
  rw [hthrown] at hroom ⊢
  have htrace : Recalls true (captureTrace exc) := recalls_captureTrace exc
  have hroom' := le_trans (htrace.concludes m').grows hroom
  obtain ⟨n, hn, hle⟩ := hdates hm hroom'
  exact ⟨n, dates_captureTrace (hfirst.recalls hm hroom').aged hn hroom, hle⟩

theorem recalls_raiseError (kind : ErrorKind) (message : String) :
    Recalls inScope (raiseError kind message : Effect α) := by
  refine fun m => ⟨steady_raiseError kind message m, ?_⟩
  obtain ⟨new, m', hnew, heq, -⟩ := exists_raiseError (α := α) kind message m
  have hexc : Recalls true (newException (m.classValue (.error kind)) message) :=
    recalling_makes.newException _ message
  have hfirst := hexc.concludes m
  rw [after_of_ok hnew] at hfirst
  have h := hfirst.precede ((recalls_captureTrace new).throwing (β := α) (calm_captureTrace new) new)
  rw [← after_congr heq] at h
  exact ⟨h.grows, h.recalls, fun hm hroom exc hend =>
    (raises_raiseError kind message hm hroom hend).imp fun _ hn => hn.1⟩

/-- Raising an exception again. -/
theorem recalls_raiseValue (exc : Value) : Recalls inScope (raiseValue exc : Effect α) := by
  refine fun m => ⟨steady_raises.raiseValue exc m, ?_⟩
  cases hread : m.heap.read Facet.exception exc with
  | error u =>
    have heq : (raiseValue exc : Effect α) m = _ := raiseValue_of_other hread
    have herror (message : String) : Recalls true (raiseError .typeError message : Effect α) :=
      recalls_raiseError _ message
    rw [ending_congr heq, after_congr heq]
    exact (herror _).concludes m
  | ok e =>
    have heq : (raiseValue exc : Effect α) m = _ := raiseValue_of_exception hread
    rw [ending_congr heq, after_congr heq]
    obtain ⟨n, hn⟩ := Heap.exists_dates hread
    dsimp only
    split
    · obtain ⟨hraised, state, hafter⟩ := (calm_captureTrace exc).throwing (β := α) exc m
      have h := (recalls_captureTrace exc).throwing (β := α) (m := m) (calm_captureTrace exc) exc
      refine ⟨h.grows, h.recalls, fun hm hroom exc' hend => ?_⟩
      obtain rfl := hraised exc' hend
      rw [hafter] at hroom ⊢
      exact ⟨n, dates_captureTrace hm hn hroom⟩
    · have hcalm : Calm (pure () : Effect Unit) := meets_pure ()
      have hpure : Recalls true (pure () : Effect Unit) := meets_pure ()
      have h := hpure.throwing (β := α) (m := m) hcalm exc
      refine ⟨h.grows, h.recalls, fun hm hroom exc' hend => ⟨n, ?_⟩⟩
      obtain rfl := (hcalm.throwing (β := α) exc m).1 exc' hend
      exact hn

end Effect

end ObjectMachine
