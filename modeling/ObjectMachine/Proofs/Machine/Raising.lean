import Mathlib.Tactic
import ObjectMachine.Proofs.Frames.Balance
import ObjectMachine.Proofs.Machine.Growth
import ObjectMachine.Proofs.Machine.Secure

/-! Raising a built-in error.

On a machine in order, with room for the exception, its message and its trace, a built-in error is
always raised: there is no other way for it to end.  What is on its way is a live exception of the
built-in class, with the message that was given. -/

namespace ObjectMachine

/-- A live exception of a built-in class, with a message. -/
def Machine.IsError (m : Machine) (kind : ErrorKind) (message : String) (exc : Value) : Prop :=
  ∃ o e, m.heap.get? exc = some o ∧ o.cls = m.classValue (.error kind) ∧ o.body = .exception e ∧
    m.heap.read Facet.text e.message = .ok message

namespace Effect

open Machine Judgement

variable {α : Type} {m m' : Machine} {v w cls : Value} {body : Body} {o : Object}

/-! ### Making the exception -/

/-- What an object is made of is still there when it is made. -/
theorem get?_alloc (hm : m.Intact) (hbody : m.Admits cls body) (h : alloc cls body m = .ok v m')
    (hroom : m'.HasRoom) (hw : w ∈ cls :: body.edges) (ho : m.heap.get? w = some o) :
    m'.heap.get? w = some o := by
  have hstore : ∀ k : Machine, k.Intact → store cls body k = .ok v m' → k.heap.get? w = some o →
      m'.heap.get? w = some o := by
    intro k hk hkv hko
    obtain ⟨-, rfl⟩ := EStateM.Result.ok.inj hkv
    rw [hk.sound.get?_insert cls body hroom, if_neg ?_, hko]
    rintro rfl
    rw [hk.sound.get?_nextReference cls body hroom] at hko
    cases hko
  have hpending : ∀ u ∈ cls :: body.edges, m.heap.Resolves u :=
    List.forall_mem_cons.mpr ⟨hbody.cls, hbody.edges⟩
  rcases alloc_cases cls body m with halloc | halloc
  · exact hstore m hm (halloc.symm.trans h) ho
  · have hkeeps : Keeps ∅ ∅ ∅ m (m.collectWith (cls :: body.edges)) := (hm.collectWith hpending).1
    refine hstore _ hkeeps.intact (halloc.symm.trans h) ?_
    refine (Heap.get?_collect_eq_some_iff hm.unmarked).mpr ⟨ho, .root (List.mem_append_right _ hw) ?_⟩
    exact Heap.isLive_of_get? ho

theorem exists_alloc_eq (cls : Value) (body : Body) (m : Machine) : ∃ v m', alloc cls body m = .ok v m' := by
  rcases alloc_cases cls body m with h | h
  · exact ⟨_, _, h⟩
  · exact ⟨_, _, h⟩

theorem exists_newText (s : String) (m : Machine) : ∃ v m', newText s m = .ok v m' :=
  exists_alloc_eq (m.classValue .string) (.text s) m

/-- A new exception may be made of a class and a message. -/
theorem admits_exception {text : Value} (hcls : m.heap.Resolves cls) (htext : m.heap.Resolves text) :
    m.Admits cls (.exception { message := text }) := by
  refine ⟨hcls, fun u hu => ?_, nofun⟩
  simp only [Body.edges, List.mem_cons, List.not_mem_nil, or_false] at hu
  rcases hu with rfl | rfl | rfl | rfl
  · exact htext
  · exact Heap.resolves_of_not_isRef rfl
  · exact Heap.resolves_of_not_isRef rfl
  · exact Heap.resolves_of_not_isRef rfl

theorem within_newException (cls : Value) (message : String) : Within 2 (newException cls message) :=
  (within_newText message).bind fun _ => within_alloc _ _

/-- A new exception has its class and its message. -/
theorem exists_newException_made (hm : m.Intact) (hcls : m.Anchored cls) (message : String)
    (hroom : ((newException cls message).after m).HasRoom) :
    ∃ exc m', newException cls message m = .ok exc m' ∧ Keeps ∅ ∅ ∅ m m' ∧
      ∃ o text, m'.heap.get? exc = some o ∧ o.cls = cls ∧ o.body = .exception { message := text } ∧
        m'.heap.read Facet.text text = .ok message := by
  obtain ⟨text, m₁, hnew⟩ := exists_newText message m
  obtain ⟨exc, m₂, halloc⟩ := exists_alloc_eq cls (.exception { message := text }) m₁
  have hexc : newException cls message m = .ok exc m₂ := (bind_of_ok hnew).trans halloc
  have hroom₂ : m₂.HasRoom := by rwa [after_of_ok hexc] at hroom
  have hroom₁ : m₁.HasRoom := by
    have hgrows : Secure ∅ ∅ ∅ True False (alloc cls (.exception { message := text })) m₁ fun _ _ => True :=
      (Secure.alloc fun _ => False.elim).imp (fun _ => id) fun _ _ _ _ _ _ _ _ => trivial
    have hsize := hgrows.grows
    rw [after_of_ok halloc] at hsize
    exact hsize.trans hroom₂
  -- first the text of the message, then the exception
  have hfirst : Secure ∅ ∅ ∅ True True (newText message) m
      (Made m (m.classValue .string) (.text message)) := Secure.newText message
  have hk₁ := hfirst.keeps hm trivial (by rwa [after_of_ok hnew])
  rw [after_of_ok hnew] at hk₁
  obtain ⟨p, hp, -, hpbody⟩ := (hfirst.answers hm trivial text m₁ hnew hroom₁).object
  have hbody : m₁.Admits cls (.exception { message := text }) :=
    admits_exception (hk₁.anchored hcls).resolves (Heap.resolves_of_isLive (Heap.isLive_of_get? hp))
  have hsecond : Secure ∅ ∅ ∅ True True (alloc cls (.exception { message := text })) m₁
      (Made m₁ cls (.exception { message := text })) := Secure.alloc fun _ _ => hbody
  have hk₂ := hsecond.keeps hk₁.intact trivial (by rwa [after_of_ok halloc])
  rw [after_of_ok halloc] at hk₂
  obtain ⟨o, ho, hocls, hobody⟩ := (hsecond.answers hk₁.intact trivial exc m₂ halloc hroom₂).object
  refine ⟨exc, m₂, hexc, hk₁.trans hk₂, o, text, ho, hocls, hobody, ?_⟩
  have hp₂ := get?_alloc hk₁.intact hbody halloc hroom₂ (by simp [Body.edges]) hp
  exact Heap.read_eq_ok_iff.mpr ⟨p, hp₂, by rw [hpbody]; rfl⟩

/-! ### Taking the trace -/

theorem within_pushTraceLines (trace : Value) :
    ∀ names : List String, Within names.length (pushTraceLines trace names)
  | [] => within_of_frugal (meets_pure ())
  | name :: names => by
    have h := (within_newText name).bind fun line =>
      (frugal_write Facet.array trace fun lines => lines.push line).andThen fun _ =>
        within_pushTraceLines trace names
    exact h.mono (by rw [List.length_cons]; omega)

/-- A trace takes a slot for each frame and one for itself. -/
theorem size_captureTrace_le (exc : Value) (m : Machine) :
    ((captureTrace exc).after m).heap.slots.size ≤ m.heap.slots.size + (m.frames.length + 1) := by
  have hnames : m.frameNames.length = m.frames.length := List.length_map _
  have htrace : Within (1 + m.frameNames.length) (takeTrace exc m.frameNames) := by
    refine Within.bind ((meets_ask _).andThen fun _ => within_alloc _ _) fun trace => ?_
    refine (frugal_pin trace).andThen fun _ => ?_
    exact (within_pushTraceLines trace m.frameNames).bind (k := 0) fun _ =>
      within_of_frugal (frugal_write _ _ _)
  have h := (htrace { m with handles := m.handles.push exc }).1
  rw [heap_after_captureTrace]
  exact h.trans (by rw [hnames, Nat.add_comm 1])

/-- An exception without trace gets the names of the open frames, and nothing else is written. -/
theorem exists_captureTrace (hm : m.Intact) {exc : Value} {e : ExceptionBody}
    (he : m.heap.read Facet.exception exc = .ok e) (hnone : e.stackTrace.isRef = false)
    (hroom : ((captureTrace exc).after m).HasRoom) :
    ∃ m', captureTrace exc m = .ok () m' ∧ Keeps ∅ ∅ {exc} m m' ∧ Traced m exc m' ∧
      m'.HasTrace exc m.frameNames := by
  obtain ⟨o, ho, -⟩ := Heap.read_eq_ok_iff.mp he
  have hcapture : Secure ∅ ∅ {exc} True True (captureTrace exc) m fun _ m' => Traced m exc m' ∧
      ∀ e, m.heap.read Facet.exception exc = .ok e → m'.HasTrace exc m.frameNames := by
    refine Secure.captureTrace (Set.mem_singleton exc)
      (fun _ _ => ⟨Heap.isLive_of_get? ho, fun e' he' => ?_⟩) fun _ _ _ => ⟨e, he⟩
    obtain rfl := Except.ok.inj (he.symm.trans he')
    exact hnone
  obtain ⟨_, m', hok⟩ := hcapture.returns hm trivial trivial hroom
  have hk := hcapture.keeps hm trivial hroom
  rw [after_of_ok hok] at hk hroom
  obtain ⟨htraced, htrace⟩ := hcapture.answers hm trivial _ m' hok hroom
  exact ⟨m', hok, hk, htraced, htrace e he⟩

/-! ### Raising it -/

/-- Throwing does nothing to the heap. -/
theorem heap_after_throwing (a : Effect Unit) (exc : Value) (m : Machine) :
    ((a >>= fun _ => (throwException exc : Effect α)).after m).heap = (a.after m).heap := by
  cases h : a m with
  | ok x m' =>
    rw [after, bind_of_ok h, after_of_ok h]
    rfl
  | error u m' => rw [after_bind_of_error h, after_of_error h]

/-- An exception is made and gets its trace; nothing else happens to the heap. -/
theorem exists_raiseError_eq (kind : ErrorKind) (message : String) (m : Machine) :
    ∃ exc m', newException (m.classValue (.error kind)) message m = .ok exc m' ∧
      (raiseError kind message : Effect α) m = (captureTrace exc >>= fun _ => throwException exc) m' ∧
      ((raiseError kind message : Effect α).after m).heap = ((captureTrace exc).after m').heap := by
  obtain ⟨text, m₁, htext⟩ := exists_newText message m
  obtain ⟨exc, m₂, halloc⟩ := exists_alloc_eq (m.classValue (.error kind)) (.exception { message := text }) m₁
  have hnew : newException (m.classValue (.error kind)) message m = .ok exc m₂ :=
    (bind_of_ok htext).trans halloc
  have hask : classValue (.error kind) m = .ok (m.classValue (.error kind)) m := rfl
  have hraise : (raiseError kind message : Effect α) m =
      (captureTrace exc >>= fun _ => throwException exc) m₂ := by
    rw [raiseError, bind_of_ok hask, bind_of_ok hnew]
  refine ⟨exc, m₂, hnew, hraise, ?_⟩
  rw [after, hraise]
  exact heap_after_throwing (captureTrace exc) exc m₂

/-- A built-in error ends in a live exception of its class with its message and the names of the open
frames, if there was room for it. -/
theorem exists_raised_traced (hm : m.Intact) (kind : ErrorKind) (message : String)
    (hroom : ((raiseError kind message : Effect α).after m).HasRoom) :
    ∃ exc m', (raiseError kind message : Effect α) m = .error (.raise exc) m' ∧ Keeps ∅ ∅ ∅ m m' ∧
      m'.IsError kind message exc ∧ m'.HasTrace exc m.frameNames := by
  have hsecure : Secure ∅ ∅ ∅ False True (raiseError kind message : Effect α) m fun _ _ => True :=
    Secure.raiseError kind message fun _ _ => id
  have hkeeps := hsecure.keeps hm trivial hroom
  obtain ⟨exc, m₁, hnew, hraise, hheap⟩ := exists_raiseError_eq (α := α) kind message m
  have hroom₂ : ((captureTrace exc).after m₁).HasRoom := by rwa [HasRoom, ← hheap]
  have hgrows : Secure ∅ ∅ {exc} False False (captureTrace exc) m₁ fun _ _ => True :=
    (Secure.captureTrace (Set.mem_singleton exc) (fun _ => False.elim) fun _ => False.elim).imp
      (fun _ => id) fun _ _ _ _ _ _ _ _ => trivial
  have hroom₁ : ((newException (m.classValue (.error kind)) message).after m).HasRoom := by
    rw [after_of_ok hnew]
    exact hgrows.grows.trans hroom₂
  obtain ⟨_, _, hnew', hk, o, text, ho, hcls, hbody, htext⟩ :=
    exists_newException_made hm (hm.anchored_classValue (.error kind)) message hroom₁
  obtain ⟨rfl, rfl⟩ := EStateM.Result.ok.inj (hnew.symm.trans hnew')
  have hread : m₁.heap.read Facet.exception exc = .ok { message := text } :=
    Heap.read_eq_ok_iff.mpr ⟨o, ho, by rw [hbody]; rfl⟩
  obtain ⟨m₂, hcapture, -, htraced, htrace⟩ :=
    exists_captureTrace hk.intact hread (rfl : Value.nil.isRef = false) hroom₂
  have hthrow : (raiseError kind message : Effect α) m =
      .error (.raise exc) { m₂ with unwindState := .unwinding } := by
    rw [hraise, bind_of_ok hcapture]
    rfl
  rw [after_of_error hthrow] at hkeeps
  have hframes := (level_heedless.makes.newException (m.classValue (.error kind)) message m).1
  rw [after_of_ok hnew] at hframes
  have hnames : m₁.frameNames = m.frameNames := by rw [frameNames, frameNames, hframes]
  obtain ⟨o', ho', hcls', -, hmessage⟩ := htraced.object o ho
  obtain ⟨e', hbody', he'⟩ := hmessage _ hbody
  refine ⟨exc, _, hthrow, hkeeps, ⟨o', e', ho', ?_, hbody', ?_⟩, hnames ▸ htrace⟩
  · exact hcls'.trans (hcls.trans (hkeeps.carries.classValue_eq (.error kind)).symm)
  · rw [he']
    exact htraced.text _ _ hread htext

theorem exists_raised_within (hm : m.Intact) (kind : ErrorKind) (message : String)
    (hroom : ((raiseError kind message : Effect α).after m).HasRoom) :
    ∃ exc m', (raiseError kind message : Effect α) m = .error (.raise exc) m' ∧
      m'.IsError kind message exc ∧ m'.classes = m.classes := by
  obtain ⟨exc, m', hraise, hkeeps, herror, -⟩ := exists_raised_traced hm kind message hroom
  exact ⟨exc, m', hraise, herror, hkeeps.carries.classes_eq⟩

/-- An error takes a slot for each frame, and three for its text, the exception and the trace. -/
theorem exists_raised (hm : m.Intact) (hroom : m.heap.slots.size + m.frames.length + 3 ≤ 2 ^ 32)
    (kind : ErrorKind) (message : String) :
    ∃ exc m', (raiseError kind message : Effect α) m = .error (.raise exc) m' ∧
      m'.IsError kind message exc ∧ m'.classes = m.classes := by
  refine exists_raised_within hm kind message ?_
  obtain ⟨exc, m₁, hnew, -, hheap⟩ := exists_raiseError_eq (α := α) kind message m
  have hsize := (within_newException (m.classValue (.error kind)) message m).1
  have hframes := (level_heedless.makes.newException (m.classValue (.error kind)) message m).1
  have htrace := size_captureTrace_le exc m₁
  rw [after_of_ok hnew] at hsize hframes
  rw [hframes] at htrace
  rw [HasRoom, hheap]
  omega

end Effect

end ObjectMachine
