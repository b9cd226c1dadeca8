import Mathlib.Tactic
import ObjectMachine.Proofs.Frames.Contexts
import ObjectMachine.Proofs.Typing.Primitives

/-! Messages on typed machines.

The method that is found for a name is one that the bootstrap installs under this name, because every
symbol stands for one name.  So the messages for hashes, comparisons and texts reach methods that send
nothing further, and every other message reaches a method that sends no others than these: two levels of
calls are all that is ever needed. -/

namespace ObjectMachine

open Machine Effect

/-! ### Names -/

namespace Machine

variable {m : Machine} {bare : Set Value} {cls method : Value} {name : String}

/-- Every name has a text of its own on the heap. -/
theorem Discreet.size_names_le {s : Value} (hm : m.Discreet s) :
    m.symbols.names.size ≤ m.heap.slots.size := by
  obtain ⟨t, -, hlists⟩ := hm.heap.table
  have hkey : ∀ i : Fin m.symbols.names.size, ∃ v, m.heap.read? Facet.text v = some m.symbols.names[i] :=
    fun i => by
      obtain ⟨id, e, -, he⟩ := hlists.listed (Array.getElem?_eq_getElem i.isLt)
      exact ⟨e.key, he⟩
  choose key hkey using hkey
  have hlive : ∀ i, m.heap.isLive (key i) = true := fun i => by
    obtain ⟨o, ho, -⟩ := Option.bind_eq_some_iff.mp (hkey i)
    exact Heap.isLive_of_get? ho
  have hlt : ∀ i, (key i).slotIndex < m.heap.slots.size := fun i => by
    obtain ⟨o, ho⟩ := Heap.isLive_iff.mp (hlive i)
    exact (Array.getElem?_eq_some_iff.mp (Heap.get?_eq_some_iff.mp ho).2).1
  let place : Fin m.symbols.names.size → Fin m.heap.slots.size := fun i => ⟨_, hlt i⟩
  have hinj : Function.Injective place := fun i j hij => by
    have hsame := Heap.eq_of_slotIndex_eq (hlive i) (hlive j) (Fin.mk.inj hij)
    have hname : m.symbols.names[i] = m.symbols.names[j] :=
      Option.some.inj ((hkey i).symm.trans ((congrArg _ hsame).trans (hkey j)))
    refine Fin.ext (index_unique hm.nodup (Array.getElem?_eq_getElem i.isLt) ?_)
    exact (Array.getElem?_eq_getElem j.isLt).trans (congrArg some hname.symm)
  simpa using Fintype.card_le_of_injective place hinj

/-- A method that the bootstrap installs under a name in a built-in class, from a class on upwards. -/
def Offers (m : Machine) (cls : Value) (name : String) (method : Value) : Prop :=
  ∃ c p, m.Below (m.classValue c) cls ∧ c.Provides p ∧ m.heap.read Facet.native method = .ok p.native ∧
    p.name = name

/-- A symbol stands for one name. -/
theorem Responds.offers {i : Nat} (h : m.Responds cls (.ofSymbol i) method) (hm : m.Typed bare)
    (hroom : m.HasRoom) (hi : m.symbols.names[i]? = some name) : m.Offers cls name method := by
  obtain ⟨c, p, j, hbelow, hp, hnative, hj, hsame⟩ := h
  have hlt : ∀ {k : Nat} {other : String}, m.symbols.names[k]? = some other → k < 2 ^ 32 := fun hk =>
    ((Array.getElem?_eq_some_iff.mp hk).1.trans_le hm.discreet.size_names_le).trans_le hroom
  obtain rfl := Value.ofSymbol_inj (hlt hi) (hlt hj) hsame
  exact ⟨c, p, hbelow, hp, hnative, Option.some.inj (hj.symm.trans hi)⟩

end Machine

/-! ### Frames -/

namespace Effect

variable {α : Type} {quiet pre : Prop} {m : Machine} {post : α → Machine → Prop}

theorem size_le_leaveFrame [Rooted α] {run : Program → Effect Value} {s : Value}
    (hrun : DiscreetRun s False run) (result : Except Unwind α) (m : Machine) :
    m.heap.slots.size ≤ ((leaveFrame run result).after m).heap.slots.size := by
  cases hframes : m.frames with
  | nil =>
    have hleave : leaveFrame run result m = .error (.fatal .noActiveFrame) m := by
      have hask : ask (·.frames) m = .ok [] m := by rw [ask, hframes]
      rw [leaveFrame, bind_of_ok hask]
      rfl
    rw [after_of_error hleave]
  | cons f rest =>
    rw [after, leaveFrame_of_cons hframes]
    have hcleanups : Discreet s False False (runCleanups run f.cleanups result) (Landed s fun _ => True) :=
      discreet_runCleanups hrun False.elim False.elim
    exact (hcleanups.bind fun r => discreet_resume And.right).grows { m with frames := rest }

/-- What persists in a frame persists when the frame is left. -/
theorem persists_left {kind : FrameKind} {name : String} {receiver : Value} {m₂ : Machine}
    (hk : (entered kind name receiver m).Persists quiet m₂) :
    m₂.frames = { kind := kind, name := name, receiver := receiver } :: m.frames ∧
      m.Persists quiet { m₂ with frames := m.frames } := by
  obtain ⟨hframes, hrest⟩ := Prod.ext_iff.mp hk.callState_eq
  have hstate : Machine.callState { m₂ with frames := m.frames } = m.callState := Prod.ext rfl hrest
  refine ⟨hframes, ⟨⟨hk.carries.classes_eq, hk.carries.symbols_eq, hk.carries.globals_eq,
    hk.carries.handles_le, ?_⟩, hstate, hk.enabled_eq, hk.names, fun {v o} hv =>
      hk.held (hv.imp (fun h => roots_subset_entered kind name receiver m h) id), hk.tables, hk.classes⟩⟩
  rw [callRoots_eq_of_callState_eq hstate]
  exact List.Subset.refl _

/-- A body that leaves no cleanups runs in a frame of its own as it does without. -/
theorem Behaves.callFrame [Rooted α] {run : Program → Effect Value} {s : Value}
    (hrun : DiscreetRun s False run) (kind : FrameKind) (name : String) (receiver : Value)
    {body : Effect α} (hbody : Behaves quiet (m.Typed ∅ ∧ pre) body (entered kind name receiver m) post)
    (hreceiver : m.Typed ∅ → pre → m.heap.Resolves receiver)
    (hpost : ∀ x m' frames, post x m' → post x { m' with frames := frames }) :
    Behaves quiet pre (callFrame run kind name receiver body) m post := by
  let m₁ := entered kind name receiver m
  have hleave := size_le_leaveFrame hrun (body.ending m₁) (body.after m₁)
  have heq : Effect.callFrame run kind name receiver body m =
      leaveFrame run (body.ending m₁) (body.after m₁) := callFrame_eq kind name receiver body m
  have hafter : (Effect.callFrame run kind name receiver body).after m =
      (leaveFrame run (body.ending m₁)).after (body.after m₁) := by rw [after, heq]; rfl
  refine ⟨hafter ▸ hbody.grows.trans hleave, fun h hroom => ?_⟩
  obtain ⟨hm, hp⟩ := h
  have hm₁ : m₁.Typed ∅ := by
    refine ⟨hm.shaped.with_stacks (fun v hv => Or.inl hv) fun f hf => ?_, ?_⟩
    · rcases List.mem_cons.mp hf with rfl | hf
      · exact Or.inr ⟨hreceiver hm hp, rfl⟩
      · exact Or.inl hf
    · have hd := hm.discreet
      refine ⟨hd.table_eq, hd.nodup, hd.heap, hd.classes, hd.globals, hd.handles, fun f hf => ?_, hd.weak,
        hd.activations, hd.resources⟩
      rcases List.mem_cons.mp hf with rfl | hf
      · exact fun c hc => absurd hc List.not_mem_nil
      · exact hd.cleanups f hf
  have hends := hbody.keeps ⟨hm₁, hm, hp⟩ (le_trans hleave (hafter ▸ hroom))
  obtain ⟨hm₂, hk, hout⟩ := hends
  -- at the end the frame is on top again, still without cleanups
  obtain ⟨hframes, hk'⟩ := persists_left hk
  have hold : ∀ f ∈ m.frames, f ∈ (body.after m₁).frames := fun f hf =>
    hframes ▸ List.mem_cons_of_mem _ hf
  have hd := hm₂.discreet
  have hleft : Typed ∅ { body.after m₁ with frames := m.frames } :=
    ⟨hm₂.shaped.with_stacks (fun v hv => Or.inl hv) fun f hf => Or.inl (hold f hf), hd.table_eq, hd.nodup,
      hd.heap, hd.classes, hd.globals, hd.handles, fun f hf => hd.cleanups f (hold f hf), hd.weak,
      hd.activations, hd.resources⟩
  have hrun : Effect.callFrame run kind name receiver body m =
      resume (body.ending m₁) { body.after m₁ with frames := m.frames } := by
    rw [heq, leaveFrame_of_cons hframes]
    rfl
  rw [ending_congr hrun, after_congr hrun, ending_resume, after_resume]
  refine ⟨hleft, hk', ?_⟩
  rcases hr : body.ending m₁ with (exc | u) | x
  · rw [hr] at hout
    exact hout
  · rw [hr] at hout
    exact hout
  · rw [hr] at hout
    exact hpost x _ _ hout

end Effect

/-! ### Messages -/

namespace Calls

variable {calls : Calls} {quiet pre : Prop} {m : Machine} {receiver cls method : Value} {name : String}
  {args : List Value}

/-- Running a method that was found.  One for the messages that methods send is plain; any other may
send these messages in turn. -/
theorem behaves_invoke (hdiscreet : ∀ s, DiscreetCalls s calls) {native : NativeMethod}
    (hname : name ∈ internalNames ∨ ¬ quiet ∧ calls.Obliging) (kind : FrameKind) (title : String)
    (harity : args.length = native.arity)
    (hp : m.Typed ∅ → pre → m.InHand (receiver :: args) ∧ m.classOf receiver = .ok cls ∧
      m.heap.read Facet.native method = .ok native ∧ m.Offers cls name method) :
    Behaves quiet pre (callFrame calls.run kind title receiver (calls.invoke receiver args native.code)) m
      fun v m' => m'.Public v := by
  have hrun : DiscreetRun m.symbols.table False calls.run := (hdiscreet m.symbols.table).run
  have hinvoke : Discreet m.symbols.table False False (calls.invoke receiver args native.code) _ :=
    (hdiscreet m.symbols.table).invoke False.elim False.elim False.elim
  have hgrows := (Discreet.callFrame hrun kind title receiver hinvoke).grows m
  -- the method that was found is built in, and it has the name that was looked for
  have hfound : m.Typed ∅ → pre → ∃ c p, m.Below (m.classValue c) cls ∧ c.Provides p ∧
      native = p.native ∧ p.name = name := fun hm h => by
    obtain ⟨-, -, hread, c, p, hbelow, hc, hnative, hsame⟩ := hp hm h
    exact ⟨c, p, hbelow, hc, Except.ok.inj (hread.symm.trans hnative), hsame⟩
  cases hcode : native.code with
  | program body =>
    rw [hcode] at hgrows
    refine .of_absurd hgrows fun hm h => ?_
    obtain ⟨c, p, -, -, rfl, -⟩ := hfound hm h
    cases hcode
  | primitive q =>
    rw [hcode] at hgrows
    by_cases hplain : q.plain = true ∨ ¬ quiet ∧ calls.Obliging
    · refine Behaves.callFrame hrun kind title receiver (q.behaves_perform (fun _ ⟨hm, h⟩ => ?_) hplain)
        (fun hm h => ((hp hm h).1 receiver List.mem_cons_self).2.resolves) fun _ _ _ h => h
      obtain ⟨c, p, hbelow, hc, rfl, -⟩ := hfound hm h
      obtain ⟨hin, hcls, -⟩ := hp hm h
      obtain rfl : p.primitive = q := Code.primitive.inj hcode
      obtain ⟨hmeets, huses, -⟩ := hc.fitting
      refine ⟨hm.shaped.meets (hin receiver List.mem_cons_self).2 hcls hbelow hmeets,
        harity.trans huses.symm, fun v hv => ?_⟩
      exact ⟨roots_subset_entered kind title receiver m (hin v hv).1, (hin v hv).2⟩
    · refine .of_absurd hgrows fun hm h => hplain ?_
      obtain ⟨c, p, -, hc, rfl, hsame⟩ := hfound hm h
      obtain rfl : p.primitive = q := Code.primitive.inj hcode
      exact hname.imp (fun hin => hc.fitting.2.2 (hsame ▸ hin)) id

/-- Every message to a value that programs may hold is answered with such a value, or an error is
raised. -/
theorem behaves_callMethod (hdiscreet : ∀ s, DiscreetCalls s calls)
    (hname : name ∈ internalNames ∨ ¬ quiet ∧ calls.Obliging)
    (hp : m.Typed ∅ → pre → ∀ v ∈ receiver :: args, m.Public v) :
    Behaves quiet pre (calls.callMethod receiver name args) m fun v m' => m'.Public v := by
  refine Behaves.withHandles ?_ fun _ _ _ h => h
  have hpin : Behaves quiet pre (pinAll (receiver :: args)) m fun _ m' => m'.InHand (receiver :: args) := by
    refine (behaves_pinAll fun hm h v hv => ?_).imp (fun _ h => h) fun _ m' hm h _ _ hpinned v hv => ?_
    · exact ⟨(hp hm h v hv).resolves, hm.public_ne (hp hm h v hv)⟩
    · exact ⟨hpinned.1 v hv, hpinned.2 ▸ hp hm h v hv⟩
  refine hpin.bind fun _ m₁ => (behaves_intern name).bind fun selector m₂ => ?_
  refine (behaves_classOf fun _ h => (h.persists.public_root
    (h.before.result receiver List.mem_cons_self).2 (h.before.result receiver List.mem_cons_self).1)).bind
    fun cls m₃ => (behaves_findMethod selector fun _ h => ?_).bind fun found m₄ => ?_
  · obtain ⟨rfl, -, hcls⟩ := h.result
    exact hcls
  cases found with
  | none => exact Behaves.ask_bind (behaves_raiseError _ _)
  | some method =>
    refine Behaves.with_room (Behaves.assuming ?_ fun hm ⟨h, hroom⟩ =>
      (?_ : m₄.InHand (receiver :: args) ∧ m₄.classOf receiver = Except.ok cls ∧ m₄.Offers cls name method))
    · refine Behaves.read_bind (fun hm ⟨_, _, c, p, _, _, hnative, _⟩ => ⟨_, hnative⟩) fun native hread => ?_
      split
      · exact behaves_raiseError _ _
      · rename_i harity
        refine Behaves.ask_bind (behaves_invoke hdiscreet hname .method _ (not_not.mp harity)
          fun hm ⟨hin, hcls, hoffers⟩ => ⟨hin, hcls, hread, hoffers⟩)
    · obtain ⟨rfl, hresponds⟩ := h.result
      obtain ⟨rfl, hcls, -⟩ := h.before.result
      obtain ⟨i, rfl, hi⟩ := h.before.before.result
      exact ⟨h.before.before.persists.inHand h.before.before.before.result, hcls,
        (hresponds method rfl).offers hm hroom hi⟩

/-- One level of calls answers the messages that built-in methods send. -/
theorem obliging_toDepth : ∀ {depth : Nat}, 0 < depth → (toDepth depth).Obliging
  | depth + 1, _ => ⟨fun _ => discreet_toDepth (depth + 1), fun hname hp =>
      behaves_callMethod (fun _ => discreet_toDepth depth) (Or.inl hname) hp⟩

/-- Messages to the machine at large. -/
theorem behaves_callMethod_top (hloud : ¬ quiet)
    (hp : m.Typed ∅ → pre → ∀ v ∈ receiver :: args, m.Public v) :
    Behaves quiet pre (top.callMethod receiver name args) m fun v m' => m'.Public v := by
  have hdepth : 0 < callDepth := by
    unfold callDepth
    omega
  exact behaves_callMethod (fun _ => discreet_toDepth callDepth)
    (Or.inr ⟨hloud, obliging_toDepth hdepth⟩) hp

end Calls

end ObjectMachine
