import Mathlib.Tactic
import ObjectMachine.Calls
import ObjectMachine.Proofs.Frames.Nesting
import ObjectMachine.Proofs.Machine.Contracts
import ObjectMachine.Proofs.Machine.Interning

/-! Effects that leave the table of symbols to the machine.

`Discreet` is what holds of an effect whatever the machine: on a discreet machine it interns names, one
after the other, and does nothing else with the symbols; the machine it leaves is discreet, and neither
its answer nor an exception is the table.  If it is `quiet` it interns nothing.  What is said of an
answer does not speak of machines, so the rules need no more than the way effects are built. -/

namespace ObjectMachine

open Machine

theorem Facet.lawful_native : Lawful native where
  put_eq {b x} h := by cases b <;> simp_all [native]
  kind_put _ := rfl
  exists_get? {b} h := by cases b <;> simp_all [native, Body.kind]

/-! ### What bodies hold -/

section Bodies

variable {s : Value}

theorem Body.avoids_text (t : String) : (Body.text t).Avoids s := ⟨by simp [Body.edges], nofun⟩

theorem Body.avoids_bignum (n : Int) : (Body.bignum n).Avoids s := ⟨by simp [Body.edges], nofun⟩

theorem Body.avoids_float (x : Binary64) : (Body.float x).Avoids s := ⟨by simp [Body.edges], nofun⟩

theorem Body.avoids_native {method : NativeMethod} :
    (Body.native method).Avoids s ↔ method.code.Avoids s :=
  ⟨fun h => h.code method rfl, fun h => ⟨by simp [Body.edges], fun _ heq => Body.native.inj heq ▸ h⟩⟩

theorem Body.avoids_array {items : Array Value} : (Body.array items).Avoids s ↔ s ∉ items :=
  ⟨fun h hs => h.edges (Array.mem_toList_iff.mpr hs),
    fun h => ⟨fun hs => h (Array.mem_toList_iff.mp hs), nofun⟩⟩

theorem Body.avoids_plain {v : Value} : (Body.plain v).Avoids s ↔ v ≠ s := by
  refine ⟨fun h hs => h.edges ?_, fun h => ⟨fun hs => h ?_, nofun⟩⟩
  · simp [Body.edges, hs]
  · simpa [Body.edges, eq_comm] using hs

theorem Body.avoids_iterator {i : IteratorBody} : (Body.iterator i).Avoids s ↔ i.table ≠ s := by
  refine ⟨fun h hs => h.edges ?_, fun h => ⟨fun hs => h ?_, nofun⟩⟩
  · simp [Body.edges, hs]
  · simpa [Body.edges, eq_comm] using hs

theorem Body.avoids_cls {c : ClassBody} :
    (Body.cls c).Avoids s ↔ c.name ≠ s ∧ c.superclass ≠ s ∧ c.methods ≠ s := by
  refine ⟨fun h => ?_, fun h => ⟨?_, nofun⟩⟩
  · have hs := h.edges
    simp only [Body.edges, List.mem_cons, List.not_mem_nil, or_false, not_or] at hs
    exact ⟨Ne.symm hs.1, Ne.symm hs.2.1, Ne.symm hs.2.2⟩
  · simp only [Body.edges, List.mem_cons, List.not_mem_nil, or_false, not_or]
    exact ⟨h.1.symm, h.2.1.symm, h.2.2.symm⟩

theorem Body.avoids_exception {e : ExceptionBody} : (Body.exception e).Avoids s ↔
    e.message ≠ s ∧ e.stackTrace ≠ s ∧ e.context ≠ s ∧ e.attributes ≠ s := by
  refine ⟨fun h => ?_, fun h => ⟨?_, nofun⟩⟩
  · have hs := h.edges
    simp only [Body.edges, List.mem_cons, List.not_mem_nil, or_false, not_or] at hs
    exact ⟨Ne.symm hs.1, Ne.symm hs.2.1, Ne.symm hs.2.2.1, Ne.symm hs.2.2.2⟩
  · simp only [Body.edges, List.mem_cons, List.not_mem_nil, or_false, not_or]
    exact ⟨h.1.symm, h.2.1.symm, h.2.2.1.symm, h.2.2.2.symm⟩

/-- Losing entries brings nothing in. -/
theorem Body.Avoids.of_get? {t t' : Table} (h : (Body.table t).Avoids s)
    (hsub : ∀ {id e}, t'.get? id = some e → t.get? id = some e) : (Body.table t').Avoids s :=
  avoids_table fun _ _ he => h.entry (hsub he)

theorem Body.avoids_newTable (strategy : Strategy) (size : Nat) :
    (Body.table (Table.new strategy size)).Avoids s :=
  avoids_table fun id e he => by simp [Table.get?, Table.new] at he

end Bodies

/-! ### The judgement -/

/-- What there is to say about how an effect ended. -/
def Effect.Landed (s : Value) (post : α → Prop) : Except Unwind α → Prop
  | .ok x => post x
  | .error (.raise exc) => exc ≠ s
  | .error (.fatal _) => True

/-- What a discreet effect promises of its end. -/
structure Machine.LeftDiscreet (s : Value) (quiet : Prop) (m : Machine) (post : α → Prop)
    (r : Except Unwind α) (m' : Machine) : Prop where
  discreet : m'.Discreet s
  interns : ∃ log, m.Interns s log m' ∧ (quiet → log = [])
  landed : Effect.Landed s post r

/-- An effect that did not return promises nothing of an answer. -/
theorem Machine.LeftDiscreet.error {s : Value} {quiet : Prop} {m m' : Machine} {post : α → Prop}
    {goal : β → Prop} {u : Unwind} (h : m.LeftDiscreet s quiet post (.error u) m') :
    m.LeftDiscreet s quiet goal (.error u) m' := by
  refine ⟨h.discreet, h.interns, ?_⟩
  have hlanded := h.landed
  cases u with
  | raise exc => exact hlanded
  | fatal _ => trivial

/-- Handles that are dropped bring nothing in. -/
theorem Machine.Discreet.shrink {m : Machine} {s : Value} (h : m.Discreet s) (n : Nat) :
    Machine.Discreet { m with handles := m.handles.shrink n } s := by
  refine ⟨h.table_eq, h.nodup, h.heap, h.classes, h.globals, fun hmem => ?_, h.cleanups, h.weak,
    h.activations, h.resources⟩
  have hlist := Array.mem_toList_iff.mpr hmem
  rw [Array.toList_shrink] at hlist
  exact h.handles (Array.mem_toList_iff.mp (List.mem_of_mem_take hlist))

/-- What an effect does on discreet machines, under an assumption. -/
def Effect.Discreet (s : Value) (quiet pre : Prop) (a : Effect α) (post : α → Prop) : Prop :=
  ∀ m : Machine, Promises (pre ∧ m.Discreet s) a m (m.LeftDiscreet s quiet post)

namespace Effect

variable {α β : Type} {s : Value} {quiet pre : Prop} {a : Effect α} {f : α → Effect β}
  {post mid : α → Prop} {goal : β → Prop}

theorem Discreet.grows (h : Discreet s quiet pre a post) (m : Machine) :
    m.heap.slots.size ≤ (a.after m).heap.slots.size := (h m).grows

theorem Discreet.keeps (h : Discreet s quiet pre a post) (hp : pre) (m : Machine) (hm : m.Discreet s)
    (hroom : (a.after m).HasRoom) : (a.after m).Discreet s ∧
      ∃ log, Interns s m log (a.after m) ∧ (quiet → log = []) :=
  have hleft := (h m).keeps ⟨hp, hm⟩ hroom
  ⟨hleft.discreet, hleft.interns⟩

theorem Discreet.answers (h : Discreet s quiet pre a post) (hp : pre) (m : Machine) (x : α)
    (m' : Machine) (hm : m.Discreet s) (hx : a m = .ok x m') (hroom : m'.HasRoom) : post x :=
  ((h m).keeps_of_ok hx ⟨hp, hm⟩ hroom).landed

/-- An effect that never touches the symbols. -/
theorem discreet_of_still (hg : ∀ m : Machine, m.heap.slots.size ≤ (a.after m).heap.slots.size)
    (hs : ∀ m : Machine, (a.after m).symbols = m.symbols)
    (hk : pre → ∀ m : Machine, m.Discreet s → (a.after m).HasRoom → (a.after m).Discreet s)
    (hl : pre → ∀ m : Machine, m.Discreet s → (a.after m).HasRoom → Landed s post (a.ending m)) :
    Discreet s quiet pre a post := fun m =>
  ⟨hg m, fun hp hroom => ⟨hk hp.1 m hp.2 hroom, ⟨[], .idle (hs m), fun _ => rfl⟩,
    hl hp.1 m hp.2 hroom⟩⟩

/-- An effect that only looks. -/
theorem discreet_of_same (h : ∀ m, a.after m = m)
    (hl : pre → ∀ m : Machine, m.Discreet s → Landed s post (a.ending m)) :
    Discreet s quiet pre a post :=
  discreet_of_still (fun m => by rw [h]) (fun m => by rw [h]) (fun _ m hm _ => by rwa [h])
    fun hp m hm _ => hl hp m hm

theorem Discreet.imp {pre' : Prop} {post' : α → Prop} (ha : Discreet s quiet pre a post)
    (hpre : pre' → pre) (hpost : ∀ x, pre' → post x → post' x) : Discreet s quiet pre' a post' := fun m =>
  (ha m).imp (fun hp => ⟨hpre hp.1, hp.2⟩)
    (fun x _ _ hp _ hleft => ⟨hleft.discreet, hleft.interns, hpost x hp.1 hleft.landed⟩)
    fun _ _ _ _ _ hleft => hleft.error

theorem Discreet.weaken {pre' : Prop} (ha : Discreet s quiet pre a post) (hpre : pre' → pre) :
    Discreet s quiet pre' a post := ha.imp hpre fun _ _ h => h

/-- The table is a reference on every machine in question. -/
theorem Discreet.knowing (ha : Discreet s quiet (pre ∧ s.isRef = true) a post) :
    Discreet s quiet pre a post := fun m =>
  (ha m).mono (fun hp => ⟨⟨hp.1, hp.2.isRef⟩, hp.2⟩) fun _ _ _ _ h => h

theorem ne_of_not_isRef {v : Value} (hs : s.isRef = true) (hv : v.isRef = false) : v ≠ s := by
  rintro rfl
  rw [hs] at hv
  cases hv

theorem nil_ne (hs : s.isRef = true) : Value.nil ≠ s := ne_of_not_isRef hs (rfl : Value.nil.isRef = false)

theorem absent_ne (hs : s.isRef = true) : Value.absent ≠ s :=
  ne_of_not_isRef hs (rfl : Value.absent.isRef = false)

theorem Discreet.bind (ha : Discreet s quiet pre a mid)
    (hf : ∀ x, Discreet s quiet (pre ∧ mid x) (f x) goal) : Discreet s quiet pre (a >>= f) goal := by
  refine fun m => (ha m).bind (fun x m' _ => (hf x m').mono
    (fun hp => ⟨⟨hp.1.1, hp.2.landed⟩, hp.2.discreet⟩)
    fun _ _ hp _ hleft => ⟨hleft.discreet, ?_, hleft.landed⟩)
    fun _ _ _ hleft => hleft.error
  obtain ⟨log, hlog, hquiet⟩ := hp.2.interns
  obtain ⟨log', hlog', hquiet'⟩ := hleft.interns
  exact ⟨_, hlog.trans hlog', fun hq => by rw [hquiet hq, hquiet' hq]; rfl⟩

/-- An effect whose answer does not matter, and what follows. -/
theorem Discreet.andThen {mid : α → Prop} (ha : Discreet s quiet pre a mid)
    (hf : ∀ x, Discreet s quiet pre (f x) goal) : Discreet s quiet pre (a >>= f) goal :=
  ha.bind fun x => (hf x).weaken And.left

theorem Discreet.outcome (ha : Discreet s quiet pre a post) :
    Discreet s quiet pre (outcome a) (Landed s post) := fun m =>
  (ha m).outcome fun _ _ _ hleft => ⟨hleft.discreet, hleft.interns, hleft.landed⟩

/-! ### Looking and failing -/

theorem discreet_pure {x : α} (hx : pre → post x) : Discreet s quiet pre (pure x) post :=
  discreet_of_same (fun _ => rfl) fun hp _ _ => hx hp

theorem discreet_skip {x : α} : Discreet s quiet pre (pure x) fun _ => True :=
  discreet_pure fun _ => trivial

/-- An immediate value is not the table, which is a reference. -/
theorem discreet_immediate {x : Value} (hx : x.isRef = false) :
    Discreet s quiet pre (pure x) fun v => v ≠ s :=
  discreet_of_same (fun _ => rfl) fun _ _ hm => ne_of_not_isRef hm.isRef hx

/-- An answer that is made an immediate value. -/
theorem Discreet.shown {mid : α → Prop} (ha : Discreet s quiet pre a mid) {g : α → Value}
    (hg : ∀ x, (g x).isRef = false) : Discreet s quiet pre (a >>= fun x => pure (g x)) fun v => v ≠ s :=
  ha.bind fun x => discreet_immediate (hg x)

theorem Discreet.map (ha : Discreet s quiet pre a mid) {g : α → β} (hg : ∀ x, pre → mid x → goal (g x)) :
    Discreet s quiet pre (a >>= fun x => pure (g x)) goal :=
  ha.bind fun x => discreet_pure fun hp => hg x hp.1 hp.2

theorem discreet_throw {u : Unwind} (hu : pre → ∀ exc, u = .raise exc → exc ≠ s) :
    Discreet s quiet pre (throw u : Effect α) post := by
  refine discreet_of_same (fun _ => rfl) fun hp _ _ => ?_
  cases u with
  | raise exc => exact hu hp exc rfl
  | fatal _ => trivial

theorem discreet_fault (u : Fault) : Discreet s quiet pre (fault u : Effect α) post :=
  discreet_throw fun _ _ h => by cases h

theorem discreet_ofExcept {r : Except Fault α} (hr : pre → ∀ x, r = .ok x → post x) :
    Discreet s quiet pre (ofExcept r) post := by
  cases r with
  | ok x => exact discreet_pure fun hp => hr hp x rfl
  | error u => exact discreet_fault u

theorem discreet_resume {r : Except Unwind α} (hr : pre → Landed s post r) :
    Discreet s quiet pre (resume r) post := by
  cases r with
  | ok x => exact discreet_pure hr
  | error u =>
    refine discreet_throw fun hp exc heq => ?_
    subst heq
    exact hr hp

theorem discreet_ask {g : Machine → α} (hg : pre → ∀ m : Machine, m.Discreet s → post (g m)) :
    Discreet s quiet pre (ask g) post := discreet_of_same (fun _ => rfl) hg

/-- Looking at something that is only shown. -/
theorem Discreet.ask_bind {g : Machine → α} (hf : ∀ x, Discreet s quiet pre (f x) goal) :
    Discreet s quiet pre (ask g >>= f) goal := by
  have hask : Discreet s quiet pre (ask g) fun _ => True := discreet_ask fun _ _ _ => trivial
  exact hask.bind fun x => (hf x).weaken And.left

theorem discreet_update {g : Machine → Machine} {post : Unit → Prop}
    (hg : ∀ m : Machine, m.heap.slots.size ≤ (g m).heap.slots.size)
    (hs : ∀ m : Machine, (g m).symbols = m.symbols)
    (hk : pre → ∀ m : Machine, m.Discreet s → (g m).HasRoom → (g m).Discreet s)
    (hp : pre → post ()) : Discreet s quiet pre (update g) post :=
  discreet_of_still hg hs hk fun h _ _ _ => hp h

/-- An update of what no value is read from. -/
theorem discreet_adjust {g : Machine → Machine} (hheap : ∀ m, (g m).heap = m.heap)
    (hs : ∀ m, (g m).symbols = m.symbols) (hc : ∀ m, (g m).classes = m.classes)
    (hglobals : ∀ m, (g m).globals = m.globals) (hh : ∀ m, (g m).handles = m.handles)
    (hf : ∀ m, (g m).frames = m.frames) (hsession : ∀ m, (g m).session = m.session) :
    Discreet s quiet pre (update g) fun _ => True := by
  refine discreet_update (fun m => by rw [hheap]) hs (fun _ m hm _ => ?_) fun _ => trivial
  refine ⟨?_, ?_, ?_, ?_, ?_, ?_, ?_, ?_, ?_, ?_⟩
  · rw [hs]; exact hm.table_eq
  · rw [hs]; exact hm.nodup
  · rw [hs, hheap]; exact hm.heap
  · rw [hc]; exact hm.classes
  · rw [hglobals]; exact hm.globals
  · rw [hh]; exact hm.handles
  · rw [hf]; exact hm.cleanups
  · rw [hsession]; exact hm.weak
  · rw [hsession]; exact hm.activations
  · rw [hsession]; exact hm.resources

theorem discreet_record (e : Event) : Discreet s quiet pre (record e) fun _ => True :=
  discreet_adjust (fun _ => rfl) (fun _ => rfl) (fun _ => rfl) (fun _ => rfl) (fun _ => rfl)
    (fun _ => rfl) fun _ => rfl

theorem discreet_setUnwindState (u : UnwindState) :
    Discreet s quiet pre (update fun m => { m with unwindState := u }) fun _ => True :=
  discreet_adjust (fun _ => rfl) (fun _ => rfl) (fun _ => rfl) (fun _ => rfl) (fun _ => rfl)
    (fun _ => rfl) fun _ => rfl

theorem discreet_setSession {g : Session → Session}
    (hweak : pre → ∀ x : Session, (∀ p ∈ x.weak, p.2 ≠ s) → ∀ p ∈ (g x).weak, p.2 ≠ s)
    (hactive : pre → ∀ x : Session, (∀ a ∈ x.activations, a.receiver ≠ s ∧ s ∉ a.arguments) →
      ∀ a ∈ (g x).activations, a.receiver ≠ s ∧ s ∉ a.arguments)
    (hresources : pre → ∀ x : Session, s ∉ x.resources → s ∉ (g x).resources) :
    Discreet s quiet pre (update fun m => { m with session := g m.session }) fun _ => True := by
  refine discreet_update (fun _ => le_rfl) (fun _ => rfl) (fun hp m hm _ => ?_) fun _ => trivial
  exact ⟨hm.table_eq, hm.nodup, hm.heap, hm.classes, hm.globals, hm.handles, hm.cleanups,
    hweak hp _ hm.weak, hactive hp _ hm.activations, hresources hp _ hm.resources⟩

theorem discreet_report (r : Report) : Discreet s quiet pre (report r) fun _ => True :=
  discreet_setSession (g := fun x => { x with reports := x.reports.push r }) (fun _ _ h => h)
    (fun _ _ h => h) fun _ _ h => h

theorem discreet_setFrames {g : List Frame → List Frame}
    (hg : pre → ∀ fs : List Frame, (∀ f ∈ fs, ∀ c ∈ f.cleanups, c.resource ≠ s ∧ c.program.Avoids s) →
      ∀ f ∈ g fs, ∀ c ∈ f.cleanups, c.resource ≠ s ∧ c.program.Avoids s) :
    Discreet s quiet pre (update fun m => { m with frames := g m.frames }) fun _ => True := by
  refine discreet_update (fun _ => le_rfl) (fun _ => rfl) (fun hp m hm _ => ?_) fun _ => trivial
  exact ⟨hm.table_eq, hm.nodup, hm.heap, hm.classes, hm.globals, hm.handles,
    hg hp _ hm.cleanups, hm.weak, hm.activations, hm.resources⟩

/-! ### Objects -/

/-- What is known of everything that may be read. -/
theorem discreet_reading (facet : Facet α) (v : Value)
    (hx : ∀ (m : Machine) x, m.Discreet s → m.heap.read facet v = .ok x → post x) :
    Discreet s quiet pre (read facet v) post := by
  refine discreet_of_same (after_read facet v) fun _ m hm => ?_
  cases h : m.heap.read facet v with
  | ok x =>
    rw [ending_of_ok (read_of_ok h)]
    exact hx m x hm h
  | error u =>
    rw [ending_of_error (read_of_error h)]
    trivial

theorem discreet_read {facet : Facet α} (hfacet : facet.Lawful) (v : Value) :
    Discreet s quiet pre (read facet v) fun x => (facet.put x).Avoids s :=
  discreet_reading facet v fun _ _ hm h => hm.heap.avoids_of_read hfacet h

theorem discreet_object (v : Value) :
    Discreet s quiet pre (ask (·.heap.get v) >>= ofExcept) fun o => o.Avoids s := by
  have hget : Discreet s quiet pre (ask (·.heap.get v)) fun r => ∀ o, r = .ok o → o.Avoids s :=
    discreet_ask fun _ m hm o ho => hm.heap.avoids_of_get ho
  exact hget.bind fun r => discreet_ofExcept fun h o ho => h.2 o ho

/-- Reading what holds no values. -/
theorem discreet_look (facet : Facet α) (v : Value) :
    Discreet s quiet pre (read facet v) fun _ => True :=
  discreet_reading facet v fun _ _ _ _ => trivial

theorem discreet_modifyObject {v : Value} (hv : pre → v ≠ s) {g : Object → Object}
    (hg : pre → ∀ o : Object, o.flags.marked = false → o.Avoids s → (g o).Avoids s ∧
      (g o).flags.marked = o.flags.marked ∧ Facet.text.get? (g o).body = Facet.text.get? o.body) :
    Discreet s quiet pre (update fun m => { m with heap := m.heap.modifyObject v g })
      fun _ => True := by
  refine discreet_update (fun m => le_of_eq (Heap.size_modifyObject _ _ _).symm) (fun _ => rfl)
    (fun hp m hm _ => ?_) fun _ => trivial
  refine hm.with_heap m.events (hm.heap.modifyObject (hv hp) fun o ho ha => hg hp o ?_ ha)
  exact hm.heap.unmarked _ (Array.mem_of_getElem? (Heap.get?_eq_some_iff.mp ho).2) o rfl

/-- What a write does to an object once it was read. -/
theorem discreet_modify {facet : Facet α} (hfacet : facet.Lawful) (htext : facet.kind ≠ .text)
    {v : Value} (hv : pre → v ≠ s) {g : α → α}
    (hg : pre → ∀ x, (facet.put x).Avoids s → (facet.put (g x)).Avoids s) :
    Discreet s quiet pre (update fun m => { m with heap := m.heap.modify facet v g })
      fun _ => True := by
  have hnone : ∀ x, Facet.text.get? (facet.put x) = none := by
    intro x
    have hkind := hfacet.kind_put x
    cases hbody : facet.put x with
    | text t => rw [hbody] at hkind; exact absurd hkind.symm htext
    | _ => rfl
  refine discreet_modifyObject hv fun hp o _ ho => ?_
  cases hb : facet.get? o.body with
  | none => exact ⟨ho, rfl, rfl⟩
  | some x =>
    have hbody := hfacet.put_eq hb
    refine ⟨⟨ho.cls, hg hp x (hbody ▸ ho.body)⟩, rfl, ?_⟩
    rw [← hbody, hnone x]
    exact hnone (g x)

theorem discreet_write {facet : Facet α} (hfacet : facet.Lawful) (htext : facet.kind ≠ .text)
    {v : Value} (hv : pre → v ≠ s) {g : α → α}
    (hg : pre → ∀ x, (facet.put x).Avoids s → (facet.put (g x)).Avoids s) :
    Discreet s quiet pre (write facet v g) fun _ => True :=
  (discreet_look facet v).andThen fun _ => discreet_modify hfacet htext hv hg

theorem discreet_store {cls : Value} {body : Body} (hcls : pre → cls ≠ s)
    (hbody : pre → body.Avoids s) : Discreet s quiet pre (store cls body) fun v => v ≠ s := by
  refine discreet_of_still (fun m => m.heap.size_le_insert cls body) (fun _ => rfl)
    (fun hp m hm hroom => ?_) fun hp m hm hroom => (hm.heap.insert (hcls hp) (hbody hp) hroom).2
  exact hm.with_heap m.events (hm.heap.insert (hcls hp) (hbody hp) hroom).1

theorem discreet_collectWith (pending : List Value) :
    Discreet s quiet pre (update (·.collectWith pending)) fun _ => True :=
  discreet_update (fun m => le_of_eq (Heap.size_collect m.heap _).symm) (fun _ => rfl)
    (fun _ _ hm _ => hm.collectWith pending) fun _ => trivial

theorem discreet_alloc {cls : Value} {body : Body} (hcls : pre → cls ≠ s)
    (hbody : pre → body.Avoids s) : Discreet s quiet pre (alloc cls body) fun v => v ≠ s := by
  have hstore : ∀ {pre' : Prop}, (pre' → pre) →
      Discreet s quiet pre' (store cls body) fun v => v ≠ s := fun h =>
    discreet_store (fun hp => hcls (h hp)) fun hp => hbody (h hp)
  refine Discreet.ask_bind fun collect => ?_
  split
  · exact (discreet_collectWith _).bind fun _ => hstore And.left
  · exact hstore id

theorem discreet_classValue (c : BuiltinClass) :
    Discreet s quiet pre (classValue c) fun v => v ≠ s :=
  discreet_ask fun _ _ hm => hm.classValue_ne c

/-- Making an object of a built-in class. -/
theorem discreet_make (c : BuiltinClass) {body : Body} (hbody : pre → body.Avoids s) :
    Discreet s quiet pre (classValue c >>= fun cls => alloc cls body) fun v => v ≠ s :=
  (discreet_classValue c).bind fun _ => discreet_alloc And.right fun h => hbody h.1

theorem discreet_newText (t : String) : Discreet s quiet pre (newText t) fun v => v ≠ s :=
  discreet_make .string fun _ => Body.avoids_text t

theorem discreet_newFloat (x : Binary64) : Discreet s quiet pre (newFloat x) fun v => v ≠ s :=
  discreet_make .float fun _ => Body.avoids_float x

theorem discreet_newBignum (n : Int) : Discreet s quiet pre (newBignum n) fun v => v ≠ s :=
  discreet_make .bignum fun _ => Body.avoids_bignum n

theorem discreet_newArray {items : List Value} (hitems : pre → s ∉ items) :
    Discreet s quiet pre (newArray items) fun v => v ≠ s :=
  discreet_make .array fun hp => Body.avoids_array.mpr fun hs => hitems hp (List.mem_toArray.mp hs)

theorem discreet_newTable (strategy : Strategy) (size : Nat) :
    Discreet s quiet pre (newTable strategy size) fun v => v ≠ s :=
  discreet_make .dict fun _ => Body.avoids_newTable strategy size

theorem isRef_ofInt (n : Int) : (Value.ofInt n).isRef = false := by
  rw [← Bool.not_eq_true, Value.isRef_iff, Value.ofInt]
  intro h
  rw [UInt64.ofInt, UInt64.toNat_ofNat'] at h
  omega

theorem isRef_ofBool (b : Bool) : (Value.ofBool b).isRef = false := by cases b <;> rfl

theorem discreet_newInteger (n : Int) : Discreet s quiet pre (newInteger n) fun v => v ≠ s := by
  rw [newInteger, Value.ofInt?]
  split
  · rename_i v hv
    split at hv
    · obtain rfl := Option.some.inj hv
      exact discreet_immediate (isRef_ofInt n)
    · cases hv
  · exact discreet_newBignum n

theorem discreet_newException {cls : Value} (hcls : pre → cls ≠ s) (message : String) :
    Discreet s quiet pre (newException cls message) fun v => v ≠ s := by
  refine (discreet_newText message).bind fun text => Discreet.knowing ?_
  refine discreet_alloc (fun h => hcls h.1.1) fun h => Body.avoids_exception.mpr ?_
  exact ⟨h.1.2, nil_ne h.2, nil_ne h.2, absent_ne h.2⟩

/-! ### Handles -/

theorem discreet_pin {v : Value} (hv : pre → v ≠ s) : Discreet s quiet pre (pin v) fun _ => True := by
  refine discreet_of_still (fun _ => le_rfl) (fun _ => rfl) (fun hp m hm _ => ?_) fun _ _ _ _ => trivial
  refine ⟨hm.table_eq, hm.nodup, hm.heap, hm.classes, hm.globals, fun hmem => ?_, hm.cleanups,
    hm.weak, hm.activations, hm.resources⟩
  rcases Array.mem_push.mp hmem with hmem | rfl
  · exact hm.handles hmem
  · exact hv hp rfl

theorem discreet_pinAll : ∀ {pre : Prop} {vs : List Value}, (pre → s ∉ vs) →
    Discreet s quiet pre (pinAll vs) fun _ => True
  | _, [], _ => discreet_pure fun _ => trivial
  | _, v :: vs, hvs => by
    refine (discreet_pin fun hp heq => ?_).bind fun _ => discreet_pinAll fun hp hmem => ?_
    · exact hvs hp (heq ▸ List.mem_cons_self)
    · exact hvs hp.1 (List.mem_cons_of_mem _ hmem)

theorem discreet_setHandle (place : Nat) {v : Value} (hv : pre → v ≠ s) :
    Discreet s quiet pre (setHandle place v) fun _ => True := by
  refine discreet_update (fun _ => le_rfl) (fun _ => rfl) (fun hp m hm _ => ?_) fun _ => trivial
  refine ⟨hm.table_eq, hm.nodup, hm.heap, hm.classes, hm.globals, fun hmem => ?_, hm.cleanups,
    hm.weak, hm.activations, hm.resources⟩
  obtain ⟨i, hi⟩ := Array.mem_iff_getElem?.mp hmem
  rw [Array.getElem?_setIfInBounds] at hi
  split at hi
  · split at hi
    · exact hv hp (Option.some.inj hi)
    · cases hi
  · exact hm.handles (Array.mem_of_getElem? hi)

theorem discreet_getHandle (place : Nat) : Discreet s quiet pre (getHandle place) fun v => v ≠ s := by
  refine discreet_ask fun _ m hm => ?_
  rw [Array.getD_eq_getD_getElem?]
  cases hv : m.handles[place]? with
  | none => exact hm.ne_absent.symm
  | some v =>
    rintro rfl
    exact hm.handles (Array.mem_of_getElem? hv)

theorem Discreet.withHandles (ha : Discreet s quiet pre a post) :
    Discreet s quiet pre (withHandles a) post := by
  refine fun m => (ha m).withHandles fun _ m' _ hleft => ⟨hleft.discreet.shrink _, ?_, hleft.landed⟩
  obtain ⟨log, hlog, hquiet⟩ := hleft.interns
  exact ⟨log, hlog.followed rfl, hquiet⟩

/-! ### Raising -/

theorem discreet_pushTraceLines {trace : Value} : ∀ {pre : Prop} (names : List String),
    (pre → trace ≠ s) → Discreet s quiet pre (pushTraceLines trace names) fun _ => True
  | _, [], _ => discreet_pure fun _ => trivial
  | _, name :: names, htrace => by
    refine (discreet_newText name).bind fun line => Discreet.bind (discreet_write Facet.lawful_array
      nofun (fun h => htrace h.1) fun h items hitems => ?_)
      fun _ => discreet_pushTraceLines names fun h => htrace h.1.1
    refine Body.avoids_array.mpr fun hmem => ?_
    rcases Array.mem_push.mp hmem with hmem | heq
    · exact Body.avoids_array.mp hitems hmem
    · exact h.2 heq.symm

theorem discreet_captureTrace {exc : Value} (hexc : pre → exc ≠ s) :
    Discreet s quiet pre (captureTrace exc) fun _ => True := by
  refine Discreet.ask_bind fun names => Discreet.withHandles ?_
  refine (discreet_pin hexc).bind fun _ => (discreet_newArray fun _ => List.not_mem_nil).bind
    fun trace => (discreet_pin And.right).bind fun _ => ?_
  refine (discreet_pushTraceLines names fun h => h.1.2).bind fun _ => ?_
  refine discreet_write Facet.lawful_exception nofun (fun h => hexc h.1.1.1.1) fun h e he => ?_
  obtain ⟨hmessage, -, hrest⟩ := Body.avoids_exception.mp he
  exact Body.avoids_exception.mpr ⟨hmessage, h.1.1.2, hrest⟩

theorem discreet_throwException {exc : Value} (hexc : pre → exc ≠ s) :
    Discreet s quiet pre (throwException exc : Effect α) post := by
  refine (discreet_setUnwindState _).andThen fun _ => discreet_throw fun hp v hv => ?_
  obtain rfl := Unwind.raise.inj hv
  exact hexc hp

theorem discreet_raiseError (kind : ErrorKind) (message : String) :
    Discreet s quiet pre (raiseError kind message : Effect α) post :=
  (discreet_classValue _).bind fun _ => (discreet_newException And.right message).bind fun _ =>
    (discreet_captureTrace And.right).bind fun _ => discreet_throwException fun h => h.1.2

theorem discreet_raiseValue {exc : Value} (hexc : pre → exc ≠ s) :
    Discreet s quiet pre (raiseValue exc : Effect α) post := by
  refine Discreet.ask_bind fun found => ?_
  cases found with
  | error _ => exact Discreet.ask_bind fun _ => discreet_raiseError _ _
  | ok e =>
    dsimp only
    split
    · exact (discreet_captureTrace hexc).andThen fun _ => discreet_throwException hexc
    · exact discreet_throwException hexc

theorem discreet_discardException (exc : Value) (context : String) :
    Discreet s quiet pre (discardException exc context) fun _ => True :=
  Discreet.ask_bind fun _ => Discreet.ask_bind fun _ => (discreet_record _).andThen fun _ =>
    discreet_setUnwindState _

/-! ### Frames -/

theorem Discreet.withInFlight (values : List Value) (ha : Discreet s quiet pre a post) :
    Discreet s quiet pre (withInFlight values a) (Landed s post) := by
  have hflight : ∀ {pre : Prop} {g : List Value → List Value}, Discreet s quiet pre
      (update fun m => { m with inFlight := g m.inFlight }) fun _ => True := fun {_ g} =>
    discreet_adjust (fun _ => rfl) (fun _ => rfl) (fun _ => rfl) (fun _ => rfl) (fun _ => rfl)
      (fun _ => rfl) fun _ => rfl
  refine Discreet.ask_bind fun mark => (hflight (g := (values.reverse ++ ·))).bind fun _ => ?_
  refine (ha.weaken And.left).outcome.bind fun r => ?_
  refine (hflight (g := fun l => l.drop (l.length - mark))).bind fun _ => discreet_pure fun h => h.1.2

theorem Discreet.withResource {resource : Value} (hresource : pre → resource ≠ s)
    (ha : Discreet s quiet pre a post) : Discreet s quiet pre (withResource resource a) post := by
  refine (discreet_setSession (g := fun x => { x with resources := resource :: x.resources })
    (fun _ _ h => h) (fun _ _ h => h) fun hp _ h hmem => ?_).bind fun _ => ?_
  · rcases List.mem_cons.mp hmem with heq | hmem
    · exact hresource hp heq.symm
    · exact h hmem
  refine (ha.weaken And.left).outcome.bind fun r => ?_
  refine (discreet_setSession (g := fun x => { x with resources := x.resources.tail })
    (fun _ _ h => h) (fun _ _ h => h) fun _ _ h hmem => h (List.mem_of_mem_tail hmem)).bind fun _ => ?_
  exact discreet_resume fun h => h.1.2

/-- What runs stored programs. -/
def DiscreetRun (s : Value) (quiet : Prop) (run : Program → Effect Value) : Prop :=
  ∀ {pre : Prop} (p : Program), (pre → p.Avoids s) → Discreet s quiet pre (run p) fun v => v ≠ s

variable {run : Program → Effect Value}

theorem discreet_runCleanup (hrun : DiscreetRun s quiet run) {c : Cleanup}
    (hc : pre → c.resource ≠ s ∧ c.program.Avoids s) :
    Discreet s quiet pre (runCleanup run c) fun _ => True := by
  have hprogram := hrun c.program fun hp => (hc hp).2
  unfold runCleanup
  split
  · exact (hprogram.withResource fun hp => (hc hp).1).map fun _ _ _ => trivial
  · exact hprogram.map fun _ _ _ => trivial

theorem discreet_chainContext {replacement earlier : Value} (hr : pre → replacement ≠ s)
    (he : pre → earlier ≠ s) :
    Discreet s quiet pre (chainContext replacement earlier) fun _ => True := by
  unfold chainContext
  split
  · exact discreet_pure fun _ => trivial
  refine Discreet.ask_bind fun found => ?_
  cases found with
  | none => exact discreet_pure fun _ => trivial
  | some e =>
    dsimp only
    split
    · refine (discreet_write Facet.lawful_exception nofun hr fun hp e he' => ?_).bind
        fun _ => discreet_record _
      obtain ⟨hmessage, htrace, -, hattributes⟩ := Body.avoids_exception.mp he'
      exact Body.avoids_exception.mpr ⟨hmessage, htrace, he hp, hattributes⟩
    · exact discreet_pure fun _ => trivial

theorem discreet_replaceOutcome {raised : Unwind} {result : Except Unwind α}
    (hraised : pre → ∀ exc, raised = .raise exc → exc ≠ s) (hresult : pre → Landed s post result) :
    Discreet s quiet pre (replaceOutcome raised result) (Landed s post) := by
  have hnew : pre → Landed s post (.error raised) := by
    intro hp
    cases raised with
    | raise exc => exact hraised hp exc rfl
    | fatal _ => trivial
  rcases result with (earlier | f) | x
  · cases raised with
    | raise replacement =>
      refine Discreet.bind (discreet_chainContext (fun hp => hraised hp replacement rfl) hresult)
        fun _ => discreet_pure fun h => hnew h.1
    | fatal f =>
      exact discreet_pure hnew
  · exact discreet_pure fun _ => trivial
  · exact discreet_pure hnew

theorem discreet_runCleanups [Rooted α] (hrun : DiscreetRun s quiet run) :
    ∀ {pre : Prop} {cleanups : List Cleanup} {result : Except Unwind α},
      (pre → ∀ c ∈ cleanups, c.resource ≠ s ∧ c.program.Avoids s) → (pre → Landed s post result) →
      Discreet s quiet pre (runCleanups run cleanups result) (Landed s post)
  | _, [], _, _, hresult => discreet_pure hresult
  | _, c :: rest, result, hcs, hresult => by
    refine ((discreet_runCleanup hrun fun hp => hcs hp c List.mem_cons_self).withInFlight _).bind
      fun ended => ?_
    have hrest : ∀ {r : Except Unwind Unit}, _ ∧ Landed s (fun _ => True) r →
        ∀ c ∈ rest, c.resource ≠ s ∧ c.program.Avoids s :=
      fun h c hc => hcs h.1 c (List.mem_cons_of_mem _ hc)
    cases ended with
    | ok _ => exact discreet_runCleanups hrun hrest fun h => hresult h.1
    | error raised =>
      refine (discreet_replaceOutcome (fun h exc heq => ?_) fun h => hresult h.1).bind fun r =>
        discreet_runCleanups hrun (fun h => hrest h.1) And.right
      subst heq
      exact h.2

theorem Discreet.callFrame [Rooted α] (hrun : DiscreetRun s quiet run) (kind : FrameKind)
    (name : String) (receiver : Value) (ha : Discreet s quiet pre a post) :
    Discreet s quiet pre (callFrame run kind name receiver a) post := by
  refine (discreet_setFrames (g := ({ kind := kind, name := name, receiver := receiver } :: ·))
    fun _ fs hfs f hf => ?_).bind fun _ => (ha.weaken And.left).outcome.bind fun result => ?_
  · rcases List.mem_cons.mp hf with rfl | hf
    · intro c hc
      cases hc
    · exact hfs f hf
  have hframes : Discreet s quiet ((pre ∧ True) ∧ Landed s post result) (ask (·.frames)) fun fs =>
      ∀ f ∈ fs, ∀ c ∈ f.cleanups, c.resource ≠ s ∧ c.program.Avoids s :=
    discreet_ask fun _ _ hm => hm.cleanups
  refine hframes.bind fun fs => ?_
  cases fs with
  | nil => exact discreet_fault _
  | cons frame rest =>
    refine (discreet_setFrames (g := fun _ => rest) fun h _ _ f hf =>
      h.2 f (List.mem_cons_of_mem _ hf)).bind fun _ => ?_
    refine (discreet_runCleanups hrun (fun h => h.1.2 frame List.mem_cons_self)
      fun h => h.1.1.2).bind fun r => discreet_resume And.right

theorem discreet_addCleanup {c : Cleanup} (hc : pre → c.resource ≠ s ∧ c.program.Avoids s) :
    Discreet s quiet pre (addCleanup c) fun _ => True := by
  have hframes : Discreet s quiet pre (ask (·.frames)) fun fs =>
      ∀ f ∈ fs, ∀ c ∈ f.cleanups, c.resource ≠ s ∧ c.program.Avoids s :=
    discreet_ask fun _ _ hm => hm.cleanups
  refine hframes.bind fun fs => ?_
  cases fs with
  | nil => exact discreet_fault _
  | cons frame rest =>
    refine discreet_setFrames (g := fun _ => { frame with cleanups := c :: frame.cleanups } :: rest)
      fun h _ _ f hf => ?_
    rcases List.mem_cons.mp hf with rfl | hf
    · intro c' hc'
      rcases List.mem_cons.mp hc' with rfl | hc'
      · exact hc h.1
      · exact h.2 frame List.mem_cons_self c' hc'
    · exact h.2 f (List.mem_cons_of_mem _ hf)

theorem Discreet.ensure [Rooted α] (hrun : DiscreetRun s quiet run) {last : Program}
    (hs : pre → last.Avoids s) (ha : Discreet s quiet pre a post) :
    Discreet s quiet pre (ensure run a last) post := by
  refine Discreet.callFrame hrun _ _ _ (Discreet.knowing ?_)
  refine (discreet_addCleanup fun h => ⟨nil_ne h.2, hs h.1⟩).bind fun _ => ?_
  exact ha.weaken fun h => h.1.1

theorem Discreet.handle {exc : Value} {handler : Value → Effect α}
    (hh : Discreet s quiet pre (handler exc) post) :
    Discreet s quiet pre (handle exc handler) post := by
  refine (discreet_setUnwindState _).andThen fun _ => (hh.withInFlight _).bind fun r => ?_
  rcases r with (exc | f) | x
  · exact (discreet_setUnwindState _).andThen fun _ => discreet_resume And.right
  · exact discreet_resume And.right
  · exact (discreet_setUnwindState _).andThen fun _ => discreet_resume And.right

theorem Discreet.rescue {handler : Value → Effect α} (classes : List Value)
    (ha : Discreet s quiet pre a post)
    (hh : ∀ exc, Discreet s quiet (pre ∧ exc ≠ s) (handler exc) post) :
    Discreet s quiet pre (rescue classes a handler) post := by
  have htargets : ∀ {pre : Prop} {g : Machine → List UnwindTarget}, Discreet s quiet pre
      (update fun m => { m with targets := g m }) fun _ => True := fun {_ g} =>
    discreet_adjust (fun _ => rfl) (fun _ => rfl) (fun _ => rfl) (fun _ => rfl) (fun _ => rfl)
      (fun _ => rfl) fun _ => rfl
  refine (htargets (g := fun m => ⟨classes, m.frames.length⟩ :: m.targets)).bind fun _ =>
    (ha.weaken And.left).outcome.bind fun r => Discreet.ask_bind fun targets => ?_
  cases targets with
  | nil => exact discreet_fault _
  | cons target rest =>
    refine (htargets (g := fun _ => rest)).andThen fun _ => ?_
    rcases r with (exc | f) | x
    · refine Discreet.ask_bind fun found => ?_
      have haccepted : ∀ {pre : Prop}, Discreet s quiet pre (ofExcept found) fun _ => True :=
        discreet_ofExcept fun _ _ _ => trivial
      refine haccepted.andThen fun accepted => ?_
      split
      · exact ((hh exc).weaken fun h => ⟨h.1.1, h.2⟩).handle
      · refine discreet_throw fun h v hv => ?_
        obtain rfl := Unwind.raise.inj hv
        exact h.2
    · exact discreet_resume And.right
    · exact discreet_resume And.right

theorem Discreet.execute {body : Effect Value} (hrun : DiscreetRun s quiet run) (name : String)
    (ha : Discreet s quiet pre body fun v => v ≠ s) :
    Discreet s quiet pre (execute run name body) fun t => ∀ v, t = .completed v → v ≠ s := by
  refine (ha.callFrame hrun _ _ _).outcome.bind fun r => ?_
  rcases r with (exc | f) | x
  · refine Discreet.ask_bind fun _ => Discreet.ask_bind fun _ => Discreet.ask_bind fun _ => ?_
    exact (discreet_record _).bind fun _ => (discreet_setUnwindState _).bind fun _ =>
      discreet_pure fun _ _ h => by cases h
  · exact (discreet_record _).bind fun _ => discreet_pure fun _ _ h => by cases h
  · refine discreet_pure fun h v hv => ?_
    obtain rfl := Termination.completed.inj hv
    exact h.2

end Effect

end ObjectMachine
