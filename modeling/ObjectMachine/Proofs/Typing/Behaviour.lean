import Mathlib.Tactic
import ObjectMachine.Proofs.Typing.Persistence

/-! Effects on typed machines.

`Behaves` is what holds of an effect started on a typed machine under an assumption: the machine is
typed again at the end and what was rooted has persisted, an answer has a property, an exception on its
way is a live object of an error class, and there is never a fault.  This is a contract, and its rules
are those of contracts. -/

namespace ObjectMachine

open Machine

namespace Effect.Discreet

variable {α : Type} {s : Value} {a : Effect α} {post : α → Prop} {m : Machine}

/-- The heap does not shrink, whatever is or is not known of the arguments. -/
theorem size_le (h : a.Discreet s False False post) (m : Machine) :
    m.heap.slots.size ≤ (a.after m).heap.slots.size :=
  h.grows m

theorem leaves (h : a.Discreet s False True post) (hm : m.Discreet s) (hroom : (a.after m).HasRoom) :
    (a.after m).Discreet s :=
  (h.keeps trivial m hm hroom).1

end Effect.Discreet

theorem Body.text_eq_of_outline_eq {b b' : Body} (h : b'.outline = b.outline) :
    Facet.text.get? b' = Facet.text.get? b := by
  cases b <;> cases b' <;> simp_all [Body.outline, Facet.text]

namespace Machine

variable {m m' : Machine} {bare : Set Value} {quiet : Prop} {v : Value}

/-! ### What is not the table of symbols -/

namespace Typed

theorem exists_symbols (hm : m.Typed bare) :
    ∃ o t, m.heap.get? m.symbols.table = some o ∧ o.body = .table t ∧ t.strategy = .text := by
  obtain ⟨t, ht, hlists⟩ := hm.discreet.heap.table
  obtain ⟨o, ho, hb⟩ := Heap.read_eq_ok_iff.mp ht
  exact ⟨o, t, ho, (Facet.lawful_table.put_eq hb).symm, hlists.strategy_eq⟩

theorem public_ne (hm : m.Typed bare) (hv : m.Public v) : v ≠ m.symbols.table :=
  hv.ne_of_reserves hm.discreet.reserves

theorem nameTable_ne (hm : m.Typed bare) (hv : m.NameTable v) : v ≠ m.symbols.table := by
  rintro rfl
  obtain ⟨o, t, ho, hb, htext⟩ := hm.exists_symbols
  obtain ⟨t', ht', hsymbol⟩ := hv
  obtain ⟨p, hp, hb'⟩ := Heap.read_eq_ok_iff.mp ht'
  obtain rfl := Option.some.inj (ho.symm.trans hp)
  rw [hb] at hb'
  obtain rfl : t = t' := Option.some.inj hb'
  rw [htext] at hsymbol
  cases hsymbol

/-- What is no table is not the table of symbols. -/
theorem read_ne (hm : m.Typed bare) {facet : Facet α} (hfacet : facet.Lawful)
    (hkind : facet.kind ≠ .table) {x : α} (hv : m.heap.read facet v = .ok x) :
    v ≠ m.symbols.table :=
  hm.public_ne (public_of_read hfacet hkind hv)

/-- What bears instances is a class. -/
theorem exists_cls_of_bears (hm : m.Shaped bare) {kind : ObjectKind} (hv : m.Bears v kind) :
    ∃ b, m.heap.read Facet.cls v = .ok b := by
  rcases hv with ⟨c, rfl, -⟩ | ⟨-, b, hb, -⟩
  · obtain ⟨b, hb, -⟩ := hm.builtin c
    exact ⟨b, hb⟩
  · exact ⟨b, hb⟩

theorem bears_ne (hm : m.Typed bare) {kind : ObjectKind} (hv : m.Bears v kind) :
    v ≠ m.symbols.table := by
  obtain ⟨b, hb⟩ := exists_cls_of_bears hm.shaped hv
  exact hm.read_ne Facet.lawful_cls nofun hb

/-- An object that fits can be made at any time. -/
theorem exists_alloc (hm : m.Typed bare) {cls : Value} {body : Body} (hf : m.Fits cls body)
    (havoids : body.Avoids m.symbols.table) (hquiet : quiet → body.Inert)
    (hroom : ((Effect.alloc cls body).after m).HasRoom) :
    ∃ v heap events, Effect.alloc cls body m = .ok v { m with heap := heap, events := events } ∧
      Typed bare { m with heap := heap, events := events } ∧
      m.Persists quiet { m with heap := heap, events := events } ∧
      Placed { m with heap := heap, events := events } cls body v := by
  obtain ⟨v, heap, events, h, hs, hrest⟩ := hm.shaped.exists_alloc hf hquiet hroom
  refine ⟨v, heap, events, h, ⟨hs, ?_⟩, hrest⟩
  have hkeeps := Effect.Discreet.leaves (Effect.discreet_alloc (fun _ => hm.bears_ne hf.bears)
    fun _ => havoids) hm.discreet hroom
  rwa [Effect.after_of_ok h] at hkeeps

/-- An object other than the table of symbols was changed. -/
theorem modifyObject {bare' : Set Value} (hm : m.Typed bare) {o : Object} {f : Object → Object}
    (ho : m.heap.get? v = some o) (ha : m.Amends bare bare' v o (f o))
    (hbare : .absent ∈ bare → .absent ∈ bare') (havoids : (f o).body.Avoids m.symbols.table)
    (hv : v ≠ m.symbols.table) (hquiet : quiet → (f o).body.Inert) :
    Typed bare' { m with heap := m.heap.modifyObject v f } ∧
      m.Persists quiet { m with heap := m.heap.modifyObject v f } := by
  refine ⟨⟨hm.shaped.modifyObject ho ha hbare, hm.discreet.with_heap m.events ?_⟩,
    persists_modifyObject ho ha.likens hquiet⟩
  refine hm.discreet.heap.modifyObject hv fun p hp havoids' => ?_
  obtain rfl := Option.some.inj (ho.symm.trans hp)
  refine ⟨⟨?_, havoids⟩, by rw [ha.flags_eq], Body.text_eq_of_outline_eq ha.likens.outline_eq⟩
  rw [ha.likens.cls_eq]
  exact havoids'.cls

/-- The same for data that were changed through a facet. -/
theorem modify {bare' : Set Value} (hm : m.Typed bare) {facet : Facet α} {g : α → α} {o : Object}
    {x : α} (ho : m.heap.get? v = some o) (hx : facet.get? o.body = some x)
    (ha : m.Amends bare bare' v o { o with body := facet.put (g x) })
    (hbare : .absent ∈ bare → .absent ∈ bare') (havoids : (facet.put (g x)).Avoids m.symbols.table)
    (hv : v ≠ m.symbols.table) (hquiet : quiet → (facet.put (g x)).Inert) :
    Typed bare' { m with heap := m.heap.modify facet v g } ∧
      m.Persists quiet { m with heap := m.heap.modify facet v g } := by
  have hchange := change_eq (g := g) hx
  have hbody : (change facet g o).body = facet.put (g x) := by rw [hchange]
  exact hm.modifyObject (f := change facet g) ho (hchange ▸ ha) hbare (hbody ▸ havoids) hv
    fun hq => hbody ▸ hquiet hq

/-- Handles can be given up. -/
theorem shrink (hm : m.Typed bare) (n : Nat) : Typed bare { m with handles := m.handles.shrink n } := by
  have hsub : ∀ v ∈ m.handles.shrink n, v ∈ m.handles := by
    intro v hv
    have hlist := Array.mem_toList_iff.mpr hv
    rw [Array.toList_shrink] at hlist
    exact Array.mem_toList_iff.mp (List.mem_of_mem_take hlist)
  refine ⟨hm.shaped.with_stacks (fun v hv => Or.inl (hsub v hv)) fun f hf => Or.inl hf, ?_⟩
  have hd := hm.discreet
  exact ⟨hd.table_eq, hd.nodup, hd.heap, hd.classes, hd.globals, fun hmem => hd.handles (hsub _ hmem),
    hd.cleanups, hd.weak, hd.activations, hd.resources⟩

end Typed

theorem Placed.isPublic {cls : Value} {body : Body} (h : m.Placed cls body v)
    (ht : ∀ t, body = .table t → t.strategy = .value) : m.Public v := by
  obtain ⟨o, ho, -, rfl⟩ := h.object
  exact Or.inr ⟨o, ho, ht⟩

/-- Direct instances of a built-in class, which keep no table of names yet. -/
theorem Shaped.fits (hs : m.Shaped bare) {c : BuiltinClass} {body : Body}
    (hkind : c.bodyKind = some body.kind) (hcls : ∀ b, body ≠ .cls b)
    (hedges : ∀ w ∈ body.edges, m.heap.Resolves w) (hsuits : m.Suits body)
    (hnames : ∀ a, body.names? = some a → a.isRef = false) : m.Fits (m.classValue c) body := by
  refine ⟨⟨(hs.intact.anchored_classValue c).resolves, hedges, fun t ht => ?_⟩, Or.inl ⟨c, rfl, hkind⟩,
    hsuits, fun a ha href => ?_, fun b hb => absurd hb (hcls b)⟩
  · rw [← Facet.lawful_table.put_eq ht] at hsuits
    exact hsuits.1.slotted
  · rw [hnames a ha] at href
    cases href

/-- An empty table can be made at any time. -/
theorem Shaped.fits_table (hs : m.Shaped bare) (strategy : Strategy) :
    m.Fits (m.classValue .dict) (.table (Table.new strategy 0)) := by
  refine hs.fits rfl nofun (fun w hw => ?_) ⟨Table.wellFormed_new strategy 0, fun _ id e he => ?_⟩ nofun
  · simp [Body.edges, Table.slab, Table.new] at hw
  · simp [Table.get?, Table.new] at he

/-- What is known of how an effect ended.  A fault does not occur. -/
def Outcome (post : α → Machine → Prop) : Except Unwind α → Machine → Prop
  | .ok x, m => post x m
  | .error (.raise exc), m => m.Raised exc
  | .error (.fatal _), _ => False

/-- How an effect that was started on a typed machine may end. -/
structure Behaved (quiet : Prop) (m : Machine) (post : α → Machine → Prop) (r : Except Unwind α)
    (m' : Machine) : Prop where
  typed : m'.Typed ∅
  persists : m.Persists quiet m'
  outcome : Outcome post r m'

/-- An effect that did not return promises nothing of an answer. -/
theorem Behaved.error {post : α → Machine → Prop} {goal : β → Machine → Prop} {u : Unwind}
    (h : m.Behaved quiet post (.error u) m') : m.Behaved quiet goal (.error u) m' := by
  refine ⟨h.typed, h.persists, ?_⟩
  have houtcome := h.outcome
  cases u with
  | raise exc => exact houtcome
  | fatal _ => exact houtcome

/-- What persisted before may be remembered. -/
theorem Behaved.since {m'' : Machine} {post : α → Machine → Prop} {r : Except Unwind α}
    (h : m'.Behaved quiet post r m'') (hk : m.Persists quiet m') : m.Behaved quiet post r m'' :=
  ⟨h.typed, hk.trans h.persists, h.outcome⟩

theorem Behaved.loud {quiet' : Prop} {post : α → Machine → Prop} {r : Except Unwind α}
    (h : m.Behaved quiet post r m') (hq : quiet' → quiet) : m.Behaved quiet' post r m' :=
  ⟨h.typed, h.persists.loud hq, h.outcome⟩

/-- What is known after an effect: what was known before, and what the effect did. -/
structure Since (quiet : Prop) (m m' : Machine) (pre post : Prop) : Prop where
  before : pre
  typed : m.Typed ∅
  persists : m.Persists quiet m'
  result : post

end Machine

/-- What an effect, started on a typed machine under an assumption, does. -/
def Effect.Behaves (quiet pre : Prop) (a : Effect α) (m : Machine) (post : α → Machine → Prop) :
    Prop := Promises (m.Typed ∅ ∧ pre) a m (m.Behaved quiet post)

namespace Effect

section Rules

variable {α β : Type} {quiet pre : Prop} {m : Machine} {a : Effect α} {f : α → Effect β}
  {post mid : α → Machine → Prop} {goal : β → Machine → Prop}

/-- An effect that returns. -/
theorem Behaves.of_ok {x : α} {m' : Machine} (h : a m = .ok x m')
    (hg : m.heap.slots.size ≤ m'.heap.slots.size)
    (hk : m.Typed ∅ → pre → m'.HasRoom → m'.Typed ∅ ∧ m.Persists quiet m' ∧ post x m') :
    Behaves quiet pre a m post := by
  refine Promises.of_ok h hg fun hp hroom => ?_
  obtain ⟨hm', hpersists, hpost⟩ := hk hp.1 hp.2 hroom
  exact ⟨hm', hpersists, hpost⟩

/-- An effect that always returns on typed machines. -/
theorem Behaves.of_exists (hg : m.heap.slots.size ≤ (a.after m).heap.slots.size)
    (hk : m.Typed ∅ → pre → (a.after m).HasRoom → ∃ x m', a m = .ok x m' ∧ m'.Typed ∅ ∧
      m.Persists quiet m' ∧ post x m') : Behaves quiet pre a m post := by
  refine ⟨hg, fun hp hroom => ?_⟩
  obtain ⟨x, m', h, hm', hpersists, hpost⟩ := hk hp.1 hp.2 hroom
  rw [ending_of_ok h, after_of_ok h]
  exact ⟨hm', hpersists, hpost⟩

theorem Behaves.congr {b : Effect α} (h : a m = b m) (hb : Behaves quiet pre b m post) :
    Behaves quiet pre a m post := Promises.congr h hb

theorem Behaves.imp {pre' : Prop} {post' : α → Machine → Prop} (ha : Behaves quiet pre a m post)
    (hpre : m.Typed ∅ → pre' → pre)
    (hpost : ∀ x m', m.Typed ∅ → pre' → m'.Typed ∅ → m.Persists quiet m' → post x m' → post' x m') :
    Behaves quiet pre' a m post' :=
  Promises.imp ha (fun hp => ⟨hp.1, hpre hp.1 hp.2⟩)
    (fun x m' _ hp _ hb => ⟨hb.typed, hb.persists,
      hpost x m' hp.1 hp.2 hb.typed hb.persists hb.outcome⟩)
    fun _ _ _ _ _ hb => hb.error

theorem Behaves.assuming {pre' : Prop} (ha : Behaves quiet pre a m post)
    (hpre : m.Typed ∅ → pre' → pre) : Behaves quiet pre' a m post :=
  ha.imp hpre fun _ _ _ _ _ _ h => h

theorem Behaves.weaken {post' : α → Machine → Prop} (ha : Behaves quiet pre a m post)
    (hpost : ∀ x m', pre → m'.Typed ∅ → m.Persists quiet m' → post x m' → post' x m') :
    Behaves quiet pre a m post' :=
  ha.imp (fun _ h => h) fun x m' _ hp hm' hk h => hpost x m' hp hm' hk h

theorem Behaves.loud {quiet' : Prop} (ha : Behaves quiet pre a m post) (hq : quiet' → quiet) :
    Behaves quiet' pre a m post := Promises.mono ha id fun _ _ _ _ hb => hb.loud hq

/-- One effect after the other. -/
theorem Behaves.bind (ha : Behaves quiet pre a m mid)
    (hf : ∀ x m', Behaves quiet (Since quiet m m' pre (mid x m')) (f x) m' goal) :
    Behaves quiet pre (a >>= f) m goal :=
  Promises.bind ha (fun x m' _ => Promises.mono (hf x m')
    (fun hp => ⟨hp.2.typed, hp.1.2, hp.1.1, hp.2.persists, hp.2.outcome⟩)
    fun _ _ hp _ hb => hb.since hp.2.persists)
    fun _ _ _ hb => hb.error

/-- An effect whose answer is only looked at. -/
theorem Behaves.map (ha : Behaves quiet pre a m mid) (g : α → β)
    (hg : ∀ x m', pre → m'.Typed ∅ → m.Persists quiet m' → mid x m' → goal (g x) m') :
    Behaves quiet pre (a >>= fun x => pure (g x)) m goal :=
  ha.bind fun x m' => .of_ok rfl le_rfl fun hm' h _ =>
    ⟨hm', .refl m', hg x m' h.before hm' h.persists h.result⟩

/-! ### Looking and failing -/

theorem behaves_pure {x : α} (hp : m.Typed ∅ → pre → post x m) : Behaves quiet pre (pure x) m post :=
  .of_ok rfl le_rfl fun hm h _ => ⟨hm, .refl m, hp hm h⟩

theorem Behaves.ask_bind {g : Machine → α} (hf : Behaves quiet pre (f (g m)) m goal) :
    Behaves quiet pre (ask g >>= f) m goal := Behaves.congr (bind_of_ok rfl) hf

/-- An effect that fails and leaves the machine alone does not occur. -/
theorem Behaves.of_never {u : Fault} (h : a m = .error (.fatal u) m) (hn : m.Typed ∅ → ¬ pre) :
    Behaves quiet pre a m post :=
  Promises.of_error h le_rfl fun hp _ => absurd hp.2 (hn hp.1)

/-- An effect that does not occur. -/
theorem Behaves.of_absurd (hg : m.heap.slots.size ≤ (a.after m).heap.slots.size)
    (hn : m.Typed ∅ → ¬ pre) : Behaves quiet pre a m post :=
  ⟨hg, fun hp _ => absurd hp.2 (hn hp.1)⟩

/-- What has room at the end has room at the start. -/
theorem Behaves.with_room (ha : Behaves quiet (pre ∧ m.HasRoom) a m post) :
    Behaves quiet pre a m post :=
  ⟨ha.grows, fun hp hroom => ha.keeps ⟨hp.1, hp.2, le_trans ha.grows hroom⟩ hroom⟩

theorem Behaves.read_bind {facet : Facet α} {v : Value}
    (hs : m.Typed ∅ → pre → ∃ x, m.heap.read facet v = .ok x)
    (hf : ∀ x, m.heap.read facet v = .ok x → Behaves quiet pre (f x) m goal) :
    Behaves quiet pre (read facet v >>= f) m goal := by
  refine Promises.read_bind hf fun u h hp => ?_
  obtain ⟨x, hx⟩ := hs hp.1 hp.2
  exact absurd (h.symm.trans hx) nofun

theorem Behaves.ofExcept_bind {r : Except Fault α} (hs : m.Typed ∅ → pre → ∃ x, r = .ok x)
    (hf : ∀ x, r = .ok x → Behaves quiet pre (f x) m goal) :
    Behaves quiet pre (ofExcept r >>= f) m goal := by
  cases h : r with
  | ok x => exact (hf x h).congr rfl
  | error u =>
    refine .of_never (u := u) rfl fun hm hp => ?_
    obtain ⟨x, hx⟩ := hs hm hp
    rw [h] at hx
    cases hx

/-- An effect that is run to see how it ends. -/
theorem Behaves.outcome (ha : Behaves quiet pre a m post) :
    Behaves quiet pre (outcome a) m (Outcome post) :=
  Promises.outcome ha fun _ _ _ hb => ⟨hb.typed, hb.persists, hb.outcome⟩

theorem behaves_throw {exc : Value} (hp : m.Typed ∅ → pre → m.Raised exc) :
    Behaves quiet pre (throw (.raise exc) : Effect α) m post :=
  Promises.of_error rfl le_rfl fun h _ => ⟨h.1, .refl m, hp h.1 h.2⟩

/-! ### Handles -/

/-- Changing the variables of the machine that hold no values. -/
theorem behaves_adjust {g : Machine → Machine} (hheap : (g m).heap = m.heap)
    (hsymbols : (g m).symbols = m.symbols) (hclasses : (g m).classes = m.classes)
    (hglobals : (g m).globals = m.globals) (hhandles : (g m).handles = m.handles)
    (hstate : (g m).callState = m.callState) (hsession : (g m).session = m.session) :
    Behaves quiet pre (update g) m fun _ m' => m'.heap = m.heap := by
  have hcalls := callRoots_eq_of_callState_eq hstate
  have hframes : (g m).frames = m.frames := (Prod.ext_iff.mp hstate).1
  refine .of_ok rfl (le_of_eq (by rw [hheap])) fun hm _ _ => ⟨⟨?_, ?_⟩, ?_, hheap⟩
  · refine hm.shaped.of_heap_eq hheap hclasses hglobals (fun h => by rwa [hsymbols]) fun v hv => ?_
    refine hm.shaped.intact.closed.roots v ?_
    rwa [mem_roots, hclasses, hsymbols, hglobals, hhandles, hcalls, ← mem_roots] at hv
  · have hd := hm.discreet
    rw [hsymbols]
    exact ⟨by rw [hsymbols], by rw [hsymbols]; exact hd.nodup, by rw [hsymbols, hheap]; exact hd.heap,
      by rw [hclasses]; exact hd.classes, by rw [hglobals]; exact hd.globals,
      by rw [hhandles]; exact hd.handles, by rw [hframes]; exact hd.cleanups,
      by rw [hsession]; exact hd.weak, by rw [hsession]; exact hd.activations,
      by rw [hsession]; exact hd.resources⟩
  · refine .of_heap_eq hheap ⟨hclasses, by rw [hsymbols], hglobals, by rw [hhandles], ?_⟩ hstate
      fun h => by rwa [hsymbols]
    rw [hcalls]
    exact List.Subset.refl _

theorem behaves_record (e : Event) :
    Behaves quiet pre (record e) m fun _ m' => m'.heap = m.heap :=
  behaves_adjust rfl rfl rfl rfl rfl rfl rfl

theorem behaves_setUnwindState (u : UnwindState) :
    Behaves quiet pre (update fun m => { m with unwindState := u }) m fun _ m' => m'.heap = m.heap :=
  behaves_adjust rfl rfl rfl rfl rfl rfl rfl

/-- Values that are live can be pinned. -/
theorem behaves_pinAll {vs : List Value}
    (hvs : m.Typed ∅ → pre → ∀ v ∈ vs, m.heap.Resolves v ∧ v ≠ m.symbols.table) :
    Behaves quiet pre (pinAll vs) m fun _ m' => (∀ v ∈ vs, v ∈ m'.roots) ∧
      m' = { m with handles := m.handles ++ vs.toArray } := by
  refine .of_ok (pinAll_eq vs m) le_rfl fun hm hp hroom => ⟨⟨?_, ?_⟩, ?_, fun v hv => ?_, rfl⟩
  · refine hm.shaped.with_stacks (fun v hv => ?_) fun f hf => Or.inl hf
    rcases Array.mem_append.mp hv with hv | hv
    · exact Or.inl hv
    · exact Or.inr (hvs hm hp v (List.mem_toArray.mp hv)).1
  · have hkeeps := Discreet.leaves (discreet_pinAll fun _ h => (hvs hm hp _ h).2 rfl) hm.discreet
    rw [after_of_ok (pinAll_eq vs m)] at hkeeps
    exact hkeeps hroom
  · refine .of_heap_eq rfl ⟨rfl, rfl, rfl, ?_, List.Subset.refl _⟩ rfl id
    rw [Array.toList_append]
    exact List.prefix_append _ _
  · refine mem_roots.mpr (Or.inr (Or.inr (Or.inr (Or.inl ?_))))
    rw [Array.toList_append]
    exact List.mem_append_right _ hv

theorem behaves_pin {v : Value} (hv : m.Typed ∅ → pre → m.heap.Resolves v ∧ v ≠ m.symbols.table) :
    Behaves quiet pre (pin v) m fun _ m' => v ∈ m'.roots ∧
      m' = { m with handles := m.handles.push v } := by
  refine .of_ok rfl le_rfl fun hm hp hroom => ⟨⟨?_, ?_⟩, ?_, mem_roots_push m v, rfl⟩
  · refine hm.shaped.with_stacks (fun w hw => ?_) fun f hf => Or.inl hf
    rcases Array.mem_push.mp hw with hw | rfl
    · exact Or.inl hw
    · exact Or.inr (hv hm hp).1
  · exact Discreet.leaves (discreet_pin fun _ => (hv hm hp).2) hm.discreet hroom
  · refine .of_heap_eq rfl ⟨rfl, rfl, rfl, ?_, List.Subset.refl _⟩ rfl id
    rw [Array.toList_push]
    exact List.prefix_append _ _

theorem Behaves.withHandles (ha : Behaves quiet pre a m post)
    (hpost : ∀ x m' handles, post x m' → post x { m' with handles := handles }) :
    Behaves quiet pre (withHandles a) m post := by
  refine Promises.withHandles ha fun r m' _ hb => ⟨hb.typed.shrink _, hb.persists.shrink, ?_⟩
  have hout := hb.outcome
  rcases r with (exc | u) | x
  · exact hout
  · exact hout.elim
  · exact hpost x m' _ hout

/-! ### Objects -/

theorem behaves_alloc {cls : Value} {body : Body}
    (hf : m.Typed ∅ → pre → m.Fits cls body ∧ body.Avoids m.symbols.table)
    (hquiet : quiet → body.Inert) :
    Behaves quiet pre (alloc cls body) m fun v m' => m'.Placed cls body v := by
  refine .of_exists (Discreet.size_le (s := m.symbols.table) (discreet_alloc False.elim False.elim) m)
    fun hm hp hroom => ?_
  obtain ⟨hfits, havoids⟩ := hf hm hp
  obtain ⟨v, heap, events, h, hrest⟩ := hm.exists_alloc hfits havoids hquiet hroom
  exact ⟨v, _, h, hrest⟩

/-- A new direct instance of a built-in class. -/
theorem behaves_make (c : BuiltinClass) {body : Body} (hkind : c.bodyKind = some body.kind)
    (hcls : ∀ b, body ≠ .cls b)
    (hp : m.Typed ∅ → pre → (∀ w ∈ body.edges, m.heap.Resolves w) ∧ m.Suits body ∧
      body.Avoids m.symbols.table)
    (hnames : ∀ a, body.names? = some a → a.isRef = false) (hquiet : quiet → body.Inert) :
    Behaves quiet pre (classValue c >>= fun cls => alloc cls body) m
      fun v m' => m'.Placed (m.classValue c) body v := by
  refine Behaves.ask_bind (behaves_alloc (fun hm h => ?_) hquiet)
  obtain ⟨hedges, hsuits, havoids⟩ := hp hm h
  exact ⟨hm.shaped.fits hkind hcls hedges hsuits hnames, havoids⟩

theorem behaves_newText (s : String) : Behaves quiet pre (newText s) m
    fun v m' => m'.Placed (m.classValue .string) (.text s) v :=
  behaves_make .string rfl nofun (fun _ _ => ⟨by simp [Body.edges], trivial, Body.avoids_text s⟩) nofun
    fun _ => ⟨nofun, nofun⟩

theorem behaves_newFloat (x : Binary64) : Behaves quiet pre (newFloat x) m
    fun v m' => m'.Placed (m.classValue .float) (.float x) v :=
  behaves_make .float rfl nofun (fun _ _ => ⟨by simp [Body.edges], trivial, Body.avoids_float x⟩) nofun
    fun _ => ⟨nofun, nofun⟩

theorem behaves_newBignum (n : Int) : Behaves quiet pre (newBignum n) m
    fun v m' => m'.Placed (m.classValue .bignum) (.bignum n) v :=
  behaves_make .bignum rfl nofun (fun _ _ => ⟨by simp [Body.edges], trivial, Body.avoids_bignum n⟩)
    nofun fun _ => ⟨nofun, nofun⟩

theorem behaves_newArray {items : List Value} (hp : m.Typed ∅ → pre → ∀ v ∈ items, m.Public v) :
    Behaves quiet pre (newArray items) m
      fun v m' => m'.Placed (m.classValue .array) (.array items.toArray) v := by
  refine behaves_make .array rfl nofun (fun hm h => ⟨fun w hw => ?_, fun w hw => ?_, ?_⟩) nofun
    fun _ => ⟨nofun, nofun⟩
  · exact (hp hm h w (by simpa [Body.edges] using hw)).resolves
  · exact hp hm h w (List.mem_toArray.mp hw)
  · refine Body.avoids_array.mpr fun hmem => ?_
    exact hm.public_ne (hp hm h _ (List.mem_toArray.mp hmem)) rfl

theorem behaves_newTable (strategy : Strategy) (hquiet : quiet → strategy ≠ .value) :
    Behaves quiet pre (newTable strategy 0) m
      fun v m' => m'.Placed (m.classValue .dict) (.table (Table.new strategy 0)) v :=
  Behaves.ask_bind (behaves_alloc (fun hm _ => ⟨hm.shaped.fits_table strategy,
    Body.avoids_newTable strategy 0⟩) fun hq => Body.inert_table (hquiet hq))

/-- Changing an object other than the table of symbols. -/
theorem behaves_write {facet : Facet β} {v : Value} {g : β → β}
    (hp : m.Typed ∅ → pre → v ≠ m.symbols.table ∧ ∃ o x, m.heap.get? v = some o ∧
      facet.get? o.body = some x ∧ m.Amends ∅ ∅ v o { o with body := facet.put (g x) } ∧
      (facet.put (g x)).Avoids m.symbols.table)
    (hquiet : quiet → ∀ x, (facet.put (g x)).Inert) :
    Behaves quiet pre (write facet v g) m fun _ m' =>
      m' = { m with heap := m.heap.modify facet v g } := by
  refine Behaves.read_bind (fun hm h => ?_) fun x hx => ?_
  · obtain ⟨-, o, x, ho, hb, -⟩ := hp hm h
    exact ⟨x, Heap.read_eq_ok_iff.mpr ⟨o, ho, hb⟩⟩
  · refine .of_ok rfl (le_of_eq (Heap.size_modifyObject _ _ _).symm) fun hm h _ => ?_
    obtain ⟨hv, o, y, ho, hb, hamends, havoids⟩ := hp hm h
    obtain ⟨hm', hk⟩ := hm.modify ho hb hamends id havoids hv fun hq => hquiet hq y
    exact ⟨hm', hk, rfl⟩

/-! ### Raising -/

/-- Adding a value that programs may hold to an array. -/
theorem behaves_pushArray {array v : Value} (hp : m.Typed ∅ → pre →
      (∃ items, m.heap.read Facet.array array = .ok items) ∧ m.Public v) :
    Behaves quiet pre (write Facet.array array (·.push v)) m fun _ m' =>
      m' = { m with heap := m.heap.modify Facet.array array (·.push v) } := by
  refine behaves_write (fun hm h => ?_) fun _ x => Body.inert_array (x.push v)
  obtain ⟨⟨items, hitems⟩, hv⟩ := hp hm h
  obtain ⟨o, ho, hb⟩ := Heap.read_eq_ok_iff.mp hitems
  have hbody : o.body = .array items := (Facet.lawful_array.put_eq hb).symm
  have hold : ∀ w ∈ items, m.Public w := by
    have hsuits := hm.shaped.suits array o ho
    rwa [hbody] at hsuits
  have hnew : ∀ w ∈ items.push v, m.Public w := by
    intro w hw
    rcases Array.mem_push.mp hw with hw | rfl
    · exact hold w hw
    · exact hv
  refine ⟨hm.read_ne Facet.lawful_array nofun hitems, o, items, ho, hb, ⟨⟨rfl, by rw [hbody]; rfl⟩,
    rfl, rfl, fun w hw => ?_, hnew, nofun, nofun, nofun, fun _ _ h => h⟩, ?_⟩
  · exact (hnew w (by simpa [Facet.array, Body.edges] using hw)).resolves
  · exact Body.avoids_array.mpr fun hmem => hm.public_ne (hnew _ hmem) rfl

theorem behaves_pushTraceLines {trace : Value} : ∀ {m : Machine} {pre : Prop} (names : List String),
    (m.Typed ∅ → pre → trace ∈ m.roots ∧ ∃ items, m.heap.read Facet.array trace = .ok items) →
    Behaves quiet pre (pushTraceLines trace names) m fun _ _ => True
  | m, pre, [], _ => behaves_pure fun _ _ => trivial
  | m, pre, name :: names, hp => by
    have hkeeps : ∀ {m m' : Machine}, m.Persists quiet m' → trace ∈ m.roots ∧
        (∃ items, m.heap.read Facet.array trace = .ok items) → trace ∈ m'.roots ∧
        ∃ items, m'.heap.read Facet.array trace = .ok items := by
      rintro m m' hk ⟨hr, items, hitems⟩
      obtain ⟨o, ho, hb⟩ := Heap.read_eq_ok_iff.mp hitems
      obtain ⟨o', ho', -, hkind⟩ := hk.exists_kind hr ho
      rw [Object.kind, Object.kind, ← Facet.lawful_array.put_eq hb] at hkind
      obtain ⟨items', hitems'⟩ := Facet.lawful_array.exists_get? hkind
      exact ⟨hk.carries.roots_subset hr, items', Heap.read_eq_ok_iff.mpr ⟨o', ho', hitems'⟩⟩
    refine (behaves_newText name).bind fun line m₁ => (behaves_pushArray fun hm h => ?_).bind fun _ m₂ =>
      behaves_pushTraceLines names fun hm h => ?_
    · exact ⟨(hkeeps h.persists (hp h.typed h.before)).2, h.result.isPublic fun _ ht => by cases ht⟩
    · exact hkeeps h.persists (hkeeps h.before.persists (hp h.before.typed h.before.before))

/-- A new exception. -/
theorem behaves_newException (kind : ErrorKind) (message : String) :
    Behaves quiet pre (classValue (.error kind) >>= fun cls => newException cls message) m
      fun exc m' => m'.Raised exc := by
  refine Behaves.ask_bind ((behaves_newText message).bind fun text m₁ => ?_)
  refine (behaves_alloc (fun hm h => ⟨?_, ?_⟩) fun _ => Body.inert_exception _).weaken
    fun exc m₂ h hm hk hplaced => ?_
  · rw [← h.persists.classValue_eq]
    have htext : m₁.Public text := h.result.isPublic nofun
    refine hm.shaped.fits rfl nofun (fun w hw => ?_) ⟨htext, Or.inl rfl⟩ fun a ha => ?_
    · simp only [Body.edges, List.mem_cons, List.not_mem_nil, or_false] at hw
      rcases hw with rfl | rfl | rfl | rfl
      · exact htext.resolves
      · exact Heap.resolves_of_not_isRef rfl
      · exact Heap.resolves_of_not_isRef rfl
      · exact Heap.resolves_of_not_isRef rfl
    · obtain rfl := Option.some.inj ha
      rfl
  · have href := hm.discreet.isRef
    exact Body.avoids_exception.mpr ⟨hm.public_ne (h.result.isPublic nofun), nil_ne href, nil_ne href,
      absent_ne href⟩
  · obtain ⟨o, ho, hcls, hbody⟩ := hplaced.object
    refine ⟨kind, o, ho, ?_, by rw [Object.kind, hbody]; rfl⟩
    rw [hcls, hk.classValue_eq, h.persists.classValue_eq]

/-- Giving an exception a stack trace. -/
theorem behaves_setTrace {exc trace : Value} (hp : m.Typed ∅ → pre → m.Raised exc ∧ m.Public trace) :
    Behaves quiet pre (write Facet.exception exc fun e => { e with stackTrace := trace }) m
      fun _ _ => True := by
  refine (behaves_write (fun hm h => ?_) fun _ e => Body.inert_exception _).weaken
    fun _ _ _ _ _ _ => trivial
  obtain ⟨⟨kind, o, ho, -, hkind⟩, htrace⟩ := hp hm h
  obtain ⟨e, he⟩ := Facet.lawful_exception.exists_get? hkind
  have hbody : o.body = .exception e := (Facet.lawful_exception.put_eq he).symm
  have hsuits := hm.shaped.suits exc o ho
  rw [hbody] at hsuits
  have havoids := (hm.discreet.heap.objects exc o ho).body
  rw [hbody] at havoids
  obtain ⟨hmessage, -, hcontext, hattributes⟩ := Body.avoids_exception.mp havoids
  refine ⟨hm.read_ne Facet.lawful_exception nofun (Heap.read_eq_ok_iff.mpr ⟨o, ho, he⟩), o, e, ho, he,
    ⟨⟨rfl, by rw [hbody]; rfl⟩, rfl, rfl, fun w hw => ?_, hsuits,
      fun a ha href => Or.inl (by rw [hbody]; exact ha), nofun, nofun, fun _ _ h => h⟩, ?_⟩
  · have hold : ∀ {w}, w ∈ (Body.exception e).edges → m.heap.Resolves w := fun hw =>
      hm.shaped.intact.closed.edges exc o ho _ (List.mem_cons_of_mem _ (hbody ▸ hw))
    simp only [Facet.exception, Body.edges, List.mem_cons, List.not_mem_nil, or_false] at hw
    rcases hw with rfl | rfl | rfl | rfl
    · exact hold (by simp [Body.edges])
    · exact htrace.resolves
    · exact hold (by simp [Body.edges])
    · exact hold (by simp [Body.edges])
  · exact Body.avoids_exception.mpr ⟨hmessage, hm.public_ne htrace, hcontext, hattributes⟩

/-- Of an exception that is about to be raised nothing else need be known. -/
theorem behaves_captureTrace {exc : Value} (hp : m.Typed ∅ → pre → m.Raised exc) :
    Behaves quiet pre (captureTrace exc) m fun _ m' => m'.Raised exc := by
  refine Behaves.ask_bind (Behaves.withHandles ?_ fun _ _ _ h => h)
  -- from here on the exception is pinned, and so is its trace
  have hpin : Behaves quiet pre (pin exc) m fun _ m' => exc ∈ m'.roots ∧ m'.Raised exc := by
    refine (behaves_pin fun hm h => ?_).imp (fun _ h => h) fun _ m' hm h _ _ hpinned =>
      ⟨hpinned.1, hpinned.2 ▸ hp hm h⟩
    obtain ⟨kind, o, ho, -, hkind⟩ := hp hm h
    obtain ⟨e, he⟩ := Facet.lawful_exception.exists_get? hkind
    exact ⟨Heap.resolves_of_isLive (Heap.isLive_of_get? ho), hm.read_ne Facet.lawful_exception nofun
      (Heap.read_eq_ok_iff.mpr ⟨o, ho, he⟩)⟩
  have hkeep : ∀ {m m' : Machine}, m.Persists quiet m' → exc ∈ m.roots ∧ m.Raised exc →
      exc ∈ m'.roots ∧ m'.Raised exc := fun hk h =>
    ⟨hk.carries.roots_subset h.1, hk.raised h.1 h.2⟩
  refine hpin.bind fun _ m₁ => (behaves_newArray fun _ _ _ h => absurd h List.not_mem_nil).bind
    fun trace m₂ => (behaves_pin (v := trace) fun hm h => ?_).bind fun _ m₃ =>
      (behaves_pushTraceLines _ fun hm h => ?_).bind fun _ m₄ => (behaves_setTrace fun hm h => ?_).weaken
        fun _ m₅ h _ hk _ => ?_
  · have htrace : m₂.Public trace := h.result.isPublic nofun
    exact ⟨htrace.resolves, hm.public_ne htrace⟩
  · obtain ⟨hr, rfl⟩ := h.result
    exact ⟨hr, _, h.before.result.read_eq rfl⟩
  · obtain ⟨hr, heq⟩ := h.before.result
    have htrace : m₃.Public trace := heq ▸ h.before.before.result.isPublic nofun
    have hexc := hkeep h.before.before.persists h.before.before.before.result
    exact ⟨(hkeep h.persists (hkeep h.before.persists hexc)).2, h.persists.public_root htrace hr⟩
  · have hexc := hkeep h.before.before.persists h.before.before.before.result
    exact (hkeep hk (hkeep h.persists (hkeep h.before.persists hexc))).2

theorem behaves_throwException {exc : Value} (hp : m.Typed ∅ → pre → m.Raised exc) :
    Behaves quiet pre (throwException exc : Effect α) m post := by
  refine (behaves_setUnwindState _).bind fun _ m' => behaves_throw fun _ h => ?_
  obtain ⟨kind, o, ho, hcls, hkind⟩ := hp h.typed h.before
  exact ⟨kind, o, h.result ▸ ho, hcls.trans (h.persists.classValue_eq _).symm, hkind⟩

/-- Raising an error always succeeds. -/
theorem behaves_raiseError (kind : ErrorKind) (message : String) :
    Behaves quiet pre (raiseError kind message : Effect α) m post := by
  have hsplit : (raiseError kind message : Effect α) =
      ((classValue (.error kind) >>= fun cls => newException cls message) >>= fun exc =>
        captureTrace exc >>= fun _ => throwException exc) := (bind_assoc _ _ _).symm
  rw [hsplit]
  exact (behaves_newException kind message).bind fun exc m₁ =>
    (behaves_captureTrace fun _ h => h.result).bind fun _ m₂ => behaves_throwException fun _ h => h.result

theorem behaves_discardException (exc : Value) (context : String) :
    Behaves quiet pre (discardException exc context) m fun _ _ => True :=
  Behaves.ask_bind (Behaves.ask_bind ((behaves_record _).bind fun _ _ =>
    (behaves_setUnwindState _).weaken fun _ _ _ _ _ _ => trivial))

/-! ### Numbers -/

theorem behaves_atomic {v : Value} (hv : v.Atomic) :
    Behaves quiet pre (pure v) m fun v m' => m'.Public v := behaves_pure fun _ _ => Or.inl hv

theorem behaves_newInteger (n : Int) :
    Behaves quiet pre (newInteger n) m fun v m' => m'.Public v := by
  rw [newInteger, Value.ofInt?]
  split
  · rename_i v hv
    split at hv
    · obtain rfl := Option.some.inj hv
      exact behaves_atomic (.ofInt n)
    · cases hv
  · exact (behaves_newBignum n).weaken fun _ _ _ _ _ h => h.isPublic fun _ ht => by cases ht

theorem behaves_newNumeral (n : Numeral) :
    Behaves quiet pre (newNumeral n) m fun v m' => m'.Public v := by
  cases n with
  | fixnum n => exact behaves_atomic (.ofInt n)
  | integer n => exact behaves_newInteger n
  | float x => exact (behaves_newFloat x).weaken fun _ _ _ _ _ h => h.isPublic nofun

end Rules

end Effect

end ObjectMachine
