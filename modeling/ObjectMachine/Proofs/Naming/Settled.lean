import Mathlib.Tactic
import ObjectMachine.Proofs.Machine.Raising
import ObjectMachine.Proofs.Naming.Bindings
import ObjectMachine.Proofs.Typing.Classes

/-! Effects on names.

A settled machine is in order, discreet and neat.  `Binds` relates it to a later one: no reference is
used twice, names keep their numbers, and whatever lives on has its names bound as before, but for what
is new.  `Settles` is what an effect does to a settled machine; its rules follow the way effects are
built, and there is one for each of the steps that classes, methods and attributes are made of. -/

namespace ObjectMachine

open Effect

namespace Machine

variable {m m' m'' : Machine} {new : Value → Value → Option Value} {v : Value}

/-- A discreet machine in order whose tables of names are neat. -/
structure Settled (m : Machine) : Prop where
  intact : m.Intact
  discreet : m.Discreet m.symbols.table
  neat : m.heap.Neat

/-- Nothing new is bound. -/
def nothing : Value → Value → Option Value := fun _ _ => none

/-- A key is bound in an object. -/
def single (object key x : Value) : Value → Value → Option Value := fun v k =>
  if v = object ∧ k = key then some x else none

/-- A later machine, in which everything that lives has its names bound as before, but for what is
new. -/
structure Binds (new : Value → Value → Option Value) (m m' : Machine) : Prop where
  settled : m'.Settled
  later : m.heap.Later m.heap.nextSerial Set.univ (fun _ => True) m'.heap
  names : ∀ {i : Nat} {name : String}, m.symbols.names[i]? = some name →
    m'.symbols.names[i]? = some name
  bindings : ∀ {v}, m'.heap.isLive v = true → ∀ key,
    m'.heap.binding? v key = (new v key).or (m.heap.binding? v key)
  table_eq : m'.symbols.table = m.symbols.table
  classes_eq : m'.classes = m.classes

theorem Settled.binds_refl (hm : m.Settled) : m.Binds nothing m where
  settled := hm
  later := .refl hm.neat.numbered
  names := id
  bindings _ _ := rfl
  table_eq := rfl
  classes_eq := rfl

/-- What lives at last and is not there in between was not there before. -/
theorem Binds.binding?_eq_none (h : m.Binds nothing m') (h' : m'.Binds new m'')
    (hlive : m''.heap.isLive v = true) (hv : m'.heap.get? v = none) (key : Value) :
    m.heap.binding? v key = none := by
  cases ho : m.heap.get? v with
  | none => exact Heap.binding?_of_not_live ho key
  | some o =>
    rcases h.later.objects ho with ⟨o', ho', -⟩ | hspent
    · rw [hv] at ho'
      cases ho'
    · obtain ⟨o'', ho''⟩ := Heap.isLive_iff.mp hlive
      rw [(h'.later.spent hspent).get?_eq_none] at ho''
      cases ho''

theorem Binds.trans (h : m.Binds nothing m') (h' : m'.Binds new m'') : m.Binds new m'' where
  settled := h'.settled
  later := h.later.trans (h'.later.forget h.later.serial_le (Set.Subset.refl _))
  names hi := h'.names (h.names hi)
  bindings {v} hlive key := by
    rw [h'.bindings hlive]
    cases hv : m'.heap.get? v with
    | some o => rw [h.bindings (Heap.isLive_of_get? hv)]; rfl
    | none => rw [Heap.binding?_of_not_live hv, h.binding?_eq_none h' hlive hv]
  table_eq := h'.table_eq.trans h.table_eq
  classes_eq := h'.classes_eq.trans h.classes_eq

/-- What is younger than a machine was not there. -/
theorem Binds.get?_eq_none (hm : m.Settled) (h : m.Binds new m') (hyoung : m'.heap.Young m.heap.nextSerial v)
    (hlive : m'.heap.isLive v = true) : m.heap.get? v = none := by
  rw [Option.eq_none_iff_forall_ne_some]
  intro o ho
  obtain ⟨o', ho'⟩ := Heap.isLive_iff.mp hlive
  have hserial := (h.later.follows ho ho').serial_eq
  exact absurd (hm.neat.numbered.serial_lt ho) (not_lt.mpr (hserial ▸ hyoung o' ho'))

/-- Handles may be given up. -/
theorem Settled.shrink (hm : m.Settled) (n : Nat) :
    Settled { m with handles := m.handles.shrink n } := by
  have hsub : ∀ w ∈ m.handles.shrink n, w ∈ m.handles := fun w hw => by
    rw [← Array.mem_toList_iff, Array.toList_shrink] at hw
    exact Array.mem_toList_iff.mp (List.mem_of_mem_take hw)
  have hi := hm.intact
  have hd := hm.discreet
  refine ⟨⟨hi.sound, hi.unmarked, hi.tables, ⟨fun w hw => hi.closed.roots w ?_, hi.closed.edges⟩⟩,
    ⟨rfl, hd.nodup, hd.heap, hd.classes, hd.globals, fun hs => hd.handles (hsub _ hs), hd.cleanups,
      hd.weak, hd.activations, hd.resources⟩, hm.neat⟩
  rw [mem_roots] at hw ⊢
  refine hw.imp id (Or.imp id (Or.imp id (Or.imp (fun hw => ?_) id)))
  exact Array.mem_toList_iff.mpr (hsub w (Array.mem_toList_iff.mp hw))

theorem Binds.shrink (h : m.Binds new m') (n : Nat) :
    m.Binds new { m' with handles := m'.handles.shrink n } :=
  ⟨h.settled.shrink n, h.later, h.names, h.bindings, h.table_eq, h.classes_eq⟩

theorem Settled.whole (hm : m.Settled) : m.heap.Whole := hm.intact.closed.edges

/-- Nobody keeps the table of symbols. -/
theorem Settled.unowned_symbols (hm : m.Settled) : m.heap.Unowned m.symbols.table := fun u o ho ha =>
  (hm.discreet.heap.objects u o ho).edges (List.mem_cons_of_mem _ (Body.mem_edges_of_names? ha))

theorem Settled.exists_symbols (hm : m.Settled) : ∀ a ∈ ({m.symbols.table} : Set Value),
    ∃ t, m.heap.read Facet.table a = .ok t := by
  rintro _ rfl
  obtain ⟨t, ht, -⟩ := hm.discreet.heap.table
  exact ⟨t, ht⟩

/-- Time goes by: bare objects are made, and tables are written that nobody keeps. -/
theorem Settled.binds_later {written : Set Value} (hm : m.Settled) (hi : m'.Intact)
    (hd : m'.Discreet m.symbols.table)
    (hl : m.heap.Later m.heap.nextSerial written Body.Bare m'.heap)
    (hw : ∀ a ∈ written, ∃ t, m.heap.read Facet.table a = .ok t)
    (hfree : ∀ a ∈ written, m.heap.Unowned a)
    (hnames : ∀ {i : Nat} {name : String}, m.symbols.names[i]? = some name →
      m'.symbols.names[i]? = some name) (hclasses : m'.classes = m.classes) : m.Binds nothing m' := by
  refine ⟨⟨hi, ?_, hm.neat.later hl hi.closed.edges hw hfree⟩,
    hl.forget le_rfl (Set.subset_univ _), hnames, fun {v} hv key => ?_, hd.table_eq, hclasses⟩
  · rw [hd.table_eq]
    exact hd
  · obtain ⟨o', ho'⟩ := Heap.isLive_iff.mp hv
    rw [Heap.binding?, Heap.binding?, hm.neat.names?_later hl hi.closed.edges hw hfree ho']
    rfl

/-- The same if it is the table of symbols that is written. -/
theorem Settled.binds_symbols (hm : m.Settled) (hi : m'.Intact) (hd : m'.Discreet m.symbols.table)
    (hl : m.heap.Later m.heap.nextSerial {m.symbols.table} Body.Bare m'.heap)
    (hnames : ∀ {i : Nat} {name : String}, m.symbols.names[i]? = some name →
      m'.symbols.names[i]? = some name) (hclasses : m'.classes = m.classes) : m.Binds nothing m' := by
  refine hm.binds_later hi hd hl hm.exists_symbols ?_ hnames hclasses
  rintro _ rfl
  exact hm.unowned_symbols

/-! ### Deriving classes -/

/-- What a class may be made of: a name, a class above it, and a table of names that nobody keeps. -/
structure Derives (m : Machine) (cls : Value) (c : ClassBody) : Prop where
  admits : m.Admits cls (.cls c)
  ne_symbols : cls ≠ m.symbols.table
  avoids : (Body.cls c).Avoids m.symbols.table
  methods : m.heap.read Facet.table c.methods = .ok (Table.new .symbol 0)
  unowned : m.heap.Unowned c.methods
  superclass : ∃ b, m.heap.read Facet.cls c.superclass = .ok b

variable {cls : Value} {c : ClassBody}

theorem Derives.pending (h : m.Derives cls c) : ∀ w ∈ cls :: (Body.cls c).edges, m.heap.Resolves w :=
  List.forall_mem_cons.mpr ⟨h.admits.cls, h.admits.edges⟩

/-- A collection leaves in place what a class is going to be made of. -/
theorem Derives.collectWith (h : m.Derives cls c) (hi : m.Intact) :
    (m.collectWith (cls :: (Body.cls c).edges)).Derives cls c := by
  have hcollect : Keeps ∅ ∅ ∅ m (m.collectWith (cls :: (Body.cls c).edges)) ∧ ∀ w ∈ cls :: (Body.cls c).edges,
      (m.collectWith (cls :: (Body.cls c).edges)).heap.Resolves w := hi.collectWith h.pending
  obtain ⟨-, hresolves⟩ := hcollect
  have hget : ∀ {v o}, (m.collectWith (cls :: (Body.cls c).edges)).heap.get? v = some o ↔
      m.heap.get? v = some o ∧ m.heap.Reachable (m.roots ++ cls :: (Body.cls c).edges) v :=
    Heap.get?_collect_eq_some_iff hi.unmarked
  have hread : ∀ {β : Type} {facet : Facet β} {x : β} {w : Value}, w ∈ cls :: (Body.cls c).edges →
      m.heap.read facet w = .ok x →
        (m.collectWith (cls :: (Body.cls c).edges)).heap.read facet w = .ok x := by
    intro β facet x w hw hx
    obtain ⟨o, ho, hb⟩ := Heap.read_eq_ok_iff.mp hx
    exact Heap.read_eq_ok_iff.mpr ⟨o, hget.mpr ⟨ho, .root (List.mem_append_right _ hw)
      (Heap.isLive_of_get? ho)⟩, hb⟩
  obtain ⟨b, hb⟩ := h.superclass
  exact ⟨⟨hresolves cls List.mem_cons_self, fun w hw => hresolves w (List.mem_cons_of_mem _ hw),
    fun _ ht => by cases ht⟩, h.ne_symbols, h.avoids, hread (by simp [Body.edges]) h.methods,
    fun u o ho => h.unowned u o (hget.mp ho).1, b, hread (by simp [Body.edges]) hb⟩

end Machine

open Machine

/-- How an effect that was started on a settled machine may end.  If it fails, nothing new is bound. -/
def Machine.SettlesIn (m : Machine) (fails : Unwind → Machine → Prop) (post : α → Machine → Prop) :
    Except Unwind α → Machine → Prop
  | .ok x, m' => post x m'
  | .error u, m' => m.Binds nothing m' ∧ fails u m'

/-- What an effect, started on a settled machine under an assumption, does to it. -/
def Effect.Settles (pre : Prop) (a : Effect α) (m : Machine) (fails : Unwind → Machine → Prop)
    (post : α → Machine → Prop) : Prop :=
  Promises (m.Settled ∧ pre) a m (m.SettlesIn fails post)

namespace Effect

variable {α β : Type} {pre : Prop} {m : Machine} {fails : Unwind → Machine → Prop} {a : Effect α}
  {f : α → Effect β} {post mid : α → Machine → Prop} {goal : β → Machine → Prop}

/-- What is known after a step. -/
structure Stepped (pre : Prop) (m : Machine) (mid : Machine → Prop) (m' : Machine) : Prop where
  before : pre
  settled : m.Settled
  binds : m.Binds nothing m'
  result : mid m'

namespace Settles

/-! ### Rules -/

/-- How the effect ended, told by its result. -/
theorem ends (h : Settles pre a m fails post) (hm : m.Settled) (hp : pre) (hroom : (a.after m).HasRoom) :
    match a m with
    | .ok x m' => post x m'
    | .error u m' => m.Binds nothing m' ∧ fails u m' := by
  cases hrun : a m with
  | ok x m' => exact Promises.keeps_of_ok h hrun ⟨hm, hp⟩ (by rwa [after_of_ok hrun] at hroom)
  | error u m' => exact Promises.keeps_of_error h hrun ⟨hm, hp⟩ (by rwa [after_of_error hrun] at hroom)

theorem congr {b : Effect α} (h : a m = b m) (hb : Settles pre b m fails post) :
    Settles pre a m fails post := Promises.congr h hb

theorem of_ok {x : α} {m' : Machine} (h : a m = .ok x m')
    (hg : m.heap.slots.size ≤ m'.heap.slots.size)
    (hp : m.Settled → pre → m'.HasRoom → post x m') : Settles pre a m fails post :=
  Promises.of_ok h hg fun h hroom => hp h.1 h.2 hroom

theorem of_error {u : Unwind} {m' : Machine} (h : a m = .error u m')
    (hg : m.heap.slots.size ≤ m'.heap.slots.size)
    (hp : m.Settled → pre → m'.HasRoom → m.Binds nothing m' ∧ fails u m') :
    Settles pre a m fails post := Promises.of_error h hg fun h hroom => hp h.1 h.2 hroom

/-- An effect that returns whenever there is room. -/
theorem of_returns (hg : m.heap.slots.size ≤ (a.after m).heap.slots.size)
    (hp : m.Settled → pre → (a.after m).HasRoom → ∃ x m', a m = .ok x m' ∧ post x m') :
    Settles pre a m fails post := by
  refine ⟨hg, fun h hroom => ?_⟩
  obtain ⟨x, m', hx, hpost⟩ := hp h.1 h.2 hroom
  rw [ending_of_ok hx, after_of_ok hx]
  exact hpost

theorem imp {pre' : Prop} {fails' : Unwind → Machine → Prop} {post' : α → Machine → Prop}
    (ha : Settles pre a m fails post) (hpre : m.Settled → pre' → pre)
    (hfails : m.Settled → pre' → ∀ u m', fails u m' → fails' u m')
    (hpost : m.Settled → pre' → ∀ x m', a m = .ok x m' → post x m' → post' x m') :
    Settles pre' a m fails' post' :=
  Promises.imp ha (fun hp => ⟨hp.1, hpre hp.1 hp.2⟩) (fun x m' h hp _ hx => hpost hp.1 hp.2 x m' h hx)
    fun u m' _ hp _ hu => hu.imp id (hfails hp.1 hp.2 u m')

/-- If there is room at the end, there was at the beginning. -/
theorem within (ha : Settles pre a m fails post) :
    Settles pre a m (fun u m' => m.HasRoom ∧ fails u m') post :=
  Promises.imp ha id (fun _ _ _ _ _ hx => hx) fun _ _ h _ hroom hu =>
    ⟨hu.1, le_trans (Promises.grows_of_error ha h) hroom, hu.2⟩

/-- A step after which nothing new is bound, and what follows it. -/
theorem bind (ha : Settles pre a m fails fun x m' => m.Binds nothing m' ∧ mid x m')
    (hf : ∀ x m', a m = .ok x m' → Settles (Stepped pre m (mid x) m') (f x) m' fails goal) :
    Settles pre (a >>= f) m fails goal :=
  Promises.bind ha (fun x m' h => Promises.imp (hf x m' h)
    (fun hp => ⟨hp.2.1.settled, hp.1.2, hp.1.1, hp.2.1, hp.2.2⟩) (fun _ _ _ _ _ hy => hy)
    fun _ _ _ hp _ hu => hu.imp hp.2.1.trans id) fun _ _ _ hu => hu

theorem map {post : Machine → Prop} (ha : Settles pre a m fails fun _ m' => post m') (g : α → β) :
    Settles pre (a >>= fun x => pure (g x)) m fails fun _ m' => post m' :=
  Promises.map ha g (fun _ _ _ hx => hx) fun _ _ _ hu => hu

theorem ask_bind {g : Machine → α} (hf : Settles pre (f (g m)) m fails goal) :
    Settles pre (ask g >>= f) m fails goal := Promises.ask_bind hf

theorem read_bind {facet : Facet α} {v : Value}
    (hf : ∀ x, m.heap.read facet v = .ok x → Settles pre (f x) m fails goal)
    (hs : m.Settled → pre → ∀ u, m.heap.read facet v = .error u → fails (.fatal u) m) :
    Settles pre (read facet v >>= f) m fails goal :=
  Promises.read_bind hf fun u h hp => ⟨hp.1.binds_refl, hs hp.1 hp.2 u h⟩

theorem withHandles (ha : Settles pre a m fails post)
    (hfails : ∀ u (m' : Machine) n, fails u m' → fails u { m' with handles := m'.handles.shrink n })
    (hpost : ∀ x (m' : Machine) n, post x m' → post x { m' with handles := m'.handles.shrink n }) :
    Settles pre (withHandles a) m fails post := by
  refine Promises.withHandles ha fun r m' _ h => ?_
  cases r with
  | ok x => exact hpost x m' _ h
  | error u => exact h.imp (fun h => h.shrink _) (hfails u m' _)

/-! ### Pinning -/

/-- A value can be pinned if it is no dangling reference, and not the table of symbols. -/
theorem pin {v : Value} (hv : m.Settled → pre → m.heap.Resolves v ∧ v ≠ m.symbols.table) :
    Settles pre (pin v) m fails fun _ m' =>
      m.Binds nothing m' ∧ v ∈ m'.roots ∧ m'.heap = m.heap ∧ m.Carries m' := by
  refine .of_ok rfl le_rfl fun hm hp hroom => ?_
  have hsecure : Secure ∅ ∅ ∅ True True (Effect.pin v) m fun _ m' => v ∈ m'.roots ∧ m'.heap = m.heap :=
    secure_pin fun _ _ => (hv hm hp).1
  have hk := hsecure.keeps hm.intact trivial hroom
  have hdiscreet : Discreet m.symbols.table True True (Effect.pin v) fun _ => True :=
    discreet_pin fun _ => (hv hm hp).2
  have hd := (hdiscreet.keeps trivial m hm.discreet hroom).1
  exact ⟨⟨⟨hk.intact, hd, hm.neat⟩, .refl hm.neat.numbered, id, fun _ _ => rfl, rfl, rfl⟩,
    mem_roots_push m v, rfl, hk.carries⟩

theorem pinAll : ∀ {m : Machine} {pre : Prop} (vs : List Value),
    (m.Settled → pre → ∀ v ∈ vs, m.heap.Resolves v ∧ v ≠ m.symbols.table) →
    Settles pre (pinAll vs) m fails fun _ m' =>
      m.Binds nothing m' ∧ (∀ v ∈ vs, v ∈ m'.roots) ∧ m'.heap = m.heap ∧ m.Carries m'
  | m, pre, [], _ => .of_ok rfl le_rfl fun hm _ _ => ⟨hm.binds_refl, nofun, rfl, .refl m⟩
  | m, pre, v :: vs, hvs => by
    refine (pin fun hm hp => hvs hm hp v List.mem_cons_self).bind fun _ m₁ _ =>
      (pinAll vs fun hm h w hw => ?_).imp (fun _ h => h) (fun _ _ _ _ h => h) fun _ h _ m' _ hpinned => ?_
    · obtain ⟨-, heap, -⟩ := h.result
      rw [heap, h.binds.table_eq]
      exact hvs h.settled h.before w (List.mem_cons_of_mem _ hw)
    · obtain ⟨hbinds, hroots, heap, hc⟩ := hpinned
      obtain ⟨hroot, heap₁, hc₁⟩ := h.result
      refine ⟨h.binds.trans hbinds, fun w hw => ?_, heap.trans heap₁, hc₁.trans hc⟩
      rcases List.mem_cons.mp hw with rfl | hw
      · exact hc.roots_subset hroot
      · exact hroots w hw

/-! ### Making -/

/-- Bare objects can be made of what is there.  Nobody keeps them as a table of names. -/
theorem alloc {cls : Value} {body : Body} (hbare : body.Bare)
    (hp : m.Settled → pre → m.Admits cls body ∧ cls ≠ m.symbols.table ∧ body.Avoids m.symbols.table) :
    Settles pre (alloc cls body) m fails fun v m' => m.Binds nothing m' ∧
      Keeps ∅ ∅ ∅ m m' ∧ Made m cls body v m' ∧ m'.heap.Young m.heap.nextSerial v ∧
      m'.heap.Unowned v ∧ v ≠ m.symbols.table := by
  obtain ⟨v, m', hv⟩ := exists_alloc_eq cls body m
  have hadvances : Advances m.heap.nextSerial {m.symbols.table} Body.Bare True (Effect.alloc cls body) m
      fun v m' => m'.heap.Young m.heap.nextSerial v := .alloc cls hbare
  have hgrows := hadvances.grows
  rw [after_of_ok hv] at hgrows
  refine .of_ok hv hgrows fun hm hpre hroom => ?_
  obtain ⟨hadmits, hcls, hbody⟩ := hp hm hpre
  have hsecure : Secure ∅ ∅ ∅ True True (Effect.alloc cls body) m (Made m cls body) :=
    Secure.alloc fun _ _ => hadmits
  have hdiscreet : Discreet m.symbols.table True True (Effect.alloc cls body) fun v => v ≠ m.symbols.table :=
    discreet_alloc (fun _ => hcls) fun _ => hbody
  have hroom' : ((Effect.alloc cls body).after m).HasRoom := by rwa [after_of_ok hv]
  have hk := hsecure.keeps hm.intact trivial hroom'
  obtain ⟨hd, log, hlog, hquiet⟩ := hdiscreet.keeps trivial m hm.discreet hroom'
  have hl := hadvances.later hm.neat.numbered le_rfl trivial hroom'
  have hmade := hsecure.answers hm.intact trivial v m' hv hroom
  have hyoung := hadvances.answers hm.neat.numbered le_rfl trivial v m' hv hroom
  rw [after_of_ok hv] at hk hd hl hlog
  have hnames : m'.symbols.names = m.symbols.names := by
    rw [hlog.names_eq, hquiet trivial]
    rfl
  exact ⟨hm.binds_symbols hk.intact hd hl (fun hi => hnames ▸ hi) hk.carries.classes_eq, hk, hmade, hyoung,
    hm.neat.unowned_young hm.whole hl hm.exists_symbols hyoung hmade.isLive,
    hdiscreet.answers trivial m v m' hm.discreet hv hroom⟩

/-- A new table of names. -/
theorem newTable : Settles pre (newTable .symbol 0) m fails fun v m' => m.Binds nothing m' ∧
    Keeps ∅ ∅ ∅ m m' ∧ m'.heap.read Facet.table v = .ok (Table.new .symbol 0) ∧ m'.heap.Unowned v ∧
    v ≠ m.symbols.table := by
  have halloc : Settles pre (Effect.alloc (m.classValue .dict) (.table (Table.new .symbol 0))) m fails _ :=
    alloc ⟨fun _ => Body.noConfusion, fun _ h => by cases h⟩ fun hm _ =>
      ⟨⟨(hm.intact.anchored_classValue .dict).resolves, by simp [Body.edges, Table.slab, Table.new],
        fun t ht => Option.some.inj ht ▸ (Table.wellFormed_new .symbol 0).slotted⟩,
      hm.discreet.classValue_ne .dict, Body.avoids_newTable .symbol 0⟩
  refine Settles.ask_bind (halloc.imp (fun _ h => h) (fun _ _ _ _ h => h) ?_)
  rintro - - v m' - ⟨hbinds, hk, hmade, -, hfree, hne⟩
  exact ⟨hbinds, hk, hmade.read_eq rfl, hfree, hne⟩

/-! ### Symbols -/

/-- A name becomes a symbol. -/
theorem intern (name : String) : Settles pre (intern name) m fails fun key m' => m.Binds nothing m' ∧
    Keeps ∅ ∅ {m.symbols.table} m m' ∧ (∀ a, m.heap.Unowned a → a ≠ .absent → m'.heap.Unowned a) ∧
      ∃ i : Nat, key = .ofSymbol i ∧ m'.symbols.names[i]? = some name := by
  have hadvances : Advances m.heap.nextSerial {m.symbols.table} Body.Bare True (Effect.intern name) m
      fun _ _ => True :=
    .intern (fun _ => ⟨fun _ => Body.noConfusion, fun _ => nofun⟩)
      (fun _ => ⟨fun _ => Body.noConfusion, fun _ => nofun⟩) name rfl
  refine .of_returns hadvances.grows fun hm _ hroom => ?_
  obtain ⟨i, m', hintern, hnames, hi, hd⟩ := exists_intern hm.discreet name hroom
  have hsecure : Secure ∅ ∅ {m.symbols.table} False True (Effect.intern name) m fun v m' =>
      m'.Anchored v ∧ ∃ t, m.heap.read Facet.table m.symbols.table = .ok t :=
    secure_intern name rfl fun _ _ => False.elim
  have hk := hsecure.keeps hm.intact trivial hroom
  have hl := hadvances.later hm.neat.numbered le_rfl trivial hroom
  rw [after_of_ok hintern] at hk hl
  have hkept := hm.binds_symbols hk.intact hd hl (fun hj => hnames ▸ getElem?_enter name hj)
    hk.carries.classes_eq
  exact ⟨_, m', hintern, hkept, hk, fun a => hl.unowned hm.neat.numbered hm.exists_symbols, i, rfl, hi⟩

/-! ### Tables of names -/

/-- An object that has no attributes yet gets a table for them. -/
theorem setAttributes {object fresh : Value} (hp : m.Settled → pre →
      m.attributes? object = some .absent ∧ fresh ≠ m.symbols.table ∧ m.heap.Unowned fresh ∧
        m.heap.read Facet.table fresh = .ok (Table.new .symbol 0)) :
    Settles pre (setAttributes object fresh) m fails fun _ m' => m.Binds nothing m' ∧
      m'.attributes? object = some fresh ∧ m'.roots = m.roots := by
  cases hold : m.attributes? object with
  | none =>
    have hfault : Effect.setAttributes object fresh m = .error (.fatal (.staleReference object)) m := by
      have hask : ask (·.attributes? object) m = .ok none m := by rw [ask, hold]
      rw [Effect.setAttributes, bind_of_ok hask]
      rfl
    refine .of_error hfault le_rfl fun hm h _ => ?_
    rw [hold] at hp
    cases (hp hm h).1
  | some a =>
    have hset : Effect.setAttributes object fresh m =
        .ok () { m with heap := m.heap.modifyObject object (attributed fresh) } := by
      have hask : ask (·.attributes? object) m = .ok (some a) m := by rw [ask, hold]
      rw [Effect.setAttributes, bind_of_ok hask]
      rfl
    refine .of_ok hset (Heap.size_modifyObject _ _ _).ge fun hm h hroom => ?_
    obtain ⟨habsent, hne, hfree, ht⟩ := hp hm h
    obtain rfl := Option.some.inj (hold.symm.trans habsent)
    obtain ⟨o, ho, hkind, hbody⟩ := attributes?_eq_some hold
    have hobject : object ≠ m.symbols.table := by
      rintro rfl
      obtain ⟨t, ht⟩ := hm.exists_symbols _ rfl
      obtain ⟨p, hp, hb⟩ := Heap.exists_of_read_table ht
      obtain rfl := Option.some.inj (hp.symm.trans ho)
      exact hkind (congrArg Body.kind hb)
    have hroom' : ((Effect.setAttributes object fresh).after m).HasRoom := by
      rw [after_of_ok hset]
      exact hroom
    have hplain : ∀ old, m.attributes? object = some old → old.isRef = false := fun old hsome => by
      obtain rfl := Option.some.inj (hold.symm.trans hsome)
      rfl
    have hsecure : Secure ∅ ∅ {object} False True (Effect.setAttributes object fresh) m _ :=
      secure_setAttributes rfl (fun _ _ => ⟨Heap.resolves_of_read ht, hplain⟩) fun _ _ => False.elim
    have hdiscreet : Discreet m.symbols.table True True (Effect.setAttributes object fresh) fun _ => True :=
      discreet_setAttributes (fun _ => hobject) fun _ => hne
    have hk := hsecure.keeps hm.intact trivial hroom'
    have hd := (hdiscreet.keeps trivial m hm.discreet hroom').1
    rw [after_of_ok hset] at hk hd
    -- the object keeps everything but its attributes
    have hchange : o.body.names? = some .absent ∧ (∀ c, o.body ≠ .cls c) ∧
        (attributed fresh o).body.names? = some fresh ∧ (∀ c, (attributed fresh o).body ≠ .cls c) ∧
        o.Likens (attributed fresh o) := by
      obtain ⟨cls, flags, serial, body⟩ := o
      rcases hbody with rfl | ⟨e, rfl, he⟩
      · exact ⟨rfl, fun _ => Body.noConfusion, rfl, fun _ => Body.noConfusion, rfl, rfl⟩
      · exact ⟨congrArg some he, fun _ => Body.noConfusion, rfl, fun _ => Body.noConfusion, rfl, rfl⟩
    obtain ⟨hnames, hcls, hnames', hcls', hlikens⟩ := hchange
    have hattach := hm.neat.attach ho hnames hcls ⟨hnames', rfl, rfl, hcls'⟩ ht hfree
    refine ⟨⟨⟨hk.intact, hd, hattach.1⟩, Heap.later_modifyObject hm.neat.numbered (Or.inl trivial)
      fun p hp => ?_, id, fun _ key => hattach.2 _ key, rfl, rfl⟩, attributes?_attributed hold, rfl⟩
    obtain rfl := Option.some.inj (hp.symm.trans ho)
    exact ⟨hlikens, rfl, rfl, fun _ => trivial⟩

/-- What an insertion into a table of names makes of a settled machine. -/
structure Inserted (m : Machine) (a key v : Value) (s : IdealTable Dictionary.symbolLaw)
    (m' : Machine) : Prop where
  intact : m'.Intact
  discreet : m'.Discreet m.symbols.table
  rewrites : m.heap.Rewrites a m'.heap
  symbols_eq : m'.symbols = m.symbols
  classes_eq : m'.classes = m.classes
  globals_eq : m'.globals = m.globals
  table : ∃ t' first, m'.heap.read Facet.table a = .ok t' ∧ Dictionary.Names t' (s.put key (first, v))

theorem discreet_insertName {pre : Prop} {a key v s : Value} (h : pre → a ≠ s ∧ key ≠ s ∧ v ≠ s) :
    Discreet s True pre (Dictionary.insert (fun _ => Keys.symbol) a key v) fun _ => True :=
  Dictionary.discreet_insert (fun _ => discreetKeys_symbol) (fun hp => (h hp).1) (fun hp => (h hp).2.1)
    fun hp => (h hp).2.2

theorem exists_inserted {a key v : Value} {t : Table} {s : IdealTable Dictionary.symbolLaw}
    (hm : m.Settled) (ht : m.heap.read Facet.table a = .ok t) (hs : Dictionary.Names t s)
    (has : a ≠ m.symbols.table) (hkey : key.Atomic) (hv : m.heap.Resolves v ∧ v ≠ m.symbols.table)
    (hroom : ((Dictionary.insert (fun _ => Keys.symbol) a key v).after m).HasRoom) :
    ∃ b m', Dictionary.insert (fun _ => Keys.symbol) a key v m = .ok b m' ∧ Inserted m a key v s m' := by
  obtain ⟨b, m', t', first, hinsert, hr, hsymbols, ht', hs'⟩ :=
    Dictionary.exists_insert_names ht hs hkey.ne_absent v
  have hsecure : Secure ∅ {a} {a} False True
      (Dictionary.insert (fun _ => Keys.symbol) a key v) m fun _ _ => True := by
    refine secure_insertSymbol (fun _ _ => ⟨rfl, rfl⟩) (fun _ _ => ?_) fun _ _ => False.elim
    exact Heap.resolves_triple (Heap.resolves_of_read ht) (Heap.resolves_of_not_isRef hkey.isRef_eq) hv.1
  have hk := hsecure.keeps hm.intact trivial hroom
  have hd := ((discreet_insertName fun _ : True =>
    ⟨has, ne_of_not_isRef hm.discreet.isRef hkey.isRef_eq, hv.2⟩).keeps trivial m hm.discreet hroom).1
  rw [after_of_ok hinsert] at hk hd
  exact ⟨b, m', hinsert, hk.intact, hd, hr, hsymbols, hk.carries.classes_eq, hk.carries.globals_eq, t',
    first, ht', hs'⟩

/-- An insertion into the table of names of an object binds the symbol there, and changes no more than
tables. -/
theorem insert {object a key v : Value} (hp : m.Settled → pre →
      (∃ o, m.heap.get? object = some o ∧ o.body.names? = some a) ∧ a ≠ .absent ∧ key.Atomic ∧
        m.heap.Resolves v ∧ v ≠ m.symbols.table) :
    Settles pre (Dictionary.insert (fun _ => Keys.symbol) a key v) m fails fun _ m' =>
      m.Binds (single object key v) m' ∧ ∀ u (o : Object), (∀ t, o.body ≠ .table t) →
        (m'.heap.get? u = some o ↔ m.heap.get? u = some o) := by
  refine .of_returns ((discreet_insertName (s := .nil) (False.elim : False → _)).grows m)
    fun hm h hroom => ?_
  obtain ⟨⟨o, ho, ha⟩, hne, hkey, hv⟩ := hp hm h
  obtain ⟨t, s, ht, hs⟩ := hm.neat.tables ho ha hne
  have has : a ≠ m.symbols.table := by
    rintro rfl
    exact hm.unowned_symbols object o ho ha
  obtain ⟨b, m', hinsert, hi⟩ := exists_inserted hm ht hs has hkey hv hroom
  obtain ⟨t', first, ht', hs'⟩ := hi.table
  have henter := hm.neat.enter hi.rewrites ho ha hne ht hs ht' hs'
  have hl : m.heap.Later m.heap.nextSerial {a} Body.Bare m'.heap :=
    hi.rewrites.later hm.neat.numbered ht ht' (hs'.strategy_eq.trans hs.strategy_eq.symm)
  refine ⟨b, m', hinsert, ⟨⟨hi.intact, ?_, henter.1⟩, hl.forget le_rfl (Set.subset_univ _), fun hi' =>
    hi.symbols_eq ▸ hi', fun {u} _ other => ?_, hi.discreet.table_eq, hi.classes_eq⟩,
    fun u o hbody => hi.rewrites.get?_iff ht ht' hbody⟩
  · rw [hi.discreet.table_eq]
    exact hi.discreet
  · rw [henter.2, single]
    split <;> rfl

/-- An insertion into a table of names that belongs to no object binds nothing in objects. -/
theorem insertUnowned {a key v : Value} (hp : m.Settled → pre →
      (∃ t s, m.heap.read Facet.table a = .ok t ∧ Dictionary.Names t s) ∧ m.heap.Unowned a ∧
        a ≠ m.symbols.table ∧ key.Atomic ∧ m.heap.Resolves v ∧ v ≠ m.symbols.table) :
    Settles pre (Dictionary.insert (fun _ => Keys.symbol) a key v) m fails fun _ m' =>
      m.Binds nothing m' ∧ (∃ t s, m'.heap.read Facet.table a = .ok t ∧ Dictionary.Names t s) ∧
        m'.heap.Unowned a ∧ m'.globals = m.globals := by
  refine .of_returns ((discreet_insertName (s := .nil) (False.elim : False → _)).grows m)
    fun hm h hroom => ?_
  obtain ⟨⟨t, s, ht, hs⟩, hfree, has, hkey, hv⟩ := hp hm h
  obtain ⟨b, m', hinsert, hi⟩ := exists_inserted hm ht hs has hkey hv hroom
  obtain ⟨t', first, ht', hs'⟩ := hi.table
  have hl : m.heap.Later m.heap.nextSerial {a} Body.Bare m'.heap :=
    hi.rewrites.later hm.neat.numbered ht ht' (hs'.strategy_eq.trans hs.strategy_eq.symm)
  have hw : ∀ b ∈ ({a} : Set Value), ∃ t, m.heap.read Facet.table b = .ok t := by
    rintro _ rfl
    exact ⟨t, ht⟩
  refine ⟨b, m', hinsert, hm.binds_later hi.intact hi.discreet hl hw (by rintro _ rfl; exact hfree)
    (fun hi' => hi.symbols_eq ▸ hi') hi.classes_eq, ⟨t', _, ht', hs'⟩,
    hl.unowned hm.neat.numbered hw hfree ?_, hi.globals_eq⟩
  rintro rfl
  cases ht

/-- A lookup in the table of names of an object finds the binding, and nothing happens. -/
theorem lookup (object : Value) {a key : Value} (hp : m.Settled → pre →
      (∃ o, m.heap.get? object = some o ∧ o.body.names? = some a) ∧ a ≠ .absent ∧ key ≠ .absent) :
    Settles pre (Dictionary.lookup (fun _ => Keys.symbol) a key) m fails fun found m' =>
      m.Binds nothing m' ∧ m' = m ∧ found = m.heap.binding? object key := by
  have hdiscreet : Discreet m.symbols.table True False (Dictionary.lookup (fun _ => Keys.symbol) a key)
      fun _ => True :=
    (Dictionary.discreet_lookup (fun _ => discreetKeys_symbol) False.elim False.elim).imp id
      fun _ _ _ => trivial
  refine .of_returns (hdiscreet.grows m) fun hm h _ => ?_
  obtain ⟨⟨o, ho, ha⟩, hne, hkey⟩ := hp hm h
  obtain ⟨t, s, ht, hs⟩ := hm.neat.tables ho ha hne
  refine ⟨_, m, Dictionary.lookup_names ht hs hkey, hm.binds_refl, rfl, ?_⟩
  rw [Heap.binding?, Heap.names?_eq_some ho ha ht]
  rfl

/-! ### Classes and errors -/

/-- The heap is collected. -/
theorem collectWith {pending : List Value}
    (hp : m.Settled → pre → ∀ w ∈ pending, m.heap.Resolves w) :
    Settles pre (update (·.collectWith pending)) m fails fun _ m' =>
      m.Binds nothing m' ∧ m' = m.collectWith pending := by
  refine .of_ok rfl (Heap.size_collect m.heap _).ge fun hm h _ => ?_
  have hk : Keeps ∅ ∅ ∅ m (m.collectWith pending) := (hm.intact.collectWith (hp hm h)).1
  exact ⟨hm.binds_symbols hk.intact (hm.discreet.collectWith _) (Heap.later_collect hm.neat.numbered _) id
    hk.carries.classes_eq, rfl⟩

/-- A class is stored, below another and without methods. -/
theorem storeClass {cls : Value} {c : ClassBody} (hp : m.Settled → pre → m.Derives cls c) :
    Settles pre (store cls (.cls c)) m fails fun v m' => m.Binds nothing m' ∧
      m'.heap.read Facet.cls v = .ok c := by
  refine .of_ok rfl (m.heap.size_le_insert cls _) fun hm h hroom => ?_
  obtain ⟨hadmits, hcls, havoids, ht, hfree, b, hb⟩ := hp hm h
  obtain ⟨o, ho, hbody⟩ := Heap.read_eq_ok_iff.mp hb
  have hk : Keeps ∅ ∅ ∅ m { m with heap := m.heap.insert cls (.cls c) } := hm.intact.store hadmits hroom
  have hd := hm.discreet.with_heap m.events (hm.discreet.heap.insert hcls havoids hroom).1
  have hderive := hm.neat.derive cls hroom ht hfree ho (Facet.lawful_cls.put_eq hbody).symm
  refine ⟨⟨⟨hk.intact, hd, hderive.1⟩, Heap.later_insert hm.neat.numbered le_rfl cls trivial, id,
    fun _ key => hderive.2 _ key, rfl, rfl⟩, ?_⟩
  exact Heap.read_eq_ok_iff.mpr ⟨_, (hm.neat.numbered.sound.get?_insert cls _ hroom _).trans (if_pos rfl), rfl⟩

/-- The same after a collection, if the heap asks for one. -/
theorem allocClass {cls : Value} {c : ClassBody} (hp : m.Settled → pre → m.Derives cls c) :
    Settles pre (Effect.alloc cls (.cls c)) m fails fun v m' => m.Binds nothing m' ∧
      m'.heap.read Facet.cls v = .ok c := by
  rcases alloc_cases cls (.cls c) m with h | h
  · exact (storeClass hp).congr h
  have hbind : Effect.alloc cls (.cls c) m = (update (·.collectWith (cls :: (Body.cls c).edges)) >>=
      fun _ => store cls (.cls c)) m := h
  refine Settles.congr hbind ((collectWith fun hm h => (hp hm h).pending).bind fun _ m₁ _ =>
    (storeClass fun _ h => ?_).imp (fun _ h => h) (fun _ _ _ _ h => h)
      fun _ h _ m' _ hstored => ⟨h.binds.trans hstored.1, hstored.2⟩)
  rw [h.result]
  exact (hp h.settled h.before).collectWith h.settled.intact

/-- An error is made of objects of its own, and binds nothing. -/
theorem raiseError (kind : ErrorKind) (message : String) :
    Settles pre (raiseError kind message : Effect α) m
      (fun u m' => ∃ exc, u = .raise exc ∧ m'.IsError kind message exc) post := by
  have hadvances : Advances m.heap.nextSerial {m.symbols.table} Body.Bare True
      (Effect.raiseError kind message : Effect α) m fun _ _ => True := .raiseError kind message
  refine ⟨hadvances.grows, fun ⟨hm, _⟩ hroom => ?_⟩
  obtain ⟨exc, m', hraise, herror, hclasses⟩ := exists_raised_within (α := α) hm.intact kind message hroom
  have hsecure : Secure ∅ ∅ ∅ False True (Effect.raiseError kind message : Effect α) m fun _ _ => True :=
    .raiseError kind message fun _ _ => id
  have hdiscreet : Discreet m.symbols.table True True (Effect.raiseError kind message : Effect α)
      fun _ => True := discreet_raiseError kind message
  have hk := hsecure.keeps hm.intact trivial hroom
  obtain ⟨hd, log, hlog, hquiet⟩ := hdiscreet.keeps trivial m hm.discreet hroom
  have hl := hadvances.later hm.neat.numbered le_rfl trivial hroom
  rw [after_of_error hraise] at hk hd hlog hl
  rw [ending_of_error hraise, after_of_error hraise]
  have hnames : m'.symbols.names = m.symbols.names := by
    rw [hlog.names_eq, hquiet trivial]
    rfl
  exact And.intro (hm.binds_symbols hk.intact hd hl (fun hi => hnames ▸ hi) hclasses) ⟨exc, rfl, herror⟩

end Settles

end Effect

end ObjectMachine
