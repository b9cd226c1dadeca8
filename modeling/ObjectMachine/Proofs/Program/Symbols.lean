import Mathlib.Tactic
import ObjectMachine.Proofs.Machine.Growth
import ObjectMachine.Proofs.Program.Discretion

/-! Symbols over whole runs.

A machine serves requests one after the other, from its bootstrap on: names are interned directly and
by everything that needs a name, objects come and go, and the heap collects whenever it wants.  The
names that were interned on the way, with the symbols they got, are the history of the machine.  In
every history two symbols are one if and only if their names are, and the table of symbols lists the
names in the order of their first use. -/

namespace ObjectMachine

open Effect Machine

/-! ### The bootstrap -/

namespace Bootstrap

variable {s : Value} {pre : Prop}

theorem discreet_nameClasses : ∀ {pre : Prop} (cs : List BuiltinClass),
    Discreet s False pre (nameClasses cs) fun _ => True
  | _, [] => discreet_skip
  | _, c :: cs => by
    refine (discreet_newTable _ _).bind fun methods => discreet_intern.bind fun name =>
      (discreet_classValue c).bind fun cls => ?_
    refine Discreet.andThen (discreet_write Facet.lawful_cls nofun And.right fun h body hbody => ?_)
      fun _ => discreet_nameClasses cs
    exact Body.avoids_cls.mpr ⟨h.1.2, (Body.avoids_cls.mp hbody).2.1, h.1.1.2⟩

theorem discreet_bindClasses : ∀ {pre : Prop} (cs : List BuiltinClass),
    Discreet s False pre (bindClasses cs) fun _ => True
  | _, [] => discreet_skip
  | _, c :: cs => (discreet_classValue c).bind fun _ =>
    (spells_setGlobal And.right).toDiscreet.andThen fun _ => discreet_bindClasses cs

theorem discreet_definePrimitives {cls : Value} (hcls : pre → cls ≠ s) :
    ∀ methods : List PrimitiveMethod, Discreet s False pre (definePrimitives cls methods) fun _ => True
  | [] => discreet_skip
  | p :: rest => by
    have hcode : pre → (Code.primitive p.primitive).Avoids s := fun _ => trivial
    exact (spells_defineMethod hcls hcode).toDiscreet.andThen fun _ =>
      discreet_definePrimitives hcls rest

theorem discreet_install : ∀ {pre : Prop} (lists : List (BuiltinClass × PrimitiveList)),
    Discreet s False pre (install lists) fun _ => True
  | _, [] => discreet_skip
  | _, (c, _) :: rest => (discreet_classValue c).bind fun _ =>
    (discreet_definePrimitives And.right _).andThen fun _ => discreet_install rest

theorem discreet_furnish : Discreet s False pre furnish fun _ => True := by
  refine (discreet_nameClasses _).andThen fun _ => (discreet_newTable _ _).bind fun globals => ?_
  have hglobals : Discreet s False (pre ∧ globals ≠ s)
      (update fun m => { m with globals := globals }) fun _ => True := by
    refine discreet_update (fun _ => le_rfl) (fun _ => rfl) (fun hp m hm _ => ?_) fun _ => trivial
    exact ⟨hm.table_eq, hm.nodup, hm.heap, hm.classes, hp.2, hm.handles, hm.cleanups, hm.weak,
      hm.activations, hm.resources⟩
  have hheap : ∀ {pre : Prop}, Discreet s False pre
      (update fun m => { m with heap := { m.heap with allocated := 0, enabled := true } })
      fun _ => True := by
    refine discreet_update (fun _ => le_rfl) (fun _ => rfl) (fun _ m hm _ => ?_) fun _ => trivial
    obtain ⟨hempty, hnodup, hgeneration⟩ := hm.heap.sound
    exact hm.with_heap m.events
      ⟨⟨hempty, hnodup, hgeneration⟩, hm.heap.unmarked, hm.heap.objects, hm.heap.table⟩
  exact hglobals.andThen fun _ => (discreet_bindClasses _).andThen fun _ =>
    (discreet_install _).andThen fun _ => hheap.andThen fun _ =>
      Discreet.ask_bind fun _ => discreet_record _

/-- A new machine is discreet, and its names were all interned since it had none. -/
theorem exists_history_new (settings : HeapSettings) : ∃ (blank : Machine) (log : _),
    blank.symbols.names = #[] ∧
      blank.Interns (Machine.new settings).symbols.table log (Machine.new settings) ∧
      (Machine.new settings).Discreet (Machine.new settings).symbols.table := by
  obtain ⟨h, classes, hl, hnew⟩ := exists_new_eq settings
  have hroom : (Machine.new settings).HasRoom := le_trans (size_new_le settings).1 (by decide)
  rw [hnew] at hroom
  have hfurnish : Discreet (planted h classes).symbols.table False True furnish fun _ => True :=
    discreet_furnish
  obtain ⟨hm, log, hlog, -⟩ := hfurnish.keeps trivial _ (discreet_planted hl) hroom
  rw [hnew, hm.table_eq]
  exact ⟨planted h classes, log, rfl, hlog, hm⟩

end Bootstrap

/-! ### Requests -/

/-- What a client asks of a machine. -/
inductive Request where
  | intern (name : String)
  | setGlobal (name : String) (v : Value)
  | getGlobal (name : String)
  | setAttribute (object : Value) (name : String) (v : Value)
  | getAttribute (object : Value) (name : String)
  | newClass (name : String) (superclass : Value)
  | defineMethod (cls : Value) (method : NativeMethod)
  | call (receiver : Value) (name : String) (args : List Value)
  | run (p : Program)
  | collect

namespace Request

def perform : Request → Effect Value
  | .intern name => Effect.intern name
  | .setGlobal name v => do
    Effect.setGlobal name v
    return .nil
  | .getGlobal name => do return (← Effect.getGlobal name).getD .absent
  | .setAttribute object name v => do
    Effect.setAttribute object name v
    return .nil
  | .getAttribute object name => Effect.getAttribute object name
  | .newClass name superclass => Effect.newClass name superclass
  | .defineMethod cls method => do
    Effect.defineMethod cls method
    return .nil
  | .call receiver name args => Calls.top.callMethod receiver name args
  | .run p => p.eval Calls.top
  | .collect => do
    collectGarbage
    return .nil

/-- Serves requests one after the other; what fails keeps what it did. -/
def serve (requests : List Request) (m : Machine) : Machine :=
  requests.foldl (fun m r => r.perform.after m) m

/-- A client that has not made up a reference to the table of symbols. -/
def Avoids (s : Value) : Request → Prop
  | .intern _ | .getGlobal _ | .collect => True
  | .setGlobal _ v => v ≠ s
  | .setAttribute object _ v => object ≠ s ∧ v ≠ s
  | .getAttribute object _ => object ≠ s
  | .newClass _ superclass => superclass ≠ s
  | .defineMethod cls method => cls ≠ s ∧ method.code.Avoids s
  | .call receiver _ args => receiver ≠ s ∧ s ∉ args
  | .run p => p.Avoids s

/-- The names that a request interned on a machine, with their symbols: its own name first.  A class
below something that is no class is refused before its name is looked at. -/
def Accounts (m : Machine) : Request → List (String × Value) → Prop
  | .intern name, log => ∃ v m', Effect.intern name m = .ok v m' ∧ log = [(name, v)]
  | .setGlobal name _, log | .getGlobal name, log | .setAttribute _ name _, log
  | .getAttribute _ name, log => ∃ v, log = [(name, v)]
  | .defineMethod _ method, log => ∃ v, log = [(method.name, v)]
  | .newClass name superclass, log => match m.heap.read Facet.cls superclass with
    | .ok _ => ∃ v, log = [(name, v)]
    | .error _ => log = []
  | .call _ name _, log => ∃ v rest, log = (name, v) :: rest
  | .run _, _ => True
  | .collect, log => log = []

variable {s : Value} {m : Machine}

/-- The values a client hands over with a request. -/
def values : Request → List Value
  | .setGlobal _ v => [v]
  | .setAttribute object _ v => [object, v]
  | .getAttribute object _ => [object]
  | .newClass _ superclass => [superclass]
  | .defineMethod cls _ => [cls]
  | .call receiver _ args => receiver :: args
  | .intern _ | .getGlobal _ | .run _ | .collect => []

/-- The code a client hands over with a request. -/
def code? : Request → Option Code
  | .defineMethod _ method => some method.code
  | .run p => some (.program p)
  | _ => none

theorem avoids_iff (r : Request) :
    r.Avoids s ↔ s ∉ r.values ∧ ∀ code, r.code? = some code → code.Avoids s := by
  cases r <;> simp [Avoids, values, code?, Code.Avoids, eq_comm (a := s)]

/-- Requests that hand over public values only avoid the table of symbols, which no value in the hands of
clients is. -/
theorem avoids_of_public {r : Request} (hm : m.Discreet s) (hvalues : ∀ v ∈ r.values, m.Public v)
    (hcode : ∀ code, r.code? = some code → code.Avoids s) : r.Avoids s :=
  r.avoids_iff.mpr ⟨fun hs => (hvalues s hs).ne_of_reserves hm.reserves rfl, hcode⟩

theorem discreet_perform (r : Request) :
    Discreet s False (r.Avoids s) r.perform fun _ => True := by
  have hcalls : DiscreetCalls s Calls.top := Calls.discreet_toDepth _
  cases r with
  | intern name => exact discreet_intern.imp id fun _ _ _ => trivial
  | setGlobal name v => exact (spells_setGlobal id).toDiscreet.andThen fun _ => discreet_skip
  | getGlobal name => exact spells_getGlobal.toDiscreet.andThen fun _ => discreet_skip
  | setAttribute object name v =>
    exact (spells_setAttribute And.left And.right).toDiscreet.andThen fun _ => discreet_skip
  | getAttribute object name =>
    exact (spells_getAttribute id).toDiscreet.imp id fun _ _ _ => trivial
  | newClass name superclass => exact (discreet_newClass id).imp id fun _ _ _ => trivial
  | defineMethod cls method =>
    exact (spells_defineMethod And.left And.right).toDiscreet.andThen fun _ => discreet_skip
  | call receiver name args =>
    exact (hcalls.callMethod And.left And.right).toDiscreet.imp id fun _ _ _ => trivial
  | run p => exact (Program.discreet_eval hcalls p id).imp id fun _ _ _ => trivial
  | collect => exact (discreet_collectWith []).andThen fun _ => discreet_skip

/-- Making a class interns its name, unless the superclass is no class. -/
theorem exists_log_newClass (name : String) {superclass : Value} (hs : superclass ≠ s)
    (hm : m.Discreet s) (hroom : ((Effect.newClass name superclass).after m).HasRoom) :
    ∃ log, m.Interns s log ((Effect.newClass name superclass).after m) ∧
      (newClass name superclass).Accounts m log := by
  let m₁ : Machine := { m with handles := m.handles.push superclass }
  have hpin : pin superclass m = .ok m.handles.size m₁ := rfl
  rw [Effect.newClass, after_withHandles] at hroom ⊢
  cases hread : m.heap.read Facet.cls superclass with
  | error u =>
    have hfails : read Facet.cls superclass m₁ = .error (.fatal u) m₁ := read_of_error hread
    rw [after, bind_of_ok hpin, bind_of_error hfails]
    exact ⟨[], .idle rfl, by simp only [Accounts, hread]⟩
  | ok c =>
    have hreads : read Facet.cls superclass m₁ = .ok c m₁ := read_of_ok hread
    rw [after, bind_of_ok hpin, bind_of_ok hreads] at hroom ⊢
    have hpinned : Discreet s False True (pin superclass) fun _ => True := discreet_pin fun _ => hs
    have hspells : Spells s name True (superclass ≠ s) _ fun v => v ≠ s :=
      spells_newClass_rest id c.instanceKind
    have hm₁ : m₁.Discreet s := (hpinned.keeps trivial m hm (le_trans (hspells m₁).grows hroom)).1
    obtain ⟨v, hv⟩ := hspells.exists_symbol hs hm₁ hroom
    have hlog : m.Interns s [(name, v)] _ := hv.of_symbols_eq rfl
    refine ⟨[(name, v)], hlog.followed rfl, ?_⟩
    simp only [Accounts, hread]
    exact ⟨v, rfl⟩

/-- Every request interns its own name first. -/
theorem exists_log (r : Request) (hr : r.Avoids s) (hm : m.Discreet s)
    (hroom : (r.perform.after m).HasRoom) :
    ∃ log, m.Interns s log (r.perform.after m) ∧ r.Accounts m log := by
  have single : ∀ {name : String} {pre : Prop}, Spells s name True pre r.perform (fun _ => True) →
      pre → ∃ v log, m.Interns s log (r.perform.after m) ∧ log = [(name, v)] := by
    intro name pre hspells hp
    obtain ⟨v, hv⟩ := hspells.exists_symbol hp hm hroom
    exact ⟨v, _, hv, rfl⟩
  cases r with
  | intern name =>
    obtain ⟨i, m', hintern, -⟩ := exists_intern hm name hroom
    have hafter : (Effect.intern name).after m = m' := after_of_ok hintern
    refine ⟨[(name, _)], ?_, _, m', hintern, rfl⟩
    show m.Interns s _ ((Effect.intern name).after m)
    rw [hafter]
    exact .intern rfl hm hintern (hafter ▸ hroom) (.idle rfl)
  | setGlobal name v =>
    obtain ⟨w, log, hlog, heq⟩ := single ((spells_setGlobal id).bind fun _ => discreet_skip) hr
    exact ⟨log, hlog, w, heq⟩
  | getGlobal name =>
    obtain ⟨w, log, hlog, heq⟩ := single (spells_getGlobal.bind fun _ => discreet_skip) hr
    exact ⟨log, hlog, w, heq⟩
  | setAttribute object name v =>
    obtain ⟨w, log, hlog, heq⟩ :=
      single ((spells_setAttribute And.left And.right).bind fun _ => discreet_skip) hr
    exact ⟨log, hlog, w, heq⟩
  | getAttribute object name =>
    have hget : Spells s name True (object ≠ s) (Effect.getAttribute object name) fun v => v ≠ s :=
      spells_getAttribute id
    obtain ⟨w, hw⟩ := hget.exists_symbol hr hm hroom
    exact ⟨_, hw, w, rfl⟩
  | newClass name superclass => exact exists_log_newClass name hr hm hroom
  | defineMethod cls method =>
    obtain ⟨w, log, hlog, heq⟩ :=
      single ((spells_defineMethod And.left And.right).bind fun _ => discreet_skip) hr
    exact ⟨log, hlog, w, heq⟩
  | call receiver name args =>
    have hcalls : DiscreetCalls s Calls.top := Calls.discreet_toDepth _
    have hcall : Spells s name False (receiver ≠ s ∧ s ∉ args) (Calls.top.callMethod receiver name args)
        fun v => v ≠ s := hcalls.callMethod And.left And.right
    obtain ⟨v, log, hlog, -⟩ := hcall.exists_log hr hm hroom
    exact ⟨_, hlog, v, log, rfl⟩
  | run p =>
    obtain ⟨-, log, hlog, -⟩ := (discreet_perform (run p)).keeps hr m hm hroom
    exact ⟨log, hlog, trivial⟩
  | collect => exact ⟨[], .idle rfl, rfl⟩

/-! ### Runs -/

/-- What each of the requests interned when they were served. -/
inductive Ledger (s : Value) : Machine → List Request → List (List (String × Value)) → Prop
  | nil {m : Machine} : Ledger s m [] []
  | cons {m : Machine} {r : Request} {requests : List Request} {log : List (String × Value)}
      {logs : List (List (String × Value))} (hlog : m.Interns s log (r.perform.after m))
      (hr : r.Accounts m log) (rest : Ledger s (r.perform.after m) requests logs) :
      Ledger s m (r :: requests) (log :: logs)

theorem Ledger.interns {requests : List Request} {logs : List (List (String × Value))}
    (h : Ledger s m requests logs) : m.Interns s logs.flatten (serve requests m) := by
  induction h with
  | nil => exact .idle rfl
  | cons hlog _ _ ih => exact hlog.trans ih

theorem Ledger.exists_cons {r : Request} {requests : List Request}
    {logs : List (List (String × Value))} (h : Ledger s m (r :: requests) logs) :
    ∃ log rest, logs = log :: rest ∧ r.Accounts m log ∧ Ledger s (r.perform.after m) requests rest := by
  cases h with
  | cons hlog hr rest => exact ⟨_, _, rfl, hr, rest⟩

theorem Ledger.eq_nil {logs : List (List (String × Value))} (h : Ledger s m [] logs) : logs = [] := by
  cases h
  rfl

theorem within_collect : Within 0 collect.perform := fun m =>
  ⟨le_of_eq (Heap.size_collect m.heap _), le_rfl⟩

/-- What a run can add to the machine. -/
theorem within_serve {n : Nat} : ∀ {requests : List Request}, (∀ r ∈ requests, Within n r.perform) →
    ∀ m : Machine, (serve requests m).heap.slots.size ≤ m.heap.slots.size + n * requests.length ∧
      (serve requests m).symbols.names.size ≤ m.symbols.names.size + n * requests.length
  | [], _, _ => ⟨le_rfl, le_rfl⟩
  | r :: requests, hr, m => by
    obtain ⟨hslots, hnames⟩ := hr r List.mem_cons_self m
    obtain ⟨hslots', hnames'⟩ :=
      within_serve (fun r' hr' => hr r' (List.mem_cons_of_mem _ hr')) (r.perform.after m)
    rw [List.length_cons, Nat.mul_succ]
    exact ⟨hslots'.trans (by omega), hnames'.trans (by omega)⟩

theorem size_le_serve : ∀ (requests : List Request) (m : Machine),
    m.heap.slots.size ≤ (serve requests m).heap.slots.size
  | [], _ => le_rfl
  | r :: requests, m =>
    have hr : Discreet m.symbols.table False _ r.perform fun _ => True := discreet_perform r
    (hr.grows m).trans (size_le_serve requests _)

/-- A run has its ledger, and leaves the machine discreet. -/
theorem exists_ledger : ∀ {requests : List Request} {m : Machine}, (∀ r ∈ requests, r.Avoids s) →
    m.Discreet s → (serve requests m).HasRoom →
      (serve requests m).Discreet s ∧ ∃ logs, Ledger s m requests logs
  | [], _, _, hm, _ => ⟨hm, [], .nil⟩
  | r :: requests, m, hr, hm, hroom => by
    have hroom₁ : (r.perform.after m).HasRoom := le_trans (size_le_serve requests _) hroom
    have hself := hr r List.mem_cons_self
    have hm₁ := ((discreet_perform r).keeps hself m hm hroom₁).1
    obtain ⟨log, hlog, haccounts⟩ := exists_log r hself hm hroom₁
    obtain ⟨hm', logs, hrest⟩ :=
      exists_ledger (fun r' hr' => hr r' (List.mem_cons_of_mem _ hr')) hm₁ hroom
    exact ⟨hm', log :: logs, .cons hlog haccounts hrest⟩

end Request

/-! ### Histories -/

/-- What the history of a machine makes of its symbols. -/
structure Machine.Enrolls (m : Machine) (log : List (String × Value)) : Prop where
  same_iff : ∀ {a b : String} {u v : Value}, (a, u) ∈ log → (b, v) ∈ log → (u = v ↔ a = b)
  name_eq : ∀ {a : String} {u : Value}, (a, u) ∈ log → m.symbolName? u = some a
  numbered : ∀ {a : String} {u : Value}, (a, u) ∈ log →
    u = .ofSymbol ((log.map Prod.fst).eraseDups.idxOf a)
  names_eq : m.symbols.names.toList = (log.map Prod.fst).eraseDups
  count_eq : m.symbols.names.size = (log.map Prod.fst).toFinset.card
  table : ∃ t, m.heap.read Facet.table m.symbols.table = .ok t ∧
    (t.entries.map fun p => (m.heap.read? Facet.text p.1, p.2)).Perm
      (m.symbols.names.toList.zipIdx.map fun p => (some p.1, .ofSymbol p.2))

theorem Machine.Interns.enrolls {blank m : Machine} {s : Value} {log : List (String × Value)}
    (h : blank.Interns s log m) (hblank : blank.symbols.names = #[]) (hm : m.Discreet s)
    (hfew : m.symbols.names.size ≤ 2 ^ 32) : m.Enrolls log := by
  have hnames : m.symbols.names.toList = (log.map Prod.fst).eraseDups := by
    rw [h.names_eq, hblank, foldl_enter_eq]
  have hlt : ∀ {i : Nat} {a : String}, m.symbols.names[i]? = some a → i < 2 ^ 32 := fun hi =>
    (Array.getElem?_eq_some_iff.mp hi).1.trans_le hfew
  have hindex : ∀ {i : Nat} {a : String}, m.symbols.names[i]? = some a →
      i = (log.map Prod.fst).eraseDups.idxOf a := by
    intro i a hi
    rw [← Array.getElem?_toList, hnames] at hi
    obtain ⟨hlt, rfl⟩ := List.getElem?_eq_some_iff.mp hi
    exact (List.Nodup.idxOf_getElem (hnames ▸ hm.nodup) i hlt).symm
  refine ⟨fun {a b u v} hu hv => ⟨fun huv => ?_, fun hab => ?_⟩, fun {a u} hu => ?_, fun {a u} hu => ?_,
    hnames, ?_, ?_⟩
  · obtain ⟨i, hi, rfl⟩ := h.symbol_eq hu
    obtain ⟨j, hj, rfl⟩ := h.symbol_eq hv
    obtain rfl := Value.ofSymbol_inj (hlt hi) (hlt hj) huv
    exact Option.some.inj (hi.symm.trans hj)
  · obtain ⟨i, hi, rfl⟩ := h.symbol_eq hu
    obtain ⟨j, hj, rfl⟩ := h.symbol_eq hv
    rw [hindex hi, hindex hj, hab]
  · obtain ⟨i, hi, rfl⟩ := h.symbol_eq hu
    rw [Machine.symbolName?, Value.symbol?_ofSymbol (hlt hi), Option.bind_some, hi]
  · obtain ⟨i, hi, rfl⟩ := h.symbol_eq hu
    rw [hindex hi]
  · have hset : (log.map Prod.fst).toFinset = (log.map Prod.fst).eraseDups.toFinset := by
      ext a
      simp only [List.mem_toFinset, List.mem_eraseDups]
    rw [← Array.length_toList, hnames, hset, List.toFinset_card_of_nodup (hnames ▸ hm.nodup)]
  · obtain ⟨t, ht, hlists⟩ := hm.heap.table
    rw [hm.table_eq]
    exact ⟨t, ht, hlists.entries_perm hm.nodup rfl⟩

/-- Interning is a bijection over whole runs.  From its bootstrap on a machine serves requests of
clients that do not make up references to the table of symbols, with collections whenever its settings
call for them or a client does.  As long as there are no more slots and no more names than references
and symbols can number, every symbol in its history stands for its name and for no other, and the names
are numbered in the order of their first use, in the list of names and in the table on the heap alike. -/
theorem interning_bijective (settings : HeapSettings) (requests : List Request)
    (hclient : ∀ r ∈ requests, r.Avoids (Machine.new settings).symbols.table) {m : Machine}
    (hm : Request.serve requests (Machine.new settings) = m) (hroom : m.HasRoom)
    (hfew : m.symbols.names.size ≤ 2 ^ 32) :
    ∃ (blank : Machine) (boot : List (String × Value)) (logs : List (List (String × Value))),
      blank.symbols.names = #[] ∧
      blank.Interns (Machine.new settings).symbols.table boot (Machine.new settings) ∧
      Request.Ledger (Machine.new settings).symbols.table (Machine.new settings) requests logs ∧
      m.Enrolls (boot ++ logs.flatten) := by
  obtain ⟨blank, boot, hblank, hboot, hnew⟩ := Bootstrap.exists_history_new settings
  subst hm
  obtain ⟨hm, logs, hlogs⟩ := Request.exists_ledger hclient hnew hroom
  exact ⟨blank, boot, logs, hblank, hboot, hlogs, (hboot.trans hlogs.interns).enrolls hblank hm hfew⟩

/-- A name before and after a collection, and another one in between. -/
theorem interning_bijective_pear : ∃ (m : Machine) (boot : List (String × Value)) (u v : Value),
    Request.serve [.intern "apple", .collect, .setGlobal "pear" .nil, .intern "apple"]
      (Machine.new {}) = m ∧
    m.Enrolls (boot ++ [("apple", u), ("pear", v), ("apple", u)]) ∧ u ≠ v := by
  obtain ⟨-, -, -, -, hnew⟩ := Bootstrap.exists_history_new {}
  obtain ⟨hslots, hnames⟩ := Bootstrap.size_new_le {}
  obtain ⟨m, hm⟩ : ∃ m, Request.serve [.intern "apple", .collect, .setGlobal "pear" .nil,
    .intern "apple"] (Machine.new {}) = m := ⟨_, rfl⟩
  have hcosts : ∀ r ∈ [Request.intern "apple", .collect, .setGlobal "pear" .nil, .intern "apple"],
      Within 2 r.perform := by
    simp only [List.forall_mem_cons]
    refine ⟨within_intern _, ?_, ?_, within_intern _, nofun⟩
    · exact Request.within_collect.mono (by decide)
    · exact (within_setGlobal _ _).bind (k := 0) fun _ => within_of_frugal (Judgement.meets_pure _)
  have hbound := Request.within_serve hcosts (Machine.new {})
  have hlength : [Request.intern "apple", .collect, .setGlobal "pear" .nil,
    .intern "apple"].length = 4 := rfl
  rw [hm, hlength] at hbound
  have hroom : m.HasRoom := hbound.1.trans (by omega)
  have hfew : m.symbols.names.size ≤ 2 ^ 32 := hbound.2.trans (by omega)
  have hclient : ∀ r ∈ [Request.intern "apple", .collect, .setGlobal "pear" .nil, .intern "apple"],
      r.Avoids (Machine.new {}).symbols.table := by
    simp only [List.forall_mem_cons]
    exact ⟨trivial, trivial, nil_ne hnew.isRef, trivial, nofun⟩
  obtain ⟨blank, boot, logs, -, -, hledger, henrolls⟩ :=
    interning_bijective {} _ hclient hm hroom hfew
  obtain ⟨log₁, logs, rfl, ⟨u, m₁, hintern, hlog₁⟩, hledger⟩ := hledger.exists_cons
  obtain ⟨log₂, logs, rfl, hlog₂, hledger⟩ := hledger.exists_cons
  obtain ⟨log₃, logs, rfl, ⟨v, hlog₃⟩, hledger⟩ := hledger.exists_cons
  obtain ⟨log₄, logs, rfl, ⟨w, m₄, hintern', hlog₄⟩, hledger⟩ := hledger.exists_cons
  obtain rfl := hledger.eq_nil
  have hlog₂ : log₂ = [] := hlog₂
  subst hlog₁ hlog₂ hlog₃ hlog₄
  have hlog : boot ++ [[("apple", u)], [], [("pear", v)], [("apple", w)]].flatten =
      boot ++ [("apple", u), ("pear", v), ("apple", w)] := rfl
  rw [hlog] at henrolls
  obtain rfl : u = w := (henrolls.same_iff (a := "apple") (b := "apple") (by simp) (by simp)).mpr rfl
  refine ⟨m, boot, u, v, hm, henrolls, fun huv => ?_⟩
  have hsame := (henrolls.same_iff (a := "apple") (b := "pear") (by simp) (by simp)).mp huv
  exact absurd hsame (by decide)

end ObjectMachine
