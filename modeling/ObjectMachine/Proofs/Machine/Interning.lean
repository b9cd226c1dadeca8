import Mathlib.Tactic
import ObjectMachine.Proofs.Dictionary.Tending
import ObjectMachine.Proofs.Machine.Clients
import ObjectMachine.Proofs.Table.Names

/-! Interning.

The names of the machine and the table of symbols on the heap are in step as long as nothing but the
machine itself knows the table.  A machine is `Discreet` if this is so: neither an object nor a
variable of the machine refers to the table, and no stored program does.  Interning a name on such a
machine gives the number of the name, a new one if the name is new, and the machine is discreet again,
even if a collection happens on the way. -/

namespace ObjectMachine

/-! ### Avoiding a value -/

mutual

/-- A program that neither has the value as a constant nor sets the mark of the collector. -/
def Program.Avoids (s : Value) : Program → Prop
  | .constant v => v ≠ s
  | .text _ | .bignum _ | .integer _ | .float _ | .symbol _ | .register _ | .global _ | .weak _
  | .self | .argument _ | .resource | .note _ => True
  | .sequence steps => Program.AllAvoid s steps
  | .branch condition yes no => condition.Avoids s ∧ yes.Avoids s ∧ no.Avoids s
  | .iterate _ _ body | .setRegister _ body | .setWeak _ body | .observe body
  | .frameOption _ body | .framePair _ body | .execute _ body => body.Avoids s
  | .apply op operands => op ≠ .heap (.flags .add .marked) ∧ Program.AllAvoid s operands
  | .defineMethod cls _ _ body => cls.Avoids s ∧ body.Avoids s
  | .forEach table _ _ body => table.Avoids s ∧ body.Avoids s
  | .frame _ _ receiver body => receiver.Avoids s ∧ body.Avoids s
  | .frameValues _ items => Program.AllAvoid s items
  | .cleanup guarded body => guarded.Avoids s ∧ body.Avoids s
  | .ensure body last => body.Avoids s ∧ last.Avoids s
  | .rescue classes body _ handler => Program.AllAvoid s classes ∧ body.Avoids s ∧ handler.Avoids s
  | .scope items body => Program.AllAvoid s items ∧ body.Avoids s

/-- Programs that all avoid the value. -/
def Program.AllAvoid (s : Value) : List Program → Prop
  | [] => True
  | p :: rest => p.Avoids s ∧ Program.AllAvoid s rest

end

def Code.Avoids (s : Value) : Code → Prop
  | .primitive _ => True
  | .program p => p.Avoids s

/-- A body that does not refer to the value, nor does the code in it. -/
structure Body.Avoids (s : Value) (b : Body) : Prop where
  edges : s ∉ b.edges
  code : ∀ method, b = .native method → method.code.Avoids s

theorem Body.Avoids.entry {s : Value} {t : Table} (h : (Body.table t).Avoids s) {id : EntryId} {e : Entry}
    (he : t.get? id = some e) : e.key ≠ s ∧ e.record ≠ s :=
  ⟨fun hs => h.edges (Table.mem_edges.mpr ⟨id, e, he, Or.inl hs.symm⟩),
    fun hs => h.edges (Table.mem_edges.mpr ⟨id, e, he, Or.inr hs.symm⟩)⟩

/-- A table avoids a value if its entries do. -/
theorem Body.avoids_table {s : Value} {t : Table}
    (h : ∀ id e, t.get? id = some e → e.key ≠ s ∧ e.record ≠ s) : (Body.table t).Avoids s := by
  refine ⟨fun hs => ?_, nofun⟩
  obtain ⟨id, e, he, hs | hs⟩ := Table.mem_edges.mp hs
  · exact (h id e he).1 hs.symm
  · exact (h id e he).2 hs.symm

structure Object.Avoids (s : Value) (o : Object) : Prop where
  cls : o.cls ≠ s
  body : o.body.Avoids s

theorem Object.Avoids.edges {s : Value} {o : Object} (h : o.Avoids s) : s ∉ o.edges := by
  rw [Object.edges, List.mem_cons]
  rintro (rfl | hs)
  · exact h.cls rfl
  · exact h.body.edges hs

/-! ### The table on the heap -/

/-- The heap holds a table of these names that no object refers to. -/
structure Heap.Lists (h : Heap) (s : Value) (names : Array String) : Prop where
  sound : h.Sound
  unmarked : h.Unmarked
  objects : ∀ v o, h.get? v = some o → o.Avoids s
  table : ∃ t, h.read Facet.table s = .ok t ∧ t.Lists names (h.read? Facet.text)

namespace Heap.Lists

variable {h : Heap} {s v : Value} {names : Array String}

theorem isLive (hl : h.Lists s names) : h.isLive s = true := by
  obtain ⟨t, ht, -⟩ := hl.table
  exact isLive_of_read ht

/-- What an object holds avoids the table, if it is seen through a facet. -/
theorem avoids_of_read (hl : h.Lists s names) {facet : Facet α} (hfacet : facet.Lawful) {x : α}
    (hx : h.read facet v = .ok x) : (facet.put x).Avoids s := by
  obtain ⟨o, ho, hb⟩ := Heap.read_eq_ok_iff.mp hx
  rw [hfacet.put_eq hb]
  exact (hl.objects v o ho).body

theorem avoids_of_get (hl : h.Lists s names) {o : Object} (ho : h.get v = .ok o) : o.Avoids s := by
  rw [Heap.get] at ho
  split at ho
  · cases hget : h.get? v with
    | none => rw [hget] at ho; cases ho
    | some p =>
      rw [hget] at ho
      exact Except.ok.inj ho ▸ hl.objects v p hget
  · cases ho

/-- A collection keeps the table, which is a root, and the texts in it. -/
theorem collect (hl : h.Lists s names) {roots : List Value} (hs : s ∈ roots) :
    (h.collect roots).1.Lists s names := by
  have hget : ∀ {v o}, (h.collect roots).1.get? v = some o ↔
      h.get? v = some o ∧ h.Reachable roots v := get?_collect_eq_some_iff hl.unmarked
  obtain ⟨t, ht, hlists⟩ := hl.table
  obtain ⟨o, ho, hb⟩ := Heap.read_eq_ok_iff.mp ht
  have hroot : h.Reachable roots s := .root hs hl.isLive
  refine ⟨hl.sound.collect _, unmarked_collect hl.unmarked _, fun v o ho => ?_, t,
    Heap.read_eq_ok_iff.mpr ⟨o, hget.mpr ⟨ho, hroot⟩, hb⟩, hlists.congr_text fun id e he => ?_⟩
  · exact hl.objects v o (hget.mp ho).1
  · obtain ⟨i, name, -, hkey, -⟩ := hlists.entry he
    obtain ⟨p, hp, hp'⟩ := Heap.read_eq_ok_iff.mp (Heap.read?_eq_some_iff.mp hkey)
    have hedge : e.key ∈ o.edges := by
      refine List.mem_cons_of_mem _ ?_
      rw [← Facet.lawful_table.put_eq hb]
      exact Table.mem_edges.mpr ⟨id, e, he, Or.inl rfl⟩
    rw [hkey]
    refine Heap.read?_eq_some_iff.mpr (Heap.read_eq_ok_iff.mpr ⟨p, hget.mpr ⟨hp, ?_⟩, hp'⟩)
    exact .edge hroot ho hedge (isLive_of_get? hp)

/-- A new object does not touch the table, nor is it the table. -/
theorem insert (hl : h.Lists s names) {cls : Value} {body : Body} (hcls : cls ≠ s)
    (hbody : body.Avoids s) (hroom : (h.insert cls body).slots.size ≤ 2 ^ 32) :
    (h.insert cls body).Lists s names ∧ h.nextReference ≠ s := by
  have hget := hl.sound.get?_insert cls body hroom
  obtain ⟨t, ht, hlists⟩ := hl.table
  refine ⟨⟨hl.sound.insert cls body, hl.unmarked.insert hl.sound cls body, fun v o ho => ?_, t,
    hl.sound.read_insert cls body ht, hlists.congr_text fun id e he => ?_⟩, fun heq => ?_⟩
  · rw [hget] at ho
    split at ho
    · obtain rfl := Option.some.inj ho
      exact ⟨hcls, hbody⟩
    · exact hl.objects v o ho
  · obtain ⟨i, name, -, hkey, -⟩ := hlists.entry he
    rw [hkey, Heap.read?_eq_some_iff]
    exact hl.sound.read_insert cls body (Heap.read?_eq_some_iff.mp hkey)
  · have hlive := hl.isLive
    rw [← heq, Heap.isLive, hl.sound.get?_nextReference cls body hroom] at hlive
    cases hlive

/-- A change of another object that leaves texts alone. -/
theorem modifyObject (hl : h.Lists s names) (hv : v ≠ s) {f : Object → Object}
    (hf : ∀ o, h.get? v = some o → o.Avoids s → (f o).Avoids s ∧
      ((f o).flags.marked = o.flags.marked ∧
        Facet.text.get? (f o).body = Facet.text.get? o.body)) :
    (h.modifyObject v f).Lists s names := by
  obtain ⟨t, ht, hlists⟩ := hl.table
  obtain ⟨o, ho, hb⟩ := Heap.read_eq_ok_iff.mp ht
  refine ⟨hl.sound.modifyObject v f, hl.unmarked.modifyObject v fun o ho =>
    (hf o ho (hl.objects v o ho)).2.1, fun w p hp => ?_, t, Heap.read_eq_ok_iff.mpr
      ⟨o, (get?_modifyObject_of_ne h hv.symm f).trans ho, hb⟩, hlists.congr_text fun id e he => ?_⟩
  · by_cases hw : w = v
    · subst hw
      rw [get?_modifyObject_self, Option.map_eq_some_iff] at hp
      obtain ⟨q, hq, rfl⟩ := hp
      exact (hf q hq (hl.objects w q hq)).1
    · rw [get?_modifyObject_of_ne h hw] at hp
      exact hl.objects w p hp
  · rw [Heap.read?, Heap.read?]
    by_cases hw : e.key = v
    · rw [hw, get?_modifyObject_self]
      cases hq : h.get? v with
      | none => rfl
      | some q => exact (hf q hq (hl.objects v q hq)).2.2
    · rw [get?_modifyObject_of_ne h hw]

/-- A change of the table itself. -/
theorem modify_self (hl : h.Lists s names) {names' : Array String} {g : Table → Table}
    (hg : ∀ t, h.read Facet.table s = .ok t → t.Lists names (h.read? Facet.text) →
      (Body.table t).Avoids s →
      (g t).Lists names' (h.read? Facet.text) ∧ (Body.table (g t)).Avoids s) :
    (h.modify Facet.table s g).Lists s names' := by
  obtain ⟨t, ht, hlists⟩ := hl.table
  obtain ⟨o, ho, hb⟩ := Heap.read_eq_ok_iff.mp ht
  have hbody : o.body = .table t := (Facet.lawful_table.put_eq hb).symm
  obtain ⟨hlists', havoids⟩ := hg t ht hlists (hbody ▸ (hl.objects s o ho).body)
  refine ⟨hl.sound.modifyObject s _, hl.unmarked.modifyObject s fun _ _ => rfl, fun w p hp => ?_, g t,
    Heap.read_modify_table ht g, hlists'.congr_text fun id e he => ?_⟩
  · by_cases hw : w = s
    · subst hw
      rw [Heap.modify, get?_modifyObject_self, ho, Option.map_some, hb] at hp
      obtain rfl := Option.some.inj hp
      exact ⟨(hl.objects w o ho).cls, havoids⟩
    · rw [Heap.modify, get?_modifyObject_of_ne h hw] at hp
      exact hl.objects w p hp
  · obtain ⟨i, name, -, hkey, -⟩ := hlists'.entry he
    rw [hkey, Heap.read?_eq_some_iff]
    exact Heap.read_text_modify_table (Heap.read?_eq_some_iff.mp hkey) g

end Heap.Lists

/-! ### Discreet machines -/

/-- The names and the table of symbols are in step, and nothing but the machine itself knows the
table. -/
structure Machine.Discreet (m : Machine) (s : Value) : Prop where
  table_eq : m.symbols.table = s
  nodup : m.symbols.names.toList.Nodup
  heap : m.heap.Lists s m.symbols.names
  classes : s ∉ m.classes
  globals : m.globals ≠ s
  handles : s ∉ m.handles
  cleanups : ∀ f ∈ m.frames, ∀ c ∈ f.cleanups, c.resource ≠ s ∧ c.program.Avoids s
  weak : ∀ p ∈ m.session.weak, p.2 ≠ s
  activations : ∀ a ∈ m.session.activations, a.receiver ≠ s ∧ s ∉ a.arguments
  resources : s ∉ m.session.resources

namespace Machine.Discreet

variable {m m' : Machine} {s : Value}

theorem ne_absent (hm : m.Discreet s) : s ≠ .absent := by
  rintro rfl
  cases Heap.isRef_of_isLive hm.heap.isLive

theorem isRef (hm : m.Discreet s) : s.isRef = true := Heap.isRef_of_isLive hm.heap.isLive

theorem reserves (hm : m.Discreet s) : m.Reserves s := by
  obtain ⟨t, ht, hlists⟩ := hm.heap.table
  exact ⟨t, ht, by rw [hlists.strategy_eq]; decide⟩

theorem mem_roots (hm : m.Discreet s) : s ∈ m.roots :=
  Machine.mem_roots.mpr (Or.inr (Or.inl hm.table_eq.symm))

theorem classValue_ne (hm : m.Discreet s) (c : BuiltinClass) : m.classValue c ≠ s := by
  rw [classValue, Array.getD_eq_getD_getElem?]
  cases hc : m.classes[c.index]? with
  | none => exact hm.ne_absent.symm
  | some v =>
    rintro rfl
    exact hm.classes (Array.mem_of_getElem? hc)

/-- Another heap that still lists the names. -/
theorem with_heap (hm : m.Discreet s) {heap : Heap} (events : Array Event)
    (hheap : heap.Lists s m.symbols.names) :
    Discreet { m with heap := heap, events := events } s :=
  ⟨hm.table_eq, hm.nodup, hheap, hm.classes, hm.globals, hm.handles, hm.cleanups, hm.weak,
    hm.activations, hm.resources⟩

theorem collectWith (hm : m.Discreet s) (pending : List Value) :
    (m.collectWith pending).Discreet s :=
  hm.with_heap _ (hm.heap.collect (List.mem_append_left _ hm.mem_roots))

end Machine.Discreet

/-! ### Interning a name -/

namespace Effect

variable {m : Machine} {s : Value}

/-- Adding the entry of a new name to the table, which may grow first. -/
theorem exists_addHashed {names : Array String} (hh : m.heap.Lists s names) {name : String}
    (hname : name ∉ names) {key : Value} (hkey : m.heap.read Facet.text key = .ok name) :
    ∃ heap events, Dictionary.addHashed s (textHash name) key (.ofSymbol names.size) m =
      .ok () { m with heap := heap, events := events } ∧ heap.Lists s (names.push name) := by
  obtain ⟨t, ht, hlists⟩ := hh.table
  obtain ⟨o, ho, hb⟩ := Heap.read_eq_ok_iff.mp hkey
  have hne : key ≠ s := by
    rintro rfl
    obtain ⟨o', ho', hb'⟩ := Heap.read_eq_ok_iff.mp ht
    obtain rfl := Option.some.inj (ho.symm.trans ho')
    rw [← Facet.lawful_table.put_eq hb'] at hb
    cases hb
  have habsent : key ≠ .absent := by
    rintro rfl
    cases (Heap.get?_eq_some_iff.mp ho).1
  have hsymbol : Value.ofSymbol names.size ≠ s := by
    rintro rfl
    have hr := Heap.isRef_of_isLive hh.isLive
    rw [Value.isRef_ofSymbol] at hr
    cases hr
  obtain ⟨events, hadd⟩ := Dictionary.addHashed_eq ht (textHash name) key (.ofSymbol names.size)
  refine ⟨_, events, hadd, hh.modify_self fun t' ht' _ havoids => ?_⟩
  obtain rfl := Except.ok.inj (ht.symm.trans ht')
  refine ⟨hlists.enter hname (Heap.read?_eq_some_iff.mpr hkey) habsent,
    Body.avoids_table fun id e he => ?_⟩
  rcases hlists.wellFormed.slotted.get?_enter he with ⟨hk, hr⟩ | ⟨e₀, he₀, hk, hr⟩
  · exact ⟨hk ▸ hne, hr ▸ hsymbol⟩
  · exact ⟨hk ▸ (havoids.entry he₀).1, hr ▸ (havoids.entry he₀).2⟩

/-- The same with the table, the text and the symbol pinned meanwhile. -/
theorem exists_add {names : Array String} (hh : m.heap.Lists s names) {name : String}
    (hname : name ∉ names) {key : Value} (hkey : m.heap.read Facet.text key = .ok name) :
    ∃ heap events, Dictionary.add (fun _ => Keys.text) s key (.ofSymbol names.size) m =
      .ok () { m with heap := heap, events := events } ∧ heap.Lists s (names.push name) := by
  obtain ⟨t, ht, -⟩ := hh.table
  let pinned := [s, key, Value.ofSymbol names.size]
  let m₁ : Machine := { m with handles := m.handles ++ pinned.toArray }
  have hpin : pinAll pinned m = .ok () m₁ := pinAll_eq pinned m
  have hhash : Keys.text.hash key m₁ = .ok (textHash name) m₁ :=
    bind_of_ok (read_of_ok hkey)
  have hh₁ : m₁.heap.Lists s names := hh
  have hkey₁ : m₁.heap.read Facet.text key = .ok name := hkey
  obtain ⟨heap, events, hadd, hheap⟩ := exists_addHashed hh₁ hname hkey₁
  refine ⟨heap, events, ?_, hheap⟩
  have hscope : (do
      pinAll pinned
      let keys ← Dictionary.keysOf (fun _ => Keys.text) s
      let hash ← keys.hash key
      Dictionary.addHashed s hash key (.ofSymbol names.size)) m =
      .ok () { m₁ with heap := heap, events := events } := by
    rw [bind_of_ok hpin, Dictionary.keysOf_bind, bind_of_ok (read_of_ok (m := m₁) ht)]
    exact (bind_of_ok hhash).trans hadd
  rw [Dictionary.add, withHandles_eq, hscope]
  simp [m₁]

/-- What becomes of the names when one is interned. -/
def enter (names : Array String) (name : String) : Array String :=
  if name ∈ names then names else names.push name

/-- Adding to the table never frees slots of the heap. -/
theorem size_le_add (m : Machine) (s key record : Value) : m.heap.slots.size ≤
    ((Dictionary.add (fun _ => Keys.text) s key record).after m).heap.slots.size := by
  have hadd : Secure ∅ ∅ {s} False False (Dictionary.add (fun _ => Keys.text) s key record) m
      fun _ _ => True := by
    refine Dictionary.secure_add (Set.empty_subset _) rfl (fun _ _ => ?_) (fun _ => False.elim)
      fun _ => False.elim
    exact Secure.read_bind (fun _ _ => secure_pure fun _ _ => trivial) fun _ h => h.1.elim
  exact hadd.grows

/-- A name that is known has a symbol already. -/
theorem intern_of_known {name : String} {v : Value}
    (hfound : Dictionary.lookupText m.symbols.table name m = .ok (some v) m) :
    intern name m = .ok v m := by
  have hask : ask (·.symbols.table) m = .ok m.symbols.table m := rfl
  rw [intern, bind_of_ok hask, bind_of_ok hfound]
  rfl

/-- A new name is numbered, and its text is added to the table with the symbol. -/
theorem intern_of_new {name : String} {key : Value} {m' : Machine}
    (hfound : Dictionary.lookupText m.symbols.table name m = .ok none m)
    (hkey : newText name { m with symbols := { m.symbols with
      names := m.symbols.names.push name } } = .ok key m') :
    intern name m = (Dictionary.add (fun _ => Keys.text) m.symbols.table key
      (.ofSymbol m.symbols.names.size) >>= fun _ => pure (.ofSymbol m.symbols.names.size)) m' := by
  have hask : ask (·.symbols.table) m = .ok m.symbols.table m := rfl
  rw [intern, bind_of_ok hask, bind_of_ok hfound]
  exact bind_of_ok hkey

/-- If there is room once a name was interned, there was room for its text. -/
theorem hasRoom_of_intern {a : Effect Value} {s key record : Value} {m' : Machine}
    (heq : a m = (Dictionary.add (fun _ => Keys.text) s key record >>= fun _ => pure record) m')
    (hroom : (a.after m).HasRoom) : m'.HasRoom := by
  rw [after_congr heq, after_map] at hroom
  exact (size_le_add m' s key record).trans hroom

/-- Interning a name gives its number, and the machine stays discreet. -/
theorem exists_intern (hm : m.Discreet s) (name : String) (hroom : ((intern name).after m).HasRoom) :
    ∃ (i : Nat) (m' : Machine), intern name m = .ok (.ofSymbol i) m' ∧
      m'.symbols.names = enter m.symbols.names name ∧ m'.symbols.names[i]? = some name ∧
      m'.Discreet s := by
  obtain ⟨t, ht, hlists⟩ := hm.heap.table
  obtain rfl := hm.table_eq
  rcases Dictionary.lookupText_eq ht hlists name with ⟨i, hi, hfound⟩ | ⟨hname, hfound⟩
  · refine ⟨i, m, intern_of_known hfound, ?_, hi, hm⟩
    rw [enter, if_pos (Array.mem_of_getElem? hi)]
  let m₁ : Machine := { m with symbols := { m.symbols with names := m.symbols.names.push name } }
  let string := m.classValue .string
  -- the text is stored, after a collection or without one; the table is a root all the time
  obtain ⟨m₂, hm₂, hh₂, hstore⟩ : ∃ m₂ : Machine, (∃ heap events,
      m₂ = { m₁ with heap := heap, events := events }) ∧ m₂.heap.Lists m.symbols.table m.symbols.names ∧
      newText name m₁ = store string (.text name) m₂ := by
    rcases alloc_cases string (.text name) m₁ with h | h
    · exact ⟨m₁, ⟨m.heap, m.events, rfl⟩, hm.heap, h⟩
    · refine ⟨_, ⟨_, _, rfl⟩, hm.heap.collect (List.mem_append_left _ ?_), h⟩
      exact Machine.mem_roots.mpr (Or.inr (Or.inl rfl))
  obtain ⟨heap, events, rfl⟩ := hm₂
  let key := heap.nextReference
  let m₃ : Machine := { m₁ with heap := heap.insert string (.text name), events := events }
  have hnew : newText name m₁ = .ok key m₃ := hstore
  have heq := intern_of_new hfound hnew
  have hroom₃ : m₃.HasRoom := hasRoom_of_intern heq hroom
  have htext : (Body.text name).Avoids m.symbols.table := ⟨by simp [Body.edges], fun _ hn => by cases hn⟩
  have hh₃ : m₃.heap.Lists m.symbols.table m.symbols.names := (hh₂.insert (hm.classValue_ne _) htext hroom₃).1
  have hkey : m₃.heap.read Facet.text key = .ok name :=
    Heap.read_eq_ok_iff.mpr ⟨_, (hh₂.sound.get?_insert string (.text name) hroom₃ key).trans
      (if_pos rfl), rfl⟩
  obtain ⟨heap', events', hadd, hheap⟩ := exists_add hh₃ hname hkey
  have hnames : enter m.symbols.names name = m.symbols.names.push name := if_neg hname
  refine ⟨m.symbols.names.size, _, heq.trans (bind_of_ok hadd), hnames.symm, by simp [m₃, m₁], ?_⟩
  refine ⟨rfl, ?_, hheap, hm.classes, hm.globals, hm.handles, hm.cleanups, hm.weak,
    hm.activations, hm.resources⟩
  show (m.symbols.names.push name).toList.Nodup
  rw [Array.toList_push, List.nodup_append]
  refine ⟨hm.nodup, List.nodup_singleton _, fun a ha b hb hab => hname ?_⟩
  rw [← List.mem_singleton.mp hb, ← hab]
  exact Array.mem_toList_iff.mp ha

theorem getElem?_enter {names : Array String} {i : Nat} {other : String} (name : String)
    (hi : names[i]? = some other) : (enter names name)[i]? = some other := by
  rw [enter]
  split
  · exact hi
  · have hlt := (Array.getElem?_eq_some_iff.mp hi).1
    rw [Array.getElem?_push_lt hlt, ← Array.getElem?_eq_getElem hlt, hi]

/-- Names stay and keep their numbers. -/
theorem getElem?_foldl_enter {i : Nat} {other : String} : ∀ (used : List String)
    {names : Array String}, names[i]? = some other → (used.foldl enter names)[i]? = some other
  | [], _, hi => hi
  | name :: used, _, hi => getElem?_foldl_enter used (getElem?_enter name hi)

/-- Names are numbered in the order of their first use. -/
theorem foldl_enter_eq (used : List String) : (used.foldl enter #[]).toList = used.eraseDups := by
  induction used using List.reverseRecOn with
  | nil => rfl
  | append_singleton used name ih =>
    rw [List.foldl_append, List.foldl_cons, List.foldl_nil, List.eraseDups_append, ← ih, enter]
    have hmem : name ∈ used.foldl enter #[] ↔ name ∈ used := by
      rw [← Array.mem_toList_iff, ih, List.mem_eraseDups]
    have hsingle : [name].eraseDups = [name] := rfl
    by_cases hname : name ∈ used
    · simp [hmem, hname, List.removeAll]
    · simp [hmem, hname, List.removeAll, hsingle]

end Effect

/-! ### Histories of names -/

/-- From one machine to another these names were interned one after the other, and these are their
symbols; whatever else happened left the symbols alone. -/
inductive Machine.Interns (s : Value) : Machine → List (String × Value) → Machine → Prop
  | idle {m m' : Machine} (h : m'.symbols = m.symbols) : Interns s m [] m'
  | intern {m m₁ m₂ m' : Machine} {name : String} {v : Value} {log : List (String × Value)}
      (h : m₁.symbols = m.symbols) (hm : m₁.Discreet s) (hrun : Effect.intern name m₁ = .ok v m₂)
      (hroom : m₂.HasRoom) (rest : Interns s m₂ log m') : Interns s m ((name, v) :: log) m'

namespace Machine.Interns

variable {s : Value} {m m' m'' : Machine} {log log' : List (String × Value)}

theorem of_symbols_eq (h : Interns s m' log m'') (heq : m'.symbols = m.symbols) :
    Interns s m log m'' := by
  cases h with
  | idle h => exact .idle (h.trans heq)
  | intern h hm hrun hroom rest => exact .intern (h.trans heq) hm hrun hroom rest

theorem trans (h : Interns s m log m') (h' : Interns s m' log' m'') :
    Interns s m (log ++ log') m'' := by
  induction h with
  | idle h => exact h'.of_symbols_eq h
  | intern h hm hrun hroom _ ih => exact .intern h hm hrun hroom (ih h')

/-- What follows may change everything but the symbols. -/
theorem followed (h : Interns s m log m') (heq : m''.symbols = m'.symbols) :
    Interns s m log m'' := by
  have := h.trans (.idle heq)
  rwa [List.append_nil] at this

/-- The names afterwards are those from before and the new ones in the order of their first use. -/
theorem names_eq (h : Interns s m log m') :
    m'.symbols.names = (log.map Prod.fst).foldl Effect.enter m.symbols.names := by
  induction h with
  | idle h => rw [h]; rfl
  | intern h hm hrun hroom _ ih =>
    obtain ⟨i, m₂, hintern, hnames, -⟩ :=
      Effect.exists_intern hm _ (by rwa [Effect.after_of_ok hrun])
    obtain ⟨-, rfl⟩ := EStateM.Result.ok.inj (hintern.symm.trans hrun)
    rw [ih, hnames, h]
    rfl

/-- A symbol carries the number of its name. -/
theorem symbol_eq (h : Interns s m log m') {name : String} {v : Value} (hv : (name, v) ∈ log) :
    ∃ i : Nat, m'.symbols.names[i]? = some name ∧ v = .ofSymbol i := by
  induction h with
  | idle h => cases hv
  | intern h hm hrun hroom rest ih =>
    rcases List.mem_cons.mp hv with heq | hv
    · obtain ⟨i, m₂, hintern, -, hi, -⟩ :=
        Effect.exists_intern hm _ (by rwa [Effect.after_of_ok hrun])
      obtain ⟨rfl, rfl⟩ := EStateM.Result.ok.inj (hintern.symm.trans hrun)
      obtain ⟨rfl, rfl⟩ := Prod.mk.inj heq
      refine ⟨i, ?_, rfl⟩
      rw [rest.names_eq]
      exact Effect.getElem?_foldl_enter _ hi
    · exact ih hv

end Machine.Interns

end ObjectMachine
