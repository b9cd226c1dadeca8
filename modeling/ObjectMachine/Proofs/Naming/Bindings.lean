import Mathlib.Tactic
import ObjectMachine.Proofs.Dictionary.Refinement
import ObjectMachine.Proofs.Naming.Advancing
import ObjectMachine.Proofs.Typing.Tables

/-! Tables of names.

A table of names has symbols as keys, and symbols are equal only if they are the same.  Classes keep
their methods in such tables, plain objects and exceptions their attributes.  A heap is neat if every
one of these tables stands for a finite map, belongs to one object, and the classes have their numbers
in the order in which they were derived.

What a name is bound to in an object is then a matter of the finite map alone.  Time does not change
it, a table given to an object that had none does not, and an insertion changes it for one object and
one name. -/

namespace ObjectMachine

/-! ### Symbols as keys -/

namespace Dictionary

/-- The law of symbol keys: keys are equal if they are the same. -/
def symbolLaw : KeyLaw := .ofView id fun key =>
  match key.symbol? with
  | some i => UInt64.ofNat i
  | none => key.word

theorem symbolLaw_equal {a b : Value} : symbolLaw.equal a b = true ↔ a = b := decide_eq_true_iff

/-- A table of names that stands for an ideal one. -/
abbrev Names (t : Table) (s : IdealTable symbolLaw) : Prop :=
  Models .symbol symbolLaw (fun key => key ≠ .absent) t s

/-- Symbol keys obey their law wherever they are used. -/
theorem lawful_symbol {scope : Machine → Prop} {table : Value}
    (handles : ∀ {m : Machine} (places : Array Value), scope m → scope { m with handles := places })
    (events : ∀ {m : Machine} (log : Array Event), scope m → scope { m with events := log })
    (changes : ∀ {m : Machine} (f : Table → Table), scope m →
      scope { m with heap := m.heap.modify Facet.table table f }) :
    Lawful Keys.symbol symbolLaw (fun key => key ≠ .absent) scope table where
  ne_absent := id
  hash_eq _ _ := rfl
  equal_eq {m _ _} _ _ _ := congrArg (EStateM.Result.ok · m) (Bool.eq_iff_iff.mpr
    (beq_iff_eq.trans symbolLaw_equal.symm))
  handles := handles
  events := events
  changes := changes

/-- An empty table. -/
theorem names_of_empty {t : Table} (hw : t.WellFormed) (hsymbol : t.strategy = .symbol)
    (hempty : ∀ id, t.get? id = none) : Names t {} := by
  have hcontent : ∀ id, t.content? id = none := fun id => by rw [Table.content?, hempty]; rfl
  have hmapping : ∀ id, t.mapping? id = none := fun id => by rw [Table.mapping?, hcontent]; rfl
  refine ⟨hw, hsymbol, ⟨fun he => ?_, fun c p => ?_, fun he => ?_⟩, ?_⟩
  · rw [hmapping] at he
    cases he
  · simp [hmapping]
  · rw [hmapping] at he
    cases he
  · obtain ⟨chains, hc⟩ := hw
    refine List.length_eq_zero_iff.mpr (List.eq_nil_iff_forall_not_mem.mpr fun id hid => ?_)
    have htomb := hc.mem_tombstones.mp hid
    rw [Table.holdsTombstone, hcontent] at htomb
    cases htomb

theorem names_new : Names (Table.new .symbol 0) {} :=
  names_of_empty (Table.wellFormed_new .symbol 0) rfl fun id => by simp [Table.get?, Table.new]

variable {t : Table} {s : IdealTable symbolLaw}

/-- The mappings of the table are those of the finite map. -/
theorem Names.mem_entries (hs : Names t s) {key record : Value} (h : (key, record) ∈ t.entries) :
    s.mapping? key = some (key, record) := by
  rw [← Multiset.mem_coe, hs.represents.entries_eq hs.wellFormed, Multiset.mem_map] at h
  obtain ⟨⟨c, p⟩, hp, rfl⟩ := h
  have hlookup := Finmap.mem_lookup_iff.mpr hp
  obtain ⟨id, e, he, rfl, heq⟩ := (hs.represents.lookup_iff _ _).mp hlookup
  have hkey : e.key = key := congrArg Prod.fst heq
  rw [hkey] at hlookup
  exact hlookup

/-- What is read off the list of mappings is what the finite map says. -/
theorem Names.lookup_entries (hs : Names t s) (key : Value) :
    t.entries.lookup key = (s.mapping? key).map (·.2) := by
  cases hlookup : t.entries.lookup key with
  | some record =>
    obtain ⟨l₁, l₂, heq, -⟩ := List.lookup_eq_some_iff.mp hlookup
    have hmem : (key, record) ∈ t.entries := by simp [heq]
    rw [hs.mem_entries hmem]
    rfl
  | none =>
    cases hmapping : s.mapping? key with
    | none => rfl
    | some p =>
      obtain ⟨id, e, he, hclass, rfl⟩ := (hs.represents.lookup_iff _ _).mp hmapping
      have hkey : e.key = key := symbolLaw_equal.mp (KeyLaw.classOf_eq_iff.mp hclass)
      have hmem : ((e.key, e.record) : Value × Value) ∈ (t.entries : Multiset (Value × Value)) := by
        rw [hs.represents.entries_eq hs.wellFormed, Multiset.mem_map]
        exact ⟨⟨_, _⟩, Finmap.mem_lookup_iff.mp hmapping, rfl⟩
      have hnot := List.lookup_eq_none_iff.mp hlookup _ (Multiset.mem_coe.mp hmem)
      simp [hkey] at hnot

/-- What the table answers is a record of one of its entries. -/
theorem Names.exists_get?_of_lookup (hs : Names t s) {key x : Value} (h : t.entries.lookup key = some x) :
    ∃ id e, t.get? id = some e ∧ x = e.record := by
  rw [hs.lookup_entries, Option.map_eq_some_iff] at h
  obtain ⟨p, hp, rfl⟩ := h
  obtain ⟨id, e, he, -, rfl⟩ := (hs.represents.lookup_iff _ _).mp hp
  obtain ⟨f, hf, -, rfl⟩ := Table.mapping?_eq_some_iff.mp he
  exact ⟨id, f, hf, rfl⟩

theorem Names.lookup_entries_put {t' : Table} (hs : Names t s) (a b first record : Value)
    (hs' : Names t' (s.put a (first, record))) :
    t'.entries.lookup b = if b = a then some record else t.entries.lookup b := by
  rw [hs'.lookup_entries, hs.lookup_entries, IdealTable.mapping?_put]
  by_cases hab : b = a
  · rw [if_pos (symbolLaw_equal.mpr hab), if_pos hab]
    rfl
  · rw [if_neg fun h => hab (symbolLaw_equal.mp h), if_neg hab]

end Dictionary

/-! ### Neat heaps -/

namespace Heap

open Dictionary

variable {h h' : Heap} {u v w a : Value} {o o' : Object} {t t' : Table} {k : Nat} {written : Set Value}

/-- The table of names that an object keeps for itself. -/
def names? (h : Heap) (v : Value) : Option Table :=
  (h.get? v).bind fun o => o.body.names?.bind (h.read? Facet.table)

/-- What a symbol is bound to in the table of names of an object. -/
def binding? (h : Heap) (v key : Value) : Option Value := (h.names? v).bind (·.entries.lookup key)

theorem names?_eq_some (ho : h.get? v = some o) (ha : o.body.names? = some a)
    (ht : h.read Facet.table a = .ok t) : h.names? v = some t := by
  rw [names?, ho, Option.bind_some, ha, Option.bind_some]
  exact read?_eq_some_iff.mpr ht

/-- An object without a table of names. -/
theorem names?_eq_none (ho : h.get? v = some o) (ha : ∀ a, o.body.names? = some a → a = .absent) :
    h.names? v = none := by
  rw [names?, ho, Option.bind_some]
  cases hb : o.body.names? with
  | none => rfl
  | some a =>
    rw [ha a hb]
    rfl

theorem exists_of_binding {key x : Value} (hx : h.binding? v key = some x) : ∃ o a t,
    h.get? v = some o ∧ o.body.names? = some a ∧ h.read Facet.table a = .ok t ∧
      t.entries.lookup key = some x := by
  obtain ⟨t, ht, hx⟩ := Option.bind_eq_some_iff.mp hx
  obtain ⟨o, ho, ht⟩ := Option.bind_eq_some_iff.mp ht
  obtain ⟨a, ha, ht⟩ := Option.bind_eq_some_iff.mp ht
  exact ⟨o, a, t, ho, ha, read?_eq_some_iff.mp ht, hx⟩

theorem binding?_of_not_live (hv : h.get? v = none) (key : Value) : h.binding? v key = none := by
  rw [binding?, names?, hv]
  rfl

/-- A heap whose tables of names stand for finite maps and belong to one object each, and whose
classes stand below older ones. -/
structure Neat (h : Heap) : Prop where
  numbered : h.Numbered
  tables : ∀ {v o a}, h.get? v = some o → o.body.names? = some a → a ≠ .absent →
    ∃ t s, h.read Facet.table a = .ok t ∧ Names t s
  kept : ∀ {u v o p a}, h.get? u = some o → h.get? v = some p → o.body.names? = some a →
    p.body.names? = some a → a ≠ .absent → u = v
  methods : ∀ {v o c}, h.get? v = some o → o.body = .cls c → c.methods ≠ .absent
  superclass : ∀ {v o c}, h.get? v = some o → o.body = .cls c → c.superclass = .nil ∨
    ∃ p b, h.get? c.superclass = some p ∧ p.body = .cls b ∧ p.serial < o.serial

/-- Whether no object keeps a table of names under this reference. -/
def Unowned (h : Heap) (a : Value) : Prop := ∀ u o, h.get? u = some o → o.body.names? ≠ some a

/-- Every reference in an object is live. -/
def Whole (h : Heap) : Prop := ∀ u o, h.get? u = some o → ∀ w ∈ o.edges, h.Resolves w

theorem exists_of_read_table (ht : h.read Facet.table v = .ok t) :
    ∃ o, h.get? v = some o ∧ o.body = .table t := by
  obtain ⟨o, ho, hb⟩ := read_eq_ok_iff.mp ht
  exact ⟨o, ho, (Facet.lawful_table.put_eq hb).symm⟩

/-- A table of names that an object keeps is there as long as the object is. -/
theorem Neat.table_live (hn : h.Neat) (hw : h'.Whole) (ho : h.get? v = some o)
    (ho' : h'.get? v = some o) (ha : o.body.names? = some a) (hne : a ≠ .absent) :
    h'.isLive a = true := by
  obtain ⟨t, -, ht, -⟩ := hn.tables ho ha hne
  exact hw v o ho' a (List.mem_cons_of_mem _ (Body.mem_edges_of_names? ha)) (isRef_of_isLive (isLive_of_read ht))

/-- If an object has the table it had, and the table is what it was, the names are bound as before. -/
theorem Neat.names?_congr (hn : h.Neat)
    (hget : ∀ {o a}, o.body.names? = some a → a ≠ .absent → (h'.get? u = some o ↔ h.get? u = some o))
    (hread : ∀ {o a t}, h.get? u = some o → o.body.names? = some a → a ≠ .absent →
      h.read Facet.table a = .ok t → h'.read Facet.table a = .ok t) : h'.names? u = h.names? u := by
  by_cases hu : ∃ o a, h.get? u = some o ∧ o.body.names? = some a ∧ a ≠ .absent
  · obtain ⟨o, a, ho, ha, hne⟩ := hu
    obtain ⟨t, -, ht, -⟩ := hn.tables ho ha hne
    rw [names?_eq_some ho ha ht]
    exact names?_eq_some ((hget ha hne).mpr ho) ha (hread ho ha hne ht)
  · have hnone : ∀ {g : Heap}, (∀ {o a}, g.get? u = some o → o.body.names? = some a → a = .absent) →
        g.names? u = none := by
      intro g hg
      cases ho : g.get? u with
      | none => rw [names?, ho]; rfl
      | some o => exact names?_eq_none ho fun a => hg ho
    rw [hnone fun {o a} ho ha => by_contra fun hne => hu ⟨o, a, ho, ha, hne⟩,
      hnone fun {o a} ho ha => by_contra fun hne => hu ⟨o, a, (hget ha hne).mp ho, ha, hne⟩]

/-- What a name is bound to is there. -/
theorem Neat.resolves_binding (hn : h.Neat) (hw : h.Whole) {key x : Value}
    (hx : h.binding? v key = some x) : h.Resolves x := by
  obtain ⟨o, a, t, ho, ha, ht, hx⟩ := exists_of_binding hx
  have hne : a ≠ .absent := by
    rintro rfl
    cases ht
  obtain ⟨t', s, ht', hs⟩ := hn.tables ho ha hne
  obtain rfl := Except.ok.inj (ht'.symm.trans ht)
  obtain ⟨id, e, he, rfl⟩ := hs.exists_get?_of_lookup hx
  obtain ⟨p, hp, hbody⟩ := exists_of_read_table ht
  refine hw a p hp _ (List.mem_cons_of_mem _ ?_)
  rw [hbody]
  exact Table.mem_edges.mpr ⟨id, e, he, Or.inr rfl⟩

/-! ### Time -/

/-- What is no bare object was there already and is the same, if only tables were written. -/
theorem Later.get?_back (hn : h.Numbered) (hl : h.Later h.nextSerial written Body.Bare h')
    (hw : ∀ a ∈ written, ∃ t, h.read Facet.table a = .ok t) (ho' : h'.get? v = some o')
    (hbare : ¬ o'.body.Bare) : h.get? v = some o' := by
  rcases hl.fresh ho' with ⟨o, ho⟩ | ⟨-, hnew⟩
  · have hf := hl.follows ho ho'
    have hv : v ∉ written := fun hv => by
      obtain ⟨t, ht⟩ := hw v hv
      obtain ⟨p, hp, hbody⟩ := exists_of_read_table ht
      obtain rfl := Option.some.inj (hp.symm.trans ho)
      obtain ⟨t', hbody', -⟩ := Body.exists_table_of_outline_eq hf.outline_eq hbody
      exact hbare (by rw [hbody']; exact ⟨nofun, nofun⟩)
    rw [ho, hf.same fun hd => hd.elim hv fun hk => absurd (hn.serial_lt ho) (not_lt.mpr hk)]
  · exact absurd hnew hbare

theorem Neat.names?_later (hn : h.Neat) (hl : h.Later h.nextSerial written Body.Bare h')
    (hwhole : h'.Whole) (hw : ∀ a ∈ written, ∃ t, h.read Facet.table a = .ok t)
    (hfree : ∀ a ∈ written, h.Unowned a) (ho' : h'.get? v = some o') : h'.names? v = h.names? v := by
  have hback : ∀ {o a}, h'.get? v = some o → o.body.names? = some a → a ≠ .absent →
      h.get? v = some o := fun ho ha hne => hl.get?_back hn.numbered hw ho fun hbare => hne (hbare.2 _ ha)
  have hnot : ∀ {o a}, h.get? v = some o → o.body.names? = some a → v ∉ written := by
    intro o a ho ha hv
    obtain ⟨t, ht⟩ := hw v hv
    obtain ⟨p, hp, hbody⟩ := exists_of_read_table ht
    obtain rfl := Option.some.inj (hp.symm.trans ho)
    rw [hbody] at ha
    cases ha
  have hsame : ∀ {o a}, h.get? v = some o → o.body.names? = some a → h'.get? v = some o := fun ho ha =>
    hl.get?_eq ho (hnot ho ha) (hn.numbered.serial_lt ho) (isLive_of_get? ho')
  refine hn.names?_congr (fun ha hne => ⟨fun ho => hback ho ha hne, fun ho => hsame ho ha⟩)
    fun {o a t} ho ha hne ht => ?_
  exact hl.read_eq ht (fun hin => hfree a hin v o ho ha) hn.numbered le_rfl
    (hn.table_live hwhole ho (hsame ho ha) ha hne)

/-- A neat heap stays neat when bare objects are made and tables are written that nobody keeps. -/
theorem Neat.later (hn : h.Neat) (hl : h.Later h.nextSerial written Body.Bare h') (hwhole : h'.Whole)
    (hw : ∀ a ∈ written, ∃ t, h.read Facet.table a = .ok t) (hfree : ∀ a ∈ written, h.Unowned a) :
    h'.Neat where
  numbered := hl.numbered
  tables {v o a} ho' ha hne := by
    have ho := hl.get?_back hn.numbered hw ho' fun hbare => hne (hbare.2 a ha)
    obtain ⟨t, s, ht, hs⟩ := hn.tables ho ha hne
    exact ⟨t, s, hl.read_eq ht (fun hin => hfree a hin v o ho ha) hn.numbered le_rfl
      (hn.table_live hwhole ho ho' ha hne), hs⟩
  kept hu hv ha ha' hne :=
    hn.kept (hl.get?_back hn.numbered hw hu fun hbare => hne (hbare.2 _ ha))
      (hl.get?_back hn.numbered hw hv fun hbare => hne (hbare.2 _ ha')) ha ha' hne
  methods ho' hc := hn.methods (hl.get?_back hn.numbered hw ho' fun hbare => hbare.1 _ hc) hc
  superclass {v o c} ho' hc := by
    have ho := hl.get?_back hn.numbered hw ho' fun hbare => hbare.1 c hc
    refine (hn.superclass ho hc).imp id fun ⟨p, b, hp, hb, hlt⟩ => ⟨p, b, ?_, hb, hlt⟩
    have hlive := hwhole v o ho' c.superclass (by simp [Object.edges, hc, Body.edges])
      (get?_eq_some_iff.mp hp).1
    refine hl.get?_eq hp (fun hin => ?_) (hn.numbered.serial_lt hp) hlive
    obtain ⟨t, ht⟩ := hw _ hin
    obtain ⟨q, hq, hbody⟩ := exists_of_read_table ht
    obtain rfl := Option.some.inj (hq.symm.trans hp)
    rw [hb] at hbody
    cases hbody

/-- What nobody kept nobody keeps. -/
theorem Later.unowned (hn : h.Numbered) (hl : h.Later h.nextSerial written Body.Bare h')
    (hw : ∀ a ∈ written, ∃ t, h.read Facet.table a = .ok t) (ha : h.Unowned a) (hne : a ≠ .absent) :
    h'.Unowned a := fun u o ho hnames =>
  ha u o (hl.get?_back hn hw ho fun hbare => hne (hbare.2 a hnames)) hnames

/-! ### New tables -/

/-- What is new belongs to nobody. -/
theorem Neat.unowned_young (hn : h.Neat) (hwhole : h.Whole)
    (hl : h.Later h.nextSerial written Body.Bare h')
    (hw : ∀ a ∈ written, ∃ t, h.read Facet.table a = .ok t) (hyoung : h'.Young h.nextSerial a)
    (hlive : h'.isLive a = true) : h'.Unowned a := by
  intro u o hu ha
  obtain ⟨p', hp'⟩ := isLive_iff.mp hlive
  have href : a.isRef = true := (get?_eq_some_iff.mp hp').1
  have hold := hl.get?_back hn.numbered hw hu fun hbare => by
    rw [hbare.2 a ha] at href
    cases href
  obtain ⟨p, hp⟩ := isLive_iff.mp
    (hwhole u o hold a (List.mem_cons_of_mem _ (Body.mem_edges_of_names? ha)) href)
  have hserial := (hl.follows hp hp').serial_eq
  exact absurd (hn.numbered.serial_lt hp) (not_lt.mpr (hserial ▸ hyoung p' hp'))

/-- An object that has no table of names yet is given an empty one. -/
theorem Neat.attach (hn : h.Neat) {f : Object → Object} (ho : h.get? v = some o)
    (habsent : o.body.names? = some .absent) (hcls : ∀ c, o.body ≠ .cls c)
    (hf : (f o).body.names? = some a ∧ (f o).serial = o.serial ∧ (f o).flags = o.flags ∧
      ∀ c, (f o).body ≠ .cls c)
    (ht : h.read Facet.table a = .ok (Table.new .symbol 0)) (hfree : h.Unowned a) :
    (h.modifyObject v f).Neat ∧ ∀ u key, (h.modifyObject v f).binding? u key = h.binding? u key := by
  obtain ⟨hnames, hserial, hflags, hcls'⟩ := hf
  have hself : (h.modifyObject v f).get? v = some (f o) := by rw [get?_modifyObject_self, ho]; rfl
  have hother : ∀ {u}, u ≠ v → (h.modifyObject v f).get? u = h.get? u := fun hu =>
    get?_modifyObject_of_ne h hu f
  have hread : ∀ {b t}, h.read Facet.table b = .ok t → (h.modifyObject v f).read Facet.table b = .ok t := by
    intro b t hb
    obtain ⟨q, hq, hbody⟩ := exists_of_read_table hb
    refine read_eq_ok_iff.mpr ⟨q, (hother ?_).trans hq, by rw [hbody]; rfl⟩
    rintro rfl
    obtain rfl := Option.some.inj (hq.symm.trans ho)
    rw [hbody] at habsent
    cases habsent
  -- an object other than this one is what it was, and keeps another table
  have hcases : ∀ {u p b}, (h.modifyObject v f).get? u = some p → p.body.names? = some b →
      u = v ∧ b = a ∨ u ≠ v ∧ h.get? u = some p := by
    intro u p b hp hb
    by_cases hu : u = v
    · subst hu
      obtain rfl := Option.some.inj (hself.symm.trans hp)
      exact Or.inl ⟨rfl, Option.some.inj (hb.symm.trans hnames)⟩
    · exact Or.inr ⟨hu, (hother hu).symm.trans hp⟩
  refine ⟨⟨hn.numbered.modifyObject fun p hp => ?_, fun {u p b} hp hb hne => ?_,
    fun {u w p q b} hp hq hb hb' hne => ?_, fun {u p c} hp hc => ?_, fun {u p c} hp hc => ?_⟩, fun u key => ?_⟩
  · obtain rfl := Option.some.inj (hp.symm.trans ho)
    exact ⟨hserial, hflags⟩
  · rcases hcases hp hb with ⟨-, rfl⟩ | ⟨-, hp⟩
    · exact ⟨_, _, hread ht, names_new⟩
    · obtain ⟨t, s, ht, hs⟩ := hn.tables hp hb hne
      exact ⟨t, s, hread ht, hs⟩
  · rcases hcases hp hb with ⟨rfl, rfl⟩ | ⟨-, hp⟩
    · rcases hcases hq hb' with ⟨rfl, -⟩ | ⟨-, hq⟩
      · rfl
      · exact absurd hb' (hfree w q hq)
    · rcases hcases hq hb' with ⟨-, rfl⟩ | ⟨-, hq⟩
      · exact absurd hb (hfree u p hp)
      · exact hn.kept hp hq hb hb' hne
  · by_cases hu : u = v
    · subst hu
      obtain rfl := Option.some.inj (hself.symm.trans hp)
      exact absurd hc (hcls' c)
    · exact hn.methods ((hother hu).symm.trans hp) hc
  · by_cases hu : u = v
    · subst hu
      obtain rfl := Option.some.inj (hself.symm.trans hp)
      exact absurd hc (hcls' c)
    · refine (hn.superclass ((hother hu).symm.trans hp) hc).imp id fun ⟨q, b, hq, hb, hlt⟩ =>
        ⟨q, b, (hother ?_).trans hq, hb, hlt⟩
      intro heq
      rw [heq] at hq
      obtain rfl := Option.some.inj (hq.symm.trans ho)
      exact hcls b hb
  · by_cases hu : u = v
    · subst hu
      rw [binding?, binding?, names?_eq_some hself hnames (hread ht), names?_eq_none ho fun b hb =>
        (Option.some.inj (habsent.symm.trans hb)).symm]
      rfl
    · rw [binding?, binding?, hn.names?_congr (fun _ _ => by rw [hother hu]) fun _ _ _ => hread]

/-- A class is derived from another.  It has no methods yet. -/
theorem Neat.derive (hn : h.Neat) (cls : Value) {c b : ClassBody}
    (hroom : (h.insert cls (.cls c)).slots.size ≤ 2 ^ 32)
    (ht : h.read Facet.table c.methods = .ok (Table.new .symbol 0)) (hfree : h.Unowned c.methods)
    (ho : h.get? c.superclass = some o) (hb : o.body = .cls b) :
    (h.insert cls (.cls c)).Neat ∧
      ∀ u key, (h.insert cls (.cls c)).binding? u key = h.binding? u key := by
  have hsound := hn.numbered.sound
  have hget := hsound.get?_insert cls (.cls c) hroom
  have hnew := (hget h.nextReference).trans (if_pos rfl)
  have hnone := hsound.get?_nextReference cls (.cls c) hroom
  have hstays : ∀ {u p}, h.get? u = some p → (h.insert cls (.cls c)).get? u = some p :=
    hsound.get?_insert_of_some cls _
  have hread : ∀ {a t}, h.read Facet.table a = .ok t → (h.insert cls (.cls c)).read Facet.table a = .ok t :=
    hsound.read_insert cls _
  have hcases : ∀ {u p}, (h.insert cls (.cls c)).get? u = some p →
      u = h.nextReference ∧ p = { cls := cls, serial := h.nextSerial, body := .cls c } ∨
        h.get? u = some p := by
    intro u p hp
    by_cases hu : u = h.nextReference
    · subst hu
      exact Or.inl ⟨rfl, Option.some.inj (hp.symm.trans hnew)⟩
    · exact Or.inr (((hget u).trans (if_neg hu)).symm.trans hp)
  refine ⟨⟨hn.numbered.insert cls _, fun {u p a} hp ha hne => ?_, fun {u w p q a} hp hq ha ha' hne => ?_,
    fun {u p d} hp hd => ?_, fun {u p d} hp hd => ?_⟩, fun u key => ?_⟩
  · rcases hcases hp with ⟨rfl, rfl⟩ | hp
    · obtain rfl := Option.some.inj ha
      exact ⟨_, _, hread ht, names_new⟩
    · obtain ⟨t, s, ht, hs⟩ := hn.tables hp ha hne
      exact ⟨t, s, hread ht, hs⟩
  · rcases hcases hp with ⟨rfl, rfl⟩ | hp
    · rcases hcases hq with ⟨rfl, -⟩ | hq
      · rfl
      · obtain rfl := Option.some.inj ha
        exact absurd ha' (hfree w q hq)
    · rcases hcases hq with ⟨rfl, rfl⟩ | hq
      · obtain rfl := Option.some.inj ha'
        exact absurd ha (hfree u p hp)
      · exact hn.kept hp hq ha ha' hne
  · rcases hcases hp with ⟨rfl, rfl⟩ | hp
    · obtain rfl := Body.cls.inj hd
      rintro habsent
      rw [habsent] at ht
      cases ht
    · exact hn.methods hp hd
  · rcases hcases hp with ⟨rfl, rfl⟩ | hp
    · obtain rfl := Body.cls.inj hd
      exact Or.inr ⟨o, b, hstays ho, hb, hn.numbered.serial_lt ho⟩
    · exact (hn.superclass hp hd).imp id fun ⟨q, b, hq, hb, hlt⟩ => ⟨q, b, hstays hq, hb, hlt⟩
  · by_cases hu : u = h.nextReference
    · subst hu
      rw [binding?_of_not_live hnone, binding?, names?_eq_some hnew rfl (hread ht)]
      rfl
    · rw [binding?, binding?, hn.names?_congr (fun _ _ => by rw [hget, if_neg hu]) fun _ _ _ => hread]

/-! ### Insertions -/

/-- A heap in which one table may have been changed. -/
inductive Rewrites (a : Value) (h : Heap) : Heap → Prop where
  | same : Rewrites a h h
  | changed (f : Table → Table) : Rewrites a h (h.modify Facet.table a f)

namespace Rewrites

theorem modify (hr : h.Rewrites a h') (f : Table → Table) : h.Rewrites a (h'.modify Facet.table a f) := by
  cases hr with
  | same => exact .changed f
  | changed g =>
    rw [modify_modify]
    exact .changed _

theorem get?_of_ne (hr : h.Rewrites a h') (hu : u ≠ a) : h'.get? u = h.get? u := by
  cases hr with
  | same => rfl
  | changed f => exact get?_modifyObject_of_ne h hu _

/-- Only the table was written. -/
theorem later (hr : h.Rewrites a h') (hn : h.Numbered) (ht : h.read Facet.table a = .ok t)
    (ht' : h'.read Facet.table a = .ok t') (hsame : t'.strategy = t.strategy) :
    h.Later k {a} Body.Bare h' := by
  cases hr with
  | same => exact .refl hn
  | changed f =>
    have hf : f t = t' := Except.ok.inj ((read_modify_table ht f).symm.trans ht')
    refine later_modifyObject hn (Or.inl rfl) fun o ho => ?_
    obtain ⟨p, hp, hbody⟩ := exists_of_read_table ht
    obtain rfl := Option.some.inj (hp.symm.trans ho)
    have hbody' : Facet.table.get? p.body = some t := by rw [hbody]; rfl
    refine ⟨⟨rfl, ?_⟩, rfl, rfl, fun _ => ?_⟩
    · rw [hbody', hbody]
      simp only [Facet.table, Body.outline, hf, hsame]
    · rw [hbody']
      constructor
      · intro c h
        cases h
      · intro a h
        cases h

/-- Everything but the table is what it was. -/
theorem get?_iff (hr : h.Rewrites a h') (ht : h.read Facet.table a = .ok t)
    (ht' : h'.read Facet.table a = .ok t') (ho : ∀ t, o.body ≠ .table t) :
    h'.get? u = some o ↔ h.get? u = some o := by
  by_cases hu : u = a
  · subst hu
    obtain ⟨p, hp, hbody⟩ := exists_of_read_table ht
    obtain ⟨p', hp', hbody'⟩ := exists_of_read_table ht'
    rw [hp, hp', Option.some.injEq, Option.some.injEq]
    exact iff_of_false (fun heq => ho _ (heq ▸ hbody')) fun heq => ho _ (heq ▸ hbody)
  · rw [hr.get?_of_ne hu]

end Rewrites

theorem ne_table_of_names? (ha : o.body.names? = some a) : ∀ t, o.body ≠ .table t := by
  intro t hbody
  rw [hbody] at ha
  cases ha

theorem ne_table_of_cls {c : ClassBody} (hc : o.body = .cls c) : ∀ t, o.body ≠ .table t := by
  intro t hbody
  rw [hc] at hbody
  cases hbody

/-- Entering a mapping into the table of names of an object changes one binding. -/
theorem Neat.enter (hn : h.Neat) (hr : h.Rewrites a h') (ho : h.get? v = some o)
    (ha : o.body.names? = some a) (hne : a ≠ .absent) {s : IdealTable symbolLaw} {key first x : Value}
    (ht : h.read Facet.table a = .ok t) (hs : Names t s) (ht' : h'.read Facet.table a = .ok t')
    (hs' : Names t' (s.put key (first, x))) :
    h'.Neat ∧ ∀ u key', h'.binding? u key' =
      if u = v ∧ key' = key then some x else h.binding? u key' := by
  have hget : ∀ {u : Value} {p : Object}, (∀ t, p.body ≠ .table t) →
      (h'.get? u = some p ↔ h.get? u = some p) := fun hp => hr.get?_iff ht ht' hp
  have hread : ∀ {b t}, b ≠ a → h.read Facet.table b = .ok t → h'.read Facet.table b = .ok t := by
    intro b t hb hread
    obtain ⟨q, hq, hq'⟩ := read_eq_ok_iff.mp hread
    exact read_eq_ok_iff.mpr ⟨q, (hr.get?_of_ne hb).trans hq, hq'⟩
  -- the table of another object is another one
  have hother : ∀ {u p b}, u ≠ v → h.get? u = some p → p.body.names? = some b → b ≠ .absent → b ≠ a := by
    rintro u p b hu hp hb hb' rfl
    exact hu (hn.kept hp ho hb ha hb')
  have hl := hr.later (k := h.nextSerial) hn.numbered ht ht' (hs'.strategy_eq.trans hs.strategy_eq.symm)
  refine ⟨⟨hl.numbered, fun {u p b} hp hb hne' => ?_, fun {u w p q b} hp hq hb hb' hne' => ?_,
    fun {u p c} hp hc => ?_, fun {u p c} hp hc => ?_⟩, fun u key' => ?_⟩
  · rw [hget (ne_table_of_names? hb)] at hp
    by_cases hu : u = v
    · subst hu
      obtain rfl := Option.some.inj (hp.symm.trans ho)
      obtain rfl := Option.some.inj (hb.symm.trans ha)
      exact ⟨t', _, ht', hs'⟩
    · obtain ⟨q, r, hq, hr⟩ := hn.tables hp hb hne'
      exact ⟨q, r, hread (hother hu hp hb hne') hq, hr⟩
  · rw [hget (ne_table_of_names? hb)] at hp
    rw [hget (ne_table_of_names? hb')] at hq
    exact hn.kept hp hq hb hb' hne'
  · rw [hget (ne_table_of_cls hc)] at hp
    exact hn.methods hp hc
  · rw [hget (ne_table_of_cls hc)] at hp
    exact (hn.superclass hp hc).imp id fun ⟨q, b, hq, hb, hlt⟩ =>
      ⟨q, b, (hget (ne_table_of_cls hb)).mpr hq, hb, hlt⟩
  · by_cases hu : u = v
    · subst hu
      have ho' := (hget (ne_table_of_names? ha)).mpr ho
      rw [binding?, binding?, names?_eq_some ho ha ht, names?_eq_some ho' ha ht', Option.bind_some,
        Option.bind_some, hs.lookup_entries_put key key' first x hs']
      simp only [true_and]
    · rw [if_neg fun heq => hu heq.1, binding?, binding?, hn.names?_congr
        (fun hb _ => hget (ne_table_of_names? hb)) fun hp hb hne' => hread (hother hu hp hb hne')]

end Heap

/-! ### Operations on tables of names -/

namespace Dictionary

variable {m : Machine} {a key : Value} {t : Table} {s : IdealTable symbolLaw}

/-- An insertion writes to the table only, and leaves the names of the machine alone. -/
theorem exists_insert_names (ht : m.heap.read Facet.table a = .ok t) (hs : Names t s)
    (hkey : key ≠ .absent) (x : Value) : ∃ b m' t' first,
      Dictionary.insert (fun _ => Keys.symbol) a key x m = .ok b m' ∧ m.heap.Rewrites a m'.heap ∧
        m'.symbols = m.symbols ∧ m'.heap.read Facet.table a = .ok t' ∧
        Names t' (s.put key (first, x)) := by
  let scope : Machine → Prop := fun m' => m.heap.Rewrites a m'.heap ∧ m'.symbols = m.symbols
  let meaning : KeyMeaning := fun _ => Keys.symbol
  have hl : Lawful (meaning .symbol) symbolLaw (fun key => key ≠ .absent) scope a :=
    lawful_symbol (fun _ h => h) (fun _ h => h) fun f h => ⟨h.1.modify f, h.2⟩
  obtain ⟨t', hs', hinsert⟩ := hs.insert hl hkey x
  obtain ⟨m', hm', hheld⟩ := hinsert m ⟨⟨.same, rfl⟩, ht⟩
  exact ⟨_, m', t', _, hm', hheld.inScope.1, hheld.inScope.2, hheld.read_eq, hs'⟩

/-- A lookup finds what the table holds, and leaves the machine alone. -/
theorem lookup_names (ht : m.heap.read Facet.table a = .ok t) (hs : Names t s) (hkey : key ≠ .absent) :
    Dictionary.lookup (fun _ => Keys.symbol) a key m = .ok (t.entries.lookup key) m := by
  let meaning : KeyMeaning := fun _ => Keys.symbol
  have hl : Lawful (meaning .symbol) symbolLaw (fun key => key ≠ .absent) (fun _ => True) a :=
    lawful_symbol (fun _ h => h) (fun _ h => h) fun _ h => h
  obtain ⟨t', -, hlookup⟩ := hs.lookup hl hkey
  obtain ⟨m', hm', -⟩ := hlookup m ⟨trivial, ht⟩
  obtain ⟨found, hfound, -⟩ := exists_lookup_symbol ht hs.wellFormed key
  rw [hfound] at hm' ⊢
  rw [hs.lookup_entries, (EStateM.Result.ok.inj hm').1]

end Dictionary

end ObjectMachine
