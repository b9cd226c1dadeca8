import Mathlib.Tactic
import ObjectMachine.Proofs.Program.Discretion
import ObjectMachine.Proofs.Typing.Behaviour

/-! Interning on typed machines.

A new name becomes a text and an entry of the table of symbols.  The shape of the machine says nothing
of this table but that it is well formed, because no class and no object keeps it. -/

namespace ObjectMachine

open Machine

namespace Machine

variable {m m' : Machine} {bare : Set Value} {quiet : Prop} {s : Value}

/-- A later machine with nothing that was not there before but texts and tables with texts as keys. -/
structure Spares (m m' : Machine) : Prop where
  persists : m.Persists True m'
  objects : ∀ v o, m'.heap.get? v = some o → m.heap.get? v = some o ∨ (∃ x, o.body = .text x) ∨
    ∃ t, o.body = .table t ∧ t.strategy = .text

namespace Spares

theorem refl (m : Machine) : m.Spares m := ⟨.refl m, fun _ _ ho => Or.inl ho⟩

theorem trans {m'' : Machine} (h : m.Spares m') (h' : m'.Spares m'') : m.Spares m'' :=
  ⟨h.persists.trans h'.persists, fun v o ho => (h'.objects v o ho).elim (h.objects v o) Or.inr⟩

theorem of_heap_eq (hheap : m'.heap = m.heap) (hk : m.Persists True m') : m.Spares m' :=
  ⟨hk, fun _ _ ho => Or.inl (hheap ▸ ho)⟩

/-- Tables of names are as they were, and nobody has come to keep them. -/
theorem loose (h : m.Spares m') {a : Value} {t : Table} (henabled : m.heap.enabled = false)
    (ht : m.heap.read Facet.table a = .ok t) (hsymbol : t.strategy = .symbol) (hfree : m.Unkept a) :
    m'.heap.read Facet.table a = .ok t ∧ m'.Unkept a := by
  obtain ⟨t', ht', hsame⟩ := h.persists.exists_read_table (Or.inr henabled) ht
  obtain ⟨o, ho, hb⟩ := Heap.read_eq_ok_iff.mp ht'
  have hbody : o.body = .table t' := (Facet.lawful_table.put_eq hb).symm
  refine ⟨?_, fun heq => hfree.1 (heq.trans h.persists.carries.globals_eq), fun u p hp hnames => ?_⟩
  · rcases h.objects a o ho with hold | ⟨x, hx⟩ | ⟨t'', ht'', htext⟩
    · obtain rfl := Except.ok.inj (ht.symm.trans (Heap.read_eq_ok_iff.mpr ⟨o, hold, hb⟩))
      exact ht'
    · rw [hbody] at hx
      cases hx
    · obtain rfl := Body.table.inj (hbody.symm.trans ht'')
      rw [hsame, hsymbol] at htext
      cases htext
  · rcases h.objects u p hp with hold | ⟨x, hx⟩ | ⟨t'', ht'', -⟩
    · exact hfree.2 u p hold hnames
    · rw [hx] at hnames
      cases hnames
    · rw [ht''] at hnames
      cases hnames

end Spares

/-- A new text is all that storing it adds. -/
theorem spares_text (hm : m.Intact) {cls v : Value} {x : String}
    (h : Effect.alloc cls (.text x) m = .ok v m') (hk : m.Persists True m') : m.Spares m' := by
  have hstore : ∀ {n : Machine}, n.heap.Sound → (∀ w o, n.heap.get? w = some o → m.heap.get? w = some o) →
      m.Persists True { n with heap := n.heap.insert cls (.text x) } →
      m.Spares { n with heap := n.heap.insert cls (.text x) } := fun {n} hn hback hk => by
    refine ⟨hk, fun w o ho => ?_⟩
    rcases hn.get?_insert_cases cls (.text x) ho with hold | rfl
    · exact Or.inl (hback w o hold)
    · exact Or.inr (Or.inl ⟨x, rfl⟩)
  rcases Effect.alloc_cases cls (.text x) m with h' | h'
  · obtain ⟨-, rfl⟩ := EStateM.Result.ok.inj (h.symm.trans h')
    exact hstore hm.sound (fun _ _ ho => ho) hk
  · obtain ⟨-, rfl⟩ := EStateM.Result.ok.inj (h.symm.trans h')
    refine hstore (n := m.collectWith _) (hm.sound.collect _) (fun w o ho => ?_) hk
    exact ((Heap.get?_collect_eq_some_iff hm.unmarked).mp ho).1

/-- A live table with texts as keys that is nobody's method table. -/
structure Directory (m : Machine) (s : Value) : Prop where
  table : ∃ t, m.heap.read Facet.table s = .ok t ∧ t.strategy = .text
  free : ∀ c b, m.heap.read Facet.cls c = .ok b → b.methods ≠ s

theorem Typed.directory (hm : m.Typed bare) : m.Directory m.symbols.table := by
  obtain ⟨o, t, ho, hb, htext⟩ := hm.exists_symbols
  refine ⟨⟨t, Heap.read_eq_ok_iff.mpr ⟨o, ho, by rw [hb]; rfl⟩, htext⟩, fun c b hb => ?_⟩
  exact (Body.avoids_cls.mp (hm.discreet.heap.avoids_of_read Facet.lawful_cls hb)).2.2

theorem Directory.persists (hd : m.Directory s) (hs : s ∈ m.roots) (hk : m.Persists True m') :
    m'.Directory s := by
  obtain ⟨t, ht, htext⟩ := hd.table
  obtain ⟨t', ht', hsame⟩ := hk.exists_read_table (Or.inl hs) ht
  exact ⟨⟨t', ht', hsame.trans htext⟩, fun c b hb => hd.free c b (hk.classes trivial c b hb)⟩

/-- A structural change of such a table. -/
theorem Shaped.write_directory (hs : m.Shaped bare) (hd : m.Directory s) {g : Table → Table}
    (hg : ∀ t, t.WellFormed → (g t).WellFormed ∧ (g t).strategy = t.strategy ∧
      ∀ w ∈ (Body.table (g t)).edges, w ∈ (Body.table t).edges ∨ m.heap.Resolves w) :
    Effect.write Facet.table s g m = .ok () { m with heap := m.heap.modify Facet.table s g } ∧
      Shaped bare { m with heap := m.heap.modify Facet.table s g } ∧
      m.Spares { m with heap := m.heap.modify Facet.table s g } := by
  obtain ⟨t, ht, htext⟩ := hd.table
  obtain ⟨o, ho, hb⟩ := Heap.read_eq_ok_iff.mp ht
  have hbody : o.body = .table t := (Facet.lawful_table.put_eq hb).symm
  have hsuits := hs.suits s o ho
  rw [hbody] at hsuits
  obtain ⟨hwell, hsame, hedges⟩ := hg t hsuits.1
  have hlike : o.Likens { o with body := .table (g t) } :=
    ⟨rfl, by rw [hbody]; simp only [Body.outline, hsame]⟩
  have hamends : m.Amends bare bare s o { o with body := Facet.table.put (g t) } := by
    refine ⟨hlike, rfl, rfl, fun w hw => ?_, ⟨hwell, fun hne => absurd (hsame.trans htext) hne⟩,
      by rintro _ ⟨⟩, fun c b t' hc heq => absurd heq (hd.free c b hc), by rintro _ ⟨⟩, fun _ _ h => h⟩
    rcases hedges w hw with hw | hw
    · exact hs.intact.closed.edges s o ho w (List.mem_cons_of_mem _ (hbody ▸ hw))
    · exact hw
  obtain ⟨hs', hk⟩ := hs.modify ho hb hamends id fun _ : True =>
    Body.inert_table (by rw [hsame, htext]; intro h; cases h)
  refine ⟨Effect.write_of_ok ht g, hs', hk, fun v p hp => ?_⟩
  by_cases hv : v = s
  · subst hv
    have hself := Heap.get?_modifyObject_self m.heap v (change Facet.table g)
    rw [ho, Option.map_some, change_eq hb] at hself
    obtain rfl := Option.some.inj (hself.symm.trans hp)
    exact Or.inr (Or.inr ⟨g t, rfl, hsame.trans htext⟩)
  · exact Or.inl ((Heap.get?_modifyObject_of_ne m.heap hv _).symm.trans hp)

/-- Adding the entry of a name to the table, which may grow first. -/
theorem Shaped.addHashed_directory (hs : m.Shaped bare) (hd : m.Directory s) (hroot : s ∈ m.roots)
    {hash : UInt64} {key record : Value} (hkey : m.heap.Resolves key) (hne : key ≠ .absent)
    (hrecord : m.heap.Resolves record) :
    ∃ heap events, Dictionary.addHashed s hash key record m =
        .ok () { m with heap := heap, events := events } ∧
      Shaped bare { m with heap := heap, events := events } ∧
      m.Spares { m with heap := heap, events := events } := by
  have hprepend : ∀ {h : Heap}, h.Resolves key → h.Resolves record → ∀ t : Table, t.WellFormed →
      (t.prepend hash key record).WellFormed ∧ (t.prepend hash key record).strategy = t.strategy ∧
      ∀ w ∈ (Body.table (t.prepend hash key record)).edges,
        w ∈ (Body.table t).edges ∨ h.Resolves w := by
    intro h hkey' hrecord' t hw
    have hchange : t.Change (t.prepend hash key record) := .prepend hash hne record
    refine ⟨hw.change hchange, hchange.strategy_eq, fun w hw' => ?_⟩
    rcases (Table.mem_edges_prepend hw.slotted).mp hw' with hw' | rfl | rfl
    · exact Or.inl hw'
    · exact Or.inr hkey'
    · exact Or.inr hrecord'
  obtain ⟨t, ht, htext⟩ := hd.table
  rw [Dictionary.addHashed, Effect.bind_of_ok (Effect.read_of_ok ht)]
  cases hgrow : t.needsGrow with
  | false =>
    simp only [Bool.false_eq_true, if_false]
    exact ⟨_, m.events, hs.write_directory hd (hprepend hkey hrecord)⟩
  | true =>
    simp only [if_true]
    let n := Table.primeAtLeast (t.bins.size * 2)
    have hrehash : ∀ u : Table, u.WellFormed → (u.rehash n).WellFormed ∧
        (u.rehash n).strategy = u.strategy ∧
        ∀ w ∈ (Body.table (u.rehash n)).edges, w ∈ (Body.table u).edges ∨ m.heap.Resolves w := by
      intro u hu
      have hchange : u.Change (u.rehash n) := .rehash (Table.primeAtLeast_pos _)
      exact ⟨hu.change hchange, hchange.strategy_eq, fun w hw => Or.inl (Table.mem_edges_rehash.mp hw)⟩
    obtain ⟨hwrite, hs₁, hk₁⟩ := hs.write_directory hd hrehash
    let m₁ : Machine := { m with heap := m.heap.modify Facet.table s (·.rehash n) }
    let m₂ : Machine := { m₁ with events := m₁.events.push (.rehashed s t.bins.size n) }
    have hs₂ : m₂.Shaped bare := hs₁.of_heap_eq rfl rfl rfl id hs₁.intact.closed.roots
    have hk₂ : m₁.Spares m₂ := .of_heap_eq rfl (.of_heap_eq rfl (m₁.carries_with m₁.heap _) rfl id)
    have hlive : ∀ {v}, m.heap.Resolves v → m₂.heap.Resolves v := fun hv href =>
      (Heap.isLive_modifyObject m.heap s _ _).trans (hv href)
    have hd₂ := hd.persists hroot (hk₁.trans hk₂).persists
    obtain ⟨hwrite', hs₃, hk₃⟩ := hs₂.write_directory hd₂ (hprepend (hlive hkey) (hlive hrecord))
    exact ⟨_, m₂.events, (Effect.bind_of_ok hwrite).trans hwrite', hs₃, (hk₁.trans hk₂).trans hk₃⟩

/-- The same with the table, the text and the symbol pinned meanwhile. -/
theorem Shaped.add_directory (hs : m.Shaped bare) (hd : m.Directory s) (hroot : s ∈ m.roots)
    {key record : Value} {name : String} (hkey : m.heap.read Facet.text key = .ok name)
    (hrecord : m.heap.Resolves record) :
    ∃ heap events, Dictionary.add (fun _ => Keys.text) s key record m =
        .ok () { m with heap := heap, events := events } ∧
      Shaped bare { m with heap := heap, events := events } ∧
      m.Spares { m with heap := heap, events := events } := by
  obtain ⟨o, ho, -⟩ := Heap.read_eq_ok_iff.mp hkey
  have hlive : m.heap.Resolves key := Heap.resolves_of_isLive (Heap.isLive_of_get? ho)
  have hne : key ≠ .absent := by
    rintro rfl
    cases (Heap.get?_eq_some_iff.mp ho).1
  let pinned := [s, key, record]
  let m₁ : Machine := { m with handles := m.handles ++ pinned.toArray }
  have hpin : Effect.pinAll pinned m = .ok () m₁ := Effect.pinAll_eq pinned m
  have hs₁ : m₁.Shaped bare := by
    refine hs.with_stacks (fun v hv => ?_) fun f hf => Or.inl hf
    refine (Array.mem_append.mp hv).imp id fun hv => ?_
    simp only [pinned, List.mem_toArray, List.mem_cons, List.not_mem_nil, or_false] at hv
    rcases hv with rfl | rfl | rfl
    · exact hs.intact.closed.roots _ hroot
    · exact hlive
    · exact hrecord
  have hk₁ : m.Persists True m₁ := by
    refine .of_heap_eq rfl ⟨rfl, rfl, rfl, ?_, List.Subset.refl _⟩ rfl id
    exact Array.toList_append ▸ List.prefix_append _ _
  obtain ⟨t, ht, -⟩ := hd.table
  obtain ⟨heap, events, hadd, hs₂, hk₂⟩ := hs₁.addHashed_directory (hd.persists hroot hk₁)
    (hk₁.carries.roots_subset hroot) hlive hne hrecord
  have hhash : Keys.text.hash key m₁ = .ok (textHash name) m₁ :=
    Effect.bind_of_ok (Effect.read_of_ok (m := m₁) hkey)
  have hscope : (do
      Effect.pinAll pinned
      let keys ← Dictionary.keysOf (fun _ => Keys.text) s
      let hash ← keys.hash key
      Dictionary.addHashed s hash key record) m = .ok () { m₁ with heap := heap, events := events } := by
    rw [Effect.bind_of_ok hpin, Dictionary.keysOf_bind, Effect.bind_of_ok (Effect.read_of_ok (m := m₁) ht)]
    exact (Effect.bind_of_ok hhash).trans hadd
  have hhandles : m₁.handles.shrink m.handles.size = m.handles := by simp [m₁]
  have hk := (hk₁.trans hk₂.persists).shrink
  have hs₃ : Shaped bare { m₁ with heap := heap, events := events, handles := m.handles } :=
    hs₂.with_stacks (fun v hv => Or.inl (Array.mem_append_left _ hv)) fun f hf => Or.inl hf
  refine ⟨heap, events, ?_, hs₃, ?_⟩
  · rw [Dictionary.add, Effect.withHandles_eq, hscope]
    simp [m₁]
  · simp only [hhandles] at hk
    exact ⟨hk, hk₂.objects⟩

open Effect in
/-- A name can be interned at any time. -/
theorem Typed.exists_intern (hm : m.Typed bare) (name : String) (hroom : ((intern name).after m).HasRoom) :
    ∃ (i : Nat) (m' : Machine), intern name m = .ok (.ofSymbol i) m' ∧ m'.Typed bare ∧ m.Spares m' ∧
      m'.symbols.names[i]? = some name := by
  obtain ⟨i, m', h, hnames, hi, hd⟩ := Effect.exists_intern hm.discreet name hroom
  suffices hshape : m'.Shaped bare ∧ m.Spares m' from
    ⟨i, m', h, ⟨hshape.1, by rw [hd.table_eq]; exact hd⟩, hshape.2, hi⟩
  obtain ⟨t, ht, hlists⟩ := hm.discreet.heap.table
  rcases Dictionary.lookupText_eq ht hlists name with ⟨j, hj, hfound⟩ | ⟨hnew, hfound⟩
  · obtain ⟨-, rfl⟩ := EStateM.Result.ok.inj ((intern_of_known hfound).symm.trans h)
    exact ⟨hm.shaped, .refl m⟩
  let record : Value := .ofSymbol m.symbols.names.size
  let m₁ : Machine := { m with symbols := { m.symbols with names := m.symbols.names.push name } }
  have hkeep : ∀ {i : Nat} {other : String}, m.symbols.names[i]? = some other →
      m₁.symbols.names[i]? = some other := fun hi => by
    have hlt := (Array.getElem?_eq_some_iff.mp hi).1
    exact (Array.getElem?_push_lt hlt).trans ((Array.getElem?_eq_getElem hlt).symm.trans hi)
  have hs₁ : m₁.Shaped bare := hm.shaped.of_heap_eq rfl rfl rfl hkeep hm.shaped.intact.closed.roots
  have hk₁ : m.Spares m₁ := .of_heap_eq rfl
    (.of_heap_eq rfl ⟨rfl, rfl, rfl, List.prefix_rfl, List.Subset.refl _⟩ rfl hkeep)
  obtain ⟨key, m₂, hstore⟩ : ∃ key m₂, newText name m₁ = .ok key m₂ := by
    rcases alloc_cases (m₁.classValue .string) (.text name) m₁ with h | h
    · exact ⟨_, _, h⟩
    · exact ⟨_, _, h⟩
  have heq : intern name m = (Dictionary.add (fun _ => Keys.text) m.symbols.table key record >>=
      fun _ => pure record) m₂ := intern_of_new hfound hstore
  have hroom₂ : m₂.HasRoom := hasRoom_of_intern heq hroom
  have hfits : m₁.Fits (m₁.classValue .string) (.text name) :=
    hs₁.fits rfl (fun _ hb => by cases hb) (fun w hw => absurd hw List.not_mem_nil) trivial
      fun _ ha => by cases ha
  obtain ⟨v, heap, events, halloc, hs₂, hk₂, hplaced⟩ := hs₁.exists_alloc hfits
    (fun _ : True => Body.inert_text name) (by rw [after_of_ok (show alloc _ _ m₁ = _ from hstore)]; exact hroom₂)
  obtain ⟨rfl, rfl⟩ := EStateM.Result.ok.inj (halloc.symm.trans hstore)
  have hk := hk₁.trans (spares_text hs₁.intact halloc hk₂)
  have hroot := hm.discreet.mem_roots
  obtain ⟨heap', events', hadd, hs₃, hk₃⟩ := hs₂.add_directory
    (hm.directory.persists hroot hk.persists) (hk.persists.carries.roots_subset hroot)
    (hplaced.read_eq rfl) (Heap.resolves_of_not_isRef (Value.isRef_ofSymbol _))
  obtain ⟨-, rfl⟩ := EStateM.Result.ok.inj ((heq.trans (bind_of_ok hadd)).symm.trans h)
  exact ⟨hs₃, hk.trans hk₃⟩

end Machine

namespace Effect

/-- Interning a name gives a symbol that bears it. -/
theorem behaves_intern {quiet pre : Prop} {m : Machine} (name : String) :
    Behaves quiet pre (intern name) m fun v m' => ∃ i : Nat, v = .ofSymbol i ∧
      m'.symbols.names[i]? = some name := by
  refine .of_exists (Discreet.size_le (s := m.symbols.table) discreet_intern m) fun hm _ hroom => ?_
  obtain ⟨i, m', h, hm', hk, hi⟩ := hm.exists_intern name hroom
  exact ⟨_, m', h, hm', hk.persists.loud fun _ => trivial, i, rfl, hi⟩

end Effect

end ObjectMachine
