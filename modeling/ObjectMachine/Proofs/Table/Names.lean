import Mathlib.Tactic
import ObjectMachine.Proofs.Machine.Rooting

/-! Tables that list names.

The table of symbols has a text for every name and the name's number as its record.  `Lists` says
that such a table and a list of names are in step.  Spreading the entries over new bins and adding the
entry of a new name keep them so, and looking a text up finds its number exactly if it is a name. -/

namespace ObjectMachine

/-! ### Numbers of symbols -/

namespace Value

theorem toNat_word_ofSymbol {id : Nat} (hid : id < 2 ^ 32) : (ofSymbol id).word.toNat = id * 16 + 7 := by
  rw [ofSymbol, UInt64.toNat_ofNat', Nat.mod_eq_of_lt (by omega)]

theorem ofSymbol_inj {i j : Nat} (hi : i < 2 ^ 32) (hj : j < 2 ^ 32) (h : ofSymbol i = ofSymbol j) :
    i = j := by
  have hword := congrArg (fun v : Value => v.word.toNat) h
  simp only [toNat_word_ofSymbol hi, toNat_word_ofSymbol hj] at hword
  omega

/-- The number of a symbol is 32 bits wide, whatever stands above it. -/
theorem symbol?_eq_some_iff {v : Value} {id : Nat} :
    v.symbol? = some id ↔ v.word.toNat % 16 = 7 ∧ v.word.toNat / 16 % 2 ^ 32 = id := by
  rw [← isSymbol_iff]
  unfold symbol?
  by_cases hv : v.isSymbol = true
  · simp only [hv, if_true, Option.some.injEq, true_and, UInt64.toNat_mod, UInt64.toNat_div]
    rfl
  · simp [hv]

theorem symbol?_ofSymbol {id : Nat} (hid : id < 2 ^ 32) : (ofSymbol id).symbol? = some id := by
  rw [symbol?_eq_some_iff, toNat_word_ofSymbol hid]
  omega

end Value

theorem Heap.read?_eq_some_iff {h : Heap} {facet : Facet α} {v : Value} {x : α} :
    h.read? facet v = some x ↔ h.read facet v = .ok x := by
  rw [Heap.read_eq_ok_iff, Heap.read?, Option.bind_eq_some_iff]

/-! ### Lists of names -/

/-- A name has one number. -/
theorem index_unique {names : Array String} (hnodup : names.toList.Nodup) {i j : Nat} {name : String}
    (hi : names[i]? = some name) (hj : names[j]? = some name) : i = j := by
  have hlt : i < names.toList.length := (Array.getElem?_eq_some_iff.mp hi).1
  refine (List.getElem?_inj hlt hnodup).mp ?_
  rw [Array.getElem?_toList, Array.getElem?_toList, hi, hj]

/-- The table has one entry for each name: the name's text, with its hash, and the symbol of its
number. -/
structure Table.Lists (t : Table) (names : Array String) (text : Value → Option String) : Prop where
  wellFormed : t.WellFormed
  strategy_eq : t.strategy = .text
  entry : ∀ {id e}, t.get? id = some e → ∃ (i : Nat) (name : String), names[i]? = some name ∧
    text e.key = some name ∧ e.hash = textHash name ∧ e.record = .ofSymbol i
  listed : ∀ {i : Nat} {name : String}, names[i]? = some name →
    ∃ id e, t.get? id = some e ∧ text e.key = some name
  once : ∀ {id e id' e'}, t.get? id = some e → t.get? id' = some e' → text e.key = text e'.key →
    id = id'

namespace Table

variable {t t' : Table} {names : Array String} {text : Value → Option String}

theorem lists_new (text : Value → Option String) : (new .text 0).Lists #[] text where
  wellFormed := wellFormed_new .text 0
  strategy_eq := rfl
  entry h := by simp [get?, new] at h
  listed h := by simp at h
  once h := by simp [get?, new] at h

/-- Only the texts of the keys matter. -/
theorem Lists.congr_text {text' : Value → Option String} (h : t.Lists names text)
    (htext : ∀ id e, t.get? id = some e → text' e.key = text e.key) : t.Lists names text' where
  wellFormed := h.wellFormed
  strategy_eq := h.strategy_eq
  entry {id e} he := by
    obtain ⟨i, name, hi, hkey, hrest⟩ := h.entry he
    exact ⟨i, name, hi, (htext id e he).trans hkey, hrest⟩
  listed {i name} hi := by
    obtain ⟨id, e, he, hkey⟩ := h.listed hi
    exact ⟨id, e, he, (htext id e he).trans hkey⟩
  once {id e id' e'} he he' heq := by
    rw [htext id e he, htext id' e' he'] at heq
    exact h.once he he' heq

/-- The links do not matter as long as the table is well formed. -/
theorem Lists.congr (h : t.Lists names text) (hw : t'.WellFormed) (hs : t'.strategy = t.strategy)
    (hc : ∀ id, t'.content? id = t.content? id) : t'.Lists names text := by
  have hback : ∀ {id e}, t'.get? id = some e → ∃ e₀, t.get? id = some e₀ ∧ e₀.content = e.content :=
    fun he => exists_get?_of_content?_eq (hc _).symm he
  refine ⟨hw, hs.trans h.strategy_eq, fun {id e} he => ?_, fun {i name} hi => ?_,
    fun {id e id' e'} he he' heq => ?_⟩
  · obtain ⟨e₀, he₀, hsame⟩ := hback he
    obtain ⟨i, name, hi, hkey, hhash, hrecord⟩ := h.entry he₀
    simp only [Entry.content, Entry.mk.injEq] at hsame
    exact ⟨i, name, hi, hsame.2.1 ▸ hkey, hsame.1 ▸ hhash, hsame.2.2.1 ▸ hrecord⟩
  · obtain ⟨id, e₀, he₀, hkey⟩ := h.listed hi
    obtain ⟨e, he, hsame⟩ := exists_get?_of_content?_eq (hc id) he₀
    simp only [Entry.content, Entry.mk.injEq] at hsame
    exact ⟨id, e, he, hsame.2.1 ▸ hkey⟩
  · obtain ⟨e₀, he₀, hsame⟩ := hback he
    obtain ⟨e₀', he₀', hsame'⟩ := hback he'
    simp only [Entry.content, Entry.mk.injEq] at hsame hsame'
    exact h.once he₀ he₀' (by rw [hsame.2.1, hsame'.2.1, heq])

theorem Lists.rehash (h : t.Lists names text) {n : Nat} (hn : 0 < n) :
    (t.rehash n).Lists names text := by
  obtain ⟨chains, hc⟩ := h.wellFormed
  have hchange : t.Change (t.rehash n) := .rehash hn
  exact h.congr (hc.rehash hn) hchange.strategy_eq (content?_rehash t n)

/-- A new name gets the next number. -/
theorem Lists.prepend (h : t.Lists names text) {name : String} (hname : name ∉ names) {key : Value}
    (hkey : text key = some name) (habsent : key ≠ .absent) :
    (t.prepend (textHash name) key (.ofSymbol names.size)).Lists (names.push name) text := by
  have hget := get?_prepend h.wellFormed.slotted.vacant (textHash name) key (.ofSymbol names.size)
  have hchange : t.Change (t.prepend (textHash name) key (.ofSymbol names.size)) :=
    .prepend _ habsent _
  have hnew : ∀ {id e}, t.get? id = some e → text e.key ≠ some name := by
    intro id e he hsame
    obtain ⟨i, other, hi, hother, -⟩ := h.entry he
    obtain rfl := Option.some.inj (hother.symm.trans hsame)
    exact hname (Array.mem_of_getElem? hi)
  refine ⟨h.wellFormed.change hchange, hchange.strategy_eq.trans h.strategy_eq,
    fun {id e} he => ?_, fun {i other} hi => ?_, fun {id e id' e'} he he' heq => ?_⟩
  · rw [hget] at he
    split at he
    · obtain rfl := Option.some.inj he
      exact ⟨names.size, name, by simp, hkey, rfl, rfl⟩
    · obtain ⟨i, other, hi, hrest⟩ := h.entry he
      have hlt := (Array.getElem?_eq_some_iff.mp hi).1
      exact ⟨i, other, by rw [Array.getElem?_push_lt hlt, ← Array.getElem?_eq_getElem hlt, hi], hrest⟩
  · rw [Array.getElem?_push] at hi
    split at hi
    · obtain rfl := Option.some.inj hi
      exact ⟨t.nextId, _, (hget t.nextId).trans (if_pos rfl), hkey⟩
    · obtain ⟨id, e, he, hother⟩ := h.listed hi
      refine ⟨id, e, ?_, hother⟩
      rw [hget, if_neg ?_, he]
      rintro rfl
      rw [get?_nextId h.wellFormed.slotted.vacant] at he
      cases he
  · rw [hget] at he he'
    split at he <;> split at he'
    · rename_i hid hid'
      rw [hid, hid']
    · obtain rfl := Option.some.inj he
      exact absurd (heq.symm.trans hkey) (hnew he')
    · obtain rfl := Option.some.inj he'
      exact absurd (heq.trans hkey) (hnew he)
    · exact h.once he he' heq

/-- The same, after the table has grown if it was too small. -/
theorem Lists.enter (h : t.Lists names text) {name : String} (hname : name ∉ names) {key : Value}
    (hkey : text key = some name) (habsent : key ≠ .absent) :
    (t.enter (textHash name) key (.ofSymbol names.size)).Lists (names.push name) text := by
  rw [Table.enter]
  split
  · exact (h.rehash (primeAtLeast_pos _)).prepend hname hkey habsent
  · exact h.prepend hname hkey habsent

/-- The mappings of the table are the names with their numbers, each once. -/
theorem Lists.entries_perm (h : t.Lists names text) (hnodup : names.toList.Nodup)
    (habsent : text .absent = none) : (t.entries.map fun p => (text p.1, p.2)).Perm
      (names.toList.zipIdx.map fun p => (some p.1, .ofSymbol p.2)) := by
  obtain ⟨chains, hc⟩ := h.wellFormed
  have hlive : ∀ {p}, p ∈ t.linked → t.get? p.1 = some p.2 := fun hp => hc.mem_linked.mp hp
  have hall : t.linked.filter (!·.2.isTombstone) = t.linked := by
    refine List.filter_eq_self.mpr fun p hp => ?_
    obtain ⟨i, name, -, hkey, -⟩ := h.entry (hlive hp)
    have hne : p.2.key ≠ .absent := by
      intro heq
      rw [heq, habsent] at hkey
      cases hkey
    simpa [Entry.isTombstone, Value.isAbsent] using hne
  have hlinked : t.linked.Nodup := by
    refine List.Nodup.of_map Prod.fst ?_
    have hids : t.linked.map Prod.fst = idsOf t.bins.size chains := hc.entryIds_eq
    rw [hids]
    exact hc.once
  have hleft : (t.linked.map fun p => (text p.2.key, p.2.record)).Nodup := by
    refine List.Nodup.map_on (fun p hp q hq heq => ?_) hlinked
    have hid := h.once (hlive hp) (hlive hq) (Prod.ext_iff.mp heq).1
    refine Prod.ext hid (Option.some.inj ?_)
    rw [← hlive hp, ← hlive hq, hid]
  have hright : (names.toList.zipIdx.map fun p => (some p.1, Value.ofSymbol p.2)).Nodup := by
    refine List.Nodup.of_map Prod.fst ?_
    rw [List.map_map]
    have hfst : (Prod.fst ∘ fun p : String × Nat => (some p.1, Value.ofSymbol p.2)) =
        some ∘ Prod.fst := rfl
    rw [hfst, ← List.map_map, List.zipIdx_map_fst]
    exact hnodup.map (Option.some_injective _)
  rw [entries, hall, List.map_map]
  refine (List.perm_ext_iff_of_nodup hleft hright).mpr fun q => ?_
  simp only [List.mem_map, List.mem_zipIdx_iff_getElem?, Array.getElem?_toList]
  constructor
  · rintro ⟨p, hp, rfl⟩
    obtain ⟨i, name, hi, hkey, -, hrecord⟩ := h.entry (hlive hp)
    exact ⟨(name, i), hi, by rw [hkey, hrecord]⟩
  · rintro ⟨⟨name, i⟩, hi, rfl⟩
    obtain ⟨id, e, he, hkey⟩ := h.listed hi
    obtain ⟨j, other, hj, hother, -, hrecord⟩ := h.entry he
    obtain rfl := Option.some.inj (hkey.symm.trans hother)
    refine ⟨(id, e), hc.mem_linked.mpr he, ?_⟩
    rw [hkey, hrecord, index_unique hnodup hi hj]

end Table

/-! ### Looking a name up -/

namespace Dictionary

open Effect

variable {m : Machine} {t : Table} {names : Array String}

/-- A search along a chain finds the entry of a name that is on it. -/
theorem findTextFrom_eq (h : t.Lists names (m.heap.read? Facet.text)) (name : String) :
    ∀ {chain : List EntryId} {fuel : Nat} {cursor : Option EntryId}, t.Leads cursor chain →
      chain.length ≤ fuel → ∃ found, findTextFrom t name (textHash name) fuel cursor m = .ok found m ∧
        ((∃ id ∈ chain, ∃ e, t.get? id = some e ∧ m.heap.read? Facet.text e.key = some name ∧
          found = some e.record) ∨
        (found = none ∧ ∀ id ∈ chain, ∀ e, t.get? id = some e →
          m.heap.read? Facet.text e.key ≠ some name))
  | [], fuel, cursor, hleads, _ => by
    obtain rfl : cursor = none := hleads
    refine ⟨none, by rw [findTextFrom]; rfl, Or.inr ⟨rfl, fun id hid => ?_⟩⟩
    cases hid
  | id :: rest, fuel + 1, cursor, hleads, hfuel => by
    obtain ⟨rfl, e, he, hrest⟩ := hleads
    obtain ⟨i, other, -, hother, hhash, -⟩ := h.entry he
    have hread := Heap.read?_eq_some_iff.mp hother
    obtain ⟨o, ho, -⟩ := Heap.read_eq_ok_iff.mp hread
    have hkey : e.isTombstone = false := by
      rw [Entry.isTombstone, Value.isAbsent, beq_eq_false_iff_ne]
      intro habsent
      have hr := (Heap.get?_eq_some_iff.mp ho).1
      rw [habsent] at hr
      cases hr
    by_cases hname : other = name
    · subst hname
      refine ⟨some e.record, ?_, Or.inl ⟨id, List.mem_cons_self, e, he, hother, rfl⟩⟩
      simp [findTextFrom, he, hhash, hkey, bind, EStateM.bind, read_of_ok hread, pure, EStateM.pure]
    · obtain ⟨found, hfound, hcases⟩ := findTextFrom_eq h name hrest (Nat.le_of_succ_le_succ hfuel)
      refine ⟨found, ?_, hcases.imp (fun hhit => ?_) fun hmiss => ⟨hmiss.1, fun j hj e' he' => ?_⟩⟩
      · rw [← hfound]
        by_cases hc : e.hash = textHash name
        · simp [findTextFrom, he, hc, hkey, bind, EStateM.bind, read_of_ok hread, pure, EStateM.pure,
            hname]
        · simp [findTextFrom, he, hc, bind, EStateM.bind, pure, EStateM.pure]
      · obtain ⟨j, hj, hentry⟩ := hhit
        exact ⟨j, List.mem_cons_of_mem _ hj, hentry⟩
      · rcases List.mem_cons.mp hj with rfl | hj
        · obtain rfl := Option.some.inj (he.symm.trans he')
          rw [hother]
          exact fun heq => hname (Option.some.inj heq)
        · exact hmiss.2 j hj e' he'

/-- Looking a text up gives the symbol of its number if it is a name, and nothing otherwise. -/
theorem lookupText_eq {s : Value} (ht : m.heap.read Facet.table s = .ok t)
    (h : t.Lists names (m.heap.read? Facet.text)) (name : String) :
    (∃ i : Nat, names[i]? = some name ∧ lookupText s name m = .ok (some (.ofSymbol i)) m) ∨
      (name ∉ names ∧ lookupText s name m = .ok none m) := by
  obtain ⟨chains, hc⟩ := h.wellFormed
  have hbin := hc.binOf_lt (textHash name)
  have hleads := hc.ends _ hbin
  obtain ⟨found, hfound, hcases⟩ := findTextFrom_eq h name hleads (Nat.le_succ_of_le hleads.length_le)
  have heq : lookupText s name m = .ok found m := by
    rw [lookupText, bind_of_ok (read_of_ok ht), h.strategy_eq]
    exact hfound
  rcases hcases with ⟨id, -, e, he, hkey, rfl⟩ | ⟨rfl, hmiss⟩
  · obtain ⟨i, other, hi, hother, -, hrecord⟩ := h.entry he
    obtain rfl := Option.some.inj (hkey.symm.trans hother)
    exact Or.inl ⟨i, hi, hrecord ▸ heq⟩
  · refine Or.inr ⟨fun hmem => ?_, heq⟩
    obtain ⟨i, hi⟩ := Array.mem_iff_getElem?.mp hmem
    obtain ⟨id, e, he, hkey⟩ := h.listed hi
    obtain ⟨j, other, -, hother, hhash, -⟩ := h.entry he
    obtain rfl := Option.some.inj (hkey.symm.trans hother)
    -- the entry of the name is on the chain that was searched
    obtain ⟨bin, hlt, hid⟩ := Table.mem_idsOf.mp ((hc.linked id).mp ⟨e, he⟩)
    have hhome := hc.home bin hlt id hid e he
    rw [hhash] at hhome
    exact hmiss id (hhome ▸ hid) e he hkey

end Dictionary

end ObjectMachine
