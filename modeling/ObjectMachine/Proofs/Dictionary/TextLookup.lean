import Mathlib.Tactic
import ObjectMachine.Proofs.Dictionary.Hosting
import ObjectMachine.Proofs.Frames.Balance
import ObjectMachine.Proofs.Table.Names

/-! Two ways to look a text up.

A table with text keys can be searched for a text object, and for a text without any object, which is
how names are interned.  The two searches are written apart: one computes the hash from an object and
compares through the keys, passes over identical keys and takes a dead link for the end of the chain;
the other knows the hash, reads every key and takes a dead link for a corruption.  On the chains of a
table that the operations built they stop at the same entry. -/

namespace ObjectMachine

/-! ### Tables that the operations built -/

/-- The tables that operations build from a new table with text keys.  Each operation is performed on
any machine that holds the table at the time, and may end in an error. -/
inductive Dictionary.BuiltTexts : Table → Prop
  | new (bins : Nat) : BuiltTexts (.new .text bins)
  | perform {t t' : Table} {m : Machine} {table : Value} (h : BuiltTexts t) (calls : Calls) (op : Op)
      (ht : m.heap.read Facet.table table = .ok t)
      (ht' : ((op.perform calls.keys table).after m).heap.read Facet.table table = .ok t') :
      BuiltTexts t'

/-- That the table at a reference is there however an effect ends, and went through changes. -/
def Judgement.editing (table : Value) : Judgement :=
  .ofRel (fun m m' => ∀ t, m.heap.read Facet.table table = .ok t →
      ∃ t', t.Changes t' ∧ m'.heap.read Facet.table table = .ok t')
    (fun _ t ht => ⟨t, .refl, ht⟩)
    fun _ _ _ h h' t ht => by
      obtain ⟨t₁, hchanges, ht₁⟩ := h t ht
      obtain ⟨t₂, hchanges', ht₂⟩ := h' t₁ ht₁
      exact ⟨t₂, hchanges.trans hchanges', ht₂⟩

namespace Judgement

open Effect

variable {table : Value}

theorem editing_excuses : (editing table).Excuses := excuses_ofRel

theorem editing_record (e : Event) : (editing table).Meets (record e) := fun _ t ht =>
  ⟨t, .refl, ht⟩

theorem editing_steps : (editing table).Steps table Table.Change := by
  intro m t g ht hchanges s hs
  obtain rfl := Except.ok.inj (hs.symm.trans ht)
  rw [after_of_ok (write_of_ok ht g)]
  exact ⟨g s, hchanges, Heap.read_modify_table ht g⟩

def editingScope (m : Machine) : (editing table).Scope m :=
  scopeOfRel (fun _ _ t ht => ⟨t, .refl, ht⟩) m

end Judgement

namespace Dictionary

open Effect Judgement

variable {table key record : Value} {m : Machine} {t : Table} {hash : UInt64} {calls : Calls}
  {meaning meaning' : KeyMeaning}

theorem perform_congr (ht : m.heap.read Facet.table table = .ok t)
    (h : meaning t.strategy = meaning' t.strategy) (op : Op) :
    op.perform meaning table m = op.perform meaning' table m := by
  cases op with
  | insert key record => exact bind_congr_run (withHash_congr ht h)
  | add key record => exact bind_congr_run (withHash_congr ht h)
  | lookup key => exact bind_congr_run (withHash_congr ht h)
  | delete key => exact bind_congr_run (withHash_congr ht h)
  | deleteSafe key => exact bind_congr_run (withHash_congr ht h)
  | cleanup => rfl

/-- A key that answers with a hash is a text, so it is not the mark of a tombstone. -/
theorem ne_absent_of_answers (h : Keys.text.Answers key hash) : key ≠ .absent := by
  rintro rfl
  obtain ⟨m, m', h⟩ := h
  obtain ⟨text, m₁, htext, -⟩ := exists_of_bind_eq_ok h
  obtain ⟨o, ho, -⟩ := Heap.read_eq_ok_iff.mp (of_read_eq_ok htext).1
  exact absurd (Heap.get?_eq_some_iff.mp ho).1 (by decide)

theorem editing_addHashed (hkey : key ≠ .absent) :
    (editing table).Meets (addHashed table hash key record) :=
  meets_addHashed editing_record editing_steps (fun _ => .rehash (Table.primeAtLeast_pos _))
    fun _ => .prepend hash hkey record

theorem editing_perform (op : Op) : (editing table).Meets (op.perform (fun _ => Keys.text) table) := by
  have hk : ∀ _ : Strategy, (editing table).MeetsKeys Keys.text := fun _ => meetsKeys_text
  cases op with
  | insert key record =>
    refine Meets.bind (fun m => ?_) fun _ => meets_pure _
    exact at_insert (editingScope m) hk (editing_record _) editing_steps (fun _ id => .setRecord id record)
      fun _ hash h => editing_addHashed (ne_absent_of_answers h)
  | add key record =>
    refine Meets.bind (fun m => ?_) fun _ => meets_pure _
    exact at_add (editingScope m) hk fun _ hash h => editing_addHashed (ne_absent_of_answers h)
  | lookup key =>
    exact Meets.bind (fun m => at_lookup (editingScope m) hk (editing_record _)) fun _ => meets_pure _
  | delete key =>
    refine Meets.bind (fun m => ?_) fun _ => meets_pure _
    exact at_delete (editingScope m) hk (editing_record _) editing_steps editing_excuses .unlink
  | deleteSafe key =>
    refine Meets.bind (fun m => ?_) fun _ => meets_pure _
    exact at_deleteSafe (editingScope m) hk (editing_record _) editing_steps .tombstone
  | cleanup =>
    exact (meets_cleanupSafe editing_steps editing_excuses .unlink).bind fun _ => meets_pure _

/-- Whatever an operation on a table with text keys runs into, it changes the table as operations
do. -/
theorem exists_changes_perform (ht : m.heap.read Facet.table table = .ok t) (hs : t.strategy = .text)
    (op : Op) : ∃ t', t.Changes t' ∧
      ((op.perform calls.keys table).after m).heap.read Facet.table table = .ok t' := by
  have htexts : op.perform calls.keys table m = op.perform (fun _ => Keys.text) table m :=
    perform_congr ht (by rw [hs]; rfl) op
  rw [after_congr htexts]
  exact editing_perform op m t ht

/-- Tables that the operations built are well formed. -/
theorem BuiltTexts.wellFormed (h : BuiltTexts t) : t.WellFormed ∧ t.strategy = .text := by
  induction h with
  | new bins => exact ⟨Table.wellFormed_new .text bins, rfl⟩
  | @perform t t' m table _ calls op ht ht' ih =>
    obtain ⟨t'', hchanges, hread⟩ := exists_changes_perform ht ih.2 op
    obtain rfl := Except.ok.inj (ht'.symm.trans hread)
    exact ⟨ih.1.changes hchanges, hchanges.strategy_eq.trans ih.2⟩

/-- Operations performed one after the other on one machine build tables, however they end. -/
theorem BuiltTexts.performAll (calls : Calls) : ∀ (ops : List Op) {m : Machine} {t : Table},
    BuiltTexts t → m.heap.read Facet.table table = .ok t → ∃ t', BuiltTexts t' ∧
      (ops.foldl (fun m op => (op.perform calls.keys table).after m) m).heap.read Facet.table table =
        .ok t'
  | [], m, t, h, ht => ⟨t, h, ht⟩
  | op :: ops, m, t, h, ht => by
    obtain ⟨t₁, -, ht₁⟩ := exists_changes_perform ht h.wellFormed.2 op
    exact BuiltTexts.performAll calls ops (h.perform calls op ht ht₁) ht₁

/-! ### The two searches -/

/-- Whether an entry has a text for its key. -/
def spells (h : Heap) (text : String) (e : Entry) : Bool :=
  e.hash == textHash text && !e.isTombstone && h.read? Facet.text e.key == some text

/-- The first entry of a text on a chain. -/
def firstSpelling (h : Heap) (t : Table) (text : String) (chain : List EntryId) : Option EntryId :=
  chain.find? fun id => (t.get? id).any (spells h text)

/-- Whether every key of a table is a text of the heap. -/
def HasTexts (h : Heap) (t : Table) : Prop :=
  ∀ id e, t.get? id = some e → e.isTombstone = false → ∃ text, h.read Facet.text e.key = .ok text

variable {text : String}

theorem firstSpelling_cons {id : EntryId} {e : Entry} {chain : List EntryId} {h : Heap}
    (he : t.get? id = some e) : firstSpelling h t text (id :: chain) =
      if spells h text e then some id else firstSpelling h t text chain := by
  rw [firstSpelling, List.find?_cons, he, Option.any_some]
  cases spells h text e with
  | true => rfl
  | false => rfl

/-- Reading the key of an entry tells whether it is the one looked for. -/
theorem spells_eq {h : Heap} (text : String) (hkeys : HasTexts h t) {id : EntryId} {e : Entry}
    (he : t.get? id = some e) : spells h text e = false ∧
        (e.hash == textHash text && !e.isTombstone) = false ∨
      ∃ other, h.read Facet.text e.key = .ok other ∧ spells h text e = (other == text) ∧
        (e.hash == textHash text && !e.isTombstone) = true := by
  cases hc : e.hash == textHash text && !e.isTombstone with
  | false => exact Or.inl ⟨by rw [spells, hc, Bool.false_and], rfl⟩
  | true =>
    have hlive : e.isTombstone = false := by simpa using (Bool.and_eq_true_iff.mp hc).2
    obtain ⟨other, hother⟩ := hkeys id e he hlive
    refine Or.inr ⟨other, hother, ?_, rfl⟩
    rw [spells, hc, Bool.true_and, Heap.read?_eq_some_iff.mpr hother, Option.some_beq_some]

/-- The search for a bare text reads the record of the first entry of the text. -/
theorem findTextFrom_eq_firstSpelling (hkeys : HasTexts m.heap t) :
    ∀ {chain : List EntryId} {fuel : Nat} {cursor : Option EntryId}, t.Leads cursor chain →
      chain.length ≤ fuel → findTextFrom t text (textHash text) fuel cursor m =
        .ok (((firstSpelling m.heap t text chain).bind t.get?).map (·.record)) m
  | [], fuel, cursor, hleads, _ => by
    obtain rfl : cursor = none := hleads
    rw [findTextFrom]
    rfl
  | id :: rest, fuel + 1, cursor, hleads, hfuel => by
    obtain ⟨rfl, e, he, hrest⟩ := hleads
    have ih := findTextFrom_eq_firstSpelling hkeys hrest (Nat.le_of_succ_le_succ hfuel)
    rw [findTextFrom, firstSpelling_cons he]
    simp only [he]
    rcases spells_eq text hkeys he with ⟨hspells, hc⟩ | ⟨other, hother, hspells, hc⟩
    · simp only [hspells, hc, Bool.false_eq_true, if_false]
      exact ih
    · simp only [hspells, hc, if_true, pure_bind]
      rw [bind_of_ok (read_of_ok hother)]
      cases other == text with
      | true => simp only [if_true, Option.bind_some, he]; rfl
      | false => exact ih

/-- The search for a text object stops at the first entry of its text. -/
theorem findFrom_eq_firstSpelling (ht : m.heap.read Facet.table table = .ok t)
    (hkeys : HasTexts m.heap t) (hkey : m.heap.read Facet.text key = .ok text) :
    ∀ {chain : List EntryId} {fuel : Nat} {cursor : Option EntryId}, t.Leads cursor chain →
      chain.length ≤ fuel → findFrom Keys.text table key (textHash text) fuel cursor m =
        .ok (firstSpelling m.heap t text chain) m
  | [], fuel, cursor, hleads, _ => by
    obtain rfl : cursor = none := hleads
    rw [findFrom]
    rfl
  | id :: rest, fuel + 1, cursor, hleads, hfuel => by
    obtain ⟨rfl, e, he, hrest⟩ := hleads
    have ih := findFrom_eq_firstSpelling ht hkeys hkey hrest (Nat.le_of_succ_le_succ hfuel)
    have hmatch : isMatch Keys.text key (textHash text) e m = .ok (spells m.heap text e) m := by
      rw [isMatch, show e.key.isAbsent = e.isTombstone from rfl]
      rcases spells_eq text hkeys he with ⟨hspells, hc⟩ | ⟨other, hother, hspells, hc⟩
      · rw [hspells, hc]
        rfl
      · rw [hspells, hc, if_pos rfl]
        by_cases hsame : e.key = key
        · -- the very object looked for
          rw [hsame] at hother
          obtain rfl := Except.ok.inj (hkey.symm.trans hother)
          rw [if_pos (beq_iff_eq.mpr hsame), beq_self_eq_true]
          rfl
        · rw [if_neg (by simpa using hsame), Keys.text]
          simp only [beq_iff_eq, Ne.symm hsame, if_false]
          rw [bind_of_ok (read_of_ok hkey), bind_of_ok (read_of_ok hother), BEq.comm]
          rfl
    rw [findFrom, bind_of_ok (read_of_ok ht), firstSpelling_cons he]
    simp only [he]
    rw [bind_of_ok hmatch]
    cases spells m.heap text e with
    | true => rfl
    | false => exact ih

/-- Looking a text object up reads the record of the first entry of its text and changes nothing. -/
theorem lookup_eq_firstSpelling (ht : m.heap.read Facet.table table = .ok t) (hs : t.strategy = .text)
    {chains : Nat → List EntryId} (hc : t.Chained chains) (hkeys : HasTexts m.heap t)
    (hkey : m.heap.read Facet.text key = .ok text) : lookup calls.keys table key m =
      .ok (((firstSpelling m.heap t text (chains (t.binOf (textHash text)))).bind t.get?).map
        (·.record)) m := by
  let m₁ : Machine := { m with handles := m.handles ++ [table, key].toArray }
  have ht₁ : m₁.heap.read Facet.table table = .ok t := ht
  have hpin : pinAll [table, key] m = .ok () m₁ := pinAll_eq _ m
  have hhash : Keys.text.hash key m₁ = .ok (textHash text) m₁ :=
    bind_of_ok (read_of_ok (show m₁.heap.read Facet.text key = .ok text from hkey))
  have hleads := hc.ends _ (hc.binOf_lt (textHash text))
  have hlength := hleads.length_le
  have hfind : find Keys.text table key (textHash text) m₁ =
      .ok (firstSpelling m.heap t text (chains (t.binOf (textHash text)))) m₁ := by
    rw [find, bind_of_ok (read_of_ok ht₁)]
    exact findFrom_eq_firstSpelling ht₁ hkeys hkey hleads (by omega)
  have hkeysOf : calls.keys t.strategy = Keys.text := by rw [hs]; rfl
  rw [lookup, withHandles_eq, bind_of_ok hpin, keysOf_bind, bind_of_ok (read_of_ok ht₁), hkeysOf,
    bind_of_ok hhash, bind_of_ok hfind]
  have hback : { m₁ with handles := m₁.handles.shrink m.handles.size } = m := by simp [m₁]
  cases firstSpelling m.heap t text (chains (t.binOf (textHash text))) with
  | none => exact congrArg (EStateM.Result.ok none) hback
  | some id =>
    dsimp only
    rw [bind_of_ok (read_of_ok ht₁)]
    exact congrArg (EStateM.Result.ok _) hback

/-- Looking a bare text up does the same. -/
theorem lookupText_eq_firstSpelling (ht : m.heap.read Facet.table table = .ok t)
    (hs : t.strategy = .text) {chains : Nat → List EntryId} (hc : t.Chained chains)
    (hkeys : HasTexts m.heap t) (text : String) : lookupText table text m =
      .ok (((firstSpelling m.heap t text (chains (t.binOf (textHash text)))).bind t.get?).map
        (·.record)) m := by
  have hleads := hc.ends _ (hc.binOf_lt (textHash text))
  rw [lookupText, bind_of_ok (read_of_ok ht), hs]
  exact findTextFrom_eq_firstSpelling hkeys hleads (Nat.le_succ_of_le hleads.length_le)

/-- Let a table be built from a new one with text keys by insertions, additions, lookups, removals,
removals with tombstones and cleanups, and let its keys be texts of the machine.  Then looking up any
text succeeds, changes nothing, and gives what looking up any object of that text gives, which changes
nothing either. -/
theorem text_lookups_agree {t : Table} (hbuilt : BuiltTexts t) (m : Machine) (table : Value)
    (ht : m.heap.read Facet.table table = .ok t)
    (hkeys : ∀ p ∈ t.entries, ∃ text, m.heap.read Facet.text p.1 = .ok text) (text : String) :
    ∃ found, lookupText table text m = .ok found m ∧ ∀ (calls : Calls) (key : Value),
      m.heap.read Facet.text key = .ok text → lookup calls.keys table key m = .ok found m := by
  obtain ⟨⟨chains, hc⟩, hs⟩ := hbuilt.wellFormed
  have htexts : HasTexts m.heap t := by
    intro id e he hlive
    refine hkeys (e.key, e.record) (List.mem_map.mpr ⟨(id, e), List.mem_filter.mpr ⟨?_, ?_⟩, rfl⟩)
    · exact hc.mem_linked.mpr he
    · rw [hlive]; rfl
  exact ⟨_, lookupText_eq_firstSpelling ht hs hc htexts text,
    fun calls key hkey => lookup_eq_firstSpelling ht hs hc htexts hkey⟩

/-- A text that was removed with a tombstone and added again is found behind the tombstone. -/
theorem text_lookups_agree_past_tombstone :
    let first : Value := .ofSlot 0 0
    let second : Value := .ofSlot 1 0
    let table : Value := .ofSlot 2 0
    let ops : List Op := [.insert first (.ofNat 1), .add second (.ofNat 2), .deleteSafe second]
    let m := ops.foldl (fun m op => (op.perform Calls.exhausted.keys table).after m)
      ((newTable .text 0).after twoTexts)
    (∃ t, m.heap.read Facet.table table = .ok t ∧ t.tombstones.length = 1) ∧
      lookupText table "k" m = .ok (some (.ofNat 1)) m ∧
      lookup Calls.exhausted.keys table second m = .ok (some (.ofNat 1)) m := by
  intro first second table ops m
  have hstart : ((newTable .text 0).after twoTexts).heap.read Facet.table table =
      .ok (.new .text 0) := by decide
  obtain ⟨t, hbuilt, ht⟩ := BuiltTexts.performAll Calls.exhausted ops (.new 0) hstart
  have hdata : (m.heap.read Facet.table table).map (fun t => (t.entries, t.tombstones.length)) =
      .ok ([(first, .ofNat 1)], 1) := by decide
  have hsame := congrArg (Except.map fun t => (t.entries, t.tombstones.length)) ht
  obtain ⟨hentries, htombstones⟩ := Prod.mk.inj (Except.ok.inj (hsame.symm.trans hdata))
  have hkeys : ∀ p ∈ t.entries, ∃ text, m.heap.read Facet.text p.1 = .ok text := by
    intro p hp
    rw [hentries, List.mem_singleton] at hp
    exact ⟨"k", by rw [hp]; decide⟩
  obtain ⟨found, hbare, hobject⟩ := text_lookups_agree hbuilt m table ht hkeys "k"
  have hsecond := hobject Calls.exhausted second (by decide)
  have hone : found = some (.ofNat 1) := by
    have heval : EStateM.run' (lookupText table "k") m = some (some (.ofNat 1)) := by decide
    delta EStateM.run' EStateM.run at heval
    rw [hbare] at heval
    exact Option.some.inj heval
  exact ⟨⟨t, ht, htombstones⟩, hone ▸ hbare, hone ▸ hsecond⟩

end Dictionary

end ObjectMachine
