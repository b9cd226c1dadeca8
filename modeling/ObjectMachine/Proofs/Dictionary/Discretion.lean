import Mathlib.Tactic
import ObjectMachine.Proofs.Machine.Discretion

/-! Operations on tables leave the table of symbols to the machine.

No change of a table brings in a value beside the key and the record it is given, so tables other than
that of the symbols may be changed at will.  Symbols, globals, classes, methods and attributes touch the
table of symbols through interning only. -/

namespace ObjectMachine

open Effect

/-! ### What changes of a table bring in -/

namespace Table

variable {t t' : Table} {s : Value}

theorem get?_store_cases {e e' : Entry} {j : EntryId} (h : (t.store e).get? j = some e') :
    t.get? j = some e' ∨ e' = e := by
  rw [get?_eq_some_iff] at h
  unfold store at h
  split at h
  · rw [Array.getElem?_modify] at h
    split at h
    · obtain ⟨slot, -, hslot⟩ := Option.map_eq_some_iff.mp h
      exact Or.inr (Option.some.inj (EntrySlot.mk.inj hslot).2).symm
    · exact Or.inl (get?_eq_some_iff.mpr h)
  · rw [Array.getElem?_push] at h
    split at h
    · exact Or.inr (Option.some.inj (EntrySlot.mk.inj (Option.some.inj h)).2).symm
    · exact Or.inl (get?_eq_some_iff.mpr h)

theorem avoids_prepend (ht : (Body.table t).Avoids s) (hash : UInt64) {key record : Value}
    (hkey : key ≠ s) (hrecord : record ≠ s) : (Body.table (t.prepend hash key record)).Avoids s :=
  Body.avoids_table fun id e he => by
    have hstore : (t.store ⟨hash, key, record, t.binHead (t.binOf hash)⟩).get? id = some e := he
    rcases get?_store_cases hstore with he | rfl
    · exact ht.entry he
    · exact ⟨hkey, hrecord⟩

theorem avoids_rehash (ht : (Body.table t).Avoids s) (n : Nat) :
    (Body.table (t.rehash n)).Avoids s :=
  ⟨fun hs => ht.edges (mem_edges_rehash.mp hs), nofun⟩

theorem avoids_adjust (ht : (Body.table t).Avoids s) (id : EntryId) {f : Entry → Entry}
    (hf : ∀ e, e.key ≠ s ∧ e.record ≠ s → (f e).key ≠ s ∧ (f e).record ≠ s) :
    (Body.table (t.adjust id f)).Avoids s :=
  Body.avoids_table fun j e he => by
    rw [get?_adjust] at he
    split at he
    · obtain ⟨e₀, he₀, rfl⟩ := Option.map_eq_some_iff.mp he
      exact hf e₀ (ht.entry he₀)
    · exact ht.entry he

theorem avoids_unlink (ht : (Body.table t).Avoids s) {id : EntryId} {e : Entry}
    (h : t.unlink id = .ok (e, t')) : (Body.table t').Avoids s ∧ e.record ≠ s := by
  obtain ⟨he, before, -, rfl⟩ := unlink_eq_ok_iff.mp h
  refine ⟨?_, (ht.entry he).2⟩
  have hbypass : (Body.table (t.bypass (t.binOf e.hash) before e.next)).Avoids s := by
    cases before with
    | none => exact ht.of_get? fun he => he
    | some p => exact avoids_adjust ht p fun _ h => h
  refine hbypass.of_get? fun {j f} hf => ?_
  have hrelease : ((t.bypass (t.binOf e.hash) before e.next).release id).get? j = some f := hf
  rw [get?_eq_some_iff] at hrelease ⊢
  simp only [release, Array.getElem?_modify] at hrelease
  split at hrelease
  · obtain ⟨slot, -, hslot⟩ := Option.map_eq_some_iff.mp hrelease
    cases (EntrySlot.mk.inj hslot).2
  · exact hrelease

theorem avoids_unlinkAll : ∀ {t : Table} (ids : List EntryId), (Body.table t).Avoids s →
    (Body.table (t.unlinkAll ids).2).Avoids s
  | _, [], ht => ht
  | t, id :: ids, ht => by
    rw [unlinkAll]
    cases h : t.unlink id with
    | error how => exact ht
    | ok p => exact avoids_unlinkAll ids (avoids_unlink ht h).1

theorem avoids_tombstone (ht : (Body.table t).Avoids s) (hs : s.isRef = true) {id : EntryId}
    {e : Entry} (h : t.tombstone id = some (e, t')) : (Body.table t').Avoids s ∧ e.record ≠ s := by
  obtain ⟨he, -, rfl⟩ := tombstone_eq_some_iff.mp h
  have hadjust := avoids_adjust ht id (f := fun e => { e with key := .absent, record := .absent })
    fun _ _ => ⟨absent_ne hs, absent_ne hs⟩
  exact ⟨hadjust.of_get? fun he => he, (ht.entry he).2⟩

end Table

/-! ### Keys -/

/-- Keys that leave the table of symbols to the machine. -/
structure DiscreetKeys (s : Value) (quiet : Prop) (keys : Keys) : Prop where
  hash : ∀ {pre : Prop} {key : Value}, (pre → key ≠ s) →
    Discreet s quiet pre (keys.hash key) fun _ => True
  equal : ∀ {pre : Prop} {key other : Value}, (pre → key ≠ s) → (pre → other ≠ s) →
    Discreet s quiet pre (keys.equal key other) fun _ => True

/-- Messages and stored programs that leave the table of symbols to the machine. -/
structure DiscreetCalls (s : Value) (calls : Calls) : Prop where
  send : ∀ {pre : Prop} {receiver : Value} (name : String) {args : List Value},
    (pre → receiver ≠ s) → (pre → s ∉ args) →
      Discreet s False pre (calls.send receiver name args) fun v => v ≠ s
  run : DiscreetRun s False calls.run

section Keys

variable {s : Value} {quiet : Prop}

theorem discreetKeys_symbol : DiscreetKeys s quiet Keys.symbol :=
  ⟨fun _ => discreet_skip, fun _ _ => discreet_skip⟩

theorem discreetKeys_residue (modulus : Nat) : DiscreetKeys s quiet (Keys.residue modulus) :=
  ⟨fun _ => discreet_skip, fun _ _ => discreet_skip⟩

theorem discreetKeys_text : DiscreetKeys s quiet Keys.text := by
  refine ⟨fun _ => (discreet_look _ _).andThen fun _ => discreet_skip, fun _ _ => ?_⟩
  simp only [Keys.text]
  split
  · exact discreet_skip
  · exact (discreet_look _ _).andThen fun _ => (discreet_look _ _).andThen fun _ => discreet_skip

theorem DiscreetCalls.keys {calls : Calls} (h : DiscreetCalls s calls) (strategy : Strategy) :
    DiscreetKeys s False (calls.keys strategy) := by
  cases strategy with
  | symbol => exact discreetKeys_symbol
  | text => exact discreetKeys_text
  | residue modulus => exact discreetKeys_residue modulus
  | value =>
    refine ⟨fun hkey => (h.send "hash" hkey fun _ => List.not_mem_nil).andThen fun v => ?_,
      fun hkey hother => ?_⟩
    · cases v.fixnum? with
      | some n => exact discreet_skip
      | none => exact discreet_raiseError _ _
    · refine (h.send "==" hkey fun hp hmem => ?_).outcome.andThen fun r => ?_
      · exact hother hp (List.mem_singleton.mp hmem).symm
      · rcases r with (exc | f) | v
        · exact (discreet_discardException _ _).andThen fun _ => discreet_skip
        · exact discreet_fault f
        · exact discreet_skip

theorem DiscreetCalls.display {calls : Calls} (h : DiscreetCalls s calls) {pre : Prop} {v : Value}
    (hv : pre → v ≠ s) : Discreet s False pre (calls.display v) fun _ => True := by
  refine (h.send "to_s" hv fun _ => List.not_mem_nil).andThen fun text => Discreet.ask_bind fun found => ?_
  cases found with
  | some t => exact discreet_skip
  | none => exact discreet_raiseError _ _

end Keys

/-! ### Operations on tables -/

namespace Dictionary

variable {s : Value} {quiet pre : Prop} {meaning : KeyMeaning} {keys : Keys} {table key record : Value}

theorem discreet_isMatch (hk : DiscreetKeys s quiet keys) (hkey : pre → key ≠ s) (hash : UInt64)
    {e : Entry} (he : pre → e.key ≠ s) :
    Discreet s quiet pre (isMatch keys key hash e) fun _ => True := by
  unfold isMatch
  split
  · split
    · exact discreet_skip
    · exact hk.equal hkey he
  · exact discreet_skip

theorem discreet_findFrom (hk : DiscreetKeys s quiet keys) (hash : UInt64) :
    ∀ {pre : Prop} (_ : pre → key ≠ s) (fuel : Nat) (cursor : Option EntryId),
      Discreet s quiet pre (findFrom keys table key hash fuel cursor) fun _ => True
  | _, _, _, none => by
    rw [findFrom]
    exact discreet_skip
  | _, _, 0, some _ => discreet_fault _
  | _, hkey, fuel + 1, some id => by
    refine (discreet_read Facet.lawful_table table).bind fun t => ?_
    cases he : t.get? id with
    | none => exact (discreet_record _).andThen fun _ => discreet_skip
    | some e =>
      refine (discreet_isMatch hk (fun h => hkey h.1) hash fun h =>
        (h.2.entry he).1).andThen fun hit => ?_
      cases hit with
      | true => exact discreet_skip
      | false => exact discreet_findFrom hk hash (fun h => hkey h.1) fuel e.next

theorem discreet_find (hk : DiscreetKeys s quiet keys) (hkey : pre → key ≠ s) (hash : UInt64) :
    Discreet s quiet pre (find keys table key hash) fun _ => True :=
  (discreet_look _ _).andThen fun _ => discreet_findFrom hk hash hkey _ _

/-- Writing to another table. -/
theorem discreet_writeTable (htable : pre → table ≠ s) {g : Table → Table}
    (hg : pre → ∀ t, (Body.table t).Avoids s → (Body.table (g t)).Avoids s) :
    Discreet s quiet pre (write Facet.table table g) fun _ => True :=
  discreet_write Facet.lawful_table nofun htable hg

theorem discreet_addHashed (htable : pre → table ≠ s) (hkey : pre → key ≠ s)
    (hrecord : pre → record ≠ s) (hash : UInt64) :
    Discreet s quiet pre (addHashed table hash key record) fun _ => True := by
  have hprepend : Discreet s quiet pre (write Facet.table table (·.prepend hash key record))
      fun _ => True :=
    discreet_writeTable htable fun hp t ht => Table.avoids_prepend ht hash (hkey hp) (hrecord hp)
  refine (discreet_look _ _).andThen fun t => ?_
  dsimp only
  split
  · refine (discreet_writeTable htable fun _ t ht => Table.avoids_rehash ht _).andThen fun _ => ?_
    exact (discreet_record _).andThen fun _ => hprepend
  · exact hprepend

/-- What the operations on one key have in common. -/
theorem discreet_withHash (hk : ∀ strategy, DiscreetKeys s quiet (meaning strategy))
    {pinned : List Value} (hpinned : pre → s ∉ pinned) (hkey : pre → key ≠ s)
    {k : Keys → UInt64 → Effect β} {post : β → Prop}
    (hrest : ∀ strategy hash, Discreet s quiet pre (k (meaning strategy) hash) post) :
    Discreet s quiet pre (withHandles do
      pinAll pinned
      let keys ← keysOf meaning table
      let hash ← keys.hash key
      k keys hash) post := by
  refine Discreet.withHandles ((discreet_pinAll hpinned).andThen fun _ => ?_)
  rw [keysOf_bind]
  refine (discreet_look _ _).andThen fun t => ?_
  exact ((hk t.strategy).hash hkey).andThen fun hash => hrest t.strategy hash

theorem discreet_lookup (hk : ∀ strategy, DiscreetKeys s quiet (meaning strategy))
    (htable : pre → table ≠ s) (hkey : pre → key ≠ s) :
    Discreet s quiet pre (lookup meaning table key) fun found => ∀ v, found = some v → v ≠ s := by
  refine discreet_withHash hk (fun hp => ?_) hkey fun strategy hash => ?_
  · simp [(htable hp).symm, (hkey hp).symm]
  refine (discreet_find (hk strategy) hkey hash).andThen fun found => ?_
  cases found with
  | none => exact discreet_pure fun _ v hv => by cases hv
  | some id =>
    refine (discreet_read Facet.lawful_table table).map fun t _ ht v hv => ?_
    obtain ⟨e, he, rfl⟩ := Option.map_eq_some_iff.mp hv
    exact (ht.entry he).2

theorem discreet_insert (hk : ∀ strategy, DiscreetKeys s quiet (meaning strategy))
    (htable : pre → table ≠ s) (hkey : pre → key ≠ s) (hrecord : pre → record ≠ s) :
    Discreet s quiet pre (insert meaning table key record) fun _ => True := by
  refine discreet_withHash hk (fun hp => ?_) hkey fun strategy hash => ?_
  · simp [(htable hp).symm, (hkey hp).symm, (hrecord hp).symm]
  refine (discreet_find (hk strategy) hkey hash).andThen fun found =>
    (discreet_look _ _).andThen fun t => ?_
  cases found.filter fun id => (t.get? id).isSome with
  | some id =>
    refine (discreet_writeTable htable fun hp t ht => ⟨fun hs => ?_, nofun⟩).andThen
      fun _ => discreet_skip
    rcases Table.mem_edges_setRecord hs with hs | hs
    · exact ht.edges hs
    · exact hrecord hp hs.symm
  | none => exact (discreet_addHashed htable hkey hrecord hash).andThen fun _ => discreet_skip

theorem discreet_add (hk : ∀ strategy, DiscreetKeys s quiet (meaning strategy))
    (htable : pre → table ≠ s) (hkey : pre → key ≠ s) (hrecord : pre → record ≠ s) :
    Discreet s quiet pre (add meaning table key record) fun _ => True := by
  refine discreet_withHash hk (fun hp => ?_) hkey fun strategy hash =>
    discreet_addHashed htable hkey hrecord hash
  simp [(htable hp).symm, (hkey hp).symm, (hrecord hp).symm]

theorem discreet_delete (hk : ∀ strategy, DiscreetKeys s quiet (meaning strategy))
    (htable : pre → table ≠ s) (hkey : pre → key ≠ s) :
    Discreet s quiet pre (delete meaning table key) fun removed => ∀ v, removed = some v → v ≠ s := by
  refine discreet_withHash hk (fun hp => ?_) hkey fun strategy hash => ?_
  · simp [(htable hp).symm, (hkey hp).symm]
  refine (discreet_find (hk strategy) hkey hash).andThen fun found => ?_
  cases found with
  | none => exact discreet_pure fun _ v hv => by cases hv
  | some id =>
    refine (discreet_read Facet.lawful_table table).bind fun t => ?_
    cases h : t.unlink id with
    | error how => exact discreet_fault _
    | ok p =>
      obtain ⟨e, t'⟩ := p
      refine (discreet_writeTable (fun h => htable h.1) fun hp _ _ =>
        (Table.avoids_unlink hp.2 h).1).andThen fun _ => discreet_pure fun hp v hv => ?_
      obtain rfl := Option.some.inj hv
      exact (Table.avoids_unlink hp.2 h).2

theorem discreet_deleteSafe (hk : ∀ strategy, DiscreetKeys s quiet (meaning strategy))
    (htable : pre → table ≠ s) (hkey : pre → key ≠ s) :
    Discreet s quiet pre (deleteSafe meaning table key) fun removed =>
      ∀ v, removed = some v → v ≠ s := by
  refine Discreet.knowing (discreet_withHash hk (fun hp => ?_) (fun hp => hkey hp.1)
    fun strategy hash => ?_)
  · simp [(htable hp.1).symm, (hkey hp.1).symm]
  refine (discreet_find (hk strategy) (fun hp => hkey hp.1) hash).andThen fun found => ?_
  cases found with
  | none => exact discreet_pure fun _ v hv => by cases hv
  | some id =>
    refine (discreet_read Facet.lawful_table table).bind fun t => ?_
    cases h : t.tombstone id with
    | none => exact discreet_pure fun _ v hv => by cases hv
    | some p =>
      obtain ⟨e, t'⟩ := p
      refine (discreet_writeTable (fun h => htable h.1.1) fun hp _ _ =>
        (Table.avoids_tombstone hp.2 hp.1.2 h).1).andThen fun _ => discreet_pure fun hp v hv => ?_
      obtain rfl := Option.some.inj hv
      exact (Table.avoids_tombstone hp.2 hp.1.2 h).2

theorem discreet_cleanupSafe (htable : pre → table ≠ s) :
    Discreet s quiet pre (cleanupSafe table) fun _ => True := by
  refine (discreet_read Facet.lawful_table table).bind fun t => ?_
  refine (discreet_writeTable (fun h => htable h.1) fun hp _ _ =>
    Table.avoids_unlinkAll t.tombstones hp.2).andThen fun _ => ?_
  split
  · exact discreet_fault _
  · exact discreet_skip

theorem discreet_findTextFrom {t : Table} {text : String} {hash : UInt64}
    (ht : pre → (Body.table t).Avoids s) : ∀ (fuel : Nat) (cursor : Option EntryId),
      Discreet s quiet pre (findTextFrom t text hash fuel cursor) fun found =>
        ∀ v, found = some v → v ≠ s
  | _, none => by
    rw [findTextFrom]
    exact discreet_pure fun _ v hv => by cases hv
  | 0, some _ => discreet_fault _
  | fuel + 1, some id => by
    rw [findTextFrom]
    cases he : t.get? id with
    | none => exact discreet_fault _
    | some e =>
      have hgo : ∀ hit : Bool, Discreet s quiet pre
          (if hit = true then pure (some e.record) else findTextFrom t text hash fuel e.next)
          fun found => ∀ v, found = some v → v ≠ s := by
        intro hit
        cases hit with
        | true =>
          refine discreet_pure fun hp v hv => ?_
          obtain rfl := Option.some.inj hv
          exact ((ht hp).entry he).2
        | false => exact discreet_findTextFrom ht fuel e.next
      dsimp only
      split
      · exact (discreet_look _ _).andThen fun _ => discreet_skip.andThen hgo
      · exact hgo false

theorem discreet_lookupText (table : Value) (text : String) :
    Discreet s quiet pre (lookupText table text) fun found => ∀ v, found = some v → v ≠ s := by
  refine (discreet_read Facet.lawful_table table).bind fun t => ?_
  dsimp only
  split
  · exact discreet_findTextFrom And.right _ _
  · exact discreet_fault _

theorem discreet_copy (table : Value) : Discreet s quiet pre (copy table) fun v => v ≠ s :=
  (discreet_object table).bind fun _ => (discreet_read Facet.lawful_table table).bind fun _ =>
    discreet_alloc (fun h => h.1.2.cls) And.right

theorem discreet_dump (table : Value) : Discreet s quiet pre (dump table) fun _ => True :=
  (discreet_look _ _).andThen fun _ => (discreet_record _).andThen fun _ => discreet_skip

theorem discreet_afterVisit (htable : pre → table ≠ s) (id : EntryId) (action : Visit) :
    Discreet s quiet pre (afterVisit table id action) fun _ => True := by
  refine (discreet_read Facet.lawful_table table).bind fun t => ?_
  cases t.get? id with
  | none => exact discreet_skip
  | some current =>
    cases action with
    | proceed => exact discreet_skip
    | stop => exact discreet_skip
    | delete =>
      dsimp only
      cases h : t.unlink id with
      | error how => exact discreet_fault _
      | ok p =>
        obtain ⟨e, t'⟩ := p
        exact (discreet_writeTable (fun h => htable h.1) fun hp _ _ =>
          (Table.avoids_unlink hp.2 h).1).andThen fun _ => discreet_skip
    | check =>
      dsimp only
      split <;> exact discreet_skip

theorem discreet_visitFrom {visitor : Value → Value → Effect Visit} (htable : pre → table ≠ s)
    (hv : ∀ key record, Discreet s quiet (pre ∧ key ≠ s ∧ record ≠ s) (visitor key record)
      fun _ => True) (handles : VisitHandles) : ∀ (fuel bin : Nat) (cursor : Option EntryId),
      Discreet s quiet pre (visitFrom table handles visitor fuel bin cursor) fun _ => True
  | 0, _, _ => discreet_fault _
  | fuel + 1, bin, none => by
    refine (discreet_look _ _).andThen fun t => ?_
    split
    · exact discreet_visitFrom htable hv handles fuel (bin + 1) _
    · exact discreet_skip
  | fuel + 1, bin, some id => by
    refine (discreet_read Facet.lawful_table table).bind fun t => ?_
    cases he : t.get? id with
    | none => exact discreet_skip
    | some e =>
      dsimp only
      split
      · exact (discreet_visitFrom htable hv handles fuel bin e.next).weaken And.left
      · refine (discreet_setHandle _ fun h => (h.2.entry he).1).andThen fun _ =>
          (discreet_setHandle _ fun h => (h.2.entry he).2).andThen fun _ => ?_
        refine ((hv e.key e.record).weaken fun h => ⟨h.1, h.2.entry he⟩).andThen fun action => ?_
        refine (discreet_afterVisit (fun h => htable h.1) id action).andThen fun next => ?_
        cases next with
        | inl next => exact (discreet_visitFrom htable hv handles fuel bin next).weaken And.left
        | inr answer => exact discreet_skip

theorem discreet_forEach {visitor : Value → Value → Effect Visit} (htable : pre → table ≠ s)
    (hv : ∀ key record, Discreet s quiet (pre ∧ key ≠ s ∧ record ≠ s) (visitor key record)
      fun _ => True) (patience : Nat) :
    Discreet s quiet pre (forEach patience table visitor) fun _ => True := by
  have hnil : Discreet s quiet pre (pin .nil) fun _ => True :=
    Discreet.knowing (discreet_pin fun h => nil_ne h.2)
  refine Discreet.withHandles ((discreet_pin htable).andThen fun _ => hnil.andThen fun key =>
    hnil.andThen fun record => (discreet_look _ _).andThen fun t => ?_)
  exact discreet_visitFrom htable hv _ _ _ _

theorem discreet_iterator (htable : pre → table ≠ s) :
    Discreet s quiet pre (iterator table) fun v => v ≠ s :=
  (discreet_look _ _).andThen fun _ => discreet_make .dictIterator fun hp =>
    Body.avoids_iterator.mpr (htable hp)

theorem discreet_checkedTable (i : IteratorBody) :
    Discreet s quiet pre (checkedTable i) fun t => (Body.table t).Avoids s := by
  refine (discreet_read Facet.lawful_table _).bind fun t => ?_
  split
  · exact discreet_pure And.right
  · exact discreet_fault _

theorem discreet_next {iter : Value} (hiter : pre → iter ≠ s) :
    Discreet s quiet pre (next iter) fun _ => True := by
  refine (discreet_look _ _).andThen fun i => (discreet_checkedTable i).andThen fun t => ?_
  cases t.advance i.position with
  | error how => exact discreet_fault _
  | ok position =>
    refine (discreet_write Facet.lawful_iterator nofun hiter fun _ i hi => ?_).andThen fun _ => ?_
    · have htable : i.table ≠ s := Body.avoids_iterator.mp hi
      exact Body.avoids_iterator.mpr htable
    · cases position <;> exact discreet_skip

theorem discreet_current (iter : Value) :
    Discreet s quiet pre (current iter) fun e => e.key ≠ s ∧ e.record ≠ s := by
  refine (discreet_look _ _).andThen fun i => (discreet_checkedTable i).bind fun t => ?_
  cases i.position with
  | fresh => exact discreet_fault _
  | done => exact discreet_fault _
  | «at» bin id =>
    dsimp only
    cases he : t.get? id with
    | none => exact discreet_fault _
    | some e => exact discreet_pure fun h => h.2.entry he

end Dictionary

/-! ### Symbols and globals -/

/-- An effect that interns a name first, and nothing else if the rest is quiet. -/
def Effect.Spells (s : Value) (name : String) (quiet pre : Prop) (a : Effect α) (post : α → Prop) : Prop :=
  ∀ m : Machine, Promises (pre ∧ m.Discreet s) a m fun r m' =>
    (∃ v log, m.Interns s ((name, v) :: log) m' ∧ (quiet → log = [])) ∧ m.LeftDiscreet s False post r m'

namespace Effect

variable {s : Value} {quiet pre : Prop} {name : String} {a : Effect α} {f : α → Effect β}
  {mid : α → Prop} {goal : β → Prop}

theorem Spells.toDiscreet (h : Spells s name quiet pre a mid) : Discreet s False pre a mid :=
  fun m => (h m).mono id fun _ _ _ _ hleft => hleft.2

theorem spells_intern : Spells s name quiet pre (intern name) fun v => v ≠ s := by
  intro m
  have hsecure : Secure ∅ ∅ {m.symbols.table} False False (intern name) m _ :=
    secure_intern name rfl fun _ => False.elim
  refine ⟨hsecure.grows, fun ⟨_, hm⟩ hroom => ?_⟩
  obtain ⟨i, m', hintern, -, -, hm'⟩ := exists_intern hm name hroom
  rw [after_of_ok hintern] at hroom ⊢
  rw [ending_of_ok hintern]
  have hlog : m.Interns s [(name, .ofSymbol i)] m' := .intern rfl hm hintern hroom (.idle rfl)
  exact ⟨⟨_, [], hlog, fun _ => rfl⟩, hm', ⟨_, hlog, False.elim⟩,
    ne_of_not_isRef hm.isRef (Value.isRef_ofSymbol i)⟩

theorem discreet_intern : Discreet s False pre (intern name) fun v => v ≠ s :=
  have h : Spells s name True pre (intern name) fun v => v ≠ s := spells_intern
  h.toDiscreet

/-- Every name that is interned after the first is counted. -/
theorem Spells.exists_log {m : Machine} (ha : Spells s name quiet pre a mid) (hp : pre)
    (hm : m.Discreet s) (hroom : (a.after m).HasRoom) :
    ∃ v log, m.Interns s ((name, v) :: log) (a.after m) ∧ (quiet → log = []) :=
  ((ha m).keeps ⟨hp, hm⟩ hroom).1

/-- Nothing but the name is interned. -/
theorem Spells.exists_symbol {m : Machine} (ha : Spells s name True pre a mid) (hp : pre)
    (hm : m.Discreet s) (hroom : (a.after m).HasRoom) : ∃ v, m.Interns s [(name, v)] (a.after m) := by
  obtain ⟨v, log, hlog, hquiet⟩ := ha.exists_log hp hm hroom
  obtain rfl := hquiet trivial
  exact ⟨v, hlog⟩

theorem Spells.bind (ha : Spells s name quiet pre a mid)
    (hf : ∀ x, Discreet s quiet (pre ∧ mid x) (f x) goal) : Spells s name quiet pre (a >>= f) goal := by
  refine fun m => (ha m).bind (fun x m' _ => (hf x m').mono
    (fun hp => ⟨⟨hp.1.1, hp.2.2.landed⟩, hp.2.2.discreet⟩) fun _ _ hp _ hleft => ?_)
    fun _ _ _ h => ⟨h.1, h.2.error⟩
  obtain ⟨v, log, hlog, hquiet⟩ := hp.2.1
  obtain ⟨log', hlog', hquiet'⟩ := hleft.interns
  have htrans := hlog.trans hlog'
  exact ⟨⟨v, log ++ log', htrans, fun hq => by rw [hquiet hq, hquiet' hq]; rfl⟩, hleft.discreet,
    ⟨_, htrans, False.elim⟩, hleft.landed⟩

theorem Spells.withHandles (ha : Spells s name quiet pre a mid) :
    Spells s name quiet pre (withHandles a) mid := by
  refine fun m => (ha m).withHandles fun _ m' _ ⟨⟨v, log, hlog, hquiet⟩, hleft⟩ => ?_
  have hfollowed : Machine.Interns s m ((name, v) :: log)
      { m' with handles := m'.handles.shrink m.handles.size } := hlog.followed rfl
  exact ⟨⟨v, log, hfollowed, hquiet⟩, hleft.discreet.shrink _, ⟨_, hfollowed, False.elim⟩, hleft.landed⟩

/-- What always returns and interns nothing may come before. -/
theorem Discreet.bind_spells (ha : Discreet s True pre a mid) (hret : ∀ m, ∃ x m', a m = .ok x m')
    (hf : ∀ x, Spells s name quiet pre (f x) goal) : Spells s name quiet pre (a >>= f) goal := by
  intro m
  have hreturns : Promises (pre ∧ m.Discreet s) a m fun r m' =>
      m.LeftDiscreet s True mid r m' ∧ ∃ x, r = .ok x := by
    refine (ha m).imp id (fun x m' _ _ _ hleft => ⟨hleft, x, rfl⟩) fun u m' herror => ?_
    obtain ⟨x, m'', hx⟩ := hret m
    exact absurd (herror.symm.trans hx) nofun
  refine hreturns.bind (fun x m' _ => (hf x m').mono (fun hp => ⟨hp.1.1, hp.2.1.discreet⟩)
    fun _ _ hp _ hleft => ?_) fun u m' _ hr => ?_
  · obtain ⟨log, hlog, hquiet⟩ := hp.2.1.interns
    obtain rfl := hquiet trivial
    obtain ⟨⟨v, log', hlog', hquiet'⟩, hleft⟩ := hleft
    have htrans := hlog.trans hlog'
    exact ⟨⟨v, log', htrans, hquiet'⟩, hleft.discreet, ⟨_, htrans, False.elim⟩, hleft.landed⟩
  · obtain ⟨x, hx⟩ := hr.2
    cases hx

theorem Spells.pin_bind {v : Value} {f : Nat → Effect β} (hv : pre → v ≠ s)
    (hf : ∀ place, Spells s name quiet pre (f place) goal) :
    Spells s name quiet pre (pin v >>= f) goal :=
  (discreet_pin hv).bind_spells (fun _ => ⟨_, _, rfl⟩) hf

theorem Spells.pinAll_bind {vs : List Value} {f : Unit → Effect β} (hvs : pre → s ∉ vs)
    (hf : Spells s name quiet pre (f ()) goal) : Spells s name quiet pre (pinAll vs >>= f) goal :=
  (discreet_pinAll hvs).bind_spells (fun m => ⟨_, _, pinAll_eq vs m⟩) fun _ => hf

theorem discreet_globals : Discreet s quiet pre (ask (·.globals)) fun v => v ≠ s :=
  discreet_ask fun _ _ hm => hm.globals

theorem spells_setGlobal {v : Value} (hv : pre → v ≠ s) :
    Spells s name True pre (setGlobal name v) fun _ => True := by
  refine Spells.withHandles (Spells.pin_bind hv fun _ => spells_intern.bind fun key => ?_)
  refine discreet_globals.bind fun globals => Discreet.map (Dictionary.discreet_insert
    (fun _ => discreetKeys_symbol) And.right (fun h => h.1.2) fun h => hv h.1.1) fun _ _ _ => trivial

theorem spells_getGlobal :
    Spells s name True pre (getGlobal name) fun found => ∀ v, found = some v → v ≠ s :=
  spells_intern.bind fun _ => discreet_globals.bind fun _ =>
    Dictionary.discreet_lookup (fun _ => discreetKeys_symbol) And.right fun h => h.1.2

end Effect

end ObjectMachine
