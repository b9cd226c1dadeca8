import Mathlib.Tactic
import ObjectMachine.Proofs.Dictionary.Careful

/-! What the readers of a table see of its tombstones.

A removal that leaves a tombstone puts `absent` in the place of key and record.  In a table into which
nothing `absent` was put, the entries with a key have a record, so a reader meets `absent` only where
it reads an entry without asking again whether it is a tombstone: an entry that was found by a search
whose `==` removed it and said yes, or the entry on which an iterator stands. -/

namespace ObjectMachine

namespace Table

variable {t t' : Table}

/-- A well-formed table in which every key has a record. -/
structure Filled (t : Table) : Prop where
  wellFormed : t.WellFormed
  record_ne : ∀ id e, t.content? id = some e → e.isTombstone = false → e.record ≠ .absent

theorem Filled.record_ne_absent (hf : t.Filled) {id : EntryId} {e : Entry} (he : t.get? id = some e)
    (hd : e.isTombstone = false) : e.record ≠ .absent :=
  hf.record_ne id e.content (by rw [content?, he]; rfl) hd

/-- Records that are not `absent` keep a table filled. -/
theorem kept_filled : Kept (· ≠ .absent) Filled where
  wellFormed hf := hf.wellFormed
  new strategy size := ⟨wellFormed_new strategy size, fun id e h => by simp [content?, get?, new] at h⟩
  prepend {t} hash {key record} hf hkey hrecord := by
    refine ⟨hf.wellFormed.change (.prepend hash hkey record), fun id e h hd => ?_⟩
    obtain ⟨chains, hc⟩ := hf.wellFormed
    rw [content?, get?_prepend fun i hi => (hc.free_vacant i).mp hi] at h
    by_cases hid : id = t.nextId
    · rw [if_pos hid] at h
      rw [← Option.some.inj h]
      exact hrecord
    · rw [if_neg hid] at h
      exact hf.record_ne id e h hd
  rehash hf hn := by
    refine ⟨hf.wellFormed.change (.rehash hn), fun id e h hd => ?_⟩
    rw [content?_rehash] at h
    exact hf.record_ne id e h hd
  setRecord {t} id {record} hf hrecord := by
    refine ⟨hf.wellFormed.change (.setRecord id record), fun j e h hd => ?_⟩
    cases he : t.get? id with
    | none =>
      rw [setRecord, adjust_eq_self he] at h
      exact hf.record_ne j e h hd
    | some old =>
      rw [content?_setRecord he] at h
      by_cases hj : j = id
      · rw [if_pos hj] at h
        rw [← Option.some.inj h]
        exact hrecord
      · rw [if_neg hj] at h
        exact hf.record_ne j e h hd
  unlink {t id e t'} hf h := by
    refine ⟨hf.wellFormed.change (.unlink h), fun j e hj hd => ?_⟩
    obtain ⟨chains, hc⟩ := hf.wellFormed
    rw [(hc.unlink h).2.2 j] at hj
    by_cases hid : j = id
    · rw [if_pos hid] at hj
      cases hj
    · rw [if_neg hid] at hj
      exact hf.record_ne j e hj hd
  tombstone {t id e t'} hf h := by
    refine ⟨hf.wellFormed.change (.tombstone h), fun j e hj hd => ?_⟩
    rw [content?_tombstone h j] at hj
    by_cases hid : j = id
    · rw [if_pos hid] at hj
      rw [← Option.some.inj hj] at hd
      simp [Entry.isTombstone, Value.isAbsent] at hd
    · rw [if_neg hid] at hj
      exact hf.record_ne j e hj hd

/-- The mappings of a filled table. -/
theorem Filled.ne_absent_of_mem_entries (hf : t.Filled) {p : Value × Value} (hp : p ∈ t.entries) :
    p.1 ≠ .absent ∧ p.2 ≠ .absent := by
  obtain ⟨⟨id, e⟩, hmem, rfl⟩ := List.mem_map.mp hp
  obtain ⟨hlinked, hd⟩ := List.mem_filter.mp hmem
  obtain ⟨chains, hc⟩ := hf.wellFormed
  have hd : e.isTombstone = false := by simpa using hd
  exact ⟨by simpa [Entry.isTombstone, Value.isAbsent] using hd,
    hf.record_ne_absent (hc.mem_linked.mp hlinked) hd⟩

end Table

/-- Reading an iterator after moving it. -/
theorem Heap.read_modify_iterator {h : Heap} {v : Value} {i : IteratorBody}
    (hi : h.read Facet.iterator v = .ok i) (f : IteratorBody → IteratorBody) :
    (h.modify Facet.iterator v f).read Facet.iterator v = .ok (f i) :=
  read_modify_self (fun _ => rfl) hi f

namespace Dictionary

open Effect

variable {meaning : KeyMeaning} {allowed : Corruption → Prop} {table key iter : Value} {m m' : Machine}

/-! ### Readers that search -/

/-- The search found an entry, and when it was over the entry was a tombstone. -/
def FoundTombstone (meaning : KeyMeaning) (table key : Value) (m : Machine) : Prop :=
  ∃ id m' t e,
    search meaning table key { m with handles := m.handles ++ #[table, key] } = .ok (some id) m' ∧
    m'.heap.read Facet.table table = .ok t ∧ t.get? id = some e ∧ e.isTombstone = true

/-- An operation that searches, and that goes on with what was found. -/
theorem exists_search_of_ok {k : Option EntryId → Effect β} {x : β}
    (h : withHandles (do
      pinAll [table, key]
      let found ← search meaning table key
      k found) m = .ok x m') :
    ∃ found m₁ m₂,
      search meaning table key { m with handles := m.handles ++ #[table, key] } = .ok found m₁ ∧
        k found m₁ = .ok x m₂ := by
  obtain ⟨m₂, h₂⟩ := exists_of_withHandles_eq_ok h
  rw [bind_of_ok (pinAll_eq [table, key] m)] at h₂
  obtain ⟨found, m₁, hsearch, hk⟩ := exists_of_bind_eq_ok h₂
  exact ⟨found, m₁, m₂, hsearch, hk⟩

/-- What a search leaves behind. -/
theorem tables_of_search (hk : ∀ s, UpholdingKeys Table.Filled allowed (meaning s))
    (hm : m.Tables Table.Filled) {found : Option EntryId} {m₁ : Machine}
    (h : search meaning table key { m with handles := m.handles ++ #[table, key] } = .ok found m₁) :
    m₁.Tables Table.Filled :=
  (upholds_search hk { m with handles := m.handles ++ #[table, key] } hm).tables_of_ok h

/-- If comparing keys leaves the tables alone, no search ends at a tombstone. -/
theorem not_foundTombstone (hk : ∀ s, UpholdingKeys Table.Filled allowed (meaning s))
    (hl : ∀ s, Loyal (meaning s)) (hm : m.Tables Table.Filled) :
    ¬ FoundTombstone meaning table key m := by
  rintro ⟨id, m', t, e, hsearch, ht, he, hd⟩
  rw [search, keysOf_bind] at hsearch
  obtain ⟨t₀, m₀, hread, hhash⟩ := exists_of_bind_eq_ok hsearch
  obtain ⟨-, rfl⟩ := of_read_eq_ok hread
  obtain ⟨hash, m₁, hhashed, hfind⟩ := exists_of_bind_eq_ok hhash
  have hhash := (hk t₀.strategy).hash key { m with handles := m.handles ++ #[table, key] } hm
  have htables := hhash.tables_of_ok hhashed
  have hholds := holdsKey_of_find (hl _) (fun i t h => (htables i t h).wellFormed) hfind ht
  rw [Table.holdsKey, he] at hholds
  simp [hd] at hholds

/-- A record that is read from an entry is `absent` for tombstones only. -/
theorem isTombstone_of_record (hm : m.Tables Table.Filled) {t : Table}
    (ht : m.heap.read Facet.table table = .ok t) {id : EntryId} {e : Entry} (he : t.get? id = some e)
    (hrecord : e.record = .absent) : e.isTombstone = true := by
  by_contra hd
  exact (hm.read ht).record_ne_absent he (by simpa using hd) hrecord

/-- What a look-up does with the entry it found. -/
def readFound (table : Value) : Option EntryId → Effect (Option Value)
  | none => return none
  | some id => return ((← read Facet.table table).get? id).map (·.record)

theorem lookup_eq (meaning : KeyMeaning) (table key : Value) : lookup meaning table key =
    withHandles (do
      pinAll [table, key]
      let found ← search meaning table key
      readFound table found) := by
  simp only [lookup, search, bind_assoc]
  rfl

/-- What removing with a tombstone does with the entry it found. -/
def buryFound (table : Value) : Option EntryId → Effect (Option Value)
  | none => return none
  | some id => do
    match (← read Facet.table table).tombstone id with
    | none => return none
    | some (e, t) =>
      write Facet.table table fun _ => t
      return some e.record

theorem deleteSafe_eq (meaning : KeyMeaning) (table key : Value) : deleteSafe meaning table key =
    withHandles (do
      pinAll [table, key]
      let found ← search meaning table key
      buryFound table found) := by
  simp only [deleteSafe, search, bind_assoc]
  rfl

theorem foundTombstone_of_lookup (hk : ∀ s, UpholdingKeys Table.Filled allowed (meaning s))
    (hm : m.Tables Table.Filled) (h : lookup meaning table key m = .ok (some .absent) m') :
    FoundTombstone meaning table key m := by
  rw [lookup_eq] at h
  obtain ⟨found, m₁, m₂, hsearch, hfound⟩ := exists_search_of_ok h
  cases found with
  | none => exact absurd (EStateM.Result.ok.inj hfound).1 nofun
  | some id =>
    obtain ⟨t, m₃, hread, hanswer⟩ := exists_of_bind_eq_ok hfound
    obtain ⟨ht, rfl⟩ := of_read_eq_ok hread
    obtain ⟨e, he, hrecord⟩ := Option.map_eq_some_iff.mp (EStateM.Result.ok.inj hanswer).1
    exact ⟨id, _, t, e, hsearch, ht, he,
      isTombstone_of_record (tables_of_search hk hm hsearch) ht he hrecord⟩

theorem foundTombstone_of_delete (hk : ∀ s, UpholdingKeys Table.Filled allowed (meaning s))
    (hm : m.Tables Table.Filled) (h : delete meaning table key m = .ok (some .absent) m') :
    FoundTombstone meaning table key m := by
  rw [delete_eq] at h
  obtain ⟨found, m₁, m₂, hsearch, hfound⟩ := exists_search_of_ok h
  have htables := tables_of_search hk hm hsearch
  cases found with
  | none => exact absurd (EStateM.Result.ok.inj hfound).1 nofun
  | some id =>
    rw [unlinkFound] at hfound
    obtain ⟨t, m₃, hread, hunlink⟩ := exists_of_bind_eq_ok hfound
    obtain ⟨ht, rfl⟩ := of_read_eq_ok hread
    cases hu : t.unlink id with
    | error how =>
      rw [hu] at hunlink
      exact absurd hunlink nofun
    | ok p =>
      obtain ⟨e, t'⟩ := p
      rw [hu] at hunlink
      obtain ⟨_, m₄, -, hanswer⟩ := exists_of_bind_eq_ok hunlink
      have hrecord : e.record = .absent := Option.some.inj (EStateM.Result.ok.inj hanswer).1
      obtain ⟨chains, hc⟩ := (htables.read ht).wellFormed
      have he := (hc.unlink hu).1
      exact ⟨id, _, t, e, hsearch, ht, he, isTombstone_of_record htables ht he hrecord⟩

/-- Removing with a tombstone asks again whether the entry found is one already. -/
theorem deleteSafe_ne_absent (hk : ∀ s, UpholdingKeys Table.Filled allowed (meaning s))
    (hm : m.Tables Table.Filled) : deleteSafe meaning table key m ≠ .ok (some .absent) m' := by
  intro h
  rw [deleteSafe_eq] at h
  obtain ⟨found, m₁, m₂, hsearch, hfound⟩ := exists_search_of_ok h
  have htables := tables_of_search hk hm hsearch
  cases found with
  | none => exact absurd (EStateM.Result.ok.inj hfound).1 nofun
  | some id =>
    obtain ⟨t, m₃, hread, htomb⟩ := exists_of_bind_eq_ok hfound
    obtain ⟨ht, rfl⟩ := of_read_eq_ok hread
    cases hu : t.tombstone id with
    | none =>
      rw [hu] at htomb
      exact absurd (EStateM.Result.ok.inj htomb).1 nofun
    | some p =>
      obtain ⟨e, t'⟩ := p
      rw [hu] at htomb
      obtain ⟨_, m₄, -, hanswer⟩ := exists_of_bind_eq_ok htomb
      obtain ⟨he, hd, -⟩ := Table.tombstone_eq_some_iff.mp hu
      exact (htables.read ht).record_ne_absent he hd
        (Option.some.inj (EStateM.Result.ok.inj hanswer).1)

/-! ### Traversals -/

theorem bind_congr_at {a : Effect α} {f g : α → Effect β}
    (h : ∀ x m', a m = .ok x m' → f x m' = g x m') : (a >>= f) m = (a >>= g) m := by
  cases hx : a m with
  | ok x m' =>
    rw [bind_of_ok hx, bind_of_ok hx]
    exact h x m' hx
  | error u m' => rw [bind_of_error hx, bind_of_error hx]

theorem withHandles_congr_at {a b : Effect α} (h : a m = b m) :
    withHandles a m = withHandles b m := by
  rw [withHandles_eq, withHandles_eq, h]

/-- A visitor that does something else when it is given `absent`. -/
def trapped (visitor trap : Value → Value → Effect Visit) (key record : Value) : Effect Visit :=
  if key = .absent ∨ record = .absent then trap key record else visitor key record

theorem visitFrom_trapped {visitor : Value → Value → Effect Visit}
    (hv : ∀ key record, (Judgement.upholding Table.Filled allowed).Meets (visitor key record))
    (trap : Value → Value → Effect Visit) (handles : VisitHandles) (fuel : Nat) :
    ∀ {m : Machine} (bin : Nat) (cursor : Option EntryId), m.Tables Table.Filled →
      visitFrom table handles (trapped visitor trap) fuel bin cursor m =
        visitFrom table handles visitor fuel bin cursor m := by
  induction fuel with
  | zero => exact fun _ _ _ => rfl
  | succ fuel ih =>
    intro m bin cursor hm
    cases cursor with
    | none =>
      refine bind_congr_at fun t m' hread => ?_
      obtain ⟨-, rfl⟩ := of_read_eq_ok hread
      split
      · exact ih _ _ hm
      · rfl
    | some id =>
      refine bind_congr_at fun t m' hread => ?_
      obtain ⟨ht, rfl⟩ := of_read_eq_ok hread
      cases he : t.get? id with
      | none => rfl
      | some e =>
        dsimp only
        by_cases hd : e.isTombstone = true
        · simp only [hd, if_true]
          exact ih bin e.next hm
        · -- an entry that is visited has a key, and a filled table a record for it
          have hd : e.isTombstone = false := by simpa using hd
          have hkey : e.key ≠ .absent := by simpa [Entry.isTombstone, Value.isAbsent] using hd
          have hrecord := (hm.read ht).record_ne_absent he hd
          have hsame : trapped visitor trap e.key e.record = visitor e.key e.record := by
            rw [trapped, if_neg (not_or.mpr ⟨hkey, hrecord⟩)]
          simp only [hd, hsame, Bool.false_eq_true, if_false]
          refine bind_congr_at fun _ m₁ h₁ => bind_congr_at fun _ m₂ h₂ => ?_
          have hm₁ := (quiet_setHandle handles.key e.key).tables_of_ok hm h₁
          have hm₂ := (quiet_setHandle handles.record e.record).tables_of_ok hm₁ h₂
          refine bind_congr_at fun action m₃ h₃ => ?_
          have hm₃ := (hv e.key e.record m₂ hm₂).tables_of_ok h₃
          refine bind_congr_at fun next m₄ h₄ => ?_
          have hafter : Upholds Table.Filled allowed (afterVisit table id action) m₃ :=
            upholds_afterVisit Table.kept_filled id action m₃ hm₃
          have hm₄ := hafter.tables_of_ok h₄
          cases next with
          | inl cursor => exact ih bin cursor hm₄
          | inr answer => rfl

/-- No traversal of a filled table hands `absent` to its visitor: it makes no difference what the
visitor would do then. -/
theorem forEach_trapped {visitor : Value → Value → Effect Visit}
    (hv : ∀ key record, (Judgement.upholding Table.Filled allowed).Meets (visitor key record))
    (trap : Value → Value → Effect Visit) (patience : Nat) (hm : m.Tables Table.Filled) :
    forEach patience table (trapped visitor trap) m = forEach patience table visitor m := by
  refine withHandles_congr_at (bind_congr_at fun _ m₁ h₁ => bind_congr_at fun key m₂ h₂ => ?_)
  refine bind_congr_at fun record m₃ h₃ => bind_congr_at fun t m₄ h₄ => ?_
  have hm₁ := (quiet_pin table).tables_of_ok hm h₁
  have hm₂ := (quiet_pin .nil).tables_of_ok hm₁ h₂
  have hm₃ := (quiet_pin .nil).tables_of_ok hm₂ h₃
  obtain ⟨-, rfl⟩ := of_read_eq_ok h₄
  exact visitFrom_trapped hv trap _ _ _ _ hm₃

/-! ### Iterators -/

/-- An iterator that stands on a tombstone. -/
def StandsOnTombstone (iter : Value) (m : Machine) : Prop :=
  ∃ i t bin id e, m.heap.read Facet.iterator iter = .ok i ∧
    m.heap.read Facet.table i.table = .ok t ∧ i.position = .at bin id ∧ t.get? id = some e ∧
    e.isTombstone = true

/-- The entry an iterator stands on. -/
theorem current_eq_ok {e : Entry} (h : current iter m = .ok e m') :
    ∃ i t bin id, m.heap.read Facet.iterator iter = .ok i ∧
      m.heap.read Facet.table i.table = .ok t ∧ i.position = .at bin id ∧ t.get? id = some e := by
  obtain ⟨i, m₁, hiter, hrest⟩ := exists_of_bind_eq_ok h
  obtain ⟨hi, rfl⟩ := of_read_eq_ok hiter
  obtain ⟨t, m₂, hchecked, hentry⟩ := exists_of_bind_eq_ok hrest
  obtain ⟨rfl, ht⟩ := checkedTable_eq_ok hchecked
  cases hp : i.position with
  | «at» bin id =>
    simp only [hp] at hentry
    cases he : t.get? id with
    | none =>
      rw [he] at hentry
      exact absurd hentry nofun
    | some e' =>
      rw [he] at hentry
      obtain ⟨rfl, -⟩ := EStateM.Result.ok.inj hentry
      exact ⟨i, t, bin, id, hi, ht, hp, he⟩
  | fresh =>
    simp only [hp] at hentry
    exact absurd hentry nofun
  | done =>
    simp only [hp] at hentry
    exact absurd hentry nofun

theorem standsOnTombstone_of_currentKey (h : currentKey iter m = .ok .absent m') :
    StandsOnTombstone iter m := by
  obtain ⟨e, m₁, hcurrent, hkey⟩ := exists_of_bind_eq_ok h
  obtain ⟨i, t, bin, id, hi, ht, hp, he⟩ := current_eq_ok hcurrent
  have hkey : e.key = .absent := (EStateM.Result.ok.inj hkey).1
  exact ⟨i, t, bin, id, e, hi, ht, hp, he, by rw [Entry.isTombstone, hkey]; rfl⟩

theorem standsOnTombstone_of_currentValue (hm : m.Tables Table.Filled)
    (h : currentValue iter m = .ok .absent m') : StandsOnTombstone iter m := by
  obtain ⟨e, m₁, hcurrent, hrecord⟩ := exists_of_bind_eq_ok h
  obtain ⟨i, t, bin, id, hi, ht, hp, he⟩ := current_eq_ok hcurrent
  exact ⟨i, t, bin, id, e, hi, ht, hp, he,
    isTombstone_of_record hm ht he (EStateM.Result.ok.inj hrecord).1⟩

/-- Moving on leads to a key. -/
theorem not_standsOnTombstone_of_next (hm : m.Tables Table.Filled) {more : Bool}
    (h : next iter m = .ok more m') : ¬ StandsOnTombstone iter m' := by
  obtain ⟨i, m₁, hiter, hrest⟩ := exists_of_bind_eq_ok h
  obtain ⟨hi, rfl⟩ := of_read_eq_ok hiter
  obtain ⟨t, m₂, hchecked, hmove⟩ := exists_of_bind_eq_ok hrest
  obtain ⟨rfl, ht⟩ := checkedTable_eq_ok hchecked
  rcases (hm.read ht).wellFormed.advance i.position with ⟨p, hp, hkey⟩ | hgone
  · simp only [hp] at hmove
    obtain ⟨_, m₃, hwrite, hanswer⟩ := exists_of_bind_eq_ok hmove
    obtain rfl : m₃ = m' := by cases p <;> exact (EStateM.Result.ok.inj hanswer).2
    have hinherits : ((write Facet.iterator iter fun i => { i with position := p }).after
        m₂).Inherits m₂ := quiet_write (fun _ => rfl) iter _ m₂
    rw [after_of_ok hwrite] at hinherits
    have hmoved : m₃.heap.read Facet.iterator iter = .ok { i with position := p } := by
      have hm₃ := (bind_of_ok (read_of_ok hi)).symm.trans hwrite
      rw [← (EStateM.Result.ok.inj hm₃).2]
      exact Heap.read_modify_iterator hi _
    -- the table is the one that was walked, and the walk stopped at a key
    rintro ⟨i', t', bin, id, e, hi', ht', hposition, he, hd⟩
    obtain rfl := Except.ok.inj (hmoved.symm.trans hi')
    have hsame := hinherits _ _ (Heap.tableIn?_of_read ht')
    rw [Heap.tableIn?_of_read ht, Option.some.injEq] at hsame
    have hholds := hkey bin id hposition
    rw [hsame, Table.holdsKey, he] at hholds
    simp [hd] at hholds
  · simp only [hgone] at hmove
    cases hmove

end Dictionary

open Effect Dictionary in
theorem Calls.lookup_of_fetch {calls : Calls} {table key v : Value} {m m' : Machine}
    (h : calls.fetch table key m = .ok v m') :
    ∃ m₁, lookup calls.keys table key m = .ok (some v) m₁ := by
  have hraise : ∀ {α : Type} (kind : ErrorKind) (message : String) (m : Machine) (x : α) (m' : Machine),
      raiseError kind message m ≠ .ok x m' := by
    intro α kind message m x m' h
    obtain ⟨cls, m₁, -, h₁⟩ := exists_of_bind_eq_ok h
    obtain ⟨exc, m₂, -, h₂⟩ := exists_of_bind_eq_ok h₁
    obtain ⟨_, m₃, -, h₃⟩ := exists_of_bind_eq_ok h₂
    obtain ⟨_, m₄, -, h₄⟩ := exists_of_bind_eq_ok h₃
    exact absurd h₄ nofun
  obtain ⟨found, m₁, hlookup, hfound⟩ := exists_of_bind_eq_ok h
  cases found with
  | some w =>
    obtain ⟨rfl, -⟩ := EStateM.Result.ok.inj hfound
    exact ⟨m₁, hlookup⟩
  | none =>
    obtain ⟨text, m₂, -, hraised⟩ := exists_of_bind_eq_ok hfound
    exact absurd hraised (hraise _ _ _ _ _)

open Effect Dictionary in
/-- Let nothing `absent` have been put into the tables, and let hash and `==` of the keys, messages and
visitors be code made of the operations on tables that puts nothing `absent` there either.  Any such
code, whatever it interleaves, keeps the tables filled.  The listing of a table, a removal with a
tombstone and the visits of a traversal never give `absent`.  Looking up, fetching and removing do so
only if `==` left a tombstone in the place of the entry before it said yes, never if comparing keys
leaves the tables alone.  An iterator gives `absent` only while it stands on a tombstone, which it
does not after moving on. -/
theorem tombstones_hidden (meaning : KeyMeaning) (calls : Calls)
    (visitor trap : Value → Value → Effect Visit)
    (hhash : ∀ s key, Careful (· ≠ .absent) (fun _ => True) ((meaning s).hash key))
    (hequal : ∀ s key other, Careful (· ≠ .absent) (fun _ => True) ((meaning s).equal key other))
    (hsend : ∀ v name args, Careful (· ≠ .absent) (fun _ => True) (calls.send v name args))
    (hvisitor : ∀ key record, Careful (· ≠ .absent) (fun _ => True) (visitor key record))
    (m : Machine) (hm : m.Tables Table.Filled) (table key iter : Value) (patience : Nat)
    (m' : Machine) :
    (∀ {α : Type} (code : Effect α), Careful (· ≠ .absent) (fun _ => True) code →
      (code.after m).Tables Table.Filled) ∧
    (∀ l, entries table m = .ok l m' → ∀ p ∈ l, p.1 ≠ .absent ∧ p.2 ≠ .absent) ∧
    deleteSafe meaning table key m ≠ .ok (some .absent) m' ∧
    forEach patience table (trapped visitor trap) m = forEach patience table visitor m ∧
    (lookup meaning table key m = .ok (some .absent) m' → FoundTombstone meaning table key m) ∧
    (calls.fetch table key m = .ok .absent m' → FoundTombstone calls.keys table key m) ∧
    (delete meaning table key m = .ok (some .absent) m' → FoundTombstone meaning table key m) ∧
    ((∀ s, Loyal (meaning s)) → ¬ FoundTombstone meaning table key m) ∧
    (currentKey iter m = .ok .absent m' → StandsOnTombstone iter m) ∧
    (currentValue iter m = .ok .absent m' → StandsOnTombstone iter m) ∧
    ∀ more, next iter m = .ok more m' → ¬ StandsOnTombstone iter m' := by
  have hupholds : ∀ {α : Type} {code : Effect α}, Careful (· ≠ .absent) (fun _ => True) code →
      (Judgement.upholding Table.Filled fun _ => True).Meets code :=
    fun hcode => hcode.upholds Table.kept_filled
  have hk : ∀ s, UpholdingKeys Table.Filled (fun _ => True) (meaning s) := fun s =>
    ⟨fun key => hupholds (hhash s key), fun key other => hupholds (hequal s key other)⟩
  have hcalls : ∀ s, UpholdingKeys Table.Filled (fun _ => True) (calls.keys s) := fun s =>
    ⟨fun key => hupholds ((calls.careful_keys hsend s).1 key),
      fun key other => hupholds ((calls.careful_keys hsend s).2 key other)⟩
  refine ⟨fun code hcode => (hupholds hcode m hm).tables, ?_, deleteSafe_ne_absent hk hm,
    forEach_trapped (fun key record => hupholds (hvisitor key record)) trap patience hm,
    foundTombstone_of_lookup hk hm, ?_, foundTombstone_of_delete hk hm,
    fun hloyal => not_foundTombstone hk hloyal hm, standsOnTombstone_of_currentKey,
    standsOnTombstone_of_currentValue hm, fun more => not_standsOnTombstone_of_next hm⟩
  · intro l h p hp
    obtain ⟨t, m₁, hread, hl⟩ := exists_of_bind_eq_ok h
    obtain ⟨ht, rfl⟩ := of_read_eq_ok hread
    obtain ⟨rfl, -⟩ := EStateM.Result.ok.inj hl
    exact (hm.read ht).ne_absent_of_mem_entries hp
  · intro h
    obtain ⟨m₁, hlookup⟩ := Calls.lookup_of_fetch h
    exact foundTombstone_of_lookup hcalls hm hlookup

/-- With keys whose `==` leaves a tombstone in the place of the entry, looking up gives `absent`, and
the search did end at a tombstone. -/
theorem tombstones_hidden_meddling :
    let calls := Calls.meddling (.ofSlot 0 0) Dictionary.deleteSafe
    Machine.tabled.Tables Table.Filled ∧
    (∃ m', Dictionary.lookup calls.keys (.ofSlot 0 0) (.ofNat 2) Machine.tabled =
      .ok (some .absent) m') ∧
    Dictionary.FoundTombstone calls.keys (.ofSlot 0 0) (.ofNat 2) Machine.tabled := by
  intro calls
  have hm : Machine.tabled.Tables Table.Filled := Machine.tables_tabled Table.kept_filled (by decide)
  have hsend : ∀ v name args, Careful (· ≠ .absent) (fun _ => True) (calls.send v name args) :=
    Calls.careful_meddling_deleteSafe (.ofSlot 0 0)
  have hkeys := Calls.careful_keys hsend
  have hstop : Careful (· ≠ .absent) (fun _ => True) (pure .stop : Effect Dictionary.Visit) :=
    careful_pure _
  have hlookup : Dictionary.lookup calls.keys (.ofSlot 0 0) (.ofNat 2) Machine.tabled =
      .ok (some .absent) ((Dictionary.lookup calls.keys (.ofSlot 0 0) (.ofNat 2)).after
        Machine.tabled) := by
    cbv
  obtain ⟨-, -, -, -, hfound, -⟩ := tombstones_hidden calls.keys calls (fun _ _ => pure .stop)
    (fun _ _ => pure .stop) (fun s => (hkeys s).1) (fun s => (hkeys s).2) hsend (fun _ _ => hstop)
    Machine.tabled hm (.ofSlot 0 0) (.ofNat 2) .nil 0 _
  exact ⟨hm, ⟨_, hlookup⟩, hfound hlookup⟩

/-- An iterator shows the tombstone that was left in its place since it moved on. -/
theorem iterator_shows_tombstone :
    let moved := (do
      let iter ← Dictionary.iterator (.ofSlot 0 0)
      Dictionary.next iter).after Machine.tabled
    let left := (Dictionary.deleteSafe (fun _ => Keys.residue 1) (.ofSlot 0 0) (.ofNat 1)).after moved
    Machine.tabled.Tables Table.Filled ∧
      Dictionary.currentKey (.ofSlot 1 0) moved = .ok (.ofNat 1) moved ∧
      Dictionary.currentKey (.ofSlot 1 0) left = .ok .absent left ∧
      Dictionary.currentValue (.ofSlot 1 0) left = .ok .absent left := by
  refine ⟨Machine.tables_tabled Table.kept_filled (by decide), ?_, ?_, ?_⟩
  · cbv
  · cbv
  · cbv

end ObjectMachine
