import Mathlib.Tactic
import ObjectMachine.Proofs.Dictionary.Upholding

/-! Careful code, and the corruptions it may end in.

Whatever the methods of the keys do, the operations on tables uphold what each single change keeps.
While the tables are well formed, no operation finds a table corrupted but two: removing a key whose
`==` took the entry away before it said yes, and using an iterator whose entry is gone.  `Careful` is
the code made of the operations on tables, with the corruptions it may end in as a parameter. -/

namespace ObjectMachine

namespace Dictionary

open Effect

open Judgement

variable {P : Table → Prop} {allowed : Corruption → Prop} {good : Value → Prop} {m : Machine}
  {keys : Keys} {meaning : KeyMeaning} {table key record : Value} {hash : UInt64}

/-- The part of an operation that runs the methods of the key. -/
def search (meaning : KeyMeaning) (table key : Value) : Effect (Option EntryId) := do
  let keys ← keysOf meaning table
  let hash ← keys.hash key
  find keys table key hash

theorem upholds_search (hk : ∀ s, UpholdingKeys P allowed (meaning s)) :
    (Judgement.upholding P allowed).Meets (search meaning table key) := by
  rw [search, keysOf_bind]
  exact (meets_read _ _).bind fun t => ((hk t.strategy).hash key).bind fun hash =>
    meets_find (hk t.strategy) (upholds_record _)

/-! ### Searches whose equality leaves the tables alone -/

/-- Whether comparing keys leaves the tables alone. -/
def Loyal (keys : Keys) : Prop :=
  ∀ key other m, m.TablesWellFormed → ((keys.equal key other).after m).Inherits m

theorem inherits_isMatch (hl : Loyal keys) {e : Entry} (hm : m.TablesWellFormed) :
    ((isMatch keys key hash e).after m).Inherits m := by
  unfold isMatch
  split
  · split
    · exact .of_heap_eq rfl
    · exact hl key e.key m hm
  · exact .of_heap_eq rfl

/-- A key that matches is no tombstone. -/
theorem isTombstone_of_isMatch {e : Entry} {m' : Machine}
    (h : isMatch keys key hash e m = .ok true m') : e.isTombstone = false := by
  unfold isMatch at h
  split at h
  · next hc => simpa [Entry.isTombstone] using (Bool.and_eq_true_iff.mp hc).2
  · exact absurd (EStateM.Result.ok.inj h).1 (by decide)

/-- If comparing keys leaves the tables alone, the entry found holds a key when the search is over. -/
theorem holdsKey_of_findFrom (hl : Loyal keys) (fuel : Nat) :
    ∀ {m : Machine} {cursor : Option EntryId} {id : EntryId} {m' : Machine}, m.TablesWellFormed →
      findFrom keys table key hash fuel cursor m = .ok (some id) m' →
      ∀ t, m'.heap.read Facet.table table = .ok t → t.holdsKey id = true := by
  induction fuel with
  | zero =>
    intro m cursor id m' _ h
    cases cursor <;> rw [findFrom] at h <;> cases h
  | succ fuel ih =>
    intro m cursor id m' hm h t' ht'
    cases cursor with
    | none =>
      rw [findFrom] at h
      cases h
    | some current =>
      rw [findFrom] at h
      obtain ⟨t, m₀, hread, hentry⟩ := exists_of_bind_eq_ok h
      obtain ⟨hread, rfl⟩ := of_read_eq_ok hread
      cases he : t.get? current with
      | none =>
        simp only [he] at hentry
        cases hentry
      | some e =>
        simp only [he] at hentry
        obtain ⟨hit, m₁, hmatch, hrest⟩ := exists_of_bind_eq_ok hentry
        have hinherits : ((isMatch keys key hash e).after m₀).Inherits m₀ := inherits_isMatch hl hm
        rw [after_of_ok hmatch] at hinherits
        cases hit with
        | false => exact ih (fun i t ht => hm i t (hinherits i t ht)) hrest t' ht'
        | true =>
          -- the table read now was there before the comparison, so it is the one read then
          obtain ⟨hid, rfl⟩ := EStateM.Result.ok.inj hrest
          have hsame := hinherits _ _ (Heap.tableIn?_of_read ht')
          rw [Heap.tableIn?_of_read hread, Option.some.injEq] at hsame
          rw [← hsame, ← Option.some.inj hid, Table.holdsKey, he]
          simp [isTombstone_of_isMatch hmatch]

theorem holdsKey_of_find (hl : Loyal keys) {id : EntryId} {m' : Machine} (hm : m.TablesWellFormed)
    (h : find keys table key hash m = .ok (some id) m') {t : Table}
    (ht : m'.heap.read Facet.table table = .ok t) : t.holdsKey id = true := by
  obtain ⟨t₀, m₀, hread, hfrom⟩ := exists_of_bind_eq_ok h
  obtain ⟨-, rfl⟩ := of_read_eq_ok hread
  exact holdsKey_of_findFrom hl _ hm hfrom t ht

/-! ### Removals -/

/-- What a removal does with the entry it found. -/
def unlinkFound (table : Value) : Option EntryId → Effect (Option Value)
  | none => return none
  | some id => do
    match (← read Facet.table table).unlink id with
    | .error how => fault (.corruptedTable how)
    | .ok (e, t) =>
      write Facet.table table fun _ => t
      return some e.record

theorem delete_eq (meaning : KeyMeaning) (table key : Value) : delete meaning table key =
    withHandles (do
      pinAll [table, key]
      let found ← search meaning table key
      unlinkFound table found) := by
  simp only [delete, search, bind_assoc]
  rfl

theorem upholds_corruption {how : Corruption} (hallowed : allowed how) :
    (Judgement.upholding P allowed).Meets (fault (.corruptedTable how) : Effect α) := by
  refine fun m hm => ⟨hm, fun {how' m'} h => ?_⟩
  obtain rfl : how = how' :=
    Fault.corruptedTable.inj (Unwind.fatal.inj (EStateM.Result.error.inj h).1)
  exact hallowed

/-- Replacing a table by what was made of it, then answering. -/
theorem upholds_replace {t' : Table} (ht : P t') (x : α) :
    (Judgement.upholding P allowed).Meets (do
      write Facet.table table fun _ => t'
      return x) :=
  Meets.bind (fun _ => upholds_write fun _ _ _ => ht) fun _ => meets_pure x

theorem upholds_delete (hP : Table.Kept good P) (hk : ∀ s, UpholdingKeys P allowed (meaning s))
    (hdead : allowed .unlinkOfDeadEntry ∨ ∀ s, Loyal (meaning s)) :
    (Judgement.upholding P allowed).Meets (delete meaning table key) := by
  refine fun m => at_withHash (upholdingScope m) hk [table, key] fun s hash _ m hm => ?_
  refine Upholds.bind (meets_find (hk s) (upholds_record _) m hm) fun found m' hfound hm' => ?_
  cases found with
  | none => exact meets_pure (J := .upholding P allowed) _ m' hm'
  | some id =>
    refine At.read_bind (J := .upholding P allowed) (fun t ht hm' => ?_) hm'
    obtain ⟨chains, hc⟩ := hP.wellFormed (hm'.read ht)
    cases he : t.get? id with
    | some e =>
      obtain ⟨t', hunlink⟩ := hc.exists_unlink he
      simp only [hunlink]
      exact upholds_replace (hP.unlink (hm'.read ht) hunlink) _ m' hm'
    | none =>
      simp only [Table.unlink_eq_error he]
      refine upholds_corruption (hdead.resolve_right fun hl => ?_) m' hm'
      have hholds := holdsKey_of_find (hl s) (fun i t h => hP.wellFormed (hm i t h)) hfound ht
      simp [Table.holdsKey, he] at hholds

theorem upholds_cleanupSafe (hP : Table.Kept good P) :
    (Judgement.upholding P allowed).Meets (cleanupSafe table) := by
  refine fun m => At.read_bind fun t ht hm => ?_
  have hkept := hP.unlinkAll t.tombstones (hm.read ht)
  obtain ⟨t', hunlink, -, -⟩ := (hP.wellFormed (hm.read ht)).unlinkAll_tombstones
  rw [hunlink] at hkept
  simp only [hunlink]
  exact upholds_replace hkept _ m hm

/-! ### Creation, traversal, and reading -/

theorem upholds_alloc {t : Table} (ht : P t) (cls : Value) :
    (Judgement.upholding P allowed).Meets (alloc cls (.table t)) := by
  refine fun m hm => ⟨fun i t' ht' => ?_,
    fun h => absurd h (Uncorrupted.ne (uncorrupted_heedless.alloc _ _) _)⟩
  rcases tableIn?_alloc ht' with ht' | ht'
  · exact hm i t' ht'
  · rwa [← Option.some.inj ht']

/-- An entry that is visited can be unlinked. -/
theorem upholds_afterVisit (hP : Table.Kept good P) (id : EntryId) (action : Visit) :
    (Judgement.upholding P allowed).Meets (afterVisit table id action) := by
  refine meets_afterVisit (upholding_steps table) (fun h ht => hP.unlink ht h) id action ?_
  intro m t e how ht he hfail hm
  obtain ⟨chains, hc⟩ := hP.wellFormed (hm.read ht)
  obtain ⟨t', hunlink⟩ := hc.exists_unlink he
  rw [hunlink] at hfail
  cases hfail

theorem upholds_lookupText (hP : Table.Kept good P) (text : String) :
    (Judgement.upholding P allowed).Meets (lookupText table text) := by
  refine fun m => At.read_bind fun t ht hm => ?_
  dsimp only
  split
  · obtain ⟨ids, hl⟩ := (hP.wellFormed (hm.read ht)).binHead_leads (t.binOf (textHash text))
    exact meets_findTextFrom_of_leads (J := .upholding P allowed) text _ _ hl m hm
  · exact meets_fault (J := .upholding P allowed) (by nofun) m hm

theorem upholds_next (hP : Table.Kept good P) (hallowed : allowed .iteratorEntryVanished)
    (iter : Value) : (Judgement.upholding P allowed).Meets (next iter) := by
  refine meets_next (fun g _ =>
    (quiet_write (fun _ => rfl) _ _).upholds (uncorrupted_heedless.write _ _ _))
    fun {m table t p how} ht hfail hm => ?_
  rcases (hP.wellFormed (hm.read ht)).advance p with ⟨p', hp, -⟩ | hgone
  · rw [hp] at hfail
    cases hfail
  · obtain rfl := Except.error.inj (hgone.symm.trans hfail)
    exact upholds_corruption hallowed m hm

end Dictionary

/-! ### Careful code -/

open Dictionary in
/-- The code made of the operations on tables that ends in none but the allowed corruptions: what
computing a hash, comparing keys and visiting an entry run is code of this kind again.  It puts no
`absent` keys and none but good records into tables, removes keys only if comparing them leaves the
tables alone, and uses no iterators, unless the corruptions that follow are allowed.  Beside the
operations it may do anything that leaves the tables alone. -/
inductive Careful (good : Value → Prop) (allowed : Corruption → Prop) :
    {α : Type} → Effect α → Prop
  | other {α : Type} {a : Effect α} (h : ∀ m, m.TablesWellFormed → (a.after m).Inherits m ∧
      ∀ {how m'}, a m = .error (.fatal (.corruptedTable how)) m' → allowed how) :
      Careful good allowed a
  | bind {α β : Type} {a : Effect α} {f : α → Effect β} (ha : Careful good allowed a)
      (hf : ∀ x, Careful good allowed (f x)) : Careful good allowed (a >>= f)
  | attempt {α β : Type} {a : Effect α} {f : Except Unwind α → Effect β}
      (ha : Careful good allowed a)
      (hf : ∀ x, (∀ how, x = .error (.fatal (.corruptedTable how)) → allowed how) →
        Careful good allowed (f x)) : Careful good allowed (Effect.outcome a >>= f)
  | newTable (strategy : Strategy) (size : Nat) :
      Careful good allowed (Effect.newTable strategy size)
  | copy (table : Value) : Careful good allowed (copy table)
  | lookup {meaning : KeyMeaning} (hhash : ∀ s key, Careful good allowed ((meaning s).hash key))
      (hequal : ∀ s key other, Careful good allowed ((meaning s).equal key other))
      (table key : Value) : Careful good allowed (lookup meaning table key)
  | lookupText (table : Value) (text : String) : Careful good allowed (lookupText table text)
  | insert {meaning : KeyMeaning} (hhash : ∀ s key, Careful good allowed ((meaning s).hash key))
      (hequal : ∀ s key other, Careful good allowed ((meaning s).equal key other)) (table : Value)
      {key record : Value} (hkey : key ≠ .absent) (hrecord : good record) :
      Careful good allowed (insert meaning table key record)
  | add {meaning : KeyMeaning} (hhash : ∀ s key, Careful good allowed ((meaning s).hash key))
      (hequal : ∀ s key other, Careful good allowed ((meaning s).equal key other)) (table : Value)
      {key record : Value} (hkey : key ≠ .absent) (hrecord : good record) :
      Careful good allowed (add meaning table key record)
  | delete {meaning : KeyMeaning} (hhash : ∀ s key, Careful good allowed ((meaning s).hash key))
      (hequal : ∀ s key other, Careful good allowed ((meaning s).equal key other))
      (hdead : allowed .unlinkOfDeadEntry ∨ ∀ s, Loyal (meaning s)) (table key : Value) :
      Careful good allowed (delete meaning table key)
  | deleteSafe {meaning : KeyMeaning} (hhash : ∀ s key, Careful good allowed ((meaning s).hash key))
      (hequal : ∀ s key other, Careful good allowed ((meaning s).equal key other))
      (table key : Value) : Careful good allowed (deleteSafe meaning table key)
  | cleanupSafe (table : Value) : Careful good allowed (cleanupSafe table)
  | forEach {visitor : Value → Value → Effect Visit}
      (hv : ∀ key record, Careful good allowed (visitor key record)) (patience : Nat)
      (table : Value) : Careful good allowed (forEach patience table visitor)
  | next (hgone : allowed .iteratorEntryVanished) (iter : Value) : Careful good allowed (next iter)
  | current (hgone : allowed .iteratorEntryVanished) (iter : Value) :
      Careful good allowed (current iter)

open Effect Judgement Dictionary in
/-- Careful code upholds every property of tables that changes keep. -/
theorem Careful.upholds {good : Value → Prop} {allowed : Corruption → Prop} {P : Table → Prop}
    (hP : Table.Kept good P) {α : Type} {code : Effect α} (h : Careful good allowed code) :
    (Judgement.upholding P allowed).Meets code := by
  have hadd : ∀ {table key record : Value}, key ≠ .absent → good record → ∀ hash,
      (Judgement.upholding P allowed).Meets (addHashed table hash key record) :=
    fun hkey hrecord hash => meets_addHashed upholds_record (upholding_steps _)
      (fun _ ht => hP.rehash ht (Table.primeAtLeast_pos _)) fun _ ht => hP.prepend hash ht hkey hrecord
  induction h with
  | other h =>
    intro m hm
    obtain ⟨hinherits, hcorruption⟩ := h m fun i t ht => hP.wellFormed (hm i t ht)
    exact ⟨hm.inherit hinherits, hcorruption⟩
  | bind _ _ iha ihf => exact Meets.bind iha ihf
  | attempt _ _ iha ihf => exact fun m hm => (iha m hm).outcome_bind fun x m' hx => ihf x hx m'
  | newTable strategy size =>
    exact (meets_ask _).bind fun cls => upholds_alloc (hP.new strategy size) cls
  | copy table => exact meets_copy fun cls ht hm => upholds_alloc (hm.read ht) cls _ hm
  | lookup _ _ table key hhash hequal =>
    exact fun m => at_lookup (upholdingScope m) (fun s => ⟨hhash s, hequal s⟩) (upholds_record _)
  | lookupText table text => exact upholds_lookupText hP text
  | insert _ _ table hkey hrecord hhash hequal =>
    exact fun m => at_insert (upholdingScope m) (fun s => ⟨hhash s, hequal s⟩) (upholds_record _)
      (upholding_steps table) (fun _ id ht => hP.setRecord id ht hrecord)
      fun _ hash _ => hadd hkey hrecord hash
  | add _ _ table hkey hrecord hhash hequal =>
    exact fun m => at_add (upholdingScope m) (fun s => ⟨hhash s, hequal s⟩)
      fun _ hash _ => hadd hkey hrecord hash
  | delete _ _ hdead table key hhash hequal =>
    exact upholds_delete hP (fun s => ⟨hhash s, hequal s⟩) hdead
  | deleteSafe _ _ table key hhash hequal =>
    exact fun m => at_deleteSafe (upholdingScope m) (fun s => ⟨hhash s, hequal s⟩) (upholds_record _)
      (upholding_steps table) fun h ht => hP.tombstone ht h
  | cleanupSafe table => exact upholds_cleanupSafe hP
  | forEach _ patience table hv =>
    exact fun m => at_forEach (upholdingScope m) (fun _ _ _ => upholds_setHandle _ _) hv
      (upholds_afterVisit hP) patience
  | next hgone iter => exact upholds_next hP hgone iter
  | current hgone iter => exact meets_current iter (upholds_corruption hgone)

section

open Effect Judgement

variable {good : Value → Prop} {allowed : Corruption → Prop} {calls : Calls}

theorem careful_of_quiet {a : Effect α} (hq : Quiet a) (hu : Uncorrupted a) :
    Careful good allowed a := .other fun m _ => ⟨hq m, fun h => absurd h (hu.ne _)⟩

theorem careful_pure (x : α) : Careful good allowed (pure x : Effect α) :=
  careful_of_quiet (meets_pure x) (meets_pure x)

theorem careful_raiseError (kind : ErrorKind) (message : String) :
    Careful good allowed (raiseError kind message : Effect α) :=
  careful_of_quiet (quiet_raises.raiseError _ _) (uncorrupted_raises.raiseError _ _)

/-- Keys are careful if the messages they send are. -/
theorem Calls.careful_keys
    (hsend : ∀ v name args, Careful good allowed (calls.send v name args)) (s : Strategy) :
    (∀ key, Careful good allowed ((calls.keys s).hash key)) ∧
      ∀ key other, Careful good allowed ((calls.keys s).equal key other) := by
  have hread : ∀ v, Careful good allowed (read Facet.text v) := fun v =>
    careful_of_quiet (meets_read _ v) (meets_read _ v)
  cases s with
  | symbol => exact ⟨fun _ => careful_pure _, fun _ _ => careful_pure _⟩
  | residue modulus => exact ⟨fun _ => careful_pure _, fun _ _ => careful_pure _⟩
  | text =>
    refine ⟨fun key => .bind (hread key) fun _ => careful_pure _, fun key other => ?_⟩
    simp only [Calls.keys, Keys.text]
    split
    · exact careful_pure _
    · exact .bind (hread key) fun _ => .bind (hread other) fun _ => careful_pure _
  | value =>
    refine ⟨fun key => .bind (hsend key "hash" []) fun v => ?_,
      fun key other => .attempt (hsend key "==" [other]) fun answer hanswer => ?_⟩
    · cases v.fixnum? with
      | some n => exact careful_pure _
      | none => exact careful_raiseError _ _
    · rcases answer with (exc | f) | v
      · refine .bind (careful_of_quiet (quiet_discardException exc _) ?_) fun _ => careful_pure _
        exact uncorrupted_heedless.discardException (fun _ => nofun) exc _
      · refine .other fun m _ => ⟨.of_heap_eq rfl, fun {how m'} h => hanswer how ?_⟩
        rw [Unwind.fatal.inj (EStateM.Result.error.inj h).1]
      · exact careful_pure _

end

/-! ### Keys that meddle -/

/-- Messages to keys that all have the same hash; `==` removes the key that was found, in one of the
two ways, then says yes. -/
def Calls.meddling (table : Value) (remove : KeyMeaning → Value → Value → Effect (Option Value)) :
    Calls where
  send _ name args := do
    if name = "==" then
      let _ ← remove (fun _ => Keys.residue 1) table (args.headD .nil)
      return .yes
    else return .ofNat 0
  run _ := return .nil
  patience := 0

theorem Calls.careful_meddling {good : Value → Prop} {allowed : Corruption → Prop} {table : Value}
    {remove : KeyMeaning → Value → Value → Effect (Option Value)}
    (hremove : ∀ key, Careful good allowed (remove (fun _ => Keys.residue 1) table key))
    (v : Value) (name : String) (args : List Value) :
    Careful good allowed ((meddling table remove).send v name args) := by
  unfold meddling
  dsimp only
  split
  · exact .bind (hremove _) fun _ => careful_pure _
  · exact careful_pure _

/-- Keys that compare without methods of their own are careful. -/
theorem careful_residue {good : Value → Prop} {allowed : Corruption → Prop} (modulus : Nat) :
    (∀ key, Careful good allowed ((Keys.residue modulus).hash key)) ∧
      ∀ key other, Careful good allowed ((Keys.residue modulus).equal key other) :=
  ⟨fun _ => careful_pure _, fun _ _ => careful_pure _⟩

theorem Calls.careful_meddling_delete {good : Value → Prop} {allowed : Corruption → Prop}
    (table v : Value) (name : String) (args : List Value) :
    Careful good allowed ((meddling table Dictionary.delete).send v name args) :=
  careful_meddling (fun key => .delete (fun _ => (careful_residue 1).1) (fun _ => (careful_residue 1).2)
    (Or.inr fun _ _ _ _ _ => .of_heap_eq rfl) table key) v name args

theorem Calls.careful_meddling_deleteSafe {good : Value → Prop} {allowed : Corruption → Prop}
    (table v : Value) (name : String) (args : List Value) :
    Careful good allowed ((meddling table Dictionary.deleteSafe).send v name args) :=
  careful_meddling (fun key => .deleteSafe (fun _ => (careful_residue 1).1)
    (fun _ => (careful_residue 1).2) table key) v name args

/-- A machine with a table for values in slot 0 that has the key 1. -/
def Machine.tabled : Machine :=
  let code : Effect Unit := do
    let table ← Effect.newTable .value 0
    Dictionary.add (fun _ => Keys.residue 1) table (.ofNat 1) .nil
  code.after { heap := { settings := {} } }

theorem Machine.tables_tabled {good : Value → Prop} {P : Table → Prop} (hP : Table.Kept good P)
    (hnil : good .nil) : tabled.Tables P := by
  have hcode : Careful good (fun _ => False) (do
      let table ← Effect.newTable .value 0
      Dictionary.add (fun _ => Keys.residue 1) table (.ofNat 1) .nil) :=
    .bind (.newTable .value 0) fun table =>
      .add (fun _ => (careful_residue 1).1) (fun _ => (careful_residue 1).2) table (by decide) hnil
  refine (hcode.upholds hP _ fun i t ht => ?_).tables
  simp [Heap.tableIn?] at ht

end ObjectMachine
