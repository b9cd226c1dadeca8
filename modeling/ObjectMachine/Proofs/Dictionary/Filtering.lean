import Mathlib.Tactic
import ObjectMachine.Proofs.Dictionary.Traversal
import ObjectMachine.Proofs.Table.Thinning

/-! Traversals as filters.

A visitor that does nothing to the table but leave tombstones cannot lose the traversal its place: the
entries stay where they are, and the one it stands on is unlinked by the traversal itself.  So the
traversal comes to every entry of the start in turn, passes over those that have become tombstones,
and what is in the table in the end is the start without the entries that were taken out. -/

namespace ObjectMachine

open Relation (ReflTransGen)

/-- What an effect may rely on: handles above those of an earlier machine and writes to the table do
not matter to it. -/
structure Machine.Condition (table : Value) (base : Machine) (inv : Machine → Prop) : Prop where
  handles {m : Machine} (handles : Array Value) : inv m → base.Carries { m with handles := handles } →
    inv { m with handles := handles }
  write {m : Machine} (t : Table) : inv m →
    inv { m with heap := m.heap.modify Facet.table table fun _ => t }

theorem Machine.Condition.trans {table : Value} {base m : Machine} {inv : Machine → Prop}
    (h : Machine.Condition table base inv) (hc : base.Carries m) : Machine.Condition table m inv :=
  ⟨fun handles hm hm' => h.handles handles hm (hc.trans hm'), h.write⟩

/-- On a machine that hosts the table, in order, the effect answers; it has left tombstones in the
table and made no other changes there. -/
def Effect.Sifts (table : Value) (base : Machine) (inv : Machine → Prop) (a : Effect α)
    (m : Machine) : Prop :=
  ∀ t, m.Hosts table t base → t.WellFormed → inv m → ∃ x m' t', a m = .ok x m' ∧
    ReflTransGen Table.Bury t t' ∧ m'.Hosts table t' base ∧ inv m'

namespace Effect

open Machine

variable {α β : Type} {table : Value} {base m : Machine} {inv : Machine → Prop} {a : Effect α}
  {f : α → Effect β}

theorem sifts_pure (x : α) : Sifts table base inv (pure x) m :=
  fun t ht _ hi => ⟨x, m, t, rfl, .refl, ht, hi⟩

theorem Sifts.bind (ha : Sifts table base inv a m)
    (hf : ∀ x m', a m = .ok x m' → Sifts table base inv (f x) m') :
    Sifts table base inv (a >>= f) m := by
  intro t ht hw hi
  obtain ⟨x, m₁, t₁, h, hsteps, ht₁, hi₁⟩ := ha t ht hw hi
  have hw₁ := hw.changes (Table.evolves_of_buries hsteps).changes
  obtain ⟨y, m₂, t₂, h', hsteps', ht₂, hi₂⟩ := hf x m₁ h t₁ ht₁ hw₁ hi₁
  exact ⟨y, m₂, t₂, (bind_of_ok h).trans h', hsteps.trans hsteps', ht₂, hi₂⟩

theorem Sifts.rebase (ha : Sifts table m inv a m) : Sifts table base inv a m := by
  intro t ht hw hi
  obtain ⟨x, m', t', h, hsteps, ht', hi'⟩ := ha t ht.self hw hi
  exact ⟨x, m', t', h, hsteps, ht.rebase ht', hi'⟩

/-- Reading the table. -/
theorem Sifts.table_bind {f : Table → Effect β}
    (hf : ∀ t, m.Hosts table t base → inv m → Sifts table base inv (f t) m) :
    Sifts table base inv (read Facet.table table >>= f) m := by
  intro t ht hw hi
  obtain ⟨y, m', t', h, hrest⟩ := hf t ht hi t ht hw hi
  exact ⟨y, m', t', (bind_of_ok (read_of_ok ht.table_eq)).trans h, hrest⟩

theorem Sifts.withHandles (hinv : Condition table m inv) (ha : Sifts table m inv a m) :
    Sifts table base inv (withHandles a) m := by
  intro t ht hw hi
  obtain ⟨x, m', t', h, hsteps, ht', hi'⟩ := ha t ht.self hw hi
  have hback := ht'.carries.shrink
  refine ⟨x, { m' with handles := m'.handles.shrink m.handles.size }, t', ?_, hsteps,
    (ht.rebase ht').of_heap_eq rfl (ht.carries.trans hback), hinv.handles _ hi' hback⟩
  rw [withHandles_eq, h]

theorem sifts_pinAll (hinv : Condition table base inv) (vs : List Value) :
    Sifts table base inv (pinAll vs) m := by
  intro t ht _ hi
  have hc : m.Carries { m with handles := m.handles ++ vs.toArray } :=
    ⟨rfl, rfl, rfl, by simp, List.Subset.refl _⟩
  exact ⟨(), _, t, pinAll_eq vs m, .refl, ht.of_heap_eq rfl (ht.carries.trans hc),
    hinv.handles _ hi (ht.carries.trans hc)⟩

/-- Leaving a tombstone. -/
theorem sifts_bury (hinv : Condition table base inv) {t t' : Table} {id : EntryId} {e : Entry}
    (hread : m.heap.read Facet.table table = .ok t) (h : t.tombstone id = some (e, t')) :
    Sifts table base inv (write Facet.table table fun _ => t') m := by
  intro s hs _ hi
  obtain rfl : s = t := hs.unique hread
  exact ⟨(), _, t', write_of_ok hread _, .single ⟨id, e, h⟩, hs.change _, hinv.write t' hi⟩

end Effect

namespace Dictionary

open Effect Machine

variable {table key : Value} {base m m' : Machine} {inv : Machine → Prop} {keys : Keys}
  {hash : UInt64} {handles : VisitHandles} {visitor : Value → Value → Effect Visit} {t t' : Table}

/-! ### Leaving tombstones by key -/

/-- A key can be looked for: its hash is answered, and so are the comparisons with the keys of the
table, which may leave tombstones themselves. -/
structure SiftingKey (table : Value) (base : Machine) (inv : Machine → Prop) (keys : Keys)
    (key : Value) : Prop where
  hash {m : Machine} : base.Carries m → Sifts table m inv (keys.hash key) m
  equal {m : Machine} {t : Table} {id : EntryId} {e : Entry} : m.Hosts table t base → inv m →
    t.get? id = some e → e.isTombstone = false → Sifts table m inv (keys.equal key e.key) m

theorem SiftingKey.trans (h : SiftingKey table base inv keys key) (hbase : table ∈ base.roots)
    (hc : base.Carries m) : SiftingKey table m inv keys key where
  hash hc' := h.hash (hc.trans hc')
  equal ht := h.equal ⟨ht.table_eq, hbase, hc.trans ht.carries, ht.sound, ht.unmarked⟩

theorem sifts_isMatch (hk : SiftingKey table base inv keys key) (hash : UInt64) {id : EntryId}
    {e : Entry} (ht : m.Hosts table t base) (hi : inv m) (he : t.get? id = some e) :
    Sifts table base inv (isMatch keys key hash e) m := by
  unfold isMatch
  split
  · rename_i hhit
    rw [Bool.and_eq_true, Bool.not_eq_true'] at hhit
    split
    · exact sifts_pure _
    · exact (hk.equal ht hi he hhit.2).rebase
  · exact sifts_pure _

/-- A search along a chain comes to its end. -/
theorem exists_findFrom (hk : SiftingKey table base inv keys key) (fuel : Nat) :
    ∀ {m : Machine} {t : Table} {bin : Nat} {cursor : Option EntryId} {rest : List EntryId},
      m.Hosts table t base → inv m → t.Stands bin cursor rest → rest.length ≤ fuel →
      ∃ found m' t', findFrom keys table key hash fuel cursor m = .ok found m' ∧
        ReflTransGen Table.Bury t t' ∧ m'.Hosts table t' base ∧ inv m' := by
  induction fuel with
  | zero =>
    intro m t bin cursor rest ht hi hstands hlen
    obtain rfl := List.length_eq_zero_iff.mp (Nat.le_zero.mp hlen)
    obtain rfl : cursor = none := hstands.cursor_eq
    exact ⟨none, m, t, by rw [findFrom]; rfl, .refl, ht, hi⟩
  | succ fuel ih =>
    intro m t bin cursor rest ht hi hstands hlen
    cases cursor with
    | none => exact ⟨none, m, t, by rw [findFrom]; rfl, .refl, ht, hi⟩
    | some id =>
      obtain ⟨post, rfl⟩ := hstands.exists_cons
      obtain ⟨e, he⟩ := hstands.exists_entry
      obtain ⟨hit, m₁, t₁, hmatch, hsteps, ht₁, hi₁⟩ :=
        sifts_isMatch hk hash ht hi he t ht hstands.wellFormed hi
      have hnext := ((hstands.next he).still (Table.evolves_of_buries hsteps)).1
      have hstep : findFrom keys table key hash (fuel + 1) (some id) m =
          (if hit then pure (some id) else findFrom keys table key hash fuel e.next :
            Effect (Option EntryId)) m₁ := by
        rw [findFrom, bind_of_ok (read_of_ok ht.table_eq), he]
        exact bind_of_ok hmatch
      cases hit with
      | true => exact ⟨some id, m₁, t₁, hstep, hsteps, ht₁, hi₁⟩
      | false =>
        obtain ⟨found, m', t', hfind, hsteps', hend⟩ :=
          ih ht₁ hi₁ hnext (Nat.le_of_succ_le_succ hlen)
        exact ⟨found, m', t', hstep.trans hfind, hsteps.trans hsteps', hend⟩

theorem sifts_find (hk : SiftingKey table base inv keys key) :
    Sifts table base inv (find keys table key hash) m := by
  intro t ht hw hi
  obtain ⟨chains, hc⟩ := id hw
  have hb := hc.binOf_lt hash
  have hlen : (t.chainIds (t.binOf hash)).length ≤ t.slots.size + 1 + keys.patience := by
    rw [hc.chainIds_eq hb]
    exact (hc.ends _ hb).length_le.trans (by omega)
  obtain ⟨found, m', t', hfind, hrest⟩ := exists_findFrom hk _ ht hi (hw.stands hb) hlen
  exact ⟨found, m', t', (bind_of_ok (read_of_ok ht.table_eq)).trans hfind, hrest⟩

/-- Removing a key in the safe way answers and leaves a tombstone at most. -/
theorem sifts_deleteSafe {meaning : KeyMeaning} (hinv : Condition table base inv)
    (hbase : table ∈ base.roots) (hk : ∀ {m : Machine} {t : Table}, m.Hosts table t base → inv m →
      SiftingKey table base inv (meaning t.strategy) key) (hc : base.Carries m) :
    Sifts table m inv (deleteSafe meaning table key) m := by
  have hinv' := hinv.trans hc
  refine Sifts.withHandles hinv' ((sifts_pinAll hinv' _).bind fun _ m₁ _ => ?_)
  rw [keysOf_bind]
  refine Sifts.table_bind fun t ht hi => ?_
  have hkey := (hk ⟨ht.table_eq, hbase, hc.trans ht.carries, ht.sound, ht.unmarked⟩ hi).trans hbase hc
  refine (hkey.hash ht.carries).rebase.bind fun hash m₂ _ => (sifts_find hkey).bind fun found _ _ => ?_
  cases found with
  | none => exact sifts_pure _
  | some id =>
    refine Sifts.table_bind fun t ht _ => ?_
    cases h : t.tombstone id with
    | none => exact sifts_pure _
    | some p => exact (sifts_bury hinv' ht.table_eq h).bind fun _ _ _ => sifts_pure _

/-! ### What a traversal takes out -/

/-- The keys that became tombstones during a visit. -/
def Visited.removed (v : Visited) : List EntryId :=
  v.before.entryIds.filter fun id => v.before.holdsKey id && !v.after.holdsKey id

/-- What is taken out by a visit: the keys that became tombstones, and the visited one if the visitor
asks for it. -/
def Visited.gone (v : Visited) : List EntryId :=
  v.removed ++ if v.action = .delete then [v.id] else []

/-- The visits of a traversal that has certain mappings ahead and knows some to be taken out: those
that were taken out are skipped, the others are visited in their order, and a visit may be the last. -/
inductive Sweeps : List EntryId → List (EntryId × Entry) → List Visited → Prop
  | ended {gone : List EntryId} : Sweeps gone [] []
  | skipped {gone : List EntryId} {p : EntryId × Entry} {pairs : List (EntryId × Entry)}
      {visits : List Visited} (hp : p.1 ∈ gone) (h : Sweeps gone pairs visits) :
      Sweeps gone (p :: pairs) visits
  | stopped {gone : List EntryId} {v : Visited} {pairs : List (EntryId × Entry)} (hv : v.id ∉ gone)
      (hstop : v.action = .stop) : Sweeps gone ((v.id, v.entry.content) :: pairs) [v]
  | visited {gone : List EntryId} {v : Visited} {pairs : List (EntryId × Entry)}
      {visits : List Visited} (hv : v.id ∉ gone) (hgo : v.action ≠ .stop)
      (h : Sweeps (gone ++ v.gone) pairs visits) :
      Sweeps gone ((v.id, v.entry.content) :: pairs) (v :: visits)

/-- The visited entries are some of those ahead, in their order. -/
theorem Sweeps.sublist {gone : List EntryId} {pairs : List (EntryId × Entry)}
    {visits : List Visited} (h : Sweeps gone pairs visits) :
    (visits.map fun v => (v.id, v.entry.content)).Sublist pairs := by
  induction h with
  | ended => exact .slnil
  | skipped _ _ ih => exact ih.cons _
  | stopped _ _ => exact (List.nil_sublist _).cons_cons _
  | visited _ _ _ ih => exact ih.cons_cons _

/-- If every visit asks for its entry to be taken out, all are. -/
theorem Sweeps.mem_gone {gone : List EntryId} {pairs : List (EntryId × Entry)}
    {visits : List Visited} (h : Sweeps gone pairs visits) (hall : ∀ v ∈ visits, v.action = .delete) :
    ∀ p ∈ pairs, p.1 ∈ gone ++ visits.flatMap Visited.gone := by
  induction h with
  | ended => simp
  | skipped hp _ ih =>
    rintro p (_ | ⟨_, hmem⟩)
    · exact List.mem_append_left _ hp
    · exact ih hall p hmem
  | stopped _ hstop =>
    have hdelete := hall _ List.mem_cons_self
    rw [hstop] at hdelete
    cases hdelete
  | @visited gone v pairs visits _ _ _ ih =>
    have hdelete := hall v List.mem_cons_self
    rw [List.flatMap_cons, ← List.append_assoc]
    rintro p (_ | ⟨_, hmem⟩)
    · refine List.mem_append_left _ (List.mem_append_right _ ?_)
      simp [Visited.gone, hdelete]
    · exact ih (fun w hw => hall w (List.mem_cons_of_mem _ hw)) p hmem

/-- The mappings after a visit that left tombstones are those that were not removed. -/
theorem Visited.mapping?_after {v : Visited} (hw : v.before.WellFormed)
    (h : ReflTransGen Table.Bury v.before v.after) (j : EntryId) :
    v.after.mapping? j = if j ∈ v.removed then none else v.before.mapping? j := by
  have hrest := Table.mapping?_of_buries h j
  simp only [Visited.removed, List.mem_filter, Bool.and_eq_true, Bool.not_eq_true', Table.holdsKey_eq]
  split
  · rename_i hj
    exact Option.isNone_iff_eq_none.mp (by simpa using hj.2.2)
  · rename_i hj
    rcases hrest with hsame | hnone
    · exact hsame
    rw [hnone]
    cases he : v.before.mapping? j with
    | none => rfl
    | some e =>
      obtain ⟨f, hf, -⟩ := Table.mapping?_eq_some_iff.mp he
      have hmem := hw.isLive_iff_mem.mp (Table.isLive_of_get? hf)
      exact absurd ⟨hmem, by simp [he], by simp [hnone]⟩ hj

/-! ### Runs -/

/-- The state of a traversal that started with a certain table and knows which ids were taken out
since. -/
structure Sifting (table : Value) (base : Machine) (inv : Machine → Prop) (start : Table)
    (m : Machine) (t : Table) (gone : List EntryId) : Prop where
  hosts : m.Hosts table t base
  holds : inv m
  thins : start.Thins t
  mapping?_eq : ∀ j, t.mapping? j = if j ∈ gone then none else start.mapping? j

variable {start : Table} {gone : List EntryId} {bin : Nat} {id : EntryId} {e : Entry}
  {post rest : List EntryId}

/-- A visit is made, and the cursor is on its entry still. -/
theorem Sifting.exists_visit (h : Sifting table base inv start m t gone)
    (hinv : Condition table base inv) (hkey : base.handles.size ≤ handles.key)
    (hrecord : base.handles.size ≤ handles.record)
    (hv : ∀ key record {m : Machine}, base.Carries m → Sifts table m inv (visitor key record) m)
    (hstands : t.Stands bin (some id) (id :: post)) (he : t.get? id = some e)
    (hd : e.isTombstone = false) :
    ∃ v : Visited, v.Made table handles visitor m ∧ v.id = id ∧ v.entry = e ∧
      Sifting table base inv start v.answered v.after (gone ++ v.removed) ∧
      v.after.Stands bin (some id) (id :: post) ∧
      v.after.following bin post = t.following bin post := by
  have hheld := holding_hosts h.hosts hkey hrecord e
  have hholds : inv (m.holding handles e) := hinv.handles _ h.holds hheld.carries
  obtain ⟨action, m₁, t₁, hvisit, hsteps, ht₁, hi₁⟩ :=
    (hv e.key e.record hheld.carries).rebase t hheld hstands.wellFormed hholds
  have hevolves := Table.evolves_of_buries hsteps
  obtain ⟨hstands₁, hfollowing⟩ := hstands.still hevolves
  let v : Visited := ⟨id, e, m.holding handles e, t, action, m₁, t₁⟩
  refine ⟨v, ⟨h.hosts.table_eq, he, hd, rfl, hvisit, ht₁.table_eq⟩, rfl, rfl, ⟨ht₁, hi₁,
    h.thins.trans (.of_evolves hstands.wellFormed hevolves), fun j => ?_⟩, hstands₁, hfollowing post⟩
  rw [v.mapping?_after hstands.wellFormed hsteps, h.mapping?_eq]
  by_cases hj : j ∈ gone <;> simp [hj]

/-- Unless the visit is to be the last, the traversal goes on along the chain. -/
theorem Sifting.exists_next {v : Visited}
    (h : Sifting table base inv start v.answered v.after (gone ++ v.removed))
    (hinv : Condition table base inv) (hstands : v.after.Stands bin (some v.id) (v.id :: post))
    (hgo : v.action ≠ .stop) :
    ∃ next m' t', afterVisit table v.id v.action v.answered = .ok (.inl next) m' ∧
      Sifting table base inv start m' t' (gone ++ v.gone) ∧ t'.Stands bin next post ∧
      t'.following bin post = v.after.following bin post := by
  obtain ⟨e, he⟩ := hstands.exists_entry
  have hafter := afterVisit_eq h.hosts.table_eq he v.action
  have hkept : v.action ≠ .delete → Sifting table base inv start v.answered v.after (gone ++ v.gone) :=
    fun hkeep => by rwa [Visited.gone, if_neg hkeep, List.append_nil]
  cases ha : v.action with
  | stop => exact absurd ha hgo
  | proceed =>
    rw [ha] at hafter
    exact ⟨e.next, _, _, hafter, hkept (by simp [ha]), hstands.next he, rfl⟩
  | check =>
    rw [ha] at hafter
    dsimp only at hafter
    rw [if_pos (hstands.wellFormed.chainContains he)] at hafter
    exact ⟨e.next, _, _, hafter, hkept (by simp [ha]), hstands.next he, rfl⟩
  | delete =>
    obtain ⟨chains, hc⟩ := id hstands.wellFormed
    obtain ⟨_, _, -, hu⟩ := hc.unlink_eq he
    rw [ha] at hafter
    simp only [hu] at hafter
    obtain ⟨hnext, hfollowing⟩ := hstands.unlink hu
    refine ⟨e.next, _, _, hafter, ⟨h.hosts.change _, hinv.write _ h.holds,
      h.thins.trans (.of_unlink hstands.wellFormed hu), fun j => ?_⟩, hnext, hfollowing⟩
    rw [Table.mapping?_unlink hc hu, h.mapping?_eq, Visited.gone, if_pos ha]
    by_cases hj : j = v.id <;> simp [hj]

/-- At a request to stop the traversal ends with success. -/
theorem Sifting.afterVisit_stop {v : Visited} (h : Sifting table base inv start v.answered v.after gone)
    (hstands : v.after.Stands bin (some v.id) (v.id :: post)) (hstop : v.action = .stop) :
    afterVisit table v.id v.action v.answered = .ok (.inr true) v.answered := by
  obtain ⟨e, he⟩ := hstands.exists_entry
  rw [afterVisit_eq h.hosts.table_eq he, hstop]

/-- From every cursor on, the traversal comes to its end with success. -/
theorem Sifting.exists_traverses (hinv : Condition table base inv)
    (hkey : base.handles.size ≤ handles.key) (hrecord : base.handles.size ≤ handles.record)
    (hv : ∀ key record {m : Machine}, base.Carries m → Sifts table m inv (visitor key record) m)
    (k : Nat) :
    ∀ {m : Machine} {t : Table} {gone : List EntryId} {bin : Nat} {cursor : Option EntryId}
      {rest : List EntryId}, Sifting table base inv start m t gone → t.Stands bin cursor rest →
      start.bins.size - bin + (t.following bin rest).length ≤ k →
      ∃ n visits m' t', n ≤ k ∧ Traverses table handles visitor n m bin cursor visits true m' ∧
        Sweeps gone (start.mappingsOf (t.following bin rest)) visits ∧
        Sifting table base inv start m' t' (gone ++ visits.flatMap Visited.gone) := by
  induction k with
  | zero =>
    intro m t gone bin cursor rest h hstands hk
    have hb := hstands.bin_lt
    rw [h.thins.size_eq] at hb
    omega
  | succ k ih =>
    intro m t gone bin cursor rest h hstands hk
    have hb := hstands.bin_lt
    have hread := h.hosts.table_eq
    cases cursor with
    | none =>
      obtain rfl := hstands.nil_of_none
      by_cases hbin : bin + 1 < t.bins.size
      · rw [Table.following_next hbin] at hk ⊢
        rw [h.thins.size_eq] at hb
        obtain ⟨n, visits, m', t', hn, htrace, hrest⟩ :=
          ih h (hstands.wellFormed.stands hbin) (by omega)
        exact ⟨n + 1, visits, m', t', Nat.succ_le_succ hn, .nextBin hread hbin htrace, hrest⟩
      · rw [Table.following_end hbin]
        exact ⟨1, [], m, t, by omega, .finished hread hbin, .ended, by simpa using h⟩
    | some id =>
      obtain ⟨post, rfl⟩ := hstands.exists_cons
      obtain ⟨e, he⟩ := hstands.exists_entry
      have hcons : t.following bin (id :: post) = id :: t.following bin post := rfl
      rw [hcons, List.length_cons] at hk
      rw [hcons]
      have hid := h.mapping?_eq id
      cases hd : e.isTombstone with
      | true =>
        obtain ⟨n, visits, m', t', hn, htrace, hsweeps, hend⟩ := ih h (hstands.next he) (by omega)
        refine ⟨n + 1, visits, m', t', Nat.succ_le_succ hn, .passed hread he hd htrace, ?_, hend⟩
        -- a tombstone had no mapping in the beginning or lost it since
        have hnone : t.mapping? id = none := by simp [Table.mapping?, Table.content?, he, hd]
        cases hold : start.mapping? id with
        | none => rwa [Table.mappingsOf_cons_of_none hold]
        | some f =>
          rw [Table.mappingsOf_cons_of_some hold]
          refine .skipped ?_ hsweeps
          rw [hnone, hold] at hid
          by_contra hout
          rw [if_neg hout] at hid
          cases hid
      | false =>
        rw [Table.mapping?_of_get? he hd] at hid
        split at hid
        · cases hid
        · rename_i hout
          obtain ⟨v, hmade, rfl, rfl, h₁, hstands₁, hfollowing₁⟩ :=
            h.exists_visit hinv hkey hrecord hv hstands he hd
          rw [Table.mappingsOf_cons_of_some hid.symm]
          by_cases hstop : v.action = .stop
          · refine ⟨1, [v], v.answered, v.after, by omega,
              .ended hmade (h₁.afterVisit_stop hstands₁ hstop), .stopped hout hstop, ?_⟩
            have hgone : [v].flatMap Visited.gone = v.removed := by simp [Visited.gone, hstop]
            rwa [hgone]
          · obtain ⟨next, m₂, t₂, hafter, h₂, hstands₂, hfollowing₂⟩ :=
              h₁.exists_next hinv hstands₁ hstop
            rw [hfollowing₁] at hfollowing₂
            obtain ⟨n, visits, m', t', hn, htrace, hsweeps, hend⟩ :=
              ih h₂ hstands₂ (by rw [hfollowing₂]; omega)
            rw [hfollowing₂] at hsweeps
            refine ⟨n + 1, v :: visits, m', t', Nat.succ_le_succ hn, .visited hmade hafter htrace,
              .visited hout hstop hsweeps, ?_⟩
            rwa [List.flatMap_cons, ← List.append_assoc]

/-- A traversal whose visitor leaves tombstones in the table at most, and answers what it likes, ends
with success.  It visits the mappings of the start in their order, each once, up to the first request
to stop, except those that were taken out before their turn came; and the table has in the end what it
had in the beginning, in the same order, without what was taken out by the visits.  In particular it
is empty if every visit asks for its entry to be taken out.  Removing keys in the safe way is all right
for a visitor, if the methods of the keys answer. -/
theorem traversals_filter (table : Value) (visitor : Value → Value → Effect Visit)
    {inv : Machine → Prop} {m : Machine} {t : Table} (ht : m.heap.read Facet.table table = .ok t)
    (hw : t.WellFormed) (hsound : m.heap.Sound) (hunmarked : m.heap.Unmarked)
    (hinv : Condition table { m with handles := m.handles.push table } inv) (hi : inv m) :
    (∀ (meaning : KeyMeaning) (key : Value),
      (∀ {m' : Machine} {t' : Table},
        m'.Hosts table t' { m with handles := m.handles.push table } → inv m' →
        SiftingKey table { m with handles := m.handles.push table } inv (meaning t'.strategy) key) →
      ∀ {m' : Machine}, Carries { m with handles := m.handles.push table } m' →
        Sifts table m' inv (deleteSafe meaning table key) m') ∧
    ((∀ key record {m' : Machine}, Carries { m with handles := m.handles.push table } m' →
        Sifts table m' inv (visitor key record) m') →
      ∀ patience : Nat, ∃ n visits m' t', forEach patience table visitor m = .ok true m' ∧
        TraversesAll table visitor n m t visits true m' ∧
        t.entries = t.mappings.map (fun p => (p.2.key, p.2.record)) ∧
        Sweeps [] t.mappings visits ∧ (visits.map (·.id)).Nodup ∧
        m'.heap.read Facet.table table = .ok t' ∧
        t'.entries = (t.mappings.filter fun p => decide (p.1 ∉ visits.flatMap Visited.gone)).map
          (fun p => (p.2.key, p.2.record)) ∧
        t'.count = t'.entries.length ∧
        ((∀ v ∈ visits, v.action = .delete) → t'.entries = [])) := by
  have hroot := mem_roots_push m table
  refine ⟨fun meaning key hk m' hc => sifts_deleteSafe hinv hroot hk hc, fun hv patience => ?_⟩
  have hpos := hw.bins_pos
  have hwalking : (walking table m).Hosts table t { m with handles := m.handles.push table } :=
    ⟨ht, hroot, ⟨rfl, rfl, rfl, by simp [walking], List.Subset.refl _⟩, hsound, hunmarked⟩
  have hstart : Sifting table { m with handles := m.handles.push table } inv t (walking table m) t [] :=
    ⟨hwalking, hinv.handles _ hi hwalking.carries, .refl hw, by simp⟩
  have hkey : (m.handles.push table).size ≤ (visitHandles m).key := by simp [visitHandles]
  have hrecord : (m.handles.push table).size ≤ (visitHandles m).record := by simp [visitHandles]
  obtain ⟨n, visits, m₁, t', hn, htrace, hsweeps, hend⟩ :=
    hstart.exists_traverses hinv hkey hrecord hv _ (hw.stands hpos) le_rfl
  rw [hw.following_zero] at hn hsweeps
  have hall : TraversesAll table visitor n m t visits true
      { m₁ with handles := m₁.handles.shrink m.handles.size } := ⟨ht, m₁, htrace, rfl⟩
  have hentries : t'.entries = (t.mappings.filter fun p =>
      decide (p.1 ∉ visits.flatMap Visited.gone)).map (fun p => (p.2.key, p.2.record)) := by
    rw [hend.thins.wellFormed.entries_eq, hend.thins.mappings_eq hend.mapping?_eq, List.nil_append]
  refine ⟨n, visits, _, t', hall.forEach_eq ?_, hall, hw.entries_eq, hsweeps, ?_, hend.hosts.table_eq,
    hentries, ?_, fun hdelete => ?_⟩
  · have hlen : t.entryIds.length ≤ t.slots.size := by
      refine Table.length_le_slots hw.nodup_entryIds fun id hid => ?_
      exact Table.exists_of_isLive (hw.isLive_iff_mem.mpr hid)
    omega
  · have hsub := hsweeps.sublist.map (·.1)
    rw [List.map_map] at hsub
    exact (hsub.trans (t.map_fst_mappingsOf_sublist _)).nodup hw.nodup_entryIds
  · obtain ⟨chains, hc⟩ := hend.thins.wellFormed
    exact hc.count_eq_length
  · rw [hentries, List.map_eq_nil_iff, List.filter_eq_nil_iff]
    intro p hp
    simpa using hsweeps.mem_gone hdelete p hp

/-- A visitor that removes the key 1 from the table in slot 0 in the safe way, and has the key 3 taken
out. -/
def pruning (key _ : Value) : Effect Visit := do
  let _ ← deleteSafe (fun _ => Keys.residue 3) (.ofSlot 0 0) (.ofNat 1)
  return if key = .ofNat 3 then .delete else .check

theorem traversals_filter_pruning : ∃ n visits m' t',
    forEach 0 (.ofSlot 0 0) pruning (.storing (numbered 5)) = .ok true m' ∧
      TraversesAll (.ofSlot 0 0) pruning n (.storing (numbered 5)) (numbered 5) visits true m' ∧
      Sweeps [] (numbered 5).mappings visits ∧ m'.heap.read Facet.table (.ofSlot 0 0) = .ok t' ∧
      t'.entries = [(.ofNat 0, .ofNat 0), (.ofNat 4, .ofNat 4), (.ofNat 2, .ofNat 2)] ∧
      t'.count = 3 := by
  have hcondition : Condition (.ofSlot 0 0)
      { Machine.storing (numbered 5) with handles := #[.ofSlot 0 0] } fun _ => True :=
    ⟨fun _ _ _ => trivial, fun _ _ => trivial⟩
  obtain ⟨hsound, hunmarked⟩ := Machine.sound_storing (numbered 5)
  obtain ⟨hsafe, htraverse⟩ := traversals_filter (.ofSlot 0 0) pruning
    (Machine.read_storing (numbered 5)) (wellFormed_numbered (by decide)) hsound hunmarked hcondition
    trivial
  obtain ⟨n, visits, m', t', h, hall, -, hsweeps, -, ht', -, hcount, -⟩ := htraverse
    (fun key record m' hc => (hsafe (fun _ => Keys.residue 3) (.ofNat 1)
      (fun _ _ => ⟨fun _ => sifts_pure _, fun _ _ _ _ => sifts_pure _⟩) hc).bind
        fun _ _ _ => sifts_pure _) 0
  have hrun : succeedsWith (forEach 0 (.ofSlot 0 0) pruning) (.ofSlot 0 0)
      (fun t => decide (t.entries =
        [(.ofNat 0, .ofNat 0), (.ofNat 4, .ofNat 4), (.ofNat 2, .ofNat 2)]))
      (.storing (numbered 5)) = true := by decide +kernel
  obtain ⟨m₁, t₁, hrun, ht₁, hentries⟩ := exists_of_succeedsWith hrun
  obtain ⟨-, rfl⟩ := EStateM.Result.ok.inj (h.symm.trans hrun)
  obtain rfl := Except.ok.inj (ht'.symm.trans ht₁)
  have hentries := of_decide_eq_true hentries
  exact ⟨n, visits, m', t', h, hall, hsweeps, ht', hentries, by rw [hcount, hentries]; rfl⟩

end Dictionary

end ObjectMachine
