import Mathlib.Tactic
import ObjectMachine.Proofs.Table.Drift

/-! Ids of entries never stand for another entry.

Callers keep ids while a table changes, and the slots of unlinked entries are used again.  Two
invariants of whole runs tie the ids to the slots: an id that was returned never has a later
generation than its slot, and an earlier one once its entry is gone; and the generation of a slot
counts the ids that were returned for it before.  So a new id is new, and what an id resolves to is
told by the calls that name it, whatever the other calls do to the slot. -/

namespace ObjectMachine.Table

variable {t : Table} {id : EntryId} {e : Entry}

/-! ### Runs -/

/-- A call on a table. Any id may be named, also one that was never returned. -/
inductive Call where
  | prepend (hash : UInt64) (key record : Value)
  | rehash (bins : Nat) (h : 0 < bins)
  | unlink (id : EntryId)
  | tombstone (id : EntryId)
  | write (id : EntryId) (record : Value)

/-- The table after a call; a call that fails leaves it as it is. -/
def serve (t : Table) : Call → Table
  | .prepend hash key record => t.prepend hash key record
  | .rehash bins _ => t.rehash bins
  | .unlink id =>
    match t.unlink id with
    | .ok (_, t') => t'
    | .error _ => t
  | .tombstone id =>
    match t.tombstone id with
    | some (_, t') => t'
    | none => t
  | .write id record => t.setRecord id record

/-- The table after some calls. -/
def serveAll (t : Table) (calls : List Call) : Table := calls.foldl serve t

/-- The id that a call returns: that of the entry it prepends. -/
def returned (t : Table) : Call → List EntryId
  | .prepend .. => [t.nextId]
  | _ => []

/-- The ids that some calls return, in their order. -/
def given (t : Table) : List Call → List EntryId
  | [] => []
  | call :: rest => t.returned call ++ (t.serve call).given rest

theorem serveAll_cons (t : Table) (call : Call) (rest : List Call) :
    t.serveAll (call :: rest) = (t.serve call).serveAll rest := rfl

theorem serveAll_append (t : Table) (before after : List Call) :
    t.serveAll (before ++ after) = (t.serveAll before).serveAll after := List.foldl_append

/-- What a call makes of the entry of an id, nothing if it unlinks it. Only calls that name the id
concern it, and a tombstone does not become one again. -/
def Call.onEntry (id : EntryId) : Call → Entry → Option Entry
  | .unlink other, e => if other = id then none else some e
  | .tombstone other, e =>
    some (if other = id ∧ e.isTombstone = false then { e with key := .absent, record := .absent } else e)
  | .write other record, e => some (if other = id then { e with record := record } else e)
  | _, e => some e

/-- What some calls make of the entry of an id. -/
def Call.fate (id : EntryId) (calls : List Call) (e : Entry) : Option Entry :=
  calls.foldlM (fun e call => call.onEntry id e) e

theorem Call.fate_cons (id : EntryId) (call : Call) (rest : List Call) (e : Entry) :
    Call.fate id (call :: rest) e = (call.onEntry id e).bind (Call.fate id rest) := by
  rw [Call.fate, List.foldlM_cons]
  rfl

theorem Call.fate_of_unlinked {calls : List Call} (h : .unlink id ∈ calls) (e : Entry) :
    Call.fate id calls e = none := by
  induction calls generalizing e with
  | nil => simp at h
  | cons call rest ih =>
    rw [Call.fate_cons]
    rcases List.mem_cons.mp h with rfl | hrest
    · simp [Call.onEntry]
    · cases call.onEntry id e with
      | none => rfl
      | some e' => exact ih hrest e'

theorem Call.bind_onEntry {call : Call} (h : ∀ e, call.onEntry id e = some e) (o : Option Entry) :
    o.bind (call.onEntry id) = o := by
  cases o with
  | none => rfl
  | some e => exact h e

/-- A call that does not unlink the entry keeps its hash, and its key and record unless it marks or
writes it. -/
theorem Call.onEntry_keeps (call : Call) (h : call ≠ .unlink id) (e : Entry) :
    ∃ e', call.onEntry id e = some e' ∧ e'.hash = e.hash ∧
      (call ≠ .tombstone id → e'.key = e.key ∧
        ((∀ record, call ≠ .write id record) → e'.record = e.record)) := by
  cases call with
  | prepend hash key record => exact ⟨e, rfl, rfl, fun _ => ⟨rfl, fun _ => rfl⟩⟩
  | rehash bins hb => exact ⟨e, rfl, rfl, fun _ => ⟨rfl, fun _ => rfl⟩⟩
  | unlink other =>
    have hother : other ≠ id := fun hi => h (hi ▸ rfl)
    exact ⟨e, by simp [Call.onEntry, hother], rfl, fun _ => ⟨rfl, fun _ => rfl⟩⟩
  | tombstone other =>
    refine ⟨_, rfl, by split <;> rfl, fun hne => ?_⟩
    have hother : other ≠ id := fun hi => hne (hi ▸ rfl)
    simp [hother]
  | write other record =>
    refine ⟨_, rfl, by split <;> rfl, fun _ => ⟨by split <;> rfl, fun hne => ?_⟩⟩
    have hother : other ≠ id := fun hi => hne record (hi ▸ rfl)
    simp [hother]

/-- As long as no call unlinks it, an entry keeps its hash, and its key and record unless a call marks
or writes it. -/
theorem Call.fate_keeps {calls : List Call} (h : .unlink id ∉ calls) (e : Entry) :
    ∃ e', Call.fate id calls e = some e' ∧ e'.hash = e.hash ∧
      (.tombstone id ∉ calls → e'.key = e.key ∧
        ((∀ record, .write id record ∉ calls) → e'.record = e.record)) := by
  induction calls generalizing e with
  | nil => exact ⟨e, rfl, rfl, fun _ => ⟨rfl, fun _ => rfl⟩⟩
  | cons call rest ih =>
    rw [List.mem_cons, not_or] at h
    obtain ⟨e₁, hcall, hhash₁, hkept₁⟩ := call.onEntry_keeps (Ne.symm h.1) e
    obtain ⟨e₂, hrest, hhash₂, hkept₂⟩ := ih h.2 e₁
    refine ⟨e₂, by rw [Call.fate_cons, hcall, Option.bind_some, hrest], hhash₂.trans hhash₁,
      fun htomb => ?_⟩
    rw [List.mem_cons, not_or] at htomb
    obtain ⟨hkey₁, hrecord₁⟩ := hkept₁ (Ne.symm htomb.1)
    obtain ⟨hkey₂, hrecord₂⟩ := hkept₂ htomb.2
    refine ⟨hkey₂.trans hkey₁, fun hwrite => ?_⟩
    have hfirst : ∀ record, call ≠ .write id record := fun record hc =>
      hwrite record (hc ▸ List.mem_cons_self ..)
    have hlater : ∀ record, .write id record ∉ rest := fun record hmem =>
      hwrite record (List.mem_cons_of_mem _ hmem)
    exact (hrecord₂ hlater).trans (hrecord₁ hfirst)

/-! ### One call -/

theorem Loose.free_vacant (hl : t.Loose) : ∀ i ∈ t.free, t.Vacant i := by
  obtain ⟨n, -, chains, hc⟩ := hl
  exact fun i hi => (hc.free_vacant i).mp hi

/-- Also with a loose counter, unlinking a live id succeeds. -/
theorem Loose.exists_unlink (hl : t.Loose) (he : t.get? id = some e) :
    ∃ t', t.unlink id = .ok (e, t') := by
  obtain ⟨n, -, chains, hc⟩ := hl
  have he' : (t.recount n).get? id = some e := he
  obtain ⟨t', ht'⟩ := hc.exists_unlink he'
  exact ⟨_, unlink_recount ht' t.count⟩

theorem Loose.content?_unlink (hl : t.Loose) {t' : Table} (h : t.unlink id = .ok (e, t'))
    (j : EntryId) : t'.content? j = if j = id then none else t.content? j := by
  obtain ⟨n, -, chains, hc⟩ := hl
  exact (hc.unlink (unlink_recount h n)).2.2 j

theorem Loose.serve (hl : t.Loose) (call : Call) : (t.serve call).Loose := by
  cases call with
  | prepend hash key record => exact hl.prepend hash key record
  | rehash bins hb => exact hl.rehash hb
  | unlink id =>
    rw [Table.serve]
    split
    · rename_i e t' h
      exact hl.step (.unlink h)
    · exact hl
  | tombstone id =>
    rw [Table.serve]
    split
    · rename_i e t' h
      exact hl.step (.tombstone h)
    · exact hl
  | write id record => exact hl.step (.setRecord id record)

theorem seat_relink (t : Table) (id : EntryId) (i : Nat) : (t.relink id).seat i = t.seat i := by
  unfold relink
  split
  · rfl
  · exact seat_adjust t id _ i

theorem seat_rehash (t : Table) (bins i : Nat) : (t.rehash bins).seat i = t.seat i := by
  refine List.foldlRecOn (motive := fun s : Table => s.seat i = t.seat i) t.entryIds relink rfl
    fun s hs id _ => ?_
  rw [seat_relink, hs]

/-- The next id was not returned before. -/
theorem not_issued_nextId (hfree : ∀ i ∈ t.free, t.Vacant i) : ¬ t.Issued t.nextId := by
  rintro ⟨g, filled, hs, hcases⟩
  rcases seat_nextId hfree with hnone | hvacant
  · rw [hnone] at hs
    cases hs
  · rw [hvacant, Option.some.injEq, Prod.mk.injEq] at hs
    obtain ⟨rfl, rfl⟩ := hs
    simp at hcases

/-- How many entries a slot has had. -/
def tenants : Option (Nat × Bool) → Nat
  | none => 0
  | some (generation, filled) => generation + filled.toNat

/-- The next entry of a slot is told from all those it has had. -/
theorem generation_nextId (hfree : ∀ i ∈ t.free, t.Vacant i) :
    t.nextId.generation = tenants (t.seat t.nextId.index) := by
  cases hf : t.free with
  | nil => simp [nextId, seat, hf, tenants]
  | cons index rest =>
    obtain ⟨g, hg⟩ := hfree index (hf ▸ List.mem_cons_self ..)
    simp [nextId, seat, hf, hg, tenants]

/-- Of all calls, prepending fills the slot of the next id, and unlinking empties a slot for the next
generation. -/
theorem Loose.seat_serve (hl : t.Loose) (call : Call) (i : Nat) :
    (t.serve call).seat i = t.seat i ∧ t.returned call = [] ∨
    (∃ generation, t.seat i = some (generation, true) ∧
      (t.serve call).seat i = some (generation + 1, false)) ∧ t.returned call = [] ∨
    (t.serve call).seat i =
      (if i = t.nextId.index then some (t.nextId.generation, true) else t.seat i) ∧
      t.returned call = [t.nextId] := by
  cases call with
  | prepend hash key record =>
    exact Or.inr (Or.inr ⟨seat_prepend hl.free_vacant hash key record i, rfl⟩)
  | rehash bins hb => exact Or.inl ⟨seat_rehash t bins i, rfl⟩
  | unlink id =>
    rw [Table.serve]
    split
    · rename_i e t' h
      have hlive : t.isLive id = true := isLive_of_get? (unlink_eq_ok_iff.mp h).1
      rw [seat_unlink h]
      by_cases hi : i = id.index
      · exact Or.inr (Or.inl ⟨⟨id.generation, hi ▸ isLive_iff.mp hlive, if_pos hi⟩, rfl⟩)
      · exact Or.inl ⟨if_neg hi, rfl⟩
    · exact Or.inl ⟨rfl, rfl⟩
  | tombstone id =>
    rw [Table.serve]
    split
    · rename_i e t' h
      obtain ⟨-, -, rfl⟩ := tombstone_eq_some_iff.mp h
      exact Or.inl ⟨seat_adjust t id _ i, rfl⟩
    · exact Or.inl ⟨rfl, rfl⟩
  | write id record => exact Or.inl ⟨seat_adjust t id _ i, rfl⟩

/-- An id that was returned stays so. -/
theorem Issued.serve (hid : t.Issued id) (hl : t.Loose) (call : Call) : (t.serve call).Issued id := by
  have hnew := not_issued_nextId hl.free_vacant
  obtain ⟨g, filled, hs, hcases⟩ := hid
  rcases hl.seat_serve call id.index with ⟨hseat, -⟩ | ⟨⟨g', hs', hseat⟩, -⟩ | ⟨hseat, -⟩
  · exact ⟨g, filled, hseat.trans hs, hcases⟩
  · rw [hs', Option.some.injEq, Prod.mk.injEq] at hs
    exact ⟨_, _, hseat, Or.inl (by omega)⟩
  · by_cases hi : id.index = t.nextId.index
    · -- the slot was vacant, so the id is of an earlier generation
      rw [if_pos hi] at hseat
      rw [hi] at hs
      rcases seat_nextId hl.free_vacant with hnone | hvacant
      · rw [hnone] at hs
        cases hs
      · rw [hvacant, Option.some.injEq, Prod.mk.injEq] at hs
        obtain ⟨rfl, rfl⟩ := hs
        exact ⟨_, _, hseat, Or.inl (hcases.resolve_right fun h => Bool.noConfusion h.2)⟩
    · exact ⟨g, filled, hseat.trans ((if_neg hi).trans hs), hcases⟩

theorem Issued.index_lt (hid : t.Issued id) : id.index < t.slots.size := by
  obtain ⟨g, filled, hs, -⟩ := hid
  obtain ⟨slot, hslot, -⟩ := Option.map_eq_some_iff.mp hs
  exact (Array.getElem?_eq_some_iff.mp hslot).1

/-- An id is issued with the call that returns it. -/
theorem Loose.issued_returned (hl : t.Loose) {call : Call} (hid : id ∈ t.returned call) :
    (t.serve call).Issued id := by
  rcases hl.seat_serve call id.index with ⟨-, hnone⟩ | ⟨-, hnone⟩ | ⟨hseat, hreturned⟩
  · rw [hnone] at hid; simp at hid
  · rw [hnone] at hid; simp at hid
  · rw [hreturned, List.mem_singleton] at hid
    rw [hid, if_pos rfl] at hseat
    exact ⟨_, _, hid ▸ hseat, Or.inr ⟨by rw [hid], rfl⟩⟩

/-- What a call does to the entry of an id that was returned before it. -/
theorem Loose.content?_serve (hl : t.Loose) (hid : t.Issued id) (call : Call) :
    (t.serve call).content? id = (t.content? id).bind (call.onEntry id) := by
  cases call with
  | prepend hash key record =>
    have hne : id ≠ t.nextId := fun h => not_issued_nextId hl.free_vacant (h ▸ hid)
    rw [Call.bind_onEntry fun _ => rfl]
    show ((t.prepend hash key record).get? id).map _ = _
    rw [get?_prepend hl.free_vacant, if_neg hne]
    rfl
  | rehash bins hb =>
    rw [Call.bind_onEntry fun _ => rfl]
    exact t.content?_rehash bins id
  | unlink other =>
    by_cases hother : other = id
    · subst hother
      cases he : t.get? other with
      | none => simp [Table.serve, unlink_eq_error he, content?, he]
      | some e =>
        obtain ⟨t', ht'⟩ := hl.exists_unlink he
        have hserve : t.serve (.unlink other) = t' := by rw [Table.serve, ht']
        rw [hserve, hl.content?_unlink ht', if_pos rfl, content?, he]
        simp [Call.onEntry]
    · rw [Call.bind_onEntry fun e => by simp [Call.onEntry, hother], Table.serve]
      split
      · rename_i e t' h
        rw [hl.content?_unlink h, if_neg (Ne.symm hother)]
      · rfl
  | tombstone other =>
    by_cases hother : other = id
    · subst hother
      cases he : t.get? other with
      | none => simp [Table.serve, Table.tombstone, content?, he]
      | some e =>
        cases hd : e.isTombstone with
        | true => simp [Table.serve, Table.tombstone, content?, he, hd, Call.onEntry]
        | false =>
          obtain ⟨t', ht'⟩ : ∃ t', t.tombstone other = some (e, t') :=
            ⟨_, tombstone_eq_some_iff.mpr ⟨he, hd, rfl⟩⟩
          have hserve : t.serve (.tombstone other) = t' := by rw [Table.serve, ht']
          rw [hserve, content?_tombstone ht', if_pos rfl, content?, he]
          simp [Call.onEntry, hd]
    · rw [Call.bind_onEntry fun e => by simp [Call.onEntry, hother], Table.serve]
      split
      · rename_i e t' h
        rw [content?_tombstone h, if_neg (Ne.symm hother)]
      · rfl
  | write other record =>
    show (t.setRecord other record).content? id = _
    cases he : t.get? other with
    | none =>
      rw [Table.setRecord, adjust_eq_self he]
      by_cases hother : other = id
      · simp [content?, ← hother, he]
      · rw [Call.bind_onEntry fun e => by simp [Call.onEntry, hother]]
    | some e =>
      rw [content?_setRecord he]
      by_cases hother : other = id
      · subst hother
        simp [Call.onEntry, content?, he]
      · rw [Call.bind_onEntry fun e => by simp [Call.onEntry, hother], if_neg (Ne.symm hother)]

/-! ### Whole runs -/

theorem Loose.serveAll (hl : t.Loose) (calls : List Call) : (t.serveAll calls).Loose := by
  induction calls generalizing t with
  | nil => exact hl
  | cons call rest ih => exact ih (hl.serve call)

theorem Issued.serveAll (hid : t.Issued id) (hl : t.Loose) (calls : List Call) :
    (t.serveAll calls).Issued id := by
  induction calls generalizing t with
  | nil => exact hid
  | cons call rest ih => exact ih (hid.serve hl call) (hl.serve call)

/-- The entry of an id that was returned is what the calls make of it. -/
theorem Loose.content?_serveAll (hl : t.Loose) (hid : t.Issued id) (calls : List Call) :
    (t.serveAll calls).content? id = (t.content? id).bind (Call.fate id calls) := by
  induction calls generalizing t with
  | nil =>
    cases h : t.content? id <;> exact h
  | cons call rest ih =>
    rw [serveAll_cons, ih (hl.serve call) (hid.serve hl call), hl.content?_serve hid call,
      Option.bind_assoc]
    exact congrArg _ (funext fun e => (Call.fate_cons id call rest e).symm)

/-- A run returns new ids only, and each of them once. -/
theorem Loose.given_new (hl : t.Loose) (calls : List Call) :
    (t.given calls).Nodup ∧ ∀ id ∈ t.given calls, ¬ t.Issued id := by
  induction calls generalizing t with
  | nil => exact ⟨List.nodup_nil, by simp [given]⟩
  | cons call rest ih =>
    obtain ⟨hnodup, hnew⟩ := ih (hl.serve call)
    have hreturned : (t.returned call).Nodup ∧ ∀ id ∈ t.returned call, ¬ t.Issued id := by
      cases call with
      | prepend hash key record =>
        exact ⟨List.nodup_singleton _, fun id hid =>
          List.mem_singleton.mp hid ▸ not_issued_nextId hl.free_vacant⟩
      | _ => exact ⟨List.nodup_nil, by simp [returned]⟩
    refine ⟨List.nodup_append.mpr ⟨hreturned.1, hnodup, ?_⟩, fun id hid => ?_⟩
    · rintro id hid j hj rfl
      exact hnew id hj (hl.issued_returned hid)
    · rcases List.mem_append.mp hid with hid | hid
      · exact hreturned.2 id hid
      · exact fun hissued => hnew id hid (hissued.serve hl call)

/-- Each slot has had as many entries as ids were returned for it. -/
def Tallies (t : Table) (ids : List EntryId) : Prop :=
  ∀ i, ids.countP (·.index = i) = tenants (t.seat i)

theorem Tallies.serve {ids : List EntryId} (ht : t.Tallies ids) (hl : t.Loose) (call : Call) :
    (t.serve call).Tallies (ids ++ t.returned call) := by
  intro i
  rw [List.countP_append, ht i]
  rcases hl.seat_serve call i with ⟨hseat, hnone⟩ | ⟨⟨g, hs, hseat⟩, hnone⟩ | ⟨hseat, hreturned⟩
  · rw [hseat, hnone, List.countP_nil, Nat.add_zero]
  · rw [hseat, hs, hnone]
    rfl
  · rw [hseat, hreturned, List.countP_singleton]
    by_cases hi : i = t.nextId.index
    · rw [if_pos hi, hi, ← generation_nextId hl.free_vacant]
      simp [tenants]
    · simp [hi, Ne.symm hi]

theorem Tallies.serveAll {ids : List EntryId} (ht : t.Tallies ids) (hl : t.Loose)
    (calls : List Call) : (t.serveAll calls).Tallies (ids ++ t.given calls) := by
  induction calls generalizing t ids with
  | nil => rwa [given, List.append_nil]
  | cons call rest ih =>
    have h := ih (ht.serve hl call) (hl.serve call)
    rwa [List.append_assoc] at h

theorem tallies_new (strategy : Strategy) (size : Nat) : (new strategy size).Tallies [] := by
  intro i
  simp [seat, new, tenants]

/-- A dead id is refused everywhere. -/
theorem refused_of_dead (hd : t.get? id = none) :
    (∀ f, t.adjust id f = t) ∧ t.tombstone id = none ∧ t.unlink id = .error .unlinkOfDeadEntry :=
  ⟨adjust_eq_self hd, by rw [Table.tombstone, hd], unlink_eq_error hd⟩

/-- The ids that a run of calls on a new table returns are pairwise different.  The id of a prepended
entry resolves, until a call unlinks it, to this entry, which can be unlinked: the hash never changes,
the key only with a tombstone and the record only with a tombstone or a write, each through this id.
Once a call has unlinked it the id is dead for good and refused by every call, also when the slot has
been used again.  Either way the entry is exactly what the calls that name its id make of it.  The
index of the id is in the slab, and its generation is the number of ids returned before for the same
slot. -/
theorem entry_ids_never_confused (strategy : Strategy) (size : Nat) (calls : List Call) :
    let start := new strategy size
    let t := start.serveAll calls
    (start.given calls).Nodup ∧
    ∀ before hash key record after, calls = before ++ .prepend hash key record :: after →
      let id := (start.serveAll before).nextId
      (.unlink id ∉ after → ∃ e t', t.get? id = some e ∧ t.unlink id = .ok (e, t') ∧
        e.hash = hash ∧
        (.tombstone id ∉ after → e.key = key ∧
          ((∀ record', .write id record' ∉ after) → e.record = record))) ∧
      (.unlink id ∈ after → t.get? id = none ∧ (∀ f, t.adjust id f = t) ∧
        t.tombstone id = none ∧ t.unlink id = .error .unlinkOfDeadEntry) ∧
      t.content? id = Call.fate id after ⟨hash, key, record, none⟩ ∧
      id.index < t.slots.size ∧
      id.generation = (start.given before).countP (·.index = id.index) := by
  intro start t
  have hstart : start.Loose := (wellFormed_new strategy size).loose
  refine ⟨(hstart.given_new calls).1, ?_⟩
  intro before hash key record after hcalls id
  -- the table before the call, and after it
  have hl : (start.serveAll before).Loose := hstart.serveAll before
  have hl' := hl.serve (.prepend hash key record)
  have hid : ((start.serveAll before).serve (.prepend hash key record)).Issued id :=
    hl.issued_returned (List.mem_singleton_self _)
  have hstored : ((start.serveAll before).serve (.prepend hash key record)).content? id =
      some ⟨hash, key, record, none⟩ := by
    show ((Table.prepend _ hash key record).get? id).map _ = _
    rw [get?_prepend hl.free_vacant, if_pos rfl]
    rfl
  have ht : t = ((start.serveAll before).serve (.prepend hash key record)).serveAll after := by
    show start.serveAll calls = _
    rw [hcalls, serveAll_append, serveAll_cons]
  have hfate : t.content? id = Call.fate id after ⟨hash, key, record, none⟩ := by
    rw [ht, hl'.content?_serveAll hid after, hstored, Option.bind_some]
  have htl : t.Loose := hstart.serveAll calls
  refine ⟨fun hkept => ?_, fun hgone => ?_, hfate, ?_, ?_⟩
  · obtain ⟨e', he', hhash, hrest⟩ := Call.fate_keeps hkept ⟨hash, key, record, none⟩
    rw [he', content?, Option.map_eq_some_iff] at hfate
    obtain ⟨e, he, rfl⟩ := hfate
    obtain ⟨t', ht'⟩ := htl.exists_unlink he
    exact ⟨e, t', he, ht', hhash, hrest⟩
  · rw [Call.fate_of_unlinked hgone, content?, Option.map_eq_none_iff] at hfate
    exact ⟨hfate, refused_of_dead hfate⟩
  · exact ht ▸ (hid.serveAll hl' after).index_lt
  · have htally := (tallies_new strategy size).serveAll hstart before
    rw [List.nil_append] at htally
    exact (generation_nextId hl.free_vacant).trans (htally id.index).symm

/-- The slot of an unlinked entry is used again: the old id stays dead, and the entry that has the slot
now answers to its own id. -/
theorem entry_ids_never_confused_reused_slot :
    let t := (new .value 0).serveAll
      [.prepend 5 (.ofNat 1) .nil, .unlink ⟨0, 0⟩, .prepend 5 (.ofNat 2) .nil]
    (t.get? ⟨0, 0⟩ = none ∧ t.unlink ⟨0, 0⟩ = .error .unlinkOfDeadEntry) ∧
      ∃ e t', t.get? ⟨0, 1⟩ = some e ∧ t.unlink ⟨0, 1⟩ = .ok (e, t') ∧ e.key = .ofNat 2 := by
  intro t
  have spec := (entry_ids_never_confused .value 0
    [.prepend 5 (.ofNat 1) .nil, .unlink ⟨0, 0⟩, .prepend 5 (.ofNat 2) .nil]).2
  have hfirst : ((new .value 0).serveAll []).nextId = ⟨0, 0⟩ := by decide
  have hsecond : ((new .value 0).serveAll [.prepend 5 (.ofNat 1) .nil, .unlink ⟨0, 0⟩]).nextId =
      ⟨0, 1⟩ := by decide
  have hold := (spec [] 5 (.ofNat 1) .nil _ rfl).2.1
  have hnew := (spec [.prepend 5 (.ofNat 1) .nil, .unlink ⟨0, 0⟩] 5 (.ofNat 2) .nil [] rfl).1
  rw [hfirst] at hold
  rw [hsecond] at hnew
  obtain ⟨hdead, -, -, hrefused⟩ := hold (by simp)
  obtain ⟨e, t', he, ht', -, hkey⟩ := hnew (by simp)
  exact ⟨⟨hdead, hrefused⟩, e, t', he, ht', (hkey (by simp)).1⟩

end ObjectMachine.Table
