import Mathlib.Tactic
import ObjectMachine.Proofs.Table.Changes

/-! Cursors over a table that changes.

A cursor divides the ids of a table into those it has passed and those ahead.  Overwriting a record and
leaving a tombstone keep the ids and their order, so what is ahead stays ahead; one move of the cursor
passes over tombstones up to the next key.  All other changes are structural, and the stamp counts
them. -/

namespace ObjectMachine.Table

variable {t t' t'' : Table} {chains : Nat → List EntryId}

/-! ### Structural changes are counted -/

/-- The second table comes from the first by changes, `n` of which are structural. -/
inductive Evolves (t : Table) : Nat → Table → Prop
  | refl : Evolves t 0 t
  | setRecord {n : Nat} {t' : Table} (h : Evolves t n t') (id : EntryId) (record : Value) :
      Evolves t n (t'.setRecord id record)
  | tombstone {n : Nat} {t' t'' : Table} {id : EntryId} {e : Entry} (h : Evolves t n t')
      (ht : t'.tombstone id = some (e, t'')) : Evolves t n t''
  | prepend {n : Nat} {t' : Table} (h : Evolves t n t') (hash : UInt64) {key : Value}
      (hkey : key ≠ .absent) (record : Value) : Evolves t (n + 1) (t'.prepend hash key record)
  | rehash {n : Nat} {t' : Table} (h : Evolves t n t') {bins : Nat} (hb : 1 ≤ bins) :
      Evolves t (n + 1) (t'.rehash bins)
  | unlink {n : Nat} {t' t'' : Table} {id : EntryId} {e : Entry} (h : Evolves t n t')
      (hu : t'.unlink id = .ok (e, t'')) : Evolves t (n + 1) t''

namespace Evolves

variable {n k : Nat}

theorem trans (h : t.Evolves n t') (h' : t'.Evolves k t'') : t.Evolves (n + k) t'' := by
  induction h' with
  | refl => exact h
  | setRecord _ id record ih => exact ih.setRecord id record
  | tombstone _ ht ih => exact ih.tombstone ht
  | prepend _ hash hkey record ih => exact ih.prepend hash hkey record
  | rehash _ hb ih => exact ih.rehash hb
  | unlink _ hu ih => exact ih.unlink hu

theorem changes (h : t.Evolves n t') : t.Changes t' := by
  induction h with
  | refl => exact Relation.ReflTransGen.refl
  | setRecord _ id record ih => exact ih.tail (.setRecord id record)
  | tombstone _ ht ih => exact ih.tail (.tombstone ht)
  | prepend _ hash hkey record ih => exact ih.tail (.prepend hash hkey record)
  | rehash _ hb ih => exact ih.tail (.rehash hb)
  | unlink _ hu ih => exact ih.tail (.unlink hu)

/-- What keeps the ids keeps the chains. -/
theorem chained (h : t.Evolves n t') (hn : n = 0) (hc : t.Chained chains) :
    t'.Chained chains ∧ t'.bins.size = t.bins.size := by
  induction h with
  | refl => exact ⟨hc, rfl⟩
  | setRecord _ id record ih => exact ⟨(ih hn).1.setRecord id record, (ih hn).2⟩
  | tombstone _ ht ih =>
    obtain ⟨-, -, rfl⟩ := tombstone_eq_some_iff.mp ht
    exact ⟨(ih hn).1.tombstone ht, (ih hn).2⟩
  | prepend => exact absurd hn (Nat.succ_ne_zero _)
  | rehash => exact absurd hn (Nat.succ_ne_zero _)
  | unlink => exact absurd hn (Nat.succ_ne_zero _)

theorem entryIds_eq (h : t.Evolves 0 t') (hw : t.WellFormed) : t'.entryIds = t.entryIds := by
  obtain ⟨chains, hc⟩ := hw
  obtain ⟨hc', hsize⟩ := h.chained rfl hc
  rw [hc'.entryIds_eq, hc.entryIds_eq, hsize]

end Evolves

/-- Unlinking one after the other, each is a change of its own. -/
theorem evolves_unlinkAll : ∀ {ids : List EntryId} {t t' : Table},
    t.unlinkAll ids = (none, t') → t.Evolves ids.length t'
  | [], t, t', h => by
    obtain ⟨-, rfl⟩ := Prod.mk.inj h
    exact .refl
  | id :: ids, t, t', h => by
    rw [unlinkAll] at h
    cases hu : t.unlink id with
    | error how =>
      rw [hu] at h
      cases h
    | ok p =>
      rw [hu] at h
      have hfirst : t.Evolves 1 p.2 := Evolves.unlink .refl hu
      rw [List.length_cons, Nat.add_comm]
      exact hfirst.trans (evolves_unlinkAll h)

theorem stamp_store (t : Table) (e : Entry) : (t.store e).stamp = t.stamp := by
  unfold store
  split <;> rfl

theorem stamp_relink (t : Table) (id : EntryId) : (t.relink id).stamp = t.stamp := by
  unfold relink
  split <;> rfl

theorem stamp_foldl_relink : ∀ (ids : List EntryId) (t : Table),
    (ids.foldl relink t).stamp = t.stamp
  | [], _ => rfl
  | id :: ids, t => (stamp_foldl_relink ids (t.relink id)).trans (stamp_relink t id)

theorem stamp_rehash (t : Table) (bins : Nat) : (t.rehash bins).stamp = t.stamp + 1 :=
  congrArg (· + 1) (stamp_foldl_relink t.entryIds _)

theorem stamp_unlink {id : EntryId} {e : Entry} (h : t.unlink id = .ok (e, t')) :
    t'.stamp = t.stamp + 1 := by
  obtain ⟨-, before, -, rfl⟩ := unlink_eq_ok_iff.mp h
  rfl

theorem Evolves.stamp_eq {n : Nat} (h : t.Evolves n t') : t'.stamp = t.stamp + UInt64.ofNat n := by
  have hsucc : ∀ n : Nat, t.stamp + UInt64.ofNat n + 1 = t.stamp + UInt64.ofNat (n + 1) := by
    intro n
    rw [UInt64.ofNat_add, UInt64.add_assoc]
    rfl
  induction h with
  | refl => simp
  | setRecord _ id record ih => exact ih
  | tombstone _ ht ih =>
    obtain ⟨-, -, rfl⟩ := tombstone_eq_some_iff.mp ht
    exact ih
  | prepend _ hash hkey record ih =>
    rw [← hsucc, ← ih]
    exact congrArg (· + 1) (stamp_store _ _)
  | rehash _ hb ih => rw [stamp_rehash, ih, hsucc]
  | unlink _ hu ih => rw [stamp_unlink hu, ih, hsucc]

/-- The stamp tells of structural changes, as long as they are fewer than it can count. -/
theorem Evolves.stamp_ne {n : Nat} (h : t.Evolves n t') (hpos : 0 < n) (hn : n < 2 ^ 64) :
    t'.stamp ≠ t.stamp := by
  intro hsame
  have hzero : UInt64.ofNat n = 0 := by
    rw [h.stamp_eq] at hsame
    simpa using hsame
  have hnat := congrArg UInt64.toNat hzero
  rw [UInt64.toNat_ofNat', Nat.mod_eq_of_lt hn] at hnat
  simp at hnat
  omega

/-! ### Moving on -/

/-- The entry a cursor stands on. -/
def Position.entry? : Position → Option EntryId
  | .at _ id => some id
  | _ => none

/-- The ids that a cursor has not passed yet. -/
def ahead (t : Table) : Position → List EntryId
  | .fresh => t.entryIds
  | .at _ id => (t.entryIds.dropWhile (· ≠ id)).tail
  | .done => []

/-- Whether a cursor that stands on an entry knows its bin. -/
def Placed (chains : Nat → List EntryId) (bins : Nat) : Position → Prop
  | .at bin id => bin < bins ∧ id ∈ chains bin
  | _ => True

/-- A move over `ids` leads past tombstones to the first key, or to the end if there is none. -/
inductive Moves (t : Table) (ids : List EntryId) : Position → Prop
  | found {skipped rest : List EntryId} {id : EntryId} (bin : Nat)
      (hskipped : ∀ j ∈ skipped, t.holdsKey j = false) (hid : t.holdsKey id = true)
      (hids : ids = skipped ++ id :: rest) : Moves t ids (.at bin id)
  | ended (hskipped : ∀ j ∈ ids, t.holdsKey j = false) : Moves t ids .done

theorem Moves.skip {ids skipped : List EntryId} {p : Position}
    (hs : ∀ id ∈ skipped, t.holdsKey id = false) (h : t.Moves ids p) : t.Moves (skipped ++ ids) p := by
  have happend : ∀ {more : List EntryId}, (∀ id ∈ more, t.holdsKey id = false) →
      ∀ id ∈ skipped ++ more, t.holdsKey id = false := fun hmore id hid =>
    (List.mem_append.mp hid).elim (hs id) (hmore id)
  cases h with
  | found bin hskipped hid hids =>
    exact .found bin (happend hskipped) hid (by rw [hids, List.append_assoc])
  | ended hskipped => exact .ended (happend hskipped)

/-- Along a chain that ends, seeking stops at the first key. -/
theorem Leads.seekChain_eq : ∀ {ids : List EntryId} {cursor : Option EntryId} {fuel : Nat},
    t.Leads cursor ids → ids.length < fuel →
      t.seekChain fuel cursor = .ok (ids.find? t.holdsKey)
  | [], _, fuel + 1, h, _ => by rw [show _ = none from h]; rfl
  | id :: ids, _, fuel + 1, ⟨h, e, he, hl⟩, hlen => by
    have hid : t.holdsKey id = !e.isTombstone := by rw [holdsKey, he, Option.any_some]
    rw [h, Table.seekChain, he, List.find?_cons, hid]
    cases hd : e.isTombstone with
    | true =>
      simp only [hd, if_true, Bool.not_true]
      exact hl.seekChain_eq (Nat.lt_of_succ_lt_succ hlen)
    | false => simp [hd]

/-- What follows in a chain decides, or else the bins after it. -/
theorem moves_of_find? {ids rest : List EntryId} {bins bin : Nat} {next : Except Corruption Position}
    (hbin : bin < bins) (hids : ids ⊆ chains bin)
    (hrest : ∃ p, next = .ok p ∧ Placed chains bins p ∧ t.Moves rest p) :
    ∃ p, (match (.ok (ids.find? t.holdsKey) : Except Corruption (Option EntryId)) with
      | .error how => Except.error how
      | .ok (some id) => Except.ok (Position.at bin id)
      | .ok none => next) = .ok p ∧ Placed chains bins p ∧ t.Moves (ids ++ rest) p := by
  cases hfound : ids.find? t.holdsKey with
  | none =>
    obtain ⟨p, hp, hplaced, hmoves⟩ := hrest
    refine ⟨p, hp, hplaced, hmoves.skip fun id hid => ?_⟩
    simpa using List.find?_eq_none.mp hfound id hid
  | some id =>
    obtain ⟨hid, skipped, more, rfl, hskipped⟩ := List.find?_eq_some_iff_append.mp hfound
    refine ⟨.at bin id, rfl, ⟨hbin, hids (by simp)⟩, ?_⟩
    exact .found bin (fun j hj => by simpa using hskipped j hj) hid (List.append_assoc _ _ _)

/-- Seeking through the last bins of a table. -/
theorem Chained.seekBins (hc : t.Chained chains) : ∀ {remaining bin : Nat},
    bin + remaining = t.bins.size → ∃ p, t.seekBins remaining bin = .ok p ∧
      Placed chains t.bins.size p ∧ t.Moves ((List.range' bin remaining).flatMap chains) p
  | 0, bin, _ => ⟨.done, rfl, trivial, .ended (by simp)⟩
  | remaining + 1, bin, hsize => by
    have hbin : bin < t.bins.size := by omega
    have hnext : bin + 1 + remaining = t.bins.size := by omega
    have hl := hc.ends bin hbin
    rw [Table.seekBins, hl.seekChain_eq (Nat.lt_succ_of_le hl.length_le), List.range'_succ,
      List.flatMap_cons]
    exact moves_of_find? hbin (List.Subset.refl _) (hc.seekBins hnext)

/-- The ids around one on a chain: what stands before its bin and in it, and what follows. -/
theorem Chained.entryIds_split (hc : t.Chained chains) {bin : Nat} {id : EntryId}
    {pre post : List EntryId} (hbin : bin < t.bins.size) (hsplit : chains bin = pre ++ id :: post) :
    t.entryIds = ((List.range' 0 bin).flatMap chains ++ pre) ++
      id :: (post ++ (List.range' (bin + 1) (t.bins.size - (bin + 1))).flatMap chains) := by
  rw [hc.entryIds_eq, idsOf_split hbin, hsplit]
  simp

/-- What is ahead of a cursor on an entry is what comes after the entry. -/
theorem ahead_at (hnodup : t.entryIds.Nodup) {bin : Nat} {id : EntryId} {pre post : List EntryId}
    (h : t.entryIds = pre ++ id :: post) : t.ahead (.at bin id) = post := by
  have hpre : ∀ j ∈ pre, (decide (j ≠ id)) = true := by
    rintro j hj
    rw [h, List.nodup_append] at hnodup
    exact decide_eq_true (hnodup.2.2 j hj id List.mem_cons_self)
  rw [ahead, h, List.dropWhile_append_of_pos hpre, List.dropWhile_cons_of_neg (by simp)]
  rfl

theorem ahead_suffix (t : Table) (p : Position) : t.ahead p <:+ t.entryIds := by
  cases p with
  | fresh => exact List.suffix_rfl
  | «at» bin id => exact (List.tail_suffix _).trans (List.dropWhile_suffix _)
  | done => exact List.nil_suffix

theorem Evolves.ahead_eq (h : t.Evolves 0 t') (hw : t.WellFormed) (p : Position) :
    t'.ahead p = t.ahead p := by
  cases p with
  | fresh => exact h.entryIds_eq hw
  | «at» bin id => rw [ahead, ahead, h.entryIds_eq hw]
  | done => rfl

/-- Moving on, a cursor passes the tombstones before the next key. -/
theorem Chained.advance (hc : t.Chained chains) {p : Position}
    (hp : Placed chains t.bins.size p) :
    ∃ p', t.advance p = .ok p' ∧ Placed chains t.bins.size p' ∧ t.Moves (t.ahead p) p' := by
  have hnodup : t.entryIds.Nodup := hc.entryIds_eq ▸ hc.once
  cases p with
  | fresh =>
    rw [ahead, hc.entryIds_eq, idsOf, List.range_eq_range']
    exact hc.seekBins (Nat.zero_add _)
  | done => exact ⟨.done, rfl, trivial, .ended (by simp [ahead])⟩
  | «at» bin id =>
    obtain ⟨hbin, hid⟩ := hp
    obtain ⟨pre, post, hsplit⟩ := List.append_of_mem hid
    have hends := hc.ends bin hbin
    rw [hsplit] at hends
    obtain ⟨-, e, he, hl⟩ := hends.suffix
    have hpost : post ⊆ chains bin := by
      rw [hsplit]
      exact fun j hj => List.mem_append_right _ (List.mem_cons_of_mem _ hj)
    rw [Table.advance, he, ahead_at hnodup (hc.entryIds_split hbin hsplit)]
    simp only [hl.seekChain_eq (Nat.lt_succ_of_le hl.length_le)]
    exact moves_of_find? hbin hpost (hc.seekBins (Nat.add_sub_of_le hbin))

/-- After a move, what comes after the key found is ahead. -/
theorem ahead_at_of_suffix {ids : List EntryId} (hnodup : t.entryIds.Nodup) (hids : ids <:+ t.entryIds)
    {bin : Nat} {id : EntryId} {skipped rest : List EntryId} (h : ids = skipped ++ id :: rest) :
    t.ahead (.at bin id) = rest := by
  obtain ⟨pre, hpre⟩ := hids
  have hsplit : t.entryIds = (pre ++ skipped) ++ id :: rest := by
    rw [← hpre, h, List.append_assoc]
  exact ahead_at hnodup hsplit

/-! ### Tours -/

/-- The calls that move a cursor over `start`, each with the table at that time and the entry it
found, and what they leave ahead: a call skips tombstones only, finds the first key, and finds none
where none is left. -/
inductive Tours (start : List EntryId) : List (Table × Option EntryId) → List EntryId → Prop
  | start : Tours start [] start
  | found {calls : List (Table × Option EntryId)} {skipped rest : List EntryId} {t : Table}
      {id : EntryId} (h : Tours start calls (skipped ++ id :: rest))
      (hskipped : ∀ j ∈ skipped, t.holdsKey j = false) (hid : t.holdsKey id = true) :
      Tours start (calls ++ [(t, some id)]) rest
  | ended {calls : List (Table × Option EntryId)} {rest : List EntryId} {t : Table}
      (h : Tours start calls rest) (hskipped : ∀ j ∈ rest, t.holdsKey j = false) :
      Tours start (calls ++ [(t, none)]) []

/-- The entries found and what is ahead stand in the order of the ids; each is found once. -/
theorem Tours.sublist {start rest : List EntryId} {calls : List (Table × Option EntryId)}
    (h : Tours start calls rest) : (calls.filterMap (·.2) ++ rest).Sublist start := by
  induction h with
  | start => exact List.Sublist.refl _
  | @found calls skipped rest t id _ _ _ ih =>
    refine List.Sublist.trans ?_ ih
    simp only [List.filterMap_append, List.filterMap_cons, List.filterMap_nil, List.append_assoc]
    exact List.Sublist.append (List.Sublist.refl _) (List.sublist_append_right _ _)
  | ended _ _ ih =>
    refine List.Sublist.trans ?_ ih
    simp

end ObjectMachine.Table
