import Mathlib.Tactic
import ObjectMachine.Proofs.Table.FiniteMap

/-! How full a table may get.

Before an entry is added, the bins are replaced by about twice as many if the counter has reached the
greatest average chain length.  One such growth is enough: the least admissible bin count from twice
the old one on has room for the new entry, unless the list of admissible counts is at its end.  The
counter bounds the number of mappings from above; it would exceed it if `absent` were entered as a
key, which is a tombstone from the start and still counted. -/

namespace ObjectMachine.Table

open Relation (ReflTransGen)

variable {t t' : Table} {chains : Nat → List EntryId}

/-! ### Admissible bin counts -/

theorem primeAtLeast_mem (n : Nat) : primeAtLeast n ∈ primes := by
  rw [primeAtLeast]
  cases h : primes.find? (n ≤ ·) with
  | none => decide
  | some p => exact List.mem_of_find?_eq_some h

/-- There is a count from `n` on, or the greatest one is taken. -/
theorem le_primeAtLeast (n : Nat) : n ≤ primeAtLeast n ∨ primeAtLeast n = maxBins := by
  rw [primeAtLeast]
  cases h : primes.find? (n ≤ ·) with
  | none => exact Or.inr rfl
  | some p => exact Or.inl (by simpa using List.find?_some h)

theorem le_maxBins {n : Nat} (h : n ∈ primes) : n ≤ maxBins := by
  have hall : ∀ p ∈ primes, p ≤ maxBins := by decide
  exact hall n h

theorem le_of_mem_primes {n : Nat} (h : n ∈ primes) : n ≤ primeAtLeast (n * 2) := by
  rcases le_primeAtLeast (n * 2) with hle | hmax
  · omega
  · rw [hmax]
    exact le_maxBins h

/-! ### Tables in use -/

/-- What the operations on tables do to a table. Any value may be entered as a key. -/
inductive Step (t : Table) : Table → Prop
  | enter (hash : UInt64) (key record : Value) : Step t (t.enter hash key record)
  | setRecord (id : EntryId) (record : Value) : Step t (t.setRecord id record)
  | unlink {id : EntryId} {e : Entry} {t' : Table} (h : t.unlink id = .ok (e, t')) : Step t t'
  | tombstone {id : EntryId} {e : Entry} {t' : Table} (h : t.tombstone id = some (e, t')) :
      Step t t'

theorem bins_store (t : Table) (e : Entry) : (t.store e).bins = t.bins := by
  unfold store
  split <;> rfl

theorem size_prepend (t : Table) (hash : UInt64) (key record : Value) :
    (t.prepend hash key record).bins.size = t.bins.size := by
  simp only [prepend, setHead, Array.size_setIfInBounds, bins_store]

theorem size_relink (t : Table) (id : EntryId) : (t.relink id).bins.size = t.bins.size := by
  unfold relink
  split
  · rfl
  · simp only [setHead, adjust, Array.size_setIfInBounds]

theorem size_rehash (t : Table) (n : Nat) : (t.rehash n).bins.size = n := by
  refine List.foldlRecOn (motive := fun s : Table => s.bins.size = n) t.entryIds relink
    Array.size_replicate fun s hs id _ => ?_
  rw [size_relink, hs]

theorem count_relink (t : Table) (id : EntryId) : (t.relink id).count = t.count := by
  unfold relink
  split <;> rfl

theorem count_rehash (t : Table) (n : Nat) : (t.rehash n).count = t.count := by
  refine List.foldlRecOn (motive := fun s : Table => s.count = t.count) t.entryIds relink rfl
    fun s hs id _ => ?_
  rw [count_relink, hs]

theorem count_prepend (t : Table) (hash : UInt64) (key record : Value) :
    (t.prepend hash key record).count = t.count + 1 := by
  have hstore : ∀ e, (t.store e).count = t.count := fun e => by
    unfold store
    split <;> rfl
  simp only [prepend, setHead, hstore]

/-! ### Counting entries apart from the counter -/

/-- The table with another counter. -/
def recount (t : Table) (n : Nat) : Table := { t with count := n }

@[simp] theorem bins_recount (t : Table) (n : Nat) : (t.recount n).bins = t.bins := rfl

@[simp] theorem get?_recount (t : Table) (n : Nat) (id : EntryId) :
    (t.recount n).get? id = t.get? id := rfl

theorem chainFrom_recount (t : Table) (n : Nat) : ∀ (fuel : Nat) (cursor : Option EntryId),
    (t.recount n).chainFrom fuel cursor = t.chainFrom fuel cursor
  | 0, _ => rfl
  | _ + 1, none => rfl
  | fuel + 1, some id => by
    rw [chainFrom, chainFrom, get?_recount]
    cases t.get? id with
    | none => rfl
    | some e => exact congrArg _ (chainFrom_recount t n fuel e.next)

theorem linked_recount (t : Table) (n : Nat) : (t.recount n).linked = t.linked :=
  List.flatMap_congr fun _ _ => chainFrom_recount t n _ _

theorem relink_recount (t : Table) (n : Nat) (id : EntryId) :
    (t.recount n).relink id = (t.relink id).recount n := by
  unfold relink
  rw [get?_recount]
  cases t.get? id <;> rfl

theorem foldl_relink_recount (n : Nat) : ∀ (ids : List EntryId) (t : Table),
    ids.foldl relink (t.recount n) = (ids.foldl relink t).recount n
  | [], _ => rfl
  | id :: ids, t => by
    rw [List.foldl_cons, List.foldl_cons, relink_recount]
    exact foldl_relink_recount n ids (t.relink id)

theorem rehash_recount (t : Table) (n bins : Nat) :
    (t.recount n).rehash bins = (t.rehash bins).recount n := by
  have hids : (t.recount n).entryIds = t.entryIds := congrArg (List.map _) (linked_recount t n)
  have hfold := foldl_relink_recount n t.entryIds { t with bins := Array.replicate bins none }
  exact (congrArg₂ (fun (ids : List EntryId) (s : Table) => { s with stamp := s.stamp + 1 }) hids
    ((congrArg (fun ids : List EntryId => ids.foldl relink _) hids).trans hfold) : _)

theorem prepend_recount (t : Table) (n : Nat) (hash : UInt64) (key record : Value) :
    (t.recount n).prepend hash key record = (t.prepend hash key record).recount (n + 1) := by
  cases hf : t.free <;> simp only [prepend, store, recount, nextId, binOf, binHead, setHead, hf]

theorem tombstone_recount {id : EntryId} {e : Entry} (h : t.tombstone id = some (e, t')) (n : Nat) :
    (t.recount n).tombstone id = some (e, t'.recount (n - 1)) := by
  obtain ⟨he, hd, rfl⟩ := tombstone_eq_some_iff.mp h
  exact tombstone_eq_some_iff.mpr ⟨he, hd, rfl⟩

theorem unlink_recount {id : EntryId} {e : Entry} (h : t.unlink id = .ok (e, t')) (n : Nat) :
    (t.recount n).unlink id = .ok (e, t'.recount (if e.isTombstone then n else n - 1)) := by
  obtain ⟨he, before, hbefore, rfl⟩ := unlink_eq_ok_iff.mp h
  have hchain : (t.recount n).chain (t.binOf e.hash) = t.chain (t.binOf e.hash) :=
    chainFrom_recount t n _ _
  refine unlink_eq_ok_iff.mpr ⟨he, before, ?_, ?_⟩
  · exact (congrArg (fun chain => predecessor? id none (chain.map (·.1))) hchain).trans hbefore
  · cases before <;> rfl

/-- A tombstone that was entered as one. -/
theorem Chained.prepend_absent (hc : t.Chained chains) (hash : UInt64) (record : Value) :
    ((t.prepend hash .absent record).recount t.count).Chained
      (consAt chains (t.binOf hash) t.nextId) := by
  -- the chains and slots are those for any other key
  have hfree : ∀ i ∈ t.free, t.Vacant i := fun i hi => (hc.free_vacant i).mp hi
  have hget := get?_prepend hfree hash .absent record
  have hnil : Value.nil ≠ .absent := by decide
  have hother := hc.prepend hash hnil record
  have hget' := get?_prepend hfree hash .nil record
  have hsame : ∀ j, ((t.prepend hash .absent record).get? j).map (fun e => (e.hash, e.next)) =
      ((t.prepend hash .nil record).get? j).map fun e => (e.hash, e.next) := fun j => by
    rw [hget, hget']
    split <;> rfl
  have hfields : (t.prepend hash .absent record).bins = (t.prepend hash .nil record).bins ∧
      (t.prepend hash .absent record).free = (t.prepend hash .nil record).free := by
    cases hf : t.free <;> simp only [Table.prepend, store, nextId, binOf, binHead, setHead, hf, and_self]
  obtain ⟨hbins, hfree'⟩ := hfields
  have hlinks : ((t.prepend hash .absent record).recount t.count).Links
      (consAt chains (t.binOf hash) t.nextId) := hother.toLinks.congr hbins hsame
  have hsize := size_prepend t hash .absent record
  have hids : ∀ j, j ∈ idsOf t.bins.size (consAt chains (t.binOf hash) t.nextId) ↔
      j = t.nextId ∨ j ∈ idsOf t.bins.size chains := fun j => mem_consAt (hc.binOf_lt hash)
  have hnew : t.nextId ∉ idsOf t.bins.size chains := fun h => by
    obtain ⟨f, hf⟩ := (hc.linked _).mpr h
    rw [get?_nextId hfree] at hf
    cases hf
  refine ⟨hlinks, hsize.symm ▸ hc.bins_pos, fun j => ?_, hlinks.once, fun i => ?_, ?_, ?_⟩
  · refine Iff.trans ?_ (hbins ▸ hother.linked j)
    rw [get?_recount, hget, hget']
    split <;> simp
  · refine Iff.trans (hfree' ▸ hother.free_vacant i) ?_
    exact (vacant_store hfree _ i).trans (vacant_store hfree _ i).symm
  · exact hfree' ▸ hother.free_nodup
  · have hholds : (t.prepend hash .absent record).holdsKey t.nextId = false := by
      rw [holdsKey, hget, if_pos rfl]
      rfl
    have hrest : ∀ j ∈ idsOf t.bins.size chains,
        (t.prepend hash .absent record).holdsKey j = t.holdsKey j := fun j hj => by
      have hne : j ≠ t.nextId := fun h => hnew (h ▸ hj)
      rw [holdsKey, holdsKey, hget, if_neg hne]
    show t.count = (idsOf (t.prepend hash .absent record).bins.size _).countP
      (t.prepend hash .absent record).holdsKey
    rw [hsize, countP_add hc.once (hsize ▸ hlinks.once) hids hnew hrest, hholds, ← hc.count_eq]
    rfl

/-- A table that would be well formed with a counter that is no greater. -/
def Loose (t : Table) : Prop := ∃ n ≤ t.count, (t.recount n).WellFormed

theorem WellFormed.loose (hw : t.WellFormed) : t.Loose := ⟨t.count, le_rfl, hw⟩

/-- The counter bounds the number of mappings. -/
theorem Loose.length_entries_le (hl : t.Loose) : t.entries.length ≤ t.count := by
  obtain ⟨n, hn, chains, hc⟩ := hl
  have hentries : (t.recount n).entries = t.entries := by
    rw [entries, linked_recount]
    rfl
  have hcount : n = t.entries.length := hentries ▸ hc.count_eq_length
  omega

theorem Loose.prepend (hl : t.Loose) (hash : UInt64) (key record : Value) :
    (t.prepend hash key record).Loose := by
  obtain ⟨n, hn, chains, hc⟩ := hl
  rw [Loose, count_prepend]
  by_cases hkey : key = .absent
  · subst hkey
    have habsent := hc.prepend_absent hash record
    rw [prepend_recount] at habsent
    exact ⟨n, by omega, _, habsent⟩
  · have hprepend := hc.prepend hash hkey record
    rw [prepend_recount] at hprepend
    exact ⟨n + 1, by omega, _, hprepend⟩

theorem Loose.rehash (hl : t.Loose) {bins : Nat} (hb : 0 < bins) : (t.rehash bins).Loose := by
  obtain ⟨n, hn, chains, hc⟩ := hl
  refine ⟨n, by rwa [count_rehash], ?_⟩
  rw [← rehash_recount]
  exact hc.rehash hb

theorem Loose.step (hl : t.Loose) (h : t.Step t') : t'.Loose := by
  cases h with
  | enter hash key record =>
    rw [enter]
    split
    · exact (hl.rehash (primeAtLeast_pos _)).prepend hash key record
    · exact hl.prepend hash key record
  | setRecord id record =>
    obtain ⟨n, hn, hw⟩ := hl
    exact ⟨n, hn, hw.change (.setRecord id record)⟩
  | @unlink id e t' h =>
    obtain ⟨n, hn, hw⟩ := hl
    refine ⟨_, ?_, hw.change (.unlink (unlink_recount h n))⟩
    obtain ⟨-, before, -, rfl⟩ := unlink_eq_ok_iff.mp h
    dsimp only
    split <;> omega
  | @tombstone id e t' h =>
    obtain ⟨n, hn, hw⟩ := hl
    refine ⟨n - 1, ?_, hw.change (.tombstone (tombstone_recount h n))⟩
    obtain ⟨-, -, rfl⟩ := tombstone_eq_some_iff.mp h
    exact Nat.sub_le_sub_right hn 1

/-! ### Density -/

/-- A table with an admissible number of bins that is not too full for them, except that the greatest
number of bins has to do for any number of entries. -/
structure Dense (t : Table) : Prop where
  loose : t.Loose
  bins_mem : t.bins.size ∈ primes
  count_le : t.count ≤ maxDensity * t.bins.size ∨ t.bins.size = maxBins

/-- The mappings per bin. -/
theorem Dense.length_entries_le (hd : t.Dense) :
    t.entries.length ≤ maxDensity * t.bins.size ∨ t.bins.size = maxBins :=
  hd.count_le.imp_left hd.loose.length_entries_le.trans

theorem dense_new (strategy : Strategy) (size : Nat) : (new strategy size).Dense := by
  refine ⟨(wellFormed_new strategy size).loose, ?_, Or.inl (Nat.zero_le _)⟩
  rw [new, Array.size_replicate]
  exact primeAtLeast_mem _

/-- One growth makes room for one more entry. -/
theorem Dense.enter (hd : t.Dense) (hash : UInt64) (key record : Value) :
    (t.enter hash key record).Dense ∧ t.bins.size ≤ (t.enter hash key record).bins.size := by
  have hstep := hd.loose.step (.enter hash key record)
  rw [Table.enter] at hstep ⊢
  cases hgrow : t.needsGrow with
  | false =>
    rw [hgrow] at hstep
    simp only [needsGrow, gt_iff_lt, decide_eq_false_iff_not, not_lt] at hgrow
    simp only [Bool.false_eq_true, if_false] at hstep ⊢
    refine ⟨⟨hstep, ?_, Or.inl ?_⟩, ?_⟩
    · rw [size_prepend]
      exact hd.bins_mem
    · rw [size_prepend, count_prepend]
      exact hgrow
    · rw [size_prepend]
  | true =>
    rw [hgrow] at hstep
    simp only [if_true] at hstep ⊢
    have hsize : ((t.rehash (primeAtLeast (t.bins.size * 2))).prepend hash key record).bins.size =
        primeAtLeast (t.bins.size * 2) := by rw [size_prepend, size_rehash]
    have hmem := primeAtLeast_mem (t.bins.size * 2)
    refine ⟨⟨hstep, by rwa [hsize], ?_⟩, by rw [hsize]; exact le_of_mem_primes hd.bins_mem⟩
    rw [hsize, count_prepend, count_rehash]
    rcases le_primeAtLeast (t.bins.size * 2) with hle | hmax
    · have hpos : 0 < t.bins.size := by
        obtain ⟨n, -, hw⟩ := hd.loose
        exact hw.bins_pos
      rcases hd.count_le with hcount | hlast
      · refine Or.inl ?_
        rw [maxDensity] at hcount ⊢
        omega
      · -- the greatest count has no successor
        refine absurd (hle.trans (le_maxBins hmem)) ?_
        rw [hlast]
        decide
    · exact Or.inr hmax

theorem Dense.step (hd : t.Dense) (h : t.Step t') : t'.Dense ∧ t.bins.size ≤ t'.bins.size := by
  have hloose := hd.loose.step h
  have hfew : t'.bins.size = t.bins.size → t'.count ≤ t.count →
      t'.Dense ∧ t.bins.size ≤ t'.bins.size := fun hsize hcount =>
    ⟨⟨hloose, hsize ▸ hd.bins_mem, hsize ▸ hd.count_le.imp_left hcount.trans⟩, hsize.ge⟩
  cases h with
  | enter hash key record => exact hd.enter hash key record
  | setRecord id record => exact hfew rfl le_rfl
  | @unlink id e t' h =>
    obtain ⟨-, before, -, rfl⟩ := unlink_eq_ok_iff.mp h
    obtain ⟨hsize, -⟩ := bypass_keeps t (t.binOf e.hash) before e.next
    refine hfew hsize ?_
    dsimp only
    split <;> omega
  | @tombstone id e t' h =>
    obtain ⟨-, -, rfl⟩ := tombstone_eq_some_iff.mp h
    exact hfew rfl (Nat.sub_le _ _)

/-- Any number of steps. -/
theorem Dense.steps (hd : t.Dense) (h : ReflTransGen Step t t') :
    t'.Dense ∧ t.bins.size ≤ t'.bins.size := by
  induction h with
  | refl => exact ⟨hd, le_rfl⟩
  | tail _ h ih =>
    obtain ⟨hd', hle⟩ := ih.1.step h
    exact ⟨hd', ih.2.trans hle⟩

end ObjectMachine.Table
