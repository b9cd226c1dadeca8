import Mathlib.Tactic
import ObjectMachine.Proofs.Table.Chain

/-! The representation invariant of tables.

A well-formed table has chains that end, holds exactly the entries on them, each in the bin of its
hash, lists exactly the empty slots as free, and counts the entries that are not tombstones.  Every
change of a table preserves this, and says of every id what becomes of its entry apart from the
link. -/

namespace ObjectMachine

/-- An entry without its place in a chain. -/
def Entry.content (e : Entry) : Entry := { e with next := none }

@[simp] theorem Entry.content_hash (e : Entry) : e.content.hash = e.hash := rfl

@[simp] theorem Entry.content_key (e : Entry) : e.content.key = e.key := rfl

@[simp] theorem Entry.content_record (e : Entry) : e.content.record = e.record := rfl

@[simp] theorem Entry.isTombstone_content (e : Entry) : e.content.isTombstone = e.isTombstone := rfl

namespace Table

variable {t : Table} {chains : Nat → List EntryId}

/-- The entry of an id without its place in a chain. -/
def content? (t : Table) (id : EntryId) : Option Entry := (t.get? id).map Entry.content

theorem live_iff {id : EntryId} : (∃ e, t.get? id = some e) ↔ (t.content? id).isSome = true := by
  rw [content?, Option.isSome_map, Option.isSome_iff_exists]

/-- Ids with the same content are live in both tables or in none. -/
theorem exists_get?_of_content?_eq {t' : Table} {id : EntryId} {e : Entry}
    (h : t'.content? id = t.content? id) (he : t.get? id = some e) :
    ∃ e', t'.get? id = some e' ∧ e'.content = e.content := by
  rw [content?, content?, he, Option.map_some, Option.map_eq_some_iff] at h
  exact h

/-- Whether an id stands for an entry that is not a tombstone. -/
def holdsKey (t : Table) (id : EntryId) : Bool := (t.get? id).any (!·.isTombstone)

theorem holdsKey_congr {t' : Table} {id : EntryId} (h : t'.content? id = t.content? id) :
    t'.holdsKey id = t.holdsKey id := by
  have hany : ∀ s : Table, s.holdsKey id = (s.content? id).any (!·.isTombstone) := by
    intro s
    rw [holdsKey, content?, Option.any_map]
    rfl
  rw [hany, hany, h]

/-- The ids on the chains of `n` bins, bin by bin. -/
def idsOf (n : Nat) (chains : Nat → List EntryId) : List EntryId := (List.range n).flatMap chains

theorem mem_idsOf {n : Nat} {id : EntryId} :
    id ∈ idsOf n chains ↔ ∃ bin < n, id ∈ chains bin := by
  simp [idsOf, List.mem_flatMap]

/-- The ids before a bin, those of its chain and those after it. -/
theorem idsOf_split {n bin : Nat} (hbin : bin < n) : idsOf n chains =
    (List.range' 0 bin).flatMap chains ++
      (chains bin ++ (List.range' (bin + 1) (n - (bin + 1))).flatMap chains) := by
  have hsize : n = bin + (n - (bin + 1) + 1) := by omega
  have hrange : List.range' 0 n = List.range' 0 bin ++ bin :: List.range' (bin + 1) (n - (bin + 1)) := by
    conv_lhs => rw [hsize]
    rw [← List.range'_append, List.range'_succ]
    simp
  rw [idsOf, List.range_eq_range', hrange, List.flatMap_append, List.flatMap_cons]

/-- The bins lead to these chains: each of them ends, and the entries on it belong to its bin. -/
structure Links (t : Table) (chains : Nat → List EntryId) : Prop where
  ends : ∀ bin < t.bins.size, t.Leads (t.binHead bin) (chains bin)
  home : ∀ bin < t.bins.size, ∀ id ∈ chains bin, ∀ e, t.get? id = some e → t.binOf e.hash = bin

/-- What a table has to satisfy, in terms of the ids met from the head of each bin. -/
structure Chained (t : Table) (chains : Nat → List EntryId) : Prop extends Links t chains where
  bins_pos : 0 < t.bins.size
  linked : ∀ id, (∃ e, t.get? id = some e) ↔ id ∈ idsOf t.bins.size chains
  once : (idsOf t.bins.size chains).Nodup
  free_vacant : ∀ i, i ∈ t.free ↔ t.Vacant i
  free_nodup : t.free.Nodup
  count_eq : t.count = (idsOf t.bins.size chains).countP t.holdsKey

/-- The representation invariant. -/
def WellFormed (t : Table) : Prop := ∃ chains, t.Chained chains

theorem WellFormed.bins_pos (hw : t.WellFormed) : 0 < t.bins.size := by
  obtain ⟨chains, hc⟩ := hw
  exact hc.bins_pos

/-- An id is on the chain of one bin only. -/
theorem Links.bin_unique (hl : t.Links chains) {a b : Nat} (ha : a < t.bins.size)
    (hb : b < t.bins.size) {id : EntryId} (hia : id ∈ chains a) (hib : id ∈ chains b) : a = b := by
  obtain ⟨e, he⟩ := (hl.ends a ha).live id hia
  rw [← hl.home a ha id hia e he, ← hl.home b hb id hib e he]

theorem Links.once (hl : t.Links chains) : (idsOf t.bins.size chains).Nodup := by
  rw [idsOf, List.nodup_flatMap]
  refine ⟨fun bin hbin => (hl.ends bin (List.mem_range.mp hbin)).nodup, ?_⟩
  refine List.nodup_range.imp_of_mem fun ha hb hab => ?_
  rw [List.mem_range] at ha hb
  exact fun id hia hib => hab (hl.bin_unique ha hb hia hib)

/-- The chains that the program walks are those of the invariant. -/
theorem Links.map_chain (hl : t.Links chains) {bin : Nat} (hb : bin < t.bins.size) :
    (t.chain bin).map (·.1) = chains bin := (hl.ends bin hb).map_chain

theorem Links.entryIds_eq (hl : t.Links chains) : t.entryIds = idsOf t.bins.size chains := by
  rw [entryIds, linked, List.map_flatMap, idsOf]
  refine List.flatMap_congr fun bin hbin => hl.map_chain (List.mem_range.mp hbin)

/-- Listing every linked entry lists every live id with its entry. -/
theorem Chained.mem_linked (hc : t.Chained chains) {id : EntryId} {e : Entry} :
    (id, e) ∈ t.linked ↔ t.get? id = some e := by
  constructor
  · intro h
    obtain ⟨bin, _, h⟩ := List.mem_flatMap.mp h
    exact get?_of_mem_chainFrom h
  · intro h
    have hid : id ∈ t.entryIds := by
      rw [hc.entryIds_eq]
      exact (hc.linked id).mp ⟨e, h⟩
    obtain ⟨⟨j, f⟩, hjf, rfl⟩ := List.mem_map.mp hid
    obtain ⟨bin, _, hjf'⟩ := List.mem_flatMap.mp hjf
    rw [get?_of_mem_chainFrom hjf', Option.some.injEq] at h
    rwa [← h]

/-! ### Counting entries -/

/-- Counting over a list of ids with one more id on it. -/
theorem countP_add {l l' : List EntryId} {p q : EntryId → Bool} {a : EntryId} (hl : l.Nodup)
    (hl' : l'.Nodup) (hmem : ∀ x, x ∈ l' ↔ x = a ∨ x ∈ l) (ha : a ∉ l)
    (hq : ∀ x ∈ l, q x = p x) : l'.countP q = l.countP p + if q a then 1 else 0 := by
  have hperm : l'.Perm (a :: l) := by
    refine (List.perm_ext_iff_of_nodup hl' (List.nodup_cons.mpr ⟨ha, hl⟩)).mpr fun x => ?_
    rw [hmem, List.mem_cons]
  rw [hperm.countP_eq, List.countP_cons, List.countP_congr fun x hx => by rw [hq x hx]]

/-- Counting over a list of ids with another test at one of them. -/
theorem countP_change {l : List EntryId} {p q : EntryId → Bool} {a : EntryId} (hl : l.Nodup)
    (ha : a ∈ l) (hq : ∀ x ∈ l, x ≠ a → q x = p x) :
    l.countP q + (if p a then 1 else 0) = l.countP p + if q a then 1 else 0 := by
  have hrest : (l.erase a).Nodup := hl.erase a
  have hmem : ∀ x, x ∈ l ↔ x = a ∨ x ∈ l.erase a := by
    intro x
    rw [hl.mem_erase_iff]
    by_cases hx : x = a
    · simp [hx, ha]
    · simp [hx]
  have hout : a ∉ l.erase a := fun h => (hl.mem_erase_iff.mp h).1 rfl
  have hold : l.countP p = (l.erase a).countP q + if p a then 1 else 0 :=
    countP_add hrest hl hmem hout fun x hx =>
      (hq x (List.mem_of_mem_erase hx) (hl.mem_erase_iff.mp hx).1).symm
  have hnew : l.countP q = (l.erase a).countP q + if q a then 1 else 0 :=
    countP_add hrest hl hmem hout fun _ _ => rfl
  omega

/-! ### A new table -/

theorem primeAtLeast_pos (n : Nat) : 0 < primeAtLeast n := by
  rw [primeAtLeast]
  cases h : primes.find? (n ≤ ·) with
  | none => decide
  | some p =>
    have hall : ∀ q ∈ primes, 0 < q := by decide
    exact hall p (List.mem_of_find?_eq_some h)

theorem wellFormed_new (strategy : Strategy) (size : Nat) : (new strategy size).WellFormed := by
  have hget : ∀ id, (new strategy size).get? id = none := fun id => by simp [get?, new]
  have hids : idsOf (new strategy size).bins.size (fun _ => []) = [] := by
    rw [idsOf, List.flatMap_eq_nil_iff]; exact fun _ _ => rfl
  refine ⟨fun _ => [], ⟨fun bin hb => ?_, by simp⟩, ?_, ?_, ?_, ?_, ?_, ?_⟩
  · simp only [Leads, binHead, new, Array.getD_eq_getD_getElem?, Array.getElem?_replicate]
    split <;> rfl
  · simpa [new] using primeAtLeast_pos _
  · simp [hget, hids]
  · rw [hids]; exact List.nodup_nil
  · simp [new, Vacant]
  · exact List.nodup_nil
  · rw [hids]; rfl

end Table

end ObjectMachine
