import Mathlib.Tactic
import ObjectMachine.Proofs.Table.WellFormed

/-! Every change of a table preserves the representation invariant.

Prepending and relinking put an id in front of the chain of its bin; unlinking splices it out; a
tombstone and a new record leave the links alone.  Each change comes with what it does to the content
of every id, so that nothing further on looks at links. -/

namespace ObjectMachine.Table

variable {t t' : Table} {chains : Nat → List EntryId}

/-- Bins, hashes and links are all that the chains depend on. -/
theorem Links.congr (hl : t.Links chains) {t' : Table} (hbins : t'.bins = t.bins)
    (hsame : ∀ j, (t'.get? j).map (fun e => (e.hash, e.next)) =
      (t.get? j).map fun e => (e.hash, e.next)) : t'.Links chains := by
  have hnext : ∀ j, (t'.get? j).map (·.next) = (t.get? j).map (·.next) := by
    intro j
    have h := congrArg (Option.map Prod.snd) (hsame j)
    rwa [Option.map_map, Option.map_map] at h
  refine ⟨fun bin hb => ?_, fun bin hb j hj f hf => ?_⟩
  · rw [hbins] at hb
    rw [binHead, hbins]
    exact (hl.ends bin hb).congr fun j _ => hnext j
  · rw [hbins] at hb
    have h := hsame j
    rw [hf, Option.map_some, eq_comm, Option.map_eq_some_iff] at h
    obtain ⟨e, he, heq⟩ := h
    rw [binOf, hbins, ← (Prod.mk.inj heq).1]
    exact hl.home bin hb j hj e he

/-! ### In front of a chain -/

/-- Putting an id in front of the chain of a bin. -/
def consAt (chains : Nat → List EntryId) (bin : Nat) (id : EntryId) : Nat → List EntryId :=
  Function.update chains bin (id :: chains bin)

theorem mem_consAt {bin n : Nat} {id j : EntryId} (hb : bin < n) :
    j ∈ idsOf n (consAt chains bin id) ↔ j = id ∨ j ∈ idsOf n chains := by
  rw [mem_idsOf, mem_idsOf, consAt]
  constructor
  · rintro ⟨b, hbn, hj⟩
    by_cases hbb : b = bin
    · subst hbb
      rw [Function.update_self, List.mem_cons] at hj
      exact hj.imp_right fun hj => ⟨b, hbn, hj⟩
    · rw [Function.update_of_ne hbb] at hj
      exact Or.inr ⟨b, hbn, hj⟩
  · rintro (rfl | ⟨b, hbn, hj⟩)
    · exact ⟨bin, hb, by rw [Function.update_self]; exact List.mem_cons_self ..⟩
    · by_cases hbb : b = bin
      · subst hbb
        exact ⟨b, hbn, by rw [Function.update_self]; exact List.mem_cons_of_mem _ hj⟩
      · exact ⟨b, hbn, by rwa [Function.update_of_ne hbb]⟩

/-- A table in which an id, which was on no chain, heads the chain of its bin. -/
theorem Links.cons (hl : t.Links chains) {t' : Table} {id : EntryId} {e : Entry}
    (hsize : t'.bins.size = t.bins.size) (hb : t.binOf e.hash < t.bins.size)
    (hid : id ∉ idsOf t.bins.size chains)
    (hhead : ∀ b, t'.binHead b = if b = t.binOf e.hash then some id else t.binHead b)
    (hget : t'.get? id = some { e with next := t.binHead (t.binOf e.hash) })
    (hsame : ∀ j, j ≠ id → t'.get? j = t.get? j) : t'.Links (consAt chains (t.binOf e.hash) id) := by
  have hne : ∀ b < t.bins.size, ∀ j ∈ chains b, j ≠ id := by
    rintro b hbn j hj rfl
    exact hid (mem_idsOf.mpr ⟨b, hbn, hj⟩)
  have hold : ∀ b < t.bins.size, t'.Leads (t.binHead b) (chains b) := fun b hbn =>
    (hl.ends b hbn).congr fun j hj => by rw [hsame j (hne b hbn j hj)]
  have hbin : ∀ hash, t'.binOf hash = t.binOf hash := fun hash => by rw [binOf, binOf, hsize]
  refine ⟨fun b hbn => ?_, fun b hbn j hj f hf => ?_⟩
  · rw [hsize] at hbn
    rw [hhead, consAt]
    by_cases hbb : b = t.binOf e.hash
    · rw [if_pos hbb, hbb, Function.update_self]
      exact ⟨rfl, _, hget, hold _ hb⟩
    · rw [if_neg hbb, Function.update_of_ne hbb]
      exact hold b hbn
  · rw [hsize] at hbn
    rw [hbin]
    have hcases : b = t.binOf e.hash ∧ j = id ∨ j ∈ chains b := by
      rw [consAt] at hj
      by_cases hbb : b = t.binOf e.hash
      · rw [hbb, Function.update_self, List.mem_cons] at hj
        exact hj.imp (fun h => ⟨hbb, h⟩) fun h => hbb ▸ h
      · rw [Function.update_of_ne hbb] at hj
        exact Or.inr hj
    rcases hcases with ⟨rfl, rfl⟩ | hj
    · rw [hget, Option.some.injEq] at hf
      rw [← hf]
    · rw [hsame j (hne b hbn j hj)] at hf
      exact hl.home b hbn j hj f hf

theorem Chained.binOf_lt (hc : t.Chained chains) (hash : UInt64) : t.binOf hash < t.bins.size :=
  Nat.mod_lt _ hc.bins_pos

/-! ### Prepending -/

theorem get?_prepend (hfree : ∀ i ∈ t.free, t.Vacant i) (hash : UInt64) (key record : Value)
    (j : EntryId) : (t.prepend hash key record).get? j =
      if j = t.nextId then some ⟨hash, key, record, t.binHead (t.binOf hash)⟩ else t.get? j :=
  get?_store hfree ⟨hash, key, record, t.binHead (t.binOf hash)⟩ j

theorem Chained.prepend (hc : t.Chained chains) (hash : UInt64) {key : Value}
    (hkey : key ≠ .absent) (record : Value) :
    (t.prepend hash key record).Chained (consAt chains (t.binOf hash) t.nextId) := by
  let e : Entry := ⟨hash, key, record, t.binHead (t.binOf hash)⟩
  have hfree : ∀ i ∈ t.free, t.Vacant i := fun i hi => (hc.free_vacant i).mp hi
  have hget := get?_prepend hfree hash key record
  have hstored : ∀ e, (t.store e).bins = t.bins ∧ (t.store e).count = t.count := by
    intro e; unfold store; split <;> exact ⟨rfl, rfl⟩
  have hsize : (t.prepend hash key record).bins.size = t.bins.size := by
    simp only [Table.prepend, setHead, Array.size_setIfInBounds, (hstored _).1]
  have hb := hc.binOf_lt hash
  have hnew : t.nextId ∉ idsOf t.bins.size chains := fun h => by
    obtain ⟨f, hf⟩ := (hc.linked _).mpr h
    rw [get?_nextId hfree] at hf
    exact absurd hf (by simp)
  have hlinks : (t.prepend hash key record).Links (consAt chains (t.binOf hash) t.nextId) := by
    refine hc.toLinks.cons (e := e) hsize hb hnew (fun b => ?_) (by rw [hget, if_pos rfl])
      fun j hj => by rw [hget, if_neg hj]
    have hb' : t.binOf hash < (t.store e).bins.size := by rw [(hstored e).1]; exact hb
    exact (binHead_setHead (t.store e) hb' (some t.nextId) b).trans (by rw [binHead, binHead, (hstored e).1])
  have hids : ∀ j, j ∈ idsOf t.bins.size (consAt chains (t.binOf hash) t.nextId) ↔
      j = t.nextId ∨ j ∈ idsOf t.bins.size chains := fun j => mem_consAt hb
  refine ⟨hlinks, hsize ▸ hc.bins_pos, fun j => ?_, hlinks.once, fun i => ?_, ?_, ?_⟩
  · rw [hsize, hids, hget, ← hc.linked]
    by_cases hj : j = t.nextId
    · simp [hj]
    · simp [hj]
  · exact ((mem_free_store hc.free_nodup e).2 i).trans
      (Iff.trans (and_congr_left' (hc.free_vacant i)) (vacant_store hfree e i).symm)
  · exact (mem_free_store hc.free_nodup e).1
  · have hcount : (t.prepend hash key record).count = t.count + 1 := by
      simp only [Table.prepend, setHead, (hstored _).2]
    have hholds : (t.prepend hash key record).holdsKey t.nextId = true := by
      rw [holdsKey, hget, if_pos rfl]
      simpa [Entry.isTombstone, Value.isAbsent] using hkey
    have hrest : ∀ j ∈ idsOf t.bins.size chains,
        (t.prepend hash key record).holdsKey j = t.holdsKey j := by
      intro j hj
      have hne : j ≠ t.nextId := fun h => hnew (h ▸ hj)
      rw [holdsKey, holdsKey, hget, if_neg hne]
    rw [hcount, hc.count_eq, hsize,
      countP_add hc.once (hsize ▸ hlinks.once) hids hnew hrest, hholds, if_pos rfl]

/-! ### Relinking -/

/-- A table on its way from `t` to `n` new chains: the ids in `done` are linked again, nothing but
the links has changed. -/
structure Relinking (t : Table) (n : Nat) (done : List EntryId) (t' : Table)
    (chains : Nat → List EntryId) : Prop extends Links t' chains where
  size_eq : t'.bins.size = n
  free_eq : t'.free = t.free
  count_eq : t'.count = t.count
  vacant_iff : ∀ i, t'.Vacant i ↔ t.Vacant i
  content_eq : ∀ id, t'.content? id = t.content? id
  mem_iff : ∀ id, id ∈ idsOf n chains ↔ id ∈ done

theorem get?_relink {id : EntryId} {e : Entry} (he : t.get? id = some e) (j : EntryId) :
    (t.relink id).get? j =
      if j = id then some { e with next := t.binHead (t.binOf e.hash) } else t.get? j := by
  simp only [relink, he]
  exact (get?_adjust t id _ j).trans (by rw [he]; rfl)

theorem relinking_start (t : Table) (n : Nat) :
    Relinking t n [] { t with bins := Array.replicate n none } fun _ => [] where
  ends bin _ := by
    simp only [Leads, binHead, Array.getD_eq_getD_getElem?, Array.getElem?_replicate]
    split <;> rfl
  home := by simp
  size_eq := Array.size_replicate
  free_eq := rfl
  count_eq := rfl
  vacant_iff _ := Iff.rfl
  content_eq _ := rfl
  mem_iff id := by simp [idsOf]

/-- Relinking one more id. -/
theorem Relinking.step {n : Nat} (hn : 0 < n) {done : List EntryId} {t' : Table}
    (hr : Relinking t n done t' chains) {id : EntryId} {e : Entry} (he : t.get? id = some e)
    (hid : id ∉ done) : ∃ chains', Relinking t n (done ++ [id]) (t'.relink id) chains' := by
  obtain ⟨e', he', hcontent⟩ := exists_get?_of_content?_eq (hr.content_eq id) he
  have hget := get?_relink he'
  have hb : t'.binOf e'.hash < t'.bins.size := Nat.mod_lt _ (hr.size_eq.symm ▸ hn)
  have hsize : (t'.relink id).bins.size = t'.bins.size := by
    simp only [relink, he', setHead, adjust, Array.size_setIfInBounds]
  refine ⟨consAt chains (t'.binOf e'.hash) id, ?_, ?_, ?_, ?_, fun i => ?_, fun j => ?_, fun j => ?_⟩
  · refine hr.toLinks.cons hsize hb ?_ (fun b => ?_) (by rw [hget, if_pos rfl]) fun j hj => by
      rw [hget, if_neg hj]
    · rw [hr.size_eq, hr.mem_iff]; exact hid
    · simp only [relink, he']
      exact binHead_setHead (t'.adjust id _) hb (some id) b
  · rw [hsize, hr.size_eq]
  · simp only [relink, he', setHead, adjust, hr.free_eq]
  · simp only [relink, he', setHead, adjust, hr.count_eq]
  · rw [← hr.vacant_iff]
    simp only [relink, he']
    exact vacant_adjust t' id _ i
  · rw [content?, hget, ← hr.content_eq, content?]
    by_cases hj : j = id
    · rw [if_pos hj, hj, he']; rfl
    · rw [if_neg hj]
  · rw [mem_consAt (hr.size_eq ▸ hb), hr.mem_iff, List.mem_append, List.mem_singleton, or_comm]

/-- Relinking a list of ids, all of them different. -/
theorem Relinking.run {n : Nat} (hn : 0 < n) :
    ∀ (ids done : List EntryId) (t' : Table) (chains : Nat → List EntryId),
      Relinking t n done t' chains → ids.Nodup → (∀ id ∈ ids, id ∉ done) →
      (∀ id ∈ ids, ∃ e, t.get? id = some e) →
      ∃ chains', Relinking t n (done ++ ids) (ids.foldl relink t') chains'
  | [], done, t', chains, hr, _, _, _ => ⟨chains, by simpa using hr⟩
  | id :: ids, done, t', chains, hr, hnodup, hnew, hlive => by
    rw [List.nodup_cons] at hnodup
    obtain ⟨e, he⟩ := hlive id (List.mem_cons_self ..)
    obtain ⟨chains', hr'⟩ := hr.step hn he (hnew id (List.mem_cons_self ..))
    have hrest : ∀ j ∈ ids, j ∉ done ++ [id] := by
      intro j hj hmem
      rw [List.mem_append, List.mem_singleton] at hmem
      rcases hmem with hmem | rfl
      · exact hnew j (List.mem_cons_of_mem _ hj) hmem
      · exact hnodup.1 hj
    obtain ⟨chains'', hr''⟩ := Relinking.run hn ids _ _ _ hr' hnodup.2 hrest
      fun j hj => hlive j (List.mem_cons_of_mem _ hj)
    exact ⟨chains'', by simpa using hr''⟩

/-- What relinking all ids leads to. -/
theorem Chained.relinked (hc : t.Chained chains) {n : Nat} (hn : 0 < n) :
    ∃ chains', Relinking t n (idsOf t.bins.size chains)
      (t.entryIds.foldl relink { t with bins := Array.replicate n none }) chains' := by
  have hlive : ∀ id ∈ idsOf t.bins.size chains, ∃ e, t.get? id = some e := fun id hid =>
    (hc.linked id).mpr hid
  rw [hc.entryIds_eq]
  exact Relinking.run hn _ [] _ _ (relinking_start t n) hc.once (by simp) hlive

/-- Relinking changes the links of an entry only. -/
theorem relink_keeps (t : Table) (id : EntryId) : (t.relink id).free = t.free ∧
    (∀ i, (t.relink id).Vacant i ↔ t.Vacant i) ∧
      ∀ j, (t.relink id).content? j = t.content? j := by
  unfold relink
  cases he : t.get? id with
  | none => exact ⟨rfl, fun _ => Iff.rfl, fun _ => rfl⟩
  | some e =>
    refine ⟨rfl, fun i => vacant_adjust t id _ i, fun j => ?_⟩
    have hget := get?_relink he j
    rw [relink, he] at hget
    rw [content?, hget]
    split
    · rename_i hj
      rw [hj, content?, he]
      rfl
    · rfl

theorem rehash_keeps (t : Table) (n : Nat) : (t.rehash n).free = t.free ∧
    (∀ i, (t.rehash n).Vacant i ↔ t.Vacant i) ∧
      ∀ j, (t.rehash n).content? j = t.content? j := by
  have hfold : ∀ (ids : List EntryId) (u : Table), (ids.foldl relink u).free = u.free ∧
      (∀ i, (ids.foldl relink u).Vacant i ↔ u.Vacant i) ∧
        ∀ j, (ids.foldl relink u).content? j = u.content? j := by
    intro ids
    induction ids with
    | nil => exact fun u => ⟨rfl, fun _ => Iff.rfl, fun _ => rfl⟩
    | cons id ids ih =>
      intro u
      obtain ⟨hfree, hvacant, hcontent⟩ := ih (u.relink id)
      obtain ⟨hfree', hvacant', hcontent'⟩ := relink_keeps u id
      exact ⟨hfree.trans hfree', fun i => (hvacant i).trans (hvacant' i),
        fun j => (hcontent j).trans (hcontent' j)⟩
  exact hfold t.entryIds { t with bins := Array.replicate n none }

theorem content?_rehash (t : Table) (n : Nat) (id : EntryId) :
    (t.rehash n).content? id = t.content? id := (t.rehash_keeps n).2.2 id

theorem Chained.rehash (hc : t.Chained chains) {n : Nat} (hn : 0 < n) :
    (t.rehash n).WellFormed := by
  obtain ⟨chains', hr⟩ := hc.relinked hn
  have hsize : (t.rehash n).bins.size = n := hr.size_eq
  have hcontent := t.content?_rehash n
  have hlinks : (t.rehash n).Links chains' := hr.toLinks.congr rfl fun _ => rfl
  refine ⟨chains', hlinks, hsize.symm ▸ hn, fun id => ?_, hlinks.once, fun i => ?_, ?_, ?_⟩
  · rw [hsize, hr.mem_iff, ← hc.linked, live_iff, live_iff, hcontent]
  · exact (by rw [← hc.free_vacant, ← hr.free_eq]; rfl : _ ↔ t.Vacant i).trans (hr.vacant_iff i).symm
  · exact hr.free_eq.symm ▸ hc.free_nodup
  · have hcount : (t.rehash n).count = t.count := hr.count_eq
    have hperm : (idsOf n chains').Perm (idsOf t.bins.size chains) :=
      (List.perm_ext_iff_of_nodup (hsize ▸ hlinks.once) hc.once).mpr hr.mem_iff
    rw [hcount, hc.count_eq, hsize, hperm.countP_eq]
    exact List.countP_congr fun id _ => by rw [holdsKey_congr (hcontent id)]

/-! ### Changing an entry in place -/

/-- Changing the entry of a dead id changes nothing. -/
theorem adjust_eq_self {id : EntryId} (hd : t.get? id = none) (f : Entry → Entry) :
    t.adjust id f = t := by
  have hslots : t.slots.modify id.index (fun slot => if slot.generation = id.generation
      then { slot with entry := slot.entry.map f } else slot) = t.slots := by
    refine Array.ext_getElem? fun i => ?_
    rw [Array.getElem?_modify]
    split
    · rename_i hi
      subst hi
      unfold get? at hd
      cases hs : t.slots[id.index]? with
      | none => rfl
      | some slot =>
        obtain ⟨g, c⟩ := slot
        rw [hs] at hd
        by_cases hg : g = id.generation
        · simp only [hg, if_true] at hd
          simp [hg, hd]
        · simp [hg]
    · rfl
  rw [adjust, hslots]

/-- A table in which one entry has another key and another record. -/
theorem Chained.replace (hc : t.Chained chains) {id : EntryId} {e : Entry}
    (he : t.get? id = some e) {f : Entry → Entry} (hhash : (f e).hash = e.hash)
    (hnext : (f e).next = e.next) {n : Nat}
    (hcount : n + (if e.isTombstone then 0 else 1) =
      t.count + if (f e).isTombstone then 0 else 1) :
    Chained { t.adjust id f with count := n } chains := by
  have hget : ∀ j, (t.adjust id f).get? j = if j = id then some (f e) else t.get? j := fun j =>
    (get?_adjust t id f j).trans (by rw [he]; rfl)
  have hlinks : Links { t.adjust id f with count := n } chains :=
    hc.toLinks.congr rfl fun j => by
      show ((t.adjust id f).get? j).map _ = _
      rw [hget]
      by_cases hj : j = id
      · rw [if_pos hj, hj, he, Option.map_some, Option.map_some, hhash, hnext]
      · rw [if_neg hj]
  refine ⟨hlinks, hc.bins_pos, fun j => ?_, hlinks.once, fun i => ?_, hc.free_nodup, ?_⟩
  · refine Iff.trans ?_ (hc.linked j)
    show (∃ e, (t.adjust id f).get? j = some e) ↔ _
    rw [hget]
    by_cases hj : j = id
    · simp [hj, he]
    · simp [hj]
  · exact (hc.free_vacant i).trans (vacant_adjust t id f i).symm
  · have hid : id ∈ idsOf t.bins.size chains := (hc.linked id).mp ⟨e, he⟩
    have hchange := countP_change (p := t.holdsKey) (q := (t.adjust id f).holdsKey) hc.once hid
      fun j _ hj => by rw [holdsKey, holdsKey, hget, if_neg hj]
    have hold : t.holdsKey id = !e.isTombstone := by rw [holdsKey, he]; rfl
    have hnew : (t.adjust id f).holdsKey id = !(f e).isTombstone := by
      rw [holdsKey, hget, if_pos rfl]; rfl
    rw [hold, hnew, ← hc.count_eq] at hchange
    show n = (idsOf t.bins.size chains).countP (t.adjust id f).holdsKey
    cases hf : (f e).isTombstone <;> cases hd : e.isTombstone <;>
      simp [hf, hd] at hchange hcount <;> omega

/-- A new record leaves a table well formed, also for a dead id. -/
theorem Chained.setRecord (hc : t.Chained chains) (id : EntryId) (record : Value) :
    (t.setRecord id record).Chained chains := by
  rw [Table.setRecord]
  cases he : t.get? id with
  | none => rw [adjust_eq_self he]; exact hc
  | some e => exact hc.replace (f := fun e => { e with record := record }) he rfl rfl rfl

theorem content?_setRecord {id : EntryId} {e : Entry} (he : t.get? id = some e) (record : Value)
    (j : EntryId) : (t.setRecord id record).content? j =
      if j = id then some { e.content with record := record } else t.content? j := by
  rw [content?, Table.setRecord, get?_adjust, he, content?]
  by_cases hj : j = id
  · rw [if_pos hj, if_pos hj]; rfl
  · rw [if_neg hj, if_neg hj]

/-- A tombstone takes a key that was there, and only from an entry that was none already. -/
theorem tombstone_eq_some_iff {id : EntryId} {e : Entry} {t' : Table} :
    t.tombstone id = some (e, t') ↔ t.get? id = some e ∧ e.isTombstone = false ∧
      t' = { t.adjust id (fun e => { e with key := .absent, record := .absent }) with
        count := t.count - 1 } := by
  unfold tombstone
  cases t.get? id with
  | none => simp
  | some f =>
    cases hf : f.isTombstone with
    | true =>
      simp only [hf, if_true, Option.some.injEq, reduceCtorEq, false_iff, not_and]
      rintro rfl h
      rw [hf] at h
      exact absurd h (by simp)
    | false =>
      simp only [hf, Bool.false_eq_true, if_false, Option.some.injEq, Prod.mk.injEq]
      constructor
      · rintro ⟨rfl, rfl⟩
        exact ⟨rfl, hf, rfl⟩
      · rintro ⟨rfl, _, rfl⟩
        exact ⟨rfl, rfl⟩

theorem Chained.tombstone (hc : t.Chained chains) {id : EntryId} {e : Entry} {t' : Table}
    (ht : t.tombstone id = some (e, t')) : t'.Chained chains := by
  obtain ⟨he, hd, rfl⟩ := tombstone_eq_some_iff.mp ht
  refine hc.replace he rfl rfl ?_
  have hpos : 0 < t.count := by
    rw [hc.count_eq, List.countP_pos_iff]
    refine ⟨id, (hc.linked id).mp ⟨e, he⟩, ?_⟩
    rw [holdsKey, he]
    simpa using hd
  have habsent : Entry.isTombstone { e with key := .absent, record := .absent } = true := by
    simp [Entry.isTombstone, Value.isAbsent]
  rw [hd, habsent]
  simp only [Bool.false_eq_true, if_false, if_true]
  omega

theorem content?_tombstone {id : EntryId} {e : Entry} {t' : Table}
    (ht : t.tombstone id = some (e, t')) (j : EntryId) : t'.content? j =
      if j = id then some { e.content with key := .absent, record := .absent } else t.content? j := by
  obtain ⟨he, _, rfl⟩ := tombstone_eq_some_iff.mp ht
  rw [content?, content?]
  show ((t.adjust id _).get? j).map _ = _
  rw [get?_adjust, he]
  by_cases hj : j = id
  · rw [if_pos hj, if_pos hj]; rfl
  · rw [if_neg hj, if_neg hj]

/-! ### Unlinking -/

theorem predecessor?_eq {id : EntryId} {post : List EntryId} :
    ∀ {pre : List EntryId} (before : Option EntryId), id ∉ pre →
      predecessor? id before (pre ++ id :: post) = some (pre.getLast?.or before)
  | [], before, _ => by simp [predecessor?]
  | p :: pre, before, hid => by
    rw [List.mem_cons, not_or] at hid
    rw [List.cons_append, predecessor?, if_neg (Ne.symm hid.1), predecessor?_eq (some p) hid.2,
      List.getLast?_cons]
    cases pre.getLast? <;> rfl

/-- Leading the link of `p` past the id behind it takes that id out of the chain. -/
theorem Leads.splice {p id : EntryId} {e : Entry} {post : List EntryId} (he : t.get? id = some e) :
    ∀ {pre : List EntryId} {cursor : Option EntryId}, t.Leads cursor (pre ++ p :: id :: post) →
      (pre ++ p :: id :: post).Nodup →
      (t.adjust p fun f => { f with next := e.next }).Leads cursor (pre ++ p :: post)
  | [], cursor, ⟨hp, f, hf, _, e', he', hl⟩, hnodup => by
    obtain rfl : e = e' := Option.some.inj (he.symm.trans he')
    refine ⟨hp, { f with next := e.next }, by rw [get?_adjust, if_pos rfl, hf]; rfl, ?_⟩
    refine hl.congr fun j hj => ?_
    have hjp : j ≠ p := by
      rintro rfl
      simp [hj] at hnodup
    rw [get?_adjust, if_neg hjp]
  | x :: pre, cursor, ⟨hx, f, hf, hl⟩, hnodup => by
    rw [List.cons_append, List.nodup_cons] at hnodup
    have hxp : x ≠ p := by
      rintro rfl
      simp at hnodup
    refine ⟨hx, f, by rw [get?_adjust, if_neg hxp, hf], ?_⟩
    exact hl.splice he hnodup.2

/-- Leading a link past an entry changes links only. -/
theorem content?_bypass (t : Table) (bin : Nat) (before next : Option EntryId) (j : EntryId) :
    (t.bypass bin before next).content? j = t.content? j := by
  cases before with
  | none => rfl
  | some p =>
    rw [bypass, content?, content?, get?_adjust]
    split
    · rename_i hj
      rw [hj, Option.map_map]; rfl
    · rfl

/-- The heads and chains after the link to an id is led past it. -/
theorem Links.bypass (hl : t.Links chains) {bin : Nat} (hb : bin < t.bins.size) {id : EntryId}
    {e : Entry} (he : t.get? id = some e) {pre post : List EntryId}
    (hchain : chains bin = pre ++ id :: post) (b : Nat) (hbn : b < t.bins.size) :
    (t.bypass bin pre.getLast? e.next).Leads ((t.bypass bin pre.getLast? e.next).binHead b)
      (Function.update chains bin (pre ++ post) b) := by
  have hnodup : (pre ++ id :: post).Nodup := hchain ▸ (hl.ends bin hb).nodup
  have hlead : t.Leads (t.binHead bin) (pre ++ id :: post) := hchain ▸ hl.ends bin hb
  rcases List.eq_nil_or_concat pre with rfl | ⟨pre', p, rfl⟩
  · simp only [List.getLast?_nil, Table.bypass, List.nil_append]
    rw [binHead_setHead t hb]
    obtain ⟨_, e', he', hpost⟩ := hlead
    obtain rfl : e = e' := Option.some.inj (he.symm.trans he')
    by_cases hbb : b = bin
    · rw [if_pos hbb, hbb, Function.update_self]
      exact hpost.congr fun _ _ => rfl
    · rw [if_neg hbb, Function.update_of_ne hbb]
      exact (hl.ends b hbn).congr fun _ _ => rfl
  · rw [List.concat_eq_append] at hlead hnodup hchain ⊢
    rw [List.append_assoc] at hlead hnodup
    rw [List.getLast?_concat, Table.bypass]
    have hhead : (t.adjust p fun f => { f with next := e.next }).binHead b = t.binHead b := rfl
    rw [hhead]
    by_cases hbb : b = bin
    · rw [hbb, Function.update_self, List.append_assoc]
      exact hlead.splice he hnodup
    · rw [Function.update_of_ne hbb]
      refine (hl.ends b hbn).congr fun j hj => ?_
      have hjp : j ≠ p := by
        rintro rfl
        exact hbb (hl.bin_unique hbn hb hj (by rw [hchain]; simp))
      rw [get?_adjust, if_neg hjp]

/-- Leading a link past an entry keeps bins, free slots and count. -/
theorem bypass_keeps (t : Table) (bin : Nat) (before next : Option EntryId) :
    (t.bypass bin before next).bins.size = t.bins.size ∧
      (t.bypass bin before next).free = t.free ∧ (t.bypass bin before next).count = t.count ∧
      ∀ i, (t.bypass bin before next).Vacant i ↔ t.Vacant i := by
  cases before with
  | none => exact ⟨by simp [bypass, setHead], rfl, rfl, fun _ => Iff.rfl⟩
  | some p => exact ⟨rfl, rfl, rfl, vacant_adjust t p _⟩

/-- Taking an id out of the chain of its bin takes it out of the listed ids. -/
theorem Links.mem_splice (hl : t.Links chains) {bin : Nat} (hb : bin < t.bins.size) {id : EntryId}
    {pre post : List EntryId} (hchain : chains bin = pre ++ id :: post) (j : EntryId) :
    j ∈ idsOf t.bins.size (Function.update chains bin (pre ++ post)) ↔
      j ≠ id ∧ j ∈ idsOf t.bins.size chains := by
  have hid : id ∈ chains bin := by rw [hchain]; simp
  have hsplit : ∀ j, j ∈ pre ++ post ↔ j ≠ id ∧ j ∈ chains bin := by
    have hnodup : (pre ++ id :: post).Nodup := hchain ▸ (hl.ends bin hb).nodup
    have hout : id ∉ pre ++ post := (List.nodup_cons.mp (List.nodup_middle.mp hnodup)).1
    intro j
    rw [hchain, List.mem_append, List.mem_append, List.mem_cons]
    constructor
    · intro hj
      exact ⟨fun h => hout (h ▸ List.mem_append.mpr hj), hj.imp_right Or.inr⟩
    · rintro ⟨hne, hj⟩
      exact hj.imp_right fun hj => hj.resolve_left hne
  rw [mem_idsOf, mem_idsOf]
  constructor
  · rintro ⟨b, hbn, hj⟩
    by_cases hbb : b = bin
    · subst hbb
      rw [Function.update_self, hsplit] at hj
      exact ⟨hj.1, b, hbn, hj.2⟩
    · rw [Function.update_of_ne hbb] at hj
      exact ⟨fun h => hbb (hl.bin_unique hbn hb (h ▸ hj) hid), b, hbn, hj⟩
  · rintro ⟨hne, b, hbn, hj⟩
    refine ⟨b, hbn, ?_⟩
    by_cases hbb : b = bin
    · subst hbb
      rw [Function.update_self, hsplit]
      exact ⟨hne, hj⟩
    · rwa [Function.update_of_ne hbb]

/-- Freeing the slot of an id that is on no chain any more. -/
theorem Links.release (hl : t.Links chains) {u : Table} (hsize : u.bins.size = t.bins.size)
    (hcontent : ∀ j, u.content? j = t.content? j) {chains' : Nat → List EntryId}
    (hends : ∀ b < t.bins.size, u.Leads (u.binHead b) (chains' b)) {id : EntryId} {e : Entry}
    (he : u.get? id = some e) (hsub : ∀ b < t.bins.size, ∀ j ∈ chains' b, j ≠ id ∧ j ∈ chains b) :
    (u.release id).Links chains' := by
  have hget := get?_release he
  have hsize' : (u.release id).bins.size = t.bins.size := hsize
  refine ⟨fun b hbn => ?_, fun b hbn j hj f hf => ?_⟩
  · rw [hsize'] at hbn
    exact (hends b hbn).congr fun j hj => by rw [hget, if_neg (hsub b hbn j hj).1]
  · rw [hsize'] at hbn
    obtain ⟨hne, hjb⟩ := hsub b hbn j hj
    rw [hget, if_neg hne] at hf
    obtain ⟨g, hg, hcg⟩ := exists_get?_of_content?_eq (hcontent j).symm hf
    have hhash : g.hash = f.hash := by rw [← g.content_hash, hcg, f.content_hash]
    rw [binOf, hsize', ← hhash]
    exact hl.home b hbn j hjb g hg

/-- The table after an id was led past and its slot freed. -/
theorem Chained.unlinked (hc : t.Chained chains) {id : EntryId} {e : Entry}
    (he : t.get? id = some e) {pre post : List EntryId}
    (hchain : chains (t.binOf e.hash) = pre ++ id :: post) (stamp : UInt64) :
    Chained { (t.bypass (t.binOf e.hash) pre.getLast? e.next).release id with
      count := if e.isTombstone then t.count else t.count - 1, stamp := stamp }
      (Function.update chains (t.binOf e.hash) (pre ++ post)) := by
  have hb := hc.binOf_lt e.hash
  obtain ⟨hsize, hfree, -, hvacant⟩ :=
    bypass_keeps t (t.binOf e.hash) pre.getLast? e.next
  have hends := hc.toLinks.bypass hb he hchain
  have hcontent := content?_bypass t (t.binOf e.hash) pre.getLast? e.next
  generalize t.bypass (t.binOf e.hash) pre.getLast? e.next = u at hsize hfree hvacant hends hcontent
  have hmem := hc.toLinks.mem_splice hb hchain
  obtain ⟨e', he', -⟩ := exists_get?_of_content?_eq (hcontent id) he
  have hget := get?_release he'
  have hlinks : (u.release id).Links (Function.update chains (t.binOf e.hash) (pre ++ post)) := by
    refine hc.toLinks.release hsize hcontent hends he' fun b hbn j hj => ⟨?_, ?_⟩
    · exact ((hmem j).mp (mem_idsOf.mpr ⟨b, hbn, hj⟩)).1
    · by_cases hbb : b = t.binOf e.hash
      · rw [hbb, Function.update_self, List.mem_append] at hj
        rw [hbb, hchain, List.mem_append, List.mem_cons]
        exact hj.imp_right Or.inr
      · rwa [Function.update_of_ne hbb] at hj
  have hsize' : (u.release id).bins.size = t.bins.size := hsize
  refine ⟨hlinks.congr rfl fun _ => rfl, hsize.symm ▸ hc.bins_pos, fun j => ?_, hlinks.once,
    fun i => ?_, ?_, ?_⟩
  · show (∃ e, (u.release id).get? j = some e) ↔ j ∈ idsOf (u.release id).bins.size _
    rw [hsize', hmem, ← hc.linked, live_iff (t := t), ← hcontent, ← live_iff, hget]
    by_cases hj : j = id
    · simp [hj]
    · simp [hj]
  · show i ∈ id.index :: u.free ↔ (u.release id).Vacant i
    rw [vacant_release he', hvacant, hfree, List.mem_cons, hc.free_vacant]
  · show (id.index :: u.free).Nodup
    rw [hfree]
    refine List.nodup_cons.mpr ⟨fun hmem => ?_, hc.free_nodup⟩
    have hvac := get?_eq_none_of_vacant ((hc.free_vacant _).mp hmem)
    rw [he] at hvac
    exact absurd hvac (by simp)
  · have hkeys : ∀ j ∈ idsOf t.bins.size (Function.update chains (t.binOf e.hash) (pre ++ post)),
        t.holdsKey j = (u.release id).holdsKey j := by
      intro j hj
      rw [← holdsKey_congr (hcontent j), holdsKey, holdsKey, hget, if_neg ((hmem j).mp hj).1]
    have hids : ∀ j, j ∈ idsOf t.bins.size chains ↔ j = id ∨
        j ∈ idsOf t.bins.size (Function.update chains (t.binOf e.hash) (pre ++ post)) := by
      intro j
      rw [hmem]
      by_cases hj : j = id
      · simp [hj, (hc.linked id).mp ⟨e, he⟩]
      · simp [hj]
    have hcount := countP_add (hsize' ▸ hlinks.once) hc.once hids
      (fun h => ((hmem id).mp h).1 rfl) hkeys
    have hholds : t.holdsKey id = !e.isTombstone := by rw [holdsKey, he]; rfl
    rw [← hc.count_eq, hholds] at hcount
    show (if e.isTombstone = true then t.count else t.count - 1) =
      (idsOf (u.release id).bins.size _).countP (u.release id).holdsKey
    rw [hsize', hcount]
    cases e.isTombstone <;> simp

theorem stamp_bypass (t : Table) (bin : Nat) (before next : Option EntryId) :
    (t.bypass bin before next).stamp = t.stamp := by
  cases before <;> rfl

/-- Unlinking takes a live id from the chain of its bin, leading the link before it past it. -/
theorem unlink_eq_ok_iff {id : EntryId} {e : Entry} {t' : Table} : t.unlink id = .ok (e, t') ↔
    t.get? id = some e ∧ ∃ before,
      predecessor? id none ((t.chain (t.binOf e.hash)).map (·.1)) = some before ∧
      t' = { (t.bypass (t.binOf e.hash) before e.next).release id with
        count := if e.isTombstone then t.count else t.count - 1, stamp := t.stamp + 1 } := by
  have hkeeps : ∀ bin before next, (t.bypass bin before next).count = t.count := fun bin before next =>
    (bypass_keeps t bin before next).2.2.1
  unfold Table.unlink
  cases t.get? id with
  | none => simp
  | some f =>
    simp only [release, hkeeps, stamp_bypass]
    constructor
    · intro h
      split at h
      · cases h
      · rename_i before hbefore
        obtain ⟨rfl, rfl⟩ := Prod.mk.inj (Except.ok.inj h)
        exact ⟨rfl, before, hbefore, rfl⟩
    · rintro ⟨he, before, hbefore, rfl⟩
      obtain rfl := Option.some.inj he
      rw [hbefore]

/-- In a well-formed table, unlinking a live id succeeds. -/
theorem Chained.unlink_eq (hc : t.Chained chains) {id : EntryId} {e : Entry}
    (he : t.get? id = some e) : ∃ pre post, chains (t.binOf e.hash) = pre ++ id :: post ∧
      t.unlink id = .ok (e, { (t.bypass (t.binOf e.hash) pre.getLast? e.next).release id with
        count := if e.isTombstone then t.count else t.count - 1, stamp := t.stamp + 1 }) := by
  have hb := hc.binOf_lt e.hash
  obtain ⟨bin, hbin, hid⟩ := mem_idsOf.mp ((hc.linked id).mp ⟨e, he⟩)
  obtain rfl := hc.home bin hbin id hid e he
  obtain ⟨pre, post, hchain⟩ := List.append_of_mem hid
  have hnodup : (pre ++ id :: post).Nodup := hchain ▸ (hc.ends _ hb).nodup
  have hpre : id ∉ pre := fun h =>
    (List.nodup_cons.mp (List.nodup_middle.mp hnodup)).1 (List.mem_append_left _ h)
  have hbefore : predecessor? id none ((t.chain (t.binOf e.hash)).map (·.1)) =
      some pre.getLast? := by
    rw [hc.map_chain hb, hchain, predecessor?_eq none hpre, Option.or_none]
  exact ⟨pre, post, hchain, unlink_eq_ok_iff.mpr ⟨he, _, hbefore, rfl⟩⟩

theorem Chained.exists_unlink (hc : t.Chained chains) {id : EntryId} {e : Entry}
    (he : t.get? id = some e) : ∃ t', t.unlink id = .ok (e, t') := by
  obtain ⟨pre, post, -, hunlink⟩ := hc.unlink_eq he
  exact ⟨_, hunlink⟩

theorem unlink_eq_error {id : EntryId} (hd : t.get? id = none) :
    t.unlink id = .error .unlinkOfDeadEntry := by
  simp only [unlink, hd]

/-- Unlinking an id fails for dead ids only, and otherwise takes it and nothing else away. -/
theorem Chained.unlink (hc : t.Chained chains) {id : EntryId} {e : Entry} {t' : Table}
    (ht : t.unlink id = .ok (e, t')) : t.get? id = some e ∧ t'.WellFormed ∧
      ∀ j, t'.content? j = if j = id then none else t.content? j := by
  have he := (unlink_eq_ok_iff.mp ht).1
  obtain ⟨pre, post, hchain, heq⟩ := hc.unlink_eq he
  obtain ⟨-, rfl⟩ := Prod.mk.inj (Except.ok.inj (ht.symm.trans heq))
  refine ⟨he, ⟨_, hc.unlinked he hchain _⟩, fun j => ?_⟩
  have hcontent := content?_bypass t (t.binOf e.hash) pre.getLast? e.next
  obtain ⟨e', he', -⟩ := exists_get?_of_content?_eq (hcontent id) he
  rw [← hcontent, content?, content?]
  show (((t.bypass (t.binOf e.hash) pre.getLast? e.next).release id).get? j).map _ = _
  rw [get?_release he']
  by_cases hj : j = id
  · rw [if_pos hj, if_pos hj]; rfl
  · rw [if_neg hj, if_neg hj]

/-! ### Any change -/

/-- One change of a table. -/
inductive Change (t : Table) : Table → Prop
  | prepend (hash : UInt64) {key : Value} (hkey : key ≠ .absent) (record : Value) :
      Change t (t.prepend hash key record)
  | rehash {n : Nat} (hn : 1 ≤ n) : Change t (t.rehash n)
  | unlink {id : EntryId} {e : Entry} {t' : Table} (h : t.unlink id = .ok (e, t')) : Change t t'
  | tombstone {id : EntryId} {e : Entry} {t' : Table} (h : t.tombstone id = some (e, t')) :
      Change t t'
  | setRecord (id : EntryId) (record : Value) : Change t (t.setRecord id record)

theorem WellFormed.change (hw : t.WellFormed) (h : t.Change t') : t'.WellFormed := by
  obtain ⟨chains, hc⟩ := hw
  cases h with
  | prepend hash hkey record => exact ⟨_, hc.prepend hash hkey record⟩
  | rehash hn => exact hc.rehash hn
  | unlink h => exact (hc.unlink h).2.1
  | tombstone h => exact ⟨chains, hc.tombstone h⟩
  | setRecord id record => exact ⟨chains, hc.setRecord id record⟩

/-- Changes of a table, one after the other. -/
def Changes : Table → Table → Prop := Relation.ReflTransGen Change

theorem WellFormed.changes (hw : t.WellFormed) (h : t.Changes t') : t'.WellFormed := by
  induction h with
  | refl => exact hw
  | tail _ h ih => exact ih.change h

/-- If every unlinking is a step, unlinking a list of entries is a sequence of steps, also if it stops
in the middle. -/
theorem steps_unlinkAll {step : Table → Table → Prop}
    (hunlink : ∀ {t t' : Table} {id e}, t.unlink id = .ok (e, t') → step t t') :
    ∀ (t : Table) (ids : List EntryId), Relation.ReflTransGen step t (t.unlinkAll ids).2
  | t, [] => Relation.ReflTransGen.refl
  | t, id :: ids => by
    rw [unlinkAll]
    split
    · rename_i e t' h
      exact Relation.ReflTransGen.head (hunlink h) (steps_unlinkAll hunlink t' ids)
    · exact Relation.ReflTransGen.refl

theorem changes_unlinkAll (t : Table) (ids : List EntryId) : t.Changes (t.unlinkAll ids).2 :=
  steps_unlinkAll Change.unlink t ids

theorem strategy_relink (t : Table) (id : EntryId) : (t.relink id).strategy = t.strategy := by
  unfold relink
  split <;> rfl

theorem strategy_prepend (t : Table) (hash : UInt64) (key record : Value) :
    (t.prepend hash key record).strategy = t.strategy := by
  show (t.store _).strategy = t.strategy
  unfold store
  split <;> rfl

theorem strategy_rehash (t : Table) (n : Nat) : (t.rehash n).strategy = t.strategy := by
  refine List.foldlRecOn (motive := fun s : Table => s.strategy = t.strategy) t.entryIds relink
    rfl fun s hs id _ => ?_
  rw [strategy_relink, hs]

/-- No change concerns the strategy. -/
theorem Change.strategy_eq (h : t.Change t') : t'.strategy = t.strategy := by
  cases h with
  | prepend hash hkey record => exact strategy_prepend t hash _ record
  | rehash hn => exact strategy_rehash t _
  | unlink h =>
    obtain ⟨-, before, -, rfl⟩ := unlink_eq_ok_iff.mp h
    cases before <;> rfl
  | tombstone h =>
    obtain ⟨-, -, rfl⟩ := tombstone_eq_some_iff.mp h
    rfl
  | setRecord id record => rfl

theorem Changes.strategy_eq (h : t.Changes t') : t'.strategy = t.strategy := by
  induction h with
  | refl => rfl
  | tail _ h ih => rw [h.strategy_eq, ih]

/-! ### Entering -/

/-- A table with one more entry, after the bins have grown if they were too few. -/
def enter (t : Table) (hash : UInt64) (key record : Value) : Table :=
  (if t.needsGrow then t.rehash (primeAtLeast (t.bins.size * 2)) else t).prepend hash key record

theorem changes_enter (t : Table) (hash : UInt64) {key : Value} (hkey : key ≠ .absent) (record : Value) :
    t.Changes (t.enter hash key record) := by
  rw [enter]
  split
  · exact (Relation.ReflTransGen.single (.rehash (primeAtLeast_pos _))).tail (.prepend hash hkey record)
  · exact .single (.prepend hash hkey record)

end ObjectMachine.Table
