import Mathlib.Tactic
import ObjectMachine.Proofs.Dictionary.Invariant
import ObjectMachine.Proofs.Machine.Secure

/-! The operations on tables keep a machine closed.

The methods of keys are code that keeps a machine closed too, and writes to certain objects.  They are
called with keys that are live: the key looked for is pinned, and the key of an entry is in the table,
which is pinned as well.  Beside what the methods of the keys write, only the table is written. -/

namespace ObjectMachine

open Machine Effect

/-- Hash and equality of keys keep a machine closed and write to these objects only. -/
structure SecureKeys (written : Set Value) (sure : Prop) (keys : Keys) : Prop where
  hash : ∀ m key, Secure written ∅ written sure (m.heap.Resolves key) (keys.hash key) m
    fun _ _ => True
  equal : ∀ m key other, Secure written ∅ written sure
    (m.heap.Resolves key ∧ m.heap.Resolves other) (keys.equal key other) m fun _ _ => True

theorem SecureKeys.of_sure {written : Set Value} {sure sure' : Prop} {keys : Keys}
    (h : SecureKeys written sure keys) (hs : sure' → sure) : SecureKeys written sure' keys :=
  ⟨fun m key => (h.hash m key).of_sure fun _ _ => hs,
    fun m key other => (h.equal m key other).of_sure fun _ _ => hs⟩

theorem secureKeys_symbol (written : Set Value) (sure : Prop) :
    SecureKeys written sure Keys.symbol :=
  ⟨fun _ _ => secure_pure fun _ _ => trivial, fun _ _ _ => secure_pure fun _ _ => trivial⟩

theorem secureKeys_residue (written : Set Value) (sure : Prop) (modulus : Nat) :
    SecureKeys written sure (Keys.residue modulus) :=
  ⟨fun _ _ => secure_pure fun _ _ => trivial, fun _ _ _ => secure_pure fun _ _ => trivial⟩

/-- Texts are only read. -/
theorem secureKeys_text (written : Set Value) : SecureKeys written False Keys.text := by
  refine ⟨fun _ _ => ?_, fun _ key other => ?_⟩
  · exact Secure.read_bind (fun _ _ => secure_pure fun _ _ => trivial) fun _ _ => False.elim
  · simp only [Keys.text]
    split
    · exact secure_pure fun _ _ => trivial
    · refine Secure.read_bind (fun _ _ => ?_) fun _ _ => False.elim
      exact Secure.read_bind (fun _ _ => secure_pure fun _ _ => trivial) fun _ _ => False.elim

/-- Messages keep a machine closed and write to these objects only. -/
def SecureCalls (written : Set Value) (calls : Calls) : Prop :=
  ∀ m receiver name args, Secure written ∅ written False
    (m.heap.Resolves receiver ∧ ∀ v ∈ args, m.heap.Resolves v) (calls.send receiver name args) m
    fun x m' => m'.heap.Resolves x

theorem secure_discardException {avoided lost written : Set Value} {sure pre : Prop} {m : Machine}
    (exc : Value) (context : String) :
    Secure avoided lost written sure pre (discardException exc context) m fun _ _ => True := by
  refine Secure.ask_bind (Secure.ask_bind ?_)
  refine Secure.of_ok (x := ()) rfl le_rfl (fun hm _ _ => ?_) fun _ _ _ => trivial
  exact .of_heap_eq hm rfl (List.Subset.refl _) ⟨rfl, rfl, rfl, List.prefix_rfl, List.Subset.refl _⟩

/-- Keys of every strategy keep a machine closed if the messages they send do. -/
theorem SecureCalls.keys {written : Set Value} {calls : Calls} (hcalls : SecureCalls written calls)
    (s : Strategy) : SecureKeys written False (calls.keys s) := by
  cases s with
  | symbol => exact secureKeys_symbol written False
  | residue modulus => exact secureKeys_residue written False modulus
  | text => exact secureKeys_text written
  | value =>
    refine ⟨fun m key => ?_, fun m key other => ?_⟩
    · have hsend : Secure written ∅ written False (m.heap.Resolves key) (calls.send key "hash" []) m
          fun x m' => m'.heap.Resolves x :=
        (hcalls m key "hash" []).imp (fun _ h => ⟨h, by simp⟩) fun _ _ _ _ _ _ _ h => h
      refine Secure.bind hsend fun x m' _ => ?_
      cases x.fixnum? with
      | some n => exact secure_pure fun _ _ => trivial
      | none => exact Secure.raiseError _ _ fun _ _ => id
    · have hsend : Secure written ∅ written False (m.heap.Resolves key ∧ m.heap.Resolves other)
          (calls.send key "==" [other]) m fun x m' => m'.heap.Resolves x :=
        (hcalls m key "==" [other]).imp (fun _ h => ⟨h.1, by simpa using h.2⟩)
          fun _ _ _ _ _ _ _ h => h
      refine Secure.bind hsend.outcome fun answer m' _ => ?_
      rcases answer with (exc | f) | v
      · exact Secure.map (secure_discardException exc _) _ fun _ _ _ _ _ => trivial
      · exact secure_fault f fun _ _ => id
      · exact secure_pure fun _ _ => trivial

/-- The key that is looked for, or one that was found equal to it. -/
def Keys.Same (keys : Keys) (key other : Value) : Prop :=
  other = key ∨ ∃ m m', keys.equal key other m = .ok true m'

namespace Dictionary

variable {avoided lost written : Set Value} {sure pre : Prop} {m : Machine} {keys : Keys}
  {table key record : Value} {hash : UInt64} {meaning : KeyMeaning}

/-! ### Searching -/

theorem secure_isMatch (hkeys : SecureKeys written sure keys) {e : Entry}
    (hp : m.Intact → pre → m.heap.Resolves key ∧ m.heap.Resolves e.key) :
    Secure written ∅ written sure pre (isMatch keys key hash e) m
      fun hit _ => hit = true → keys.Same key e.key := by
  unfold isMatch
  split
  · split
    · rename_i hsame
      exact secure_pure fun _ _ _ => Or.inl (eq_of_beq hsame)
    · exact (hkeys.equal m key e.key).imp hp fun _ m' _ _ hrun _ _ _ hhit => Or.inr ⟨m, m', hhit ▸ hrun⟩
  · exact secure_pure fun _ _ => nofun

/-- The id is that of an entry with this key, if the methods of the keys leave the table alone. -/
def Found (keys : Keys) (written : Set Value) (table key : Value) (id : EntryId) (m : Machine) : Prop :=
  table ∉ written → ∃ t e, m.heap.read Facet.table table = .ok t ∧ t.get? id = some e ∧
    keys.Same key e.key

/-- What a search from `cursor` on needs in order to return: the methods of the keys leave the table
alone, and the chain ends within the steps allowed. -/
def Searchable (written : Set Value) (table : Value) (m : Machine) (cursor : Option EntryId)
    (fuel : Nat) : Prop :=
  table ∉ written ∧ ∃ t chain, m.heap.read Facet.table table = .ok t ∧ t.Leads cursor chain ∧
    chain.length ≤ fuel

theorem secure_findFrom (hkeys : SecureKeys written sure keys) :
    ∀ (fuel : Nat) (cursor : Option EntryId) {m : Machine} {pre : Prop},
      (m.Intact → pre → key ∈ m.roots ∧ table ∈ m.roots ∧
        (sure → Searchable written table m cursor fuel)) →
      Secure written ∅ written sure pre (findFrom keys table key hash fuel cursor) m
        fun found m' => ∀ id, found = some id → Found keys written table key id m'
  | fuel, none, m, pre, _ => by
    rw [findFrom]
    exact secure_pure fun _ _ id hid => by cases hid
  | 0, some id, m, pre, hp => by
    refine secure_fault _ fun hm h hsure => ?_
    obtain ⟨-, t, chain, -, hleads, hlen⟩ := (hp hm h).2.2 hsure
    cases List.length_eq_zero_iff.mp (Nat.le_zero.mp hlen)
    cases hleads
  | fuel + 1, some id, m, pre, hp => by
    refine Secure.intact (Secure.read_bind (fun t ht => ?_) fun hm h hsure => ?_)
    · cases hid : t.get? id with
      | none => exact (Secure.record _).map _ fun _ _ _ _ _ id hid => by cases hid
      | some e =>
        refine Secure.bind (secure_isMatch hkeys fun hm h => ⟨?_, ?_⟩) fun hit m' _ => ?_
        · exact hm.closed.roots key (hp hm h.2).1
        · exact hm.resolves_of_read Facet.lawful_table ht
            (Table.mem_edges.mpr ⟨id, e, hid, Or.inl rfl⟩)
        cases hit with
        | true =>
          refine secure_pure fun _ h j hj hnot => ?_
          obtain ⟨⟨hm, hpre⟩, hk, hsame⟩ := h
          obtain rfl := Option.some.inj hj
          exact ⟨t, e, hk.read_root (hp hm hpre).2.1 hnot ht, hid, hsame rfl⟩
        | false =>
          refine secure_findFrom hkeys fuel e.next fun _ h => ?_
          obtain ⟨⟨hm, hpre⟩, hk, -⟩ := h
          obtain ⟨hkey, htable, hsearch⟩ := hp hm hpre
          refine ⟨hk.carries.roots_subset hkey, hk.carries.roots_subset htable, fun hsure => ?_⟩
          obtain ⟨hnot, t', chain, ht', hleads, hlen⟩ := hsearch hsure
          obtain rfl := Except.ok.inj (ht.symm.trans ht')
          -- the entry just passed is the head of the chain
          obtain ⟨rest, rfl, hrest⟩ := hleads.exists_cons hid
          exact ⟨hnot, t, rest, hk.read_root htable hnot ht, hrest, Nat.le_of_succ_le_succ hlen⟩
    · obtain ⟨-, t, -, ht, -⟩ := (hp hm h.2).2.2 hsure
      exact ⟨t, ht⟩

/-- A table in which every search comes to an end. -/
def Orderly (m : Machine) (table : Value) : Prop :=
  ∃ t, m.heap.read Facet.table table = .ok t ∧ t.WellFormed

theorem secure_find (hkeys : SecureKeys written sure keys)
    (hp : m.Intact → pre → key ∈ m.roots ∧ table ∈ m.roots ∧
      (sure → table ∉ written ∧ Orderly m table)) :
    Secure written ∅ written sure pre (find keys table key hash) m
      fun found m' => ∀ id, found = some id → Found keys written table key id m' := by
  refine Secure.read_bind (fun t ht => ?_) fun hm h hsure => ?_
  · refine secure_findFrom hkeys _ _ fun hm h => ?_
    obtain ⟨hkey, htable, hs⟩ := hp hm h
    refine ⟨hkey, htable, fun hsure => ?_⟩
    obtain ⟨hnot, t', ht', chains, hc⟩ := hs hsure
    obtain rfl := Except.ok.inj (ht.symm.trans ht')
    have hleads := hc.ends _ (hc.binOf_lt hash)
    have hlen := hleads.length_le
    exact ⟨hnot, t, _, ht, hleads, by omega⟩
  · obtain ⟨-, t, ht, -⟩ := (hp hm h).2.2 hsure
    exact ⟨t, ht⟩

/-! ### Changing a table -/

/-- Changing a table in a way that brings in no values that are stale. -/
theorem secure_writeTable {g : Table → Table} (hw : table ∈ written)
    (hp : m.Intact → pre → ∀ t, m.heap.read Facet.table table = .ok t → t.Slotted → (g t).Slotted ∧
      (∀ v ∈ (Body.table (g t)).edges, v ∈ (Body.table t).edges ∨ m.heap.Resolves v) ∧
      (table ∉ avoided ∪ lost → ∀ v ∈ (Body.table t).edges, v ∈ (Body.table (g t)).edges))
    (hs : m.Intact → pre → sure → ∃ t, m.heap.read Facet.table table = .ok t) :
    Secure avoided lost written sure pre (write Facet.table table g) m fun _ _ => True := by
  refine (Secure.write Facet.lawful_table (fun hm h t ht => ?_) hs).imp (fun _ h => h)
    fun _ _ _ _ _ _ _ _ => trivial
  obtain ⟨hslotted, hnew, hold⟩ := hp hm h t ht (hm.slotted ht)
  refine ⟨fun v hv => ?_, fun t' ht' => ?_, hw, fun hn v hv _ => hold hn v hv⟩
  · rcases hnew v hv with hv | hv
    · exact hm.resolves_of_read Facet.lawful_table ht hv
    · exact hv
  · exact Option.some.inj ht' ▸ hslotted

theorem secure_addHashed (hw : table ∈ written)
    (hp : m.Intact → pre → table ∈ m.roots ∧ key ∈ m.roots ∧ record ∈ m.roots)
    (hs : m.Intact → pre → sure → ∃ t, m.heap.read Facet.table table = .ok t) :
    Secure avoided ∅ written sure pre (addHashed table hash key record) m fun _ _ => True := by
  -- the new entry holds roots
  have hprepend : ∀ {m' : Machine} {pre' : Prop}, (m'.Intact → pre' → key ∈ m'.roots ∧
      record ∈ m'.roots ∧ (sure → ∃ t, m'.heap.read Facet.table table = .ok t)) →
      Secure avoided ∅ written sure pre' (write Facet.table table (·.prepend hash key record)) m'
        fun _ _ => True := by
    intro m' pre' hp'
    refine secure_writeTable hw (fun hm h t ht hslotted => ⟨hslotted.prepend _ _ _, fun v hv => ?_,
      fun _ v hv => ?_⟩) fun hm h => (hp' hm h).2.2
    · rcases (Table.mem_edges_prepend hslotted).mp hv with hv | rfl | rfl
      · exact Or.inl hv
      · exact Or.inr (hm.closed.roots v (hp' hm h).1)
      · exact Or.inr (hm.closed.roots v (hp' hm h).2.1)
    · exact (Table.mem_edges_prepend hslotted).mpr (Or.inl hv)
  refine Secure.intact (Secure.read_bind (fun t ht => ?_) fun hm h => hs hm h.2)
  split
  · refine Secure.bind (secure_writeTable hw (fun _ _ t' _ hslotted => ⟨hslotted.rehash _,
      fun v hv => Or.inl (Table.mem_edges_rehash.mp hv),
      fun _ v hv => Table.mem_edges_rehash.mpr hv⟩) fun _ _ _ => ⟨t, ht⟩) fun _ m₁ _ => ?_
    refine Secure.bind (Secure.record _) fun _ m₂ _ => hprepend fun _ h => ?_
    obtain ⟨⟨⟨hm, hpre⟩, hk, -⟩, hk', -⟩ := h
    obtain ⟨htable, hkey, hrecord⟩ := hp hm hpre
    have hroots := List.Subset.trans hk.carries.roots_subset hk'.carries.roots_subset
    refine ⟨hroots hkey, hroots hrecord, fun _ => ?_⟩
    exact (hk.trans hk').exists_read htable Facet.lawful_table ht
  · exact hprepend fun hm h => ⟨(hp hm h.2).2.1, (hp hm h.2).2.2, fun _ => ⟨t, ht⟩⟩

/-! ### The operations -/

/-- Where the operations on one key are when they hash it: everything they need is pinned. -/
structure Pinned (pinned : List Value) (m m₁ : Machine) : Prop where
  intact : m.Intact
  roots : ∀ v ∈ pinned, v ∈ m₁.roots
  heap_eq : m₁.heap = m.heap

/-- A pinned key can be hashed. -/
theorem secure_hash_pinned {pinned : List Value} {m₁ : Machine}
    (hkeys : SecureKeys written sure keys) (hkey : key ∈ pinned) :
    Secure written ∅ written sure (pre ∧ Pinned pinned m m₁) (keys.hash key) m₁ fun _ _ => True :=
  (hkeys.hash m₁ key).imp (fun hm h => hm.closed.roots key (h.2.roots key hkey))
    fun _ _ _ _ _ _ _ h => h

/-- What the operations on one key have in common. -/
theorem secure_withHash {noted : Set Value} (pinned : List Value) (hsub : noted ⊆ written)
    {k : Keys → UInt64 → Effect β}
    (hpinned : m.Intact → pre → ∀ v ∈ pinned, m.heap.Resolves v)
    (hread : m.Intact → pre → sure → ∃ t, m.heap.read Facet.table table = .ok t)
    (hhash : ∀ s m₁, Secure avoided ∅ noted sure (pre ∧ Pinned pinned m m₁)
      ((meaning s).hash key) m₁ fun _ _ => True)
    (hk : ∀ s hash m₁ m₂, Secure avoided lost written sure
      ((pre ∧ Pinned pinned m m₁) ∧ Keeps avoided ∅ noted m₁ m₂)
      (k (meaning s) hash) m₂ fun _ _ => True) :
    Secure avoided lost written sure pre (withHandles do
      pinAll pinned
      let keys ← keysOf meaning table
      let hash ← keys.hash key
      k keys hash) m fun _ _ => True := by
  refine Secure.intact (Secure.withHandles ?_ fun _ _ _ _ => trivial)
  refine Secure.bind (secure_pinAll pinned fun hm h => hpinned hm h.2) fun _ m₁ _ => ?_
  rw [keysOf_bind]
  refine Secure.read_bind (fun t _ => ?_) fun _ h hsure => ?_
  · have hpre : ∀ h : (m.Intact ∧ pre) ∧ Keeps avoided ∅ written m m₁ ∧
        (∀ v ∈ pinned, v ∈ m₁.roots) ∧ m₁.heap = m.heap, pre ∧ Pinned pinned m m₁ :=
      fun ⟨⟨hm, hpre⟩, _, hroots, hheap⟩ => ⟨hpre, hm, hroots, hheap⟩
    refine Secure.bind (((hhash t.strategy m₁).imp (fun _ => hpre)
      fun _ _ _ _ _ _ _ h => h).noting (Set.Subset.refl avoided) (Set.Subset.refl ∅) hsub)
      fun hash m₂ _ => ?_
    exact (hk t.strategy hash m₁ m₂).imp (fun _ h => ⟨hpre h.1, h.2.2.2⟩)
      fun _ _ _ _ _ _ _ h => h
  · obtain ⟨⟨hm, hpre⟩, -, -, hheap⟩ := h
    rw [hheap]
    exact hread hm hpre hsure

/-- Adding a key writes to the table, and to what hashing the key writes to. -/
theorem secure_add {noted : Set Value} (hsub : noted ⊆ written) (hw : table ∈ written)
    (hhash : ∀ s m₁, Secure avoided ∅ noted sure (pre ∧ Pinned [table, key, record] m m₁)
      ((meaning s).hash key) m₁ fun _ _ => True)
    (hp : m.Intact → pre → ∀ v ∈ [table, key, record], m.heap.Resolves v)
    (hs : m.Intact → pre → sure → ∃ t, m.heap.read Facet.table table = .ok t) :
    Secure avoided ∅ written sure pre (add meaning table key record) m fun _ _ => True := by
  refine secure_withHash [table, key, record] hsub hp hs hhash fun s hash m₁ m₂ => ?_
  refine secure_addHashed hw (fun _ h => ?_) fun _ h hsure => ?_
  · obtain ⟨⟨-, hpinned⟩, hk⟩ := h
    have hroot : ∀ v ∈ [table, key, record], v ∈ m₂.roots := fun v hv =>
      hk.carries.roots_subset (hpinned.roots v hv)
    exact ⟨hroot table (by simp), hroot key (by simp), hroot record (by simp)⟩
  · obtain ⟨⟨hpre, hpinned⟩, hk⟩ := h
    obtain ⟨t, ht⟩ := hs hpinned.intact hpre hsure
    rw [← hpinned.heap_eq] at ht
    exact hk.exists_read (hpinned.roots table (by simp)) Facet.lawful_table ht

/-- Inserting a key does too; the record it replaces may be lost. -/
theorem secure_insert {noted : Set Value} (hkeys : ∀ s, SecureKeys noted sure (meaning s))
    (hp : m.Intact → pre → ∀ v ∈ [table, key, record], m.heap.Resolves v)
    (hs : m.Intact → pre → sure → table ∉ noted ∧ Orderly m table) :
    Secure noted {table} (noted ∪ {table}) sure pre (insert meaning table key record) m
      fun _ _ => True := by
  have hroot : ∀ {m₁ m₂ : Machine}, Pinned [table, key, record] m m₁ →
      Keeps noted ∅ noted m₁ m₂ → ∀ v ∈ [table, key, record], v ∈ m₂.roots :=
    fun hpinned hk v hv => hk.carries.roots_subset (hpinned.roots v hv)
  refine secure_withHash [table, key, record] Set.subset_union_left hp
    (fun hm h hsure => ?_) (fun s m₁ => ?_) fun s hash m₁ m₂ => ?_
  · obtain ⟨-, t, ht, -⟩ := hs hm h hsure
    exact ⟨t, ht⟩
  · exact secure_hash_pinned (hkeys s) (by simp)
  have horderly : ∀ {m₂ : Machine}, sure → pre → Pinned [table, key, record] m m₁ →
      Keeps noted ∅ noted m₁ m₂ → table ∉ noted ∧ Orderly m₂ table := by
    intro m₂ hsure hpre hpinned hk
    obtain ⟨hnot, t, ht, hw⟩ := hs hpinned.intact hpre hsure
    rw [← hpinned.heap_eq] at ht
    exact ⟨hnot, t, hk.read_root (hpinned.roots table (by simp)) hnot ht, hw⟩
  refine Secure.bind ((secure_find (hkeys s) fun _ h => ⟨?_, ?_, fun hsure => ?_⟩).noting
    (Set.Subset.refl noted) (Set.Subset.refl ∅) Set.subset_union_left) fun found m₃ _ => ?_
  · exact hroot h.1.2 h.2 key (by simp)
  · exact hroot h.1.2 h.2 table (by simp)
  · exact horderly hsure h.1.1 h.1.2 h.2
  refine Secure.read_bind (fun t ht => ?_) fun _ h hsure => ?_
  · cases hfound : found.filter fun id => (t.get? id).isSome with
    | some id =>
      refine Secure.map (secure_writeTable (Or.inr rfl)
        (fun hm h t' _ hslotted => ⟨hslotted.setRecord id record, fun v hv => ?_, fun hn => ?_⟩)
        fun _ _ _ => ⟨t, ht⟩) _ fun _ _ _ _ _ => trivial
      · rcases Table.mem_edges_setRecord hv with hv | rfl
        · exact Or.inl hv
        · refine Or.inr (hm.closed.roots v ?_)
          exact h.2.1.carries.roots_subset (hroot h.1.1.2 h.1.2 v (by simp))
      · exact absurd (Or.inr rfl) hn
    | none =>
      refine Secure.map ((secure_addHashed (Or.inr rfl) (fun _ h => ?_)
        fun _ _ _ => ⟨t, ht⟩).mono (Set.Subset.refl noted) (fun _ _ => Set.empty_subset {table})
        fun _ _ => Set.Subset.refl _) _ fun _ _ _ _ _ => trivial
      have hroot' : ∀ v ∈ [table, key, record], v ∈ m₃.roots := fun v hv =>
        h.2.1.carries.roots_subset (hroot h.1.1.2 h.1.2 v hv)
      exact ⟨hroot' table (by simp), hroot' key (by simp), hroot' record (by simp)⟩
  · obtain ⟨hnot, t, ht, -⟩ := horderly hsure h.1.1.1 h.1.1.2 (h.1.2.trans h.2.2.2)
    exact ⟨t, ht⟩

end Dictionary

end ObjectMachine
