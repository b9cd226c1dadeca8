import Mathlib.Tactic
import ObjectMachine.Proofs.Dictionary.Judgements
import ObjectMachine.Proofs.Dictionary.Watching

/-! Effects that tend an iterator.

An effect tends an iterator if its run is a history of the watched machine, with the roots it found
still there at the end.  The judgement counts structural changes: those that the methods of keys and
visitors make lie in a submonoid of the naturals, and the operation adds its own.  With the trivial
submonoid the methods make none, and the count is what the operation itself does to the table. -/

namespace ObjectMachine

open Table (Position Placed Tours)
open Dictionary (History)

/-- A machine that is watched, with a machine from before whose roots are still there. -/
structure Machine.Tended (m : Machine) (iter table : Value) (base : Machine) : Prop where
  rooted : iter ∈ base.roots
  carries : base.Carries m
  watching : ∃ i t, i.table = table ∧ m.Watching iter i t

/-- A run is a history.  Structural changes beside those in `A` are the answer's own. -/
def Effect.Tends (iter : Value) (base : Machine) (A : AddSubmonoid ℕ) (own : α → Set ℕ)
    (a : Effect α) (m : Machine) : Prop :=
  ∃ n calls, History iter m n calls (a.after m) ∧ base.Carries (a.after m) ∧
    (∀ x m', a m = .ok x m' → ∃ j ∈ A, ∃ k ∈ own x, n = j + k) ∧
    ∀ u m', a m = .error u m' → n ∈ A

/-- No structural change of one's own. -/
def still (_ : α) : Set ℕ := {0}

namespace Machine

variable {iter table : Value} {base m m' : Machine}

theorem Tended.self (hm : m.Tended iter table base) : m.Tended iter table m :=
  ⟨hm.carries.roots_subset hm.rooted, .refl m, hm.watching⟩

theorem Tended.of_history (hm : m.Tended iter table base) {n : Nat}
    {calls : List (Table × Option EntryId)} (h : History iter m n calls m')
    (hc : base.Carries m') : m'.Tended iter table base := by
  obtain ⟨i, t, rfl, hw⟩ := hm.watching
  obtain ⟨j, t', hj, hw'⟩ := h.watching hw
  exact ⟨hm.rooted, hc, j, t', hj, hw'⟩

/-- What leaves the heap alone is no change. -/
theorem Tended.still_of_heap_eq (hm : m.Tended iter table base) (hheap : m'.heap = m.heap)
    (hc : base.Carries m') : History iter m 0 [] m' := by
  obtain ⟨i, t, -, hw⟩ := hm.watching
  exact .changed .start hw .refl (hw.of_heap_eq hheap (hc.roots_subset hm.rooted))

end Machine

namespace Effect

open Machine

variable {α β : Type} {iter table : Value} {base m : Machine} {A : AddSubmonoid ℕ}
  {a : Effect α} {f : α → Effect β} {own : α → Set ℕ} {own' : β → Set ℕ}

theorem tends_of_ok {x : α} {m' : Machine} {k : Nat} {calls : List (Table × Option EntryId)}
    (h : a m = .ok x m') (hist : History iter m k calls m') (hc : base.Carries m')
    (hk : k ∈ own x) : Tends iter base A own a m := by
  refine ⟨k, calls, after_of_ok h ▸ hist, after_of_ok h ▸ hc, fun y m'' hy => ?_, fun u m'' hu => ?_⟩
  · obtain ⟨rfl, rfl⟩ := EStateM.Result.ok.inj (h.symm.trans hy)
    exact ⟨0, A.zero_mem, k, hk, (Nat.zero_add k).symm⟩
  · rw [h] at hu
    cases hu

/-- An effect that fails and leaves the machine alone. -/
theorem tends_of_fatal {u : Unwind} (hm : m.Tended iter table base) (h : a m = .error u m) :
    Tends iter base A own a m := by
  rw [Tends, after_of_error h]
  refine ⟨0, [], .start, hm.carries, fun x m' hx => ?_, fun _ _ _ => A.zero_mem⟩
  rw [h] at hx
  cases hx

theorem tends_pure (hm : m.Tended iter table base) {x : α} (hx : 0 ∈ own x) :
    Tends iter base A own (pure x) m := tends_of_ok rfl .start hm.carries hx

/-- More may be known to be there. -/
theorem Tends.rebase (hm : m.Tended iter table base) (ha : Tends iter m A own a m) :
    Tends iter base A own a m := by
  obtain ⟨n, calls, hist, hc, hok, herror⟩ := ha
  exact ⟨n, calls, hist, hm.carries.trans hc, hok, herror⟩

/-- One effect after the other; the changes of the first are not its own. -/
theorem Tends.bind (hm : m.Tended iter table base) (ha : Tends iter base A still a m)
    (hf : ∀ x m', a m = .ok x m' → m'.Tended iter table base → Tends iter base A own' (f x) m') :
    Tends iter base A own' (a >>= f) m := by
  obtain ⟨n, calls, hist, hc, hok, herror⟩ := ha
  cases h : a m with
  | error u m' =>
    have hbind : (a >>= f) m = .error u m' := bind_of_error h
    rw [after_of_error h] at hist hc
    refine ⟨n, calls, after_of_error hbind ▸ hist, after_of_error hbind ▸ hc, fun y m'' hy => ?_,
      fun _ _ _ => herror u m' h⟩
    rw [hbind] at hy
    cases hy
  | ok x m' =>
    have hbind : (a >>= f) m = f x m' := bind_of_ok h
    have hafter : (a >>= f).after m = (f x).after m' := after_bind_of_ok h
    rw [after_of_ok h] at hist hc
    obtain ⟨j, hj, k, hk, rfl⟩ := hok x m' h
    obtain rfl : k = 0 := hk
    obtain ⟨n', calls', hist', hc', hok', herror'⟩ := hf x m' h (hm.of_history hist hc)
    refine ⟨j + n', calls ++ calls', hafter ▸ hist.trans hist', hafter ▸ hc', fun y m'' hy => ?_,
      fun u m'' hu => ?_⟩
    · obtain ⟨j', hj', k', hk', rfl⟩ := hok' y m'' (hbind ▸ hy)
      exact ⟨j + j', A.add_mem hj hj', k', hk', (Nat.add_assoc j j' k').symm⟩
    · exact A.add_mem hj (herror' u m'' (hbind ▸ hu))

/-- An effect whose answer is only looked at. -/
theorem Tends.map (ha : Tends iter base A own a m) (g : α → β) (hg : ∀ x, own x ⊆ own' (g x)) :
    Tends iter base A own' (a >>= fun x => pure (g x)) m := by
  obtain ⟨n, calls, hist, hc, hok, herror⟩ := ha
  have hafter := after_map a g m
  refine ⟨n, calls, hafter ▸ hist, hafter ▸ hc, fun y m' hy => ?_, fun u m' hu => ?_⟩
  · obtain ⟨x, m₁, hx, hpure⟩ := exists_of_bind_eq_ok hy
    obtain ⟨rfl, rfl⟩ := EStateM.Result.ok.inj hpure
    obtain ⟨j, hj, k, hk, hn⟩ := hok x m₁ hx
    exact ⟨j, hj, k, hg x hk, hn⟩
  · cases h : a m with
    | ok x m₁ =>
      rw [bind_of_ok h] at hu
      cases hu
    | error u' m₁ => exact herror u' m₁ h

theorem Tends.withHandles (hm : m.Tended iter table base) (ha : Tends iter m A own a m) :
    Tends iter base A own (withHandles a) m := by
  obtain ⟨n, calls, hist, hc, hok, herror⟩ := ha
  have hc' := hm.carries.trans hc.shrink
  have hm' := hm.of_history hist (hm.carries.trans hc)
  have hlast := hist.trans (hm'.still_of_heap_eq (by rfl) hc')
  rw [List.append_nil] at hlast
  refine ⟨n, calls, by rwa [after_withHandles], by rwa [after_withHandles], fun x m' h => ?_,
    fun u m' h => ?_⟩
  · refine hok x _ (eq_ok_of_ending ?_)
    rw [← ending_withHandles, ending_of_ok h]
  · refine herror u _ (eq_error_of_ending ?_)
    rw [← ending_withHandles, ending_of_error h]

/-- Without changes of its own all that an effect does is a history. -/
theorem tends_still_iff : Tends iter base A still a m ↔
    ∃ n ∈ A, ∃ calls, History iter m n calls (a.after m) ∧ base.Carries (a.after m) := by
  constructor
  · rintro ⟨n, calls, hist, hc, hok, herror⟩
    refine ⟨n, ?_, calls, hist, hc⟩
    cases h : a m with
    | error u m' => exact herror u m' h
    | ok x m' =>
      obtain ⟨j, hj, k, hk, rfl⟩ := hok x m' h
      obtain rfl : k = 0 := hk
      exact hj
  · rintro ⟨n, hn, calls, hist, hc⟩
    exact ⟨n, calls, hist, hc, fun _ _ _ => ⟨n, hn, 0, rfl, rfl⟩, fun _ _ _ => hn⟩

/-- Writing to the table. -/
theorem tends_write (hm : m.Tended iter table base) {t : Table} {g : Table → Table} {k : Nat}
    {own : Unit → Set ℕ} (ht : m.heap.read Facet.table table = .ok t) (he : t.Evolves k (g t))
    (hk : k ∈ own ()) : Tends iter base A own (write Facet.table table g) m := by
  obtain ⟨i, t', rfl, hw⟩ := hm.watching
  obtain rfl : t' = t := Except.ok.inj (hw.table_eq.symm.trans ht)
  have hw' := hw.change (hw.wellFormed.changes he.changes)
  have hist := History.changed .start hw he hw'
  rw [Nat.zero_add] at hist
  exact tends_of_ok (write_of_ok ht g) hist (hm.carries.trans (m.carries_with _ _)) hk

end Effect

open Effect

/-- That an effect tends an iterator and makes no structural changes of its own. -/
def Judgement.tending (iter table : Value) (base : Machine) (A : AddSubmonoid ℕ) : Judgement :=
  .ofRel (fun m m' => m.Tended iter table base →
      ∃ n ∈ A, ∃ calls, History iter m n calls m' ∧ base.Carries m')
    (fun _ hm => ⟨0, A.zero_mem, [], .start, hm.carries⟩)
    fun _ _ _ h h' hm => by
      obtain ⟨n, hn, calls, hist, hc⟩ := h hm
      obtain ⟨n', hn', calls', hist', hc'⟩ := h' (hm.of_history hist hc)
      exact ⟨n + n', A.add_mem hn hn', calls ++ calls', hist.trans hist', hc'⟩

namespace Judgement

variable {α : Type} {iter table : Value} {base m : Machine} {A : AddSubmonoid ℕ} {a : Effect α}

theorem At.tends (h : (tending iter table base A).At a m) (hm : m.Tended iter table base) :
    Tends iter base A still a m := tends_still_iff.mpr (h hm)

theorem at_tending (h : m.Tended iter table base → Tends iter base A still a m) :
    (tending iter table base A).At a m := fun hm => tends_still_iff.mp (h hm)

theorem meets_tending (h : ∀ {m : Machine}, m.Tended iter table m → Tends iter m A still a m) :
    (tending iter table base A).Meets a := fun _ =>
  at_tending fun hm => (h hm.self).rebase hm

/-- What leaves the heap alone. -/
theorem tending_of_heap_eq (hheap : (a.after m).heap = m.heap)
    (hc : base.Carries m → base.Carries (a.after m)) : (tending iter table base A).At a m :=
  fun hm => ⟨0, A.zero_mem, [], hm.still_of_heap_eq hheap (hc hm.carries), hc hm.carries⟩

/-- What leaves the roots alone, and the iterator and its table as they were. -/
theorem tending_of_watching {heap : Heap} {events : Array Event}
    (h : a.after m = { m with heap := heap, events := events })
    (hw : ∀ {i t}, m.Watching iter i t → (a.after m).Watching iter i t) :
    (tending iter table base A).At a m := fun hm => by
  obtain ⟨i, t, -, hi⟩ := hm.watching
  refine ⟨0, A.zero_mem, [], .changed .start hi .refl (hw hi), ?_⟩
  rw [h]
  exact hm.carries.trans (m.carries_with _ _)

theorem tending_record (e : Event) : (tending iter table base A).Meets (record e) := fun m =>
  tending_of_heap_eq rfl fun hc => hc.trans (m.carries_with _ _)

theorem tending_pin (v : Value) : (tending iter table base A).Meets (pin v) := fun _ =>
  tending_of_heap_eq rfl fun hc => hc.push v

theorem tending_setHandle {place : Nat} (hplace : base.handles.size ≤ place) (v : Value) :
    (tending iter table base A).Meets (setHandle place v) := fun _ =>
  tending_of_heap_eq rfl fun hc => hc.setHandle hplace v

theorem tending_setUnwindState (s : UnwindState) :
    (tending iter table base A).Meets (update fun m => { m with unwindState := s }) := fun _ =>
  tending_of_heap_eq rfl fun hc => hc.trans ⟨rfl, rfl, rfl, List.prefix_rfl, List.Subset.refl _⟩

theorem tending_collectGarbage : (tending iter table base A).Meets collectGarbage := fun _ =>
  tending_of_watching rfl fun hw => hw.collectWith []

theorem tending_alloc (cls : Value) (body : Body) :
    (tending iter table base A).Meets (alloc cls body) := by
  intro m
  rcases alloc_cases cls body m with h | h
  · have hafter := after_of_ok (h.trans rfl)
    exact tending_of_watching hafter fun hw => hafter ▸ hw.store cls body
  · have hafter := after_of_ok (h.trans rfl)
    exact tending_of_watching hafter fun hw => hafter ▸ (hw.collectWith (cls :: body.edges)).store cls body

/-- Writing to an object of another kind than tables and iterators. -/
theorem tending_write {facet : Facet β} (hf : facet.Lawful) (hiter : facet.kind ≠ .iterator)
    (htable : facet.kind ≠ .table) (v : Value) (g : β → β) :
    (tending iter table base A).Meets (write facet v g) :=
  meets_write fun _ => tending_of_watching rfl fun hw => hw.modify hf hiter htable v g

def tendingScope (m : Machine) : (tending iter table base A).Scope m where
  inner := tending iter table m A
  pin := tending_pin
  close ha := at_tending fun hm => Tends.withHandles hm (ha.tends hm.self)

theorem tending_raises : (tending iter table base A).Raises :=
  have hmakes : ∀ {base : Machine}, (tending iter table base A).Makes :=
    ⟨fun cls _ _ _ => tending_alloc cls _, fun _ _ => tending_write Facet.lawful_array nofun nofun _ _,
      fun _ _ => tending_write Facet.lawful_exception nofun nofun _ _⟩
  ⟨hmakes, meets_captureTrace tendingScope fun _ => hmakes,
    meets_throwException_ofRel fun m => tending_setUnwindState (.unwinding) m⟩

theorem tending_discardException (exc : Value) (context : String) :
    (tending iter table base A).Meets (discardException exc context) :=
  meets_discardException tending_record (tending_setUnwindState _) exc context

/-- A step may be any number of structural changes that need not be told apart. -/
theorem tending_steps :
    (tending iter table base A).Steps table fun t t' => ∃ k ∈ A, t.Evolves k t' := by
  intro m t g ht hsteps
  obtain ⟨k, hk, hevolves⟩ : ∃ k ∈ A, t.Evolves k (g t) := by
    generalize g t = t' at hsteps
    induction hsteps with
    | refl => exact ⟨0, A.zero_mem, .refl⟩
    | tail _ hstep ih =>
      obtain ⟨n, hn, h⟩ := ih
      obtain ⟨k, hk, h'⟩ := hstep
      exact ⟨n + k, A.add_mem hn hk, h.trans h'⟩
  intro hm
  have hwrite : Tends iter base A (fun _ => {k}) (write Facet.table table g) m :=
    tends_write hm ht hevolves (Set.mem_singleton k)
  obtain ⟨n, calls, hist, hc, hok, -⟩ := hwrite
  obtain ⟨j, hj, k', hk', rfl⟩ := hok _ _ (write_of_ok ht g)
  exact ⟨j + k', A.add_mem hj (Set.mem_singleton_iff.mp hk' ▸ hk), calls, hist, hc⟩

end Judgement

namespace Dictionary

open Effect Machine Judgement

variable {iter table key record : Value} {base m : Machine} {A : AddSubmonoid ℕ} {keys : Keys}
  {meaning : KeyMeaning} {hash : UInt64}

/-! ### Keys -/

/-- Whether the methods of the keys tend an iterator. -/
structure TendingKeys (iter table : Value) (A : AddSubmonoid ℕ) (keys : Keys) : Prop where
  hash : ∀ key {m : Machine}, m.Tended iter table m → Tends iter m A still (keys.hash key) m
  equal : ∀ key other {m : Machine}, m.Tended iter table m →
    Tends iter m A still (keys.equal key other) m

theorem TendingKeys.meets (hk : TendingKeys iter table A keys) :
    (tending iter table base A).MeetsKeys keys :=
  ⟨fun key => meets_tending (hk.hash key), fun key other => meets_tending (hk.equal key other)⟩

/-- The keys of every strategy tend an iterator if the messages they send do. -/
theorem tendingKeys_of_send {calls : Calls} (hsend : ∀ v name args {m : Machine},
    m.Tended iter table m → Tends iter m A still (calls.send v name args) m) (s : Strategy) :
    TendingKeys iter table A (calls.keys s) := by
  have hsend' : ∀ {base : Machine} v name args,
      (tending iter table base A).Meets (calls.send v name args) :=
    fun v name args => meets_tending (hsend v name args)
  have hk : ∀ {base : Machine}, (tending iter table base A).MeetsKeys (calls.keys s) :=
    meetsKeys_of_send tending_raises hsend'
      (meets_valueEqual forgets_ofRel excuses_ofRel tending_discardException hsend') s
  exact ⟨fun key m hm => (hk.hash key m).tends hm, fun key other m hm => (hk.equal key other m).tends hm⟩

/-! ### Operations without changes of their own -/

theorem tends_lookup (hk : ∀ s, TendingKeys iter table A (meaning s))
    (hm : m.Tended iter table base) : Tends iter base A still (lookup meaning table key) m :=
  (at_lookup (tendingScope m) (fun s => (hk s).meets) (tending_record _)).tends hm

theorem tends_deleteSafe (hk : ∀ s, TendingKeys iter table A (meaning s))
    (hm : m.Tended iter table base) : Tends iter base A still (deleteSafe meaning table key) m :=
  At.tends (at_deleteSafe (tendingScope m) (fun s => (hk s).meets) (tending_record _) tending_steps
    fun h => ⟨0, A.zero_mem, .tombstone .refl h⟩) hm

theorem tends_next (hm : m.Tended iter table base) : Tends iter base A still (next iter) m := by
  obtain ⟨i, t, -, hw⟩ := hm.watching
  rcases next_cases hw with ⟨p, -, -, h⟩ | ⟨u, h⟩
  · exact tends_of_ok h (.moved .start hw h (hw.moved p)) (hm.carries.trans (m.carries_with _ _)) rfl
  · exact tends_of_fatal hm h

/-- Of the removals of a traversal it is not told how many there are. -/
theorem tends_forEach {visitor : Value → Value → Effect Visit}
    (hv : ∀ key record {m : Machine}, m.Tended iter table m →
      Tends iter m ⊤ still (visitor key record) m) (patience : Nat)
    (hm : m.Tended iter table base) :
    Tends iter base ⊤ still (forEach patience table visitor) m := by
  refine At.tends (at_forEach (tendingScope m) (fun _ v hplace => tending_setHandle hplace v)
    (fun key record => meets_tending (hv key record)) (fun id action => ?_) patience) hm
  exact meets_afterVisit tending_steps (fun h => ⟨1, AddSubmonoid.mem_top 1, .unlink .refl h⟩) id action
    fun _ _ _ => excuses_ofRel _ _

/-! ### Operations with changes of their own -/

/-- The way the operations begin that change the table. -/
theorem tends_withHash (hk : ∀ s, TendingKeys iter table A (meaning s)) (pinned : List Value)
    {k : Keys → UInt64 → Effect β} {own : β → Set ℕ}
    (hrest : ∀ s hash {m' : Machine}, m'.Tended iter table m →
      Tends iter m A own (k (meaning s) hash) m') (hm : m.Tended iter table base) :
    Tends iter base A own (withHandles do
      pinAll pinned
      let keys ← keysOf meaning table
      let hash ← keys.hash key
      k keys hash) m := by
  refine Tends.withHandles hm (((meets_pinAll tending_pin pinned m).tends hm.self).bind hm.self
    fun _ m' _ hm' => ?_)
  rw [keysOf_bind]
  refine ((meets_read _ _ m').tends hm').bind hm' fun t _ _ hm' => ?_
  exact (((hk t.strategy).meets.hash key _).tends hm').bind hm' fun hash _ _ hm' =>
    hrest t.strategy hash hm'

/-- The way they go on when the key has to be found, and the table read. -/
theorem tends_withFind (hk : ∀ s, TendingKeys iter table A (meaning s)) (pinned : List Value)
    {k : UInt64 → Option EntryId → Effect β} {own : β → Set ℕ}
    (hrest : ∀ hash found {m' : Machine}, m'.Tended iter table m →
      Tends iter m A own (k hash found) m') (hm : m.Tended iter table base) :
    Tends iter base A own (withHandles do
      pinAll pinned
      let keys ← keysOf meaning table
      let hash ← keys.hash key
      let found ← find keys table key hash
      k hash found) m :=
  tends_withHash hk pinned (fun s hash m' hm' =>
    ((meets_find (hk s).meets (tending_record _) m').tends hm').bind hm' fun found _ _ hm' =>
      hrest hash found hm') hm

theorem Tends.read_bind (hm : m.Tended iter table base) {facet : Facet α} {v : Value}
    {f : α → Effect β} {own : β → Set ℕ}
    (hf : ∀ x, m.heap.read facet v = .ok x → Tends iter base A own (f x) m) :
    Tends iter base A own (read facet v >>= f) m := by
  refine ((meets_read _ _ m).tends hm).bind hm fun x m' h _ => ?_
  obtain ⟨hx, rfl⟩ := of_read_eq_ok h
  exact hf x hx

/-- Entering a key takes one change, or two if the bins grow first. -/
theorem tends_addHashed (hkey : key ≠ .absent) (record : Value) (hm : m.Tended iter table base) :
    Tends iter base A (fun _ => {1, 2}) (addHashed table hash key record) m := by
  refine Tends.read_bind hm fun t ht => ?_
  have hprepend : ∀ t : Table, t.Evolves 1 (t.prepend hash key record) := fun t =>
    .prepend .refl hash hkey record
  cases hgrow : t.needsGrow with
  | false =>
    simp only [Bool.false_eq_true, if_false]
    exact tends_write hm ht (hprepend t) (Or.inl rfl)
  | true =>
    simp only [if_true]
    obtain ⟨i, t', rfl, hw⟩ := hm.watching
    obtain rfl : t' = t := Except.ok.inj (hw.table_eq.symm.trans ht)
    let bins := Table.primeAtLeast (t'.bins.size * 2)
    have hrehash : t'.Evolves 1 (t'.rehash bins) := .rehash .refl (Table.primeAtLeast_pos _)
    let m₁ : Machine := { m with heap := m.heap.modify Facet.table i.table (·.rehash bins) }
    let m₂ : Machine := { m₁ with
      events := m₁.events.push (.rehashed i.table t'.bins.size bins) }
    have hw₁ : m₁.Watching iter i (t'.rehash bins) :=
      hw.change (hw.wellFormed.changes hrehash.changes)
    have hw₂ : m₂.Watching iter i (t'.rehash bins) := hw₁.of_heap_eq rfl hw.rooted
    have hrecord : Effect.record (.rehashed i.table t'.bins.size bins) m₁ = .ok () m₂ := rfl
    have hw₃ := hw₂.change (g := (·.prepend hash key record))
      (hw₂.wellFormed.changes (hprepend _).changes)
    have hist := History.changed (.changed .start hw hrehash hw₁) hw₁ (hprepend _) hw₃
    refine tends_of_ok (x := ()) ?_ hist (hm.carries.trans (m.carries_with _ _)) (Or.inr rfl)
    refine (bind_of_ok (write_of_ok ht _)).trans ((bind_of_ok hrecord).trans ?_)
    exact write_of_ok hw₂.table_eq _

/-- Replacing the table by one that came from it. -/
theorem tends_replace (hm : m.Tended iter table base) {t t' : Table} {k : Nat} {own : β → Set ℕ}
    (ht : m.heap.read Facet.table table = .ok t) (he : t.Evolves k t') {x : β} (hk : k ∈ own x) :
    Tends iter base A own (write Facet.table table (fun _ => t') >>= fun _ => pure x) m := by
  have hwrite : Tends iter base A (fun _ => {k}) (write Facet.table table fun _ => t') m :=
    tends_write hm ht he rfl
  exact hwrite.map (fun _ => x) fun _ _ hn => Set.mem_singleton_iff.mp hn ▸ hk

theorem tends_insert (hk : ∀ s, TendingKeys iter table A (meaning s)) (hkey : key ≠ .absent)
    (hm : m.Tended iter table base) : Tends iter base A (fun there => if there then {0} else {1, 2})
      (insert meaning table key record) m := by
  refine tends_withFind hk [table, key, record] (fun hash found _ hm => ?_) hm
  refine Tends.read_bind hm fun t ht => ?_
  cases found.filter fun id => (t.get? id).isSome with
  | some id =>
    have hset : Tends iter _ A still (write Facet.table table (·.setRecord id record)) _ :=
      tends_write hm ht (.setRecord .refl id record) rfl
    exact hset.map (fun _ => true) fun _ _ hn => hn
  | none =>
    exact (tends_addHashed hkey record hm).map (fun _ => false) fun _ _ hn => hn

theorem tends_add (hk : ∀ s, TendingKeys iter table A (meaning s)) (hkey : key ≠ .absent)
    (hm : m.Tended iter table base) :
    Tends iter base A (fun _ => {1, 2}) (add meaning table key record) m :=
  tends_withHash hk [table, key, record] (fun _ _ _ hm => tends_addHashed hkey record hm) hm

theorem tends_delete (hk : ∀ s, TendingKeys iter table A (meaning s))
    (hm : m.Tended iter table base) :
    Tends iter base A (fun removed => if removed.isSome then {1} else {0})
      (delete meaning table key) m := by
  refine tends_withFind hk [table, key] (fun hash found _ hm => ?_) hm
  cases found with
  | none => exact tends_pure hm rfl
  | some id =>
    refine Tends.read_bind hm fun t ht => ?_
    cases h : t.unlink id with
    | error how => exact tends_of_fatal hm rfl
    | ok p => exact tends_replace hm ht (.unlink .refl h) rfl

theorem tends_cleanupSafe (hm : m.Tended iter table base) :
    Tends iter base A (fun n => {n}) (cleanupSafe table) m := by
  refine Tends.read_bind hm fun t ht => ?_
  obtain ⟨i, t', rfl, hw⟩ := hm.watching
  obtain rfl : t' = t := Except.ok.inj (hw.table_eq.symm.trans ht)
  obtain ⟨t'', hunlink, -⟩ := hw.wellFormed.unlinkAll_tombstones
  simp only [hunlink]
  exact tends_replace hm ht (Table.evolves_unlinkAll hunlink) rfl

/-! ### The operations together -/

/-- Whether an operation enters no key but a proper one. -/
def Op.Proper : Op → Prop
  | .insert key _ => key ≠ .absent
  | .add key _ => key ≠ .absent
  | _ => True

/-- The structural changes that an operation makes, by its answer. -/
def Op.changes : Op → Answer → Set ℕ
  | .insert _ _, .present false => {1, 2}
  | .add _ _, _ => {1, 2}
  | .delete _, .found (some _) => {1}
  | .cleanup, .removed n => {n}
  | _, _ => {0}

theorem tends_perform (hk : ∀ s, TendingKeys iter table A (meaning s)) {op : Op} (hop : op.Proper)
    (hm : m.Tended iter table base) : Tends iter base A op.changes (op.perform meaning table) m := by
  cases op with
  | insert key record =>
    refine (tends_insert hk hop hm).map Answer.present fun there => ?_
    cases there <;> exact fun _ hn => hn
  | add key record => exact (tends_add hk hop hm).map (fun _ => Answer.done) fun _ _ hn => hn
  | lookup key => exact (tends_lookup hk hm).map Answer.found fun _ _ hn => hn
  | delete key =>
    refine (tends_delete hk hm).map Answer.found fun removed => ?_
    cases removed <;> exact fun _ hn => hn
  | deleteSafe key => exact (tends_deleteSafe hk hm).map Answer.found fun _ _ hn => hn
  | cleanup => exact (tends_cleanupSafe hm).map Answer.removed fun _ _ hn => hn

end Dictionary

end ObjectMachine
