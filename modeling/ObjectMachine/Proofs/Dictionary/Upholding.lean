import Mathlib.Tactic
import ObjectMachine.Proofs.Dictionary.Invariant
import ObjectMachine.Proofs.Machine.Secure
import ObjectMachine.Proofs.Table.FiniteMap

/-! Effects that uphold a property of tables.

What holds of new tables and survives every change holds of all tables at all times.  `Upholds` says
of a run that it keeps such a property, and names the corruptions it may end in.  Walking over a
well-formed table finds none. -/

namespace ObjectMachine

/-- Whether every table on the heap has a property. -/
def Machine.Tables (P : Table → Prop) (m : Machine) : Prop := ∀ i t, m.heap.tableIn? i = some t → P t

theorem Machine.Tables.inherit {P : Table → Prop} {m m' : Machine} (hm : m.Tables P)
    (h : m'.Inherits m) : m'.Tables P := fun i t ht => hm i t (h i t ht)

theorem Machine.Tables.read {P : Table → Prop} {m : Machine} (hm : m.Tables P) {table : Value}
    {t : Table} (ht : m.heap.read Facet.table table = .ok t) : P t :=
  hm _ t (Heap.tableIn?_of_read ht)

/-- A property of tables that new tables have and that changes keep, as long as the records put into
the table are good ones. -/
structure Table.Kept (good : Value → Prop) (P : Table → Prop) : Prop where
  wellFormed : ∀ {t}, P t → t.WellFormed
  new : ∀ strategy size, P (Table.new strategy size)
  prepend : ∀ {t} hash {key record}, P t → key ≠ .absent → good record → P (t.prepend hash key record)
  rehash : ∀ {t n}, P t → 1 ≤ n → P (t.rehash n)
  setRecord : ∀ {t} id {record}, P t → good record → P (t.setRecord id record)
  unlink : ∀ {t id e t'}, P t → t.unlink id = .ok (e, t') → P t'
  tombstone : ∀ {t id e t'}, P t → t.tombstone id = some (e, t') → P t'

theorem Table.kept_wellFormed : Table.Kept (fun _ => True) Table.WellFormed where
  wellFormed hw := hw
  new := Table.wellFormed_new
  prepend hash _ record hw hkey _ := hw.change (.prepend hash hkey record)
  rehash hw hn := hw.change (.rehash hn)
  setRecord id record hw _ := hw.change (.setRecord id record)
  unlink hw h := hw.change (.unlink h)
  tombstone hw h := hw.change (.tombstone h)

namespace Table

/-! ### Walks over well-formed tables -/

variable {t : Table}

theorem WellFormed.binHead_leads (hw : t.WellFormed) (bin : Nat) :
    ∃ ids, t.Leads (t.binHead bin) ids := by
  obtain ⟨chains, hc⟩ := hw
  by_cases hb : bin < t.bins.size
  · exact ⟨_, hc.ends bin hb⟩
  · refine ⟨[], ?_⟩
    simp [Leads, binHead, Array.getD_eq_getD_getElem?, Nat.le_of_not_lt hb]

theorem WellFormed.next_leads (hw : t.WellFormed) {id : EntryId} {e : Entry}
    (he : t.get? id = some e) : ∃ ids, t.Leads e.next ids := by
  obtain ⟨chains, hc⟩ := hw
  obtain ⟨bin, hb, hid⟩ := mem_idsOf.mp ((hc.linked id).mp ⟨e, he⟩)
  obtain ⟨pre, post, hsplit⟩ := List.append_of_mem hid
  have hends := hc.ends bin hb
  rw [hsplit] at hends
  obtain ⟨-, e', he', hl⟩ := hends.suffix
  obtain rfl : e' = e := Option.some.inj (he'.symm.trans he)
  exact ⟨post, hl⟩

/-- Along a chain that ends, seeking meets no dead link and stops at a key. -/
theorem Leads.seekChain : ∀ {ids : List EntryId} {cursor : Option EntryId} (fuel : Nat),
    t.Leads cursor ids → ∃ found, t.seekChain fuel cursor = .ok found ∧
      ∀ id, found = some id → t.holdsKey id = true
  | _, _, 0, _ => ⟨none, by rw [Table.seekChain], nofun⟩
  | [], _, fuel + 1, h => by
    rw [show _ = none from h]
    exact ⟨none, rfl, nofun⟩
  | id :: rest, _, fuel + 1, ⟨h, e, he, hl⟩ => by
    rw [h, Table.seekChain, he]
    by_cases hd : e.isTombstone = true
    · simp only [hd, if_true]
      exact hl.seekChain fuel
    · simp only [hd]
      refine ⟨some id, rfl, fun j hj => ?_⟩
      rw [← Option.some.inj hj, holdsKey, he]
      simpa using hd

/-- Seeking a position finds a key. -/
theorem WellFormed.seekBins (hw : t.WellFormed) : ∀ remaining bin : Nat,
    ∃ p, t.seekBins remaining bin = .ok p ∧ ∀ b id, p = .at b id → t.holdsKey id = true
  | 0, _ => ⟨.done, rfl, nofun⟩
  | remaining + 1, bin => by
    obtain ⟨ids, hl⟩ := hw.binHead_leads bin
    obtain ⟨found, hfound, hkey⟩ := hl.seekChain (t.slots.size + 1)
    rw [Table.seekBins, hfound]
    cases found with
    | none => exact hw.seekBins remaining (bin + 1)
    | some id =>
      refine ⟨.at bin id, rfl, fun b j hj => hkey j ?_⟩
      rw [(Position.at.inj hj).2]

/-- An iterator moves on to a key, unless the entry it stands on is gone. -/
theorem WellFormed.advance (hw : t.WellFormed) (p : Position) :
    (∃ p', t.advance p = .ok p' ∧ ∀ bin id, p' = .at bin id → t.holdsKey id = true) ∨
      t.advance p = .error .iteratorEntryVanished := by
  cases p with
  | fresh => exact Or.inl (hw.seekBins _ 0)
  | done => exact Or.inl ⟨.done, rfl, nofun⟩
  | «at» bin id =>
    rw [Table.advance]
    cases he : t.get? id with
    | none => exact Or.inr rfl
    | some e =>
      obtain ⟨ids, hl⟩ := hw.next_leads he
      obtain ⟨found, hfound, hkey⟩ := hl.seekChain (t.slots.size + 1)
      simp only [hfound]
      cases found with
      | none => exact Or.inl (hw.seekBins _ _)
      | some next =>
        refine Or.inl ⟨.at bin next, rfl, fun b j hj => hkey j ?_⟩
        rw [(Position.at.inj hj).2]

/-- Unlinking keeps what changes keep. -/
theorem Kept.unlinkAll {good : Value → Prop} {P : Table → Prop} (hP : Kept good P) :
    ∀ {t : Table} (ids : List EntryId), P t → P (t.unlinkAll ids).2
  | _, [], ht => ht
  | t, id :: ids, ht => by
    rw [Table.unlinkAll]
    split
    next e t' h => exact hP.unlinkAll ids (hP.unlink ht h)
    next => exact ht

end Table

/-! ### Effects that find nothing corrupted -/

/-- That no run ends in the discovery of a corrupted table. -/
def Judgement.uncorrupted : Judgement :=
  .ofEnds (fun _ r _ => ∀ how, r ≠ .error (.fatal (.corruptedTable how))) (fun _ _ => nofun)
    (fun _ _ hu how h => hu how (Unwind.fatal.inj (Except.error.inj h))) (fun _ h' => h')
    fun h how he => h how (congrArg _ (Except.error.inj he))

namespace Effect

open Judgement

/-- Whether an effect never ends in the discovery of a corrupted table. -/
def Uncorrupted (a : Effect α) : Prop := Judgement.uncorrupted.Meets a

variable {a : Effect α} {f : α → Effect β} {m m' : Machine}

theorem Uncorrupted.ne (ha : Uncorrupted a) (how : Corruption) :
    a m ≠ .error (.fatal (.corruptedTable how)) m' := fun h => ha m how (ending_of_error h)

theorem uncorrupted_heedless : Judgement.uncorrupted.Heedless := by
  intro α a m x heap events h _ how
  rw [ending_of_ok h]
  nofun

def uncorruptedScope (m : Machine) : Judgement.uncorrupted.Scope m where
  inner := Judgement.uncorrupted
  pin _ _ := nofun
  close {_ a} ha how := by
    rw [ending_withHandles]
    exact ha how

theorem uncorrupted_raises : Judgement.uncorrupted.Raises where
  makes := uncorrupted_heedless.makes
  captureTrace := meets_captureTrace uncorruptedScope fun _ => uncorrupted_heedless.makes
  throwException _ _ := nofun

/-! ### Effects that uphold a property of tables -/

variable {P : Table → Prop} {allowed : Corruption → Prop}

/-- Run from a machine, an effect leaves all tables with the property and ends in no corruption but an
allowed one. -/
structure Upholds (P : Table → Prop) (allowed : Corruption → Prop) (a : Effect α) (m : Machine) :
    Prop where
  tables : (a.after m).Tables P
  corruption : ∀ {how m'}, a m = .error (.fatal (.corruptedTable how)) m' → allowed how

theorem Quiet.upholds (hq : Quiet a) (hu : Uncorrupted a) (hm : m.Tables P) :
    Upholds P allowed a m :=
  ⟨hm.inherit (hq m), fun h => absurd h (hu.ne _)⟩

theorem Quiet.tables_of_ok (hq : Quiet a) (hm : m.Tables P) {x : α} (h : a m = .ok x m') :
    m'.Tables P := by
  have hinherits : (a.after m).Inherits m := hq m
  rw [after_of_ok h] at hinherits
  exact hm.inherit hinherits

theorem Upholds.tables_of_ok (ha : Upholds P allowed a m) {x : α} (h : a m = .ok x m') :
    m'.Tables P := by
  have htables := ha.tables
  rwa [after_of_ok h] at htables

theorem Upholds.bind (ha : Upholds P allowed a m)
    (hf : ∀ x m', a m = .ok x m' → m'.Tables P → Upholds P allowed (f x) m') :
    Upholds P allowed (a >>= f) m := by
  have htables := ha.tables
  cases h : a m with
  | ok x m' =>
    rw [after_of_ok h] at htables
    obtain ⟨hrest, hcorruption⟩ := hf x m' h htables
    refine ⟨?_, fun hu => ?_⟩
    · rwa [after, bind_of_ok h]
    · rw [bind_of_ok h] at hu
      exact hcorruption hu
  | error u m' =>
    rw [after_of_error h] at htables
    refine ⟨?_, fun hu => ?_⟩
    · rwa [after_bind_of_error h]
    · rw [bind_of_error h] at hu
      obtain ⟨rfl, rfl⟩ := EStateM.Result.error.inj hu
      exact ha.corruption h

/-- What an effect that was tried out may have ended in. -/
theorem Upholds.outcome_bind {f : Except Unwind α → Effect β} (ha : Upholds P allowed a m)
    (hf : ∀ x m', (∀ how, x = .error (.fatal (.corruptedTable how)) → allowed how) → m'.Tables P →
      Upholds P allowed (f x) m') : Upholds P allowed (outcome a >>= f) m := by
  have hrest : Upholds P allowed (f (a.ending m)) (a.after m) := by
    refine hf _ _ (fun how h => ?_) ha.tables
    cases hx : a m with
    | ok y m₁ =>
      rw [ending_of_ok hx] at h
      cases h
    | error u m₁ =>
      rw [ending_of_error hx, Except.error.injEq] at h
      rw [h] at hx
      exact ha.corruption hx
  refine ⟨?_, fun h => ?_⟩
  · rw [after_bind_of_ok (outcome_eq a m)]
    exact hrest.tables
  · rw [Effect.outcome_bind] at h
    exact hrest.corruption h

end Effect

/-- That a property of tables is upheld where all tables have it. -/
def Judgement.upholding (P : Table → Prop) (allowed : Corruption → Prop) : Judgement where
  At a m := m.Tables P → a.Upholds P allowed m
  look h hm := by
    refine ⟨by rwa [Effect.after_of_ok h], fun hcorrupted => ?_⟩
    rw [h] at hcorrupted
    cases hcorrupted
  fail hu h hm := by
    refine ⟨by rwa [Effect.after_of_error h], fun hcorrupted => ?_⟩
    rw [h, EStateM.Result.error.injEq, Unwind.fatal.injEq] at hcorrupted
    exact absurd hcorrupted.1 (hu _)
  bind ha hf hm := (ha hm).bind hf

namespace Effect

open Judgement

variable {P : Table → Prop} {allowed : Corruption → Prop} {a : Effect α} {m : Machine}

/-- Whether the methods of the keys uphold a property of tables. -/
def UpholdingKeys (P : Table → Prop) (allowed : Corruption → Prop) (keys : Keys) : Prop :=
  (Judgement.upholding P allowed).MeetsKeys keys

theorem upholds_record (e : Event) : (Judgement.upholding P allowed).Meets (record e) := fun _ =>
  (quiet_record e).upholds (uncorrupted_heedless.record e)

theorem upholds_setHandle (place : Nat) (v : Value) :
    (Judgement.upholding P allowed).Meets (setHandle place v) := fun _ =>
  (quiet_setHandle place v).upholds fun _ => nofun

def upholdingScope (m : Machine) : (Judgement.upholding P allowed).Scope m where
  inner := .upholding P allowed
  pin v _ := (quiet_pin v).upholds fun _ => nofun
  close {_ a} ha hm := by
    refine ⟨?_, fun {how m'} h => ?_⟩
    · rw [after_withHandles]
      exact (ha hm).tables
    · rw [withHandles_eq] at h
      cases hx : a m with
      | ok x m₁ => simp [hx] at h
      | error u m₁ =>
        simp only [hx, EStateM.Result.error.injEq] at h
        rw [h.1] at hx
        exact (ha hm).corruption hx

/-- Writing to a table. -/
theorem upholds_write {table : Value} {g : Table → Table}
    (hg : ∀ t, m.heap.read Facet.table table = .ok t → P t → P (g t)) :
    (Judgement.upholding P allowed).At (write Facet.table table g) m := by
  refine fun hm => ⟨fun i t ht => ?_, fun h =>
    absurd h (Uncorrupted.ne (uncorrupted_heedless.write _ _ _) _)⟩
  rcases after_write Facet.table table g m with h | h
  · rw [h] at ht
    exact hm i t ht
  · rw [h] at ht
    rcases Heap.tableIn?_modify_table ht with ht | ⟨t', hread, -, rfl⟩
    · exact hm i t ht
    · exact hg t' hread (hm.read hread)

/-- What holds along a step holds along many. -/
theorem holds_of_steps {t t' : Table} (h : Relation.ReflTransGen (fun t t' => P t → P t') t t')
    (ht : P t) : P t' := by
  induction h with
  | refl => exact ht
  | tail _ hstep ih => exact hstep ih

theorem upholding_steps (table : Value) :
    (Judgement.upholding P allowed).Steps table fun t t' => P t → P t' := fun _ _ _ hread hsteps =>
  upholds_write fun _ hread' ht => by
    obtain rfl := Except.ok.inj (hread.symm.trans hread')
    exact holds_of_steps hsteps ht

end Effect

end ObjectMachine
