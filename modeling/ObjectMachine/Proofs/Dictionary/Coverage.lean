import Mathlib.Tactic
import ObjectMachine.Proofs.Dictionary.Traversal
import ObjectMachine.Proofs.Table.Drift

/-! What a checked traversal covers.

A visitor that answers `check` may have changed the table, and the traversal goes on only if the entry
it stands on is still linked into its bin.  As long as no visit rehashes the table this is enough: what
was ahead of the entry and is left is ahead of it still.  A rehash moves the entries into other bins
and other orders while the traversal keeps its bin and its place, and the check does not notice. -/

namespace ObjectMachine.Dictionary

open Effect Judgement

variable {table : Value} {handles : VisitHandles} {visitor : Value → Value → Effect Visit}
  {m m' base : Machine} {answer : Bool}

/-- After a visit that asks for the check, the traversal goes on from the entry or is given up. -/
theorem checked_next {v : Visited} (hv : v.Made table handles visitor m) (hcheck : v.action = .check)
    {result : Option EntryId ⊕ Bool}
    (h : afterVisit table v.id v.action v.answered = .ok result m') : result = .inr false ∨
      ∃ e, v.after.get? v.id = some e ∧ result = .inl e.next ∧ m' = v.answered := by
  rw [hcheck] at h
  cases he : v.after.get? v.id with
  | none =>
    rw [afterVisit_dead hv.after_eq he] at h
    exact Or.inl (EStateM.Result.ok.inj h).1.symm
  | some e =>
    rw [afterVisit_eq hv.after_eq he] at h
    dsimp only at h
    split at h
    · obtain ⟨rfl, rfl⟩ := EStateM.Result.ok.inj h
      exact Or.inr ⟨e, rfl, rfl, rfl⟩
    · exact Or.inl (EStateM.Result.ok.inj h).1.symm

/-- A checked traversal that succeeds has visited, of the entries that were in the table when it came
to a cursor and still are in the end, those ahead of the cursor once and no others. -/
theorem Traverses.covers {n bin : Nat} {cursor : Option EntryId} {visits : List Visited}
    (h : Traverses table handles visitor n m bin cursor visits answer m') (hanswer : answer = true) :
    ∀ {t : Table} {rest : List EntryId}, m.heap.read Facet.table table = .ok t →
      t.Stands bin cursor rest → (∀ v ∈ visits, v.action = .check ∧ v.before.Drifts v.after) →
      ∃ t', m'.heap.read Facet.table table = .ok t' ∧ t.Drifted t' ∧
        ∀ id, t.Issued id → t'.holdsKey id = true →
          (visits.map (·.id)).count id = if id ∈ t.following bin rest then 1 else 0 := by
  induction h with
  | finished ht hbin =>
    intro t rest ht' hstands _
    obtain rfl := Except.ok.inj (ht.symm.trans ht')
    rw [hstands.nil_of_none, Table.following_end hbin]
    exact ⟨_, ht, .refl hstands.wellFormed, by simp⟩
  | nextBin ht hbin _ ih =>
    intro t rest ht' hstands hvisits
    obtain rfl := Except.ok.inj (ht.symm.trans ht')
    rw [hstands.nil_of_none, Table.following_next hbin]
    exact ih hanswer ht (hstands.wellFormed.stands hbin) hvisits
  | lost _ _ => cases hanswer
  | @passed n m m' s bin id e visits answer ht he hd _ ih =>
    intro t rest ht' hstands hvisits
    obtain rfl := Except.ok.inj (ht.symm.trans ht')
    obtain ⟨post, rfl⟩ := hstands.exists_cons
    obtain ⟨t', hread, hdrifted, hcount⟩ := ih hanswer ht (hstands.next he) hvisits
    refine ⟨t', hread, hdrifted, fun j hj hkey => ?_⟩
    -- a tombstone does not become a key again
    have hne : j ≠ id := by
      rintro rfl
      have hold := hdrifted.holdsKey j hj hkey
      simp [Table.holdsKey, he, hd] at hold
    rw [hcount j hj hkey]
    simp only [Table.mem_following_cons, hne, false_or]
  | ended hv hafter =>
    intro t rest ht hstands hvisits
    rcases checked_next hv (hvisits _ List.mem_cons_self).1 hafter with h | ⟨e, -, h, -⟩
    · rw [Sum.inr.inj h] at hanswer
      cases hanswer
    · cases h
  | @visited n m m₁ m' bin v next visits answer hv hafter _ ih =>
    intro t rest ht hstands hvisits
    obtain rfl := Except.ok.inj (hv.before_eq.symm.trans ht)
    obtain ⟨post, rfl⟩ := hstands.exists_cons
    obtain ⟨hcheck, hdrifts⟩ := hvisits v List.mem_cons_self
    have hvisit := hstands.wellFormed.drifted hdrifts
    rcases checked_next hv hcheck hafter with h | ⟨e, he, h, rfl⟩
    · cases h
    · obtain rfl := Sum.inl.inj h
      have hnext := hstands.drift hvisit he
      obtain ⟨t', hread, hdrifted, hcount⟩ := ih hanswer hv.after_eq hnext
        fun w hw => hvisits w (List.mem_cons_of_mem _ hw)
      refine ⟨t', hread, hvisit.trans hstands.wellFormed hdrifted, fun j hj hkey => ?_⟩
      have hissued := hvisit.issued j hj
      have hlive : v.after.isLive j = true :=
        Table.isLive_of_holdsKey (hdrifted.holdsKey j hissued hkey)
      rw [List.map_cons, List.count_cons, hcount j hissued hkey]
      simp only [hvisit.mem_following hj hlive, Table.mem_following_cons]
      by_cases hid : j = v.id
      · subst hid
        simp [hstands.notMem_following]
      · simp [hid, Ne.symm hid]

/-- The visits of a visitor that serves the changes without a rehash are such changes. -/
theorem Traverses.drifts {n bin : Nat} {cursor : Option EntryId} {visits : List Visited}
    (hserves : ∀ key record (m : Machine), Serves table m Table.Drift (visitor key record) m)
    (hcheck : ∀ v ∈ visits, v.action = .check)
    (hkey : base.handles.size ≤ handles.key) (hrecord : base.handles.size ≤ handles.record)
    (h : Traverses table handles visitor n m bin cursor visits answer m') :
    ∀ {t : Table}, m.Hosts table t base → ∀ v ∈ visits, v.before.Drifts v.after := by
  induction h with
  | finished _ _ => simp
  | nextBin _ _ _ ih => exact ih hcheck
  | lost _ _ => simp
  | passed _ _ _ _ ih => exact ih hcheck
  | ended hv _ =>
    intro t ht v hmem
    obtain rfl := List.mem_singleton.mp hmem
    exact (hv.hosts ht hkey hrecord hserves).2.1
  | visited hv hafter _ ih =>
    intro t ht v hmem
    obtain ⟨-, hdrifts, hanswered⟩ := hv.hosts ht hkey hrecord hserves
    rcases List.mem_cons.mp hmem with rfl | hmem
    · exact hdrifts
    · rcases checked_next hv (hcheck _ List.mem_cons_self) hafter with h | ⟨e, -, -, rfl⟩
      · cases h
      · exact ih (fun w hw => hcheck w (List.mem_cons_of_mem _ hw)) hanswered v hmem

/-- A checked traversal that succeeds has visited every entry that was in the table from its start to
its end exactly once, provided no visit rehashed the table; and no visit does if the visitor makes no
other changes on any machine. -/
theorem checked_traversals_cover (table : Value) (visitor : Value → Value → Effect Visit)
    (hcheck : ∀ key record (m : Machine) action m', visitor key record m = .ok action m' →
      action = .check) (m : Machine) {t : Table} (ht : m.heap.read Facet.table table = .ok t)
    (hw : t.WellFormed) (patience : Nat) {m' : Machine}
    (h : forEach patience table visitor m = .ok true m') :
    ∃ n visits, TraversesAll table visitor n m t visits true m' ∧
      ∀ t', m'.heap.read Facet.table table = .ok t' →
        ((∀ v ∈ visits, v.before.Drifts v.after) →
          ∀ id, t.holdsKey id = true → t'.holdsKey id = true →
            (visits.map (·.id)).count id = 1) ∧
        (m.heap.Sound → m.heap.Unmarked →
          (∀ key record (m : Machine), Serves table m Table.Drift (visitor key record) m) →
          ∀ v ∈ visits, v.before.Drifts v.after) := by
  obtain ⟨n, visits, -, -, m₁, htrace, rfl⟩ := exists_traversesAll ht h
  have hchecked : ∀ v ∈ visits, v.action = .check := fun v hv => by
    obtain ⟨m₂, hmade⟩ := htrace.made v hv
    exact hcheck _ _ _ _ _ hmade.action_eq
  refine ⟨n, visits, ⟨ht, m₁, htrace, rfl⟩, fun t' ht' => ⟨fun hdrifts id hid hid' => ?_,
    fun hsound hunmarked hserves => ?_⟩⟩
  · obtain ⟨t'', hread, -, hcount⟩ := htrace.covers rfl ht (hw.stands hw.bins_pos)
      fun v hv => ⟨hchecked v hv, hdrifts v hv⟩
    obtain rfl := Except.ok.inj (hread.symm.trans ht')
    have hlive := Table.isLive_of_holdsKey hid
    have hmem : id ∈ t.entryIds := by
      obtain ⟨chains, hc⟩ := hw
      rw [hc.entryIds_eq]
      exact (hc.linked id).mp (Table.exists_of_isLive hlive)
    rw [hcount id (Table.issued_of_isLive hlive) hid', hw.following_zero, if_pos hmem]
  · let base : Machine := { m with handles := m.handles.push table }
    have hwalking : (walking table m).Hosts table t base :=
      ⟨ht, mem_roots_push m table, ⟨rfl, rfl, rfl, by simp [walking, base], List.Subset.refl _⟩,
        hsound, hunmarked⟩
    exact htrace.drifts hserves hchecked (by simp [visitHandles, base])
      (by simp [visitHandles, base]) hwalking

/-- A visitor that removes the key 2 from the table in slot 0. -/
def removing (_ _ : Value) : Effect Visit := do
  let _ ← delete (fun _ => Keys.residue 3) (.ofSlot 0 0) (.ofNat 2)
  return .check

theorem checked_traversals_cover_removing :
    ∃ m' n visits, forEach 0 (.ofSlot 0 0) removing (.storing (numbered 5)) = .ok true m' ∧
      TraversesAll (.ofSlot 0 0) removing n (.storing (numbered 5)) (numbered 5) visits true m' ∧
      (visits.map (·.id)).count ⟨4, 0⟩ = 1 := by
  have hkeys : ∀ s : Strategy, ServingKeys (.ofSlot 0 0) Table.Drift ((fun _ => Keys.residue 3) s) :=
    fun _ => servingKeys_residue 3
  have hserves : ∀ key record (m : Machine),
      Serves (.ofSlot 0 0) m Table.Drift (removing key record) m := fun _ _ m =>
    (serves_delete hkeys .unlink).bind (fun _ => meets_pure _) m
  have hcheck : ∀ key record (m : Machine) action m', removing key record m = .ok action m' →
      action = .check := by
    intro key record m action m' h
    obtain ⟨_, m₁, -, hpure⟩ := exists_of_bind_eq_ok h
    exact (EStateM.Result.ok.inj hpure).1.symm
  have hrun : succeedsWith (forEach 0 (.ofSlot 0 0) removing) (.ofSlot 0 0) (·.holdsKey ⟨4, 0⟩)
      (.storing (numbered 5)) = true := by decide +kernel
  obtain ⟨m', t', hrun, ht', hkey⟩ := exists_of_succeedsWith hrun
  obtain ⟨hsound, hunmarked⟩ := Machine.sound_storing (numbered 5)
  obtain ⟨n, visits, hall, h⟩ := checked_traversals_cover (.ofSlot 0 0) removing hcheck _
    (Machine.read_storing (numbered 5)) (wellFormed_numbered (by decide)) 0 hrun
  obtain ⟨honce, hdrifts⟩ := h t' ht'
  exact ⟨m', n, visits, hrun, hall,
    honce (hdrifts hsound hunmarked hserves) ⟨4, 0⟩ (by decide +kernel) hkey⟩

/-- A visitor that enters the key 100 into the table in slot 0. -/
def entering (_ _ : Value) : Effect Visit := do
  let _ ← insert (fun _ => Keys.residue 3) (.ofSlot 0 0) (.ofNat 100) .nil
  return .check

/-- A visitor that fails for one key. -/
def sparing (key : Value) (visitor : Value → Value → Effect Visit) (other record : Value) :
    Effect Visit :=
  if other = key then fault .noActiveFrame else visitor other record

theorem of_sparing_eq_ok {key other record : Value} {action : Visit}
    (h : sparing key visitor other record m = .ok action m') :
    other ≠ key ∧ visitor other record m = .ok action m' := by
  unfold sparing at h
  split at h
  · cases h
  · exact ⟨‹_›, h⟩

/-- The first visit of a full table enters a new key, so that the bins grow and every chain is turned
round.  The traversal reports success, but the key 51, which is in the table all the time, was never
visited. -/
theorem checked_traversal_misses_key :
    (numbered 55).WellFormed ∧ (.ofNat 51, .ofNat 51) ∈ (numbered 55).entries ∧
    ∃ m' n visits t', forEach 37 (.ofSlot 0 0) entering (.storing (numbered 55)) = .ok true m' ∧
      TraversesAll (.ofSlot 0 0) entering n (.storing (numbered 55)) (numbered 55) visits true m' ∧
      m'.heap.read Facet.table (.ofSlot 0 0) = .ok t' ∧ (.ofNat 51, .ofNat 51) ∈ t'.entries ∧
      ∀ v ∈ visits, v.entry.key ≠ .ofNat 51 := by
  -- a visitor that would fail for the key is never called with it
  have hrun : succeedsWith (forEach 37 (.ofSlot 0 0) (sparing (.ofNat 51) entering)) (.ofSlot 0 0)
      (fun t => decide ((.ofNat 51, .ofNat 51) ∈ t.entries)) (.storing (numbered 55)) = true := by
    decide +kernel
  obtain ⟨m', t', hrun, ht', hmem⟩ := exists_of_succeedsWith hrun
  obtain ⟨n, visits, hn, ht, m₁, htrace, rfl⟩ :=
    exists_traversesAll (Machine.read_storing (numbered 55)) hrun
  have htrace' := htrace.imp fun key record m action m' h => (of_sparing_eq_ok h).2
  have hall : TraversesAll (.ofSlot 0 0) entering n (.storing (numbered 55)) (numbered 55) visits true
      { m₁ with handles := m₁.handles.shrink (Machine.storing (numbered 55)).handles.size } :=
    ⟨ht, m₁, htrace', rfl⟩
  refine ⟨wellFormed_numbered (by decide), by decide +kernel, _, n, visits, t', hall.forEach_eq hn,
    hall, ht', of_decide_eq_true hmem, fun v hv => ?_⟩
  obtain ⟨m₂, hmade⟩ := htrace.made v hv
  exact (of_sparing_eq_ok hmade.action_eq).1

end ObjectMachine.Dictionary
