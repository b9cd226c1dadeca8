import Mathlib.Tactic
import ObjectMachine.Proofs.Naming.Startup

/-! Attributes.

Whatever clients do with a new machine, a plain object or an exception has an attribute if it was set,
and its value is the one that it was set to last.  Setting one attribute leaves all others alone, and
values of other kinds have none.  It does not matter when the heap is collected. -/

namespace ObjectMachine

open Machine Effect Naming

namespace Machine

variable {m m' : Machine} {attributes : List (Naming Value)} {methods : List (Naming NativeMethod)}
  {object other v : Value} {name given : String} {found : Option Value}

/-- The value of an attribute by a ledger.  Only plain objects and exceptions have attributes. -/
def attribute? (m : Machine) (log : List (Naming Value)) (object : Value) (name : String) : Option Value :=
  (m.attributes? object).bind fun _ => latest? log object name

theorem attribute?_eq (m : Machine) (log : List (Naming Value)) (object : Value) (name : String) :
    m.attribute? log object name =
      if (m.attributes? object).isSome then latest? log object name else none := by
  rw [attribute?]
  cases m.attributes? object <;> rfl

/-- Whoever asks for an attribute gets the value, or an error if there is none. -/
def Gets (m : Machine) (object : Value) (name : String) : Option Value → Prop
  | some v => ∃ m', getAttribute object name m = .ok v m'
  | none => ∃ (exc : Value) (found : String) (m' : Machine),
      getAttribute object name m = .error (.raise exc) m' ∧
        m'.IsError .attributeError s!"'{found}' object has no attribute '{name}'" exc

/-- Whoever sets an attribute succeeds, or gets an error if the value has no attributes. -/
def Sets (m : Machine) (object : Value) (name : String) (v : Value) : Option Value → Prop
  | some _ => ∃ m', setAttribute object name v m = .ok () m'
  | none => ∃ (exc : Value) (found : String) (m' : Machine),
      setAttribute object name v m = .error (.raise exc) m' ∧
        m'.IsError .typeError s!"cannot set attribute '{name}' on '{found}' object" exc

namespace Accounts

/-- What a client is told is what the ledger says. -/
theorem found_eq (h : m.Accounts attributes methods) (hanswer : Answered m object name found m') :
    found = m.attribute? attributes object name := by
  obtain ⟨hroom, hbinds, -, hsame, i, hi, rfl⟩ := hanswer
  rw [attribute?]
  cases ha : m.attributes? object with
  | none => rfl
  | some a =>
    obtain ⟨o, ho, -⟩ := Machine.attributes?_eq_some (hsame.trans ha)
    have hkind := (exists_attributes_iff ho).mp ⟨a, hsame.trans ha⟩
    rcases (h.binds hbinds hroom).attributes.binding?_cases hbinds.settled hroom ho hkind hi with
      ⟨hx, hb⟩ | ⟨x, b, hx, hb, rfl⟩
    · rw [Option.bind_some, Option.bind_some, hx, hb]
    · rw [Option.bind_some, Option.bind_some, hx, hb]

/-- Attributes are read off the ledger. -/
theorem gets (h : m.Accounts attributes methods) (hobject : m.Usable object)
    (hroom : ((getAttribute object name).after m).HasRoom) :
    m.Gets object name (m.attribute? attributes object name) := by
  have hends := (settles_getAttribute name fun _ _ => hobject).ends h.settled trivial hroom
  cases hget : getAttribute object name m with
  | ok v m' =>
    rw [hget] at hends
    rw [← h.found_eq hends]
    exact ⟨m', hget⟩
  | error u m' =>
    rw [hget] at hends
    obtain ⟨-, ⟨k, hanswer⟩, exc, found, rfl, herror⟩ := hends
    rw [← h.found_eq hanswer]
    exact ⟨exc, found, m', hget, herror⟩

/-- Plain objects and exceptions accept attributes. -/
theorem sets (h : m.Accounts attributes methods) (hobject : m.Usable object) (hv : m.Usable v)
    (hroom : ((setAttribute object name v).after m).HasRoom) :
    m.Sets object name v (m.attributes? object) := by
  have hends := (settles_setAttribute name fun _ _ => ⟨hobject, hv⟩).ends h.settled trivial hroom
  cases hset : setAttribute object name v m with
  | ok _ m' =>
    rw [hset] at hends
    obtain ⟨⟨a, ha⟩, -⟩ := hends
    rw [ha]
    exact ⟨m', hset⟩
  | error u m' =>
    rw [hset] at hends
    obtain ⟨-, ha, exc, found, rfl, herror⟩ := hends
    rw [ha]
    exact ⟨exc, found, m', hset, herror⟩

/-- What has attributes has had them all the time, or it is new. -/
theorem attributes?_cases {new : Value → Value → Option Value} (h : m.Accounts attributes methods)
    (hobject : m.Usable object) (hbinds : m.Binds new m') (hother : m'.Usable other) :
    (m'.attributes? other).isSome = (m.attributes? other).isSome ∨
      m.attributes? other = none ∧ other ≠ object ∧ ∀ name, latest? attributes other name = none := by
  cases ho' : m'.heap.get? other with
  | none =>
    have hnone : m.heap.get? other = none := Option.eq_none_iff_forall_ne_some.mpr fun o ho => by
      have hlive := Heap.isLive_iff.mp (hother.1 (Heap.get?_eq_some_iff.mp ho).1)
      simp [ho'] at hlive
    rw [Machine.attributes?, Machine.attributes?, ho', hnone]
    exact Or.inl rfl
  | some o' =>
    cases ho : m.heap.get? other with
    | some o =>
      refine Or.inl ?_
      rw [Bool.eq_iff_iff, Option.isSome_iff_exists, Option.isSome_iff_exists, exists_attributes_iff ho',
        exists_attributes_iff ho, hbinds.kind_eq ho ho']
    | none =>
      refine Or.inr ⟨by rw [Machine.attributes?, ho]; rfl, ?_, h.attributes.latest?_eq_none hbinds ho ho'⟩
      rintro rfl
      have hlive := Heap.isLive_iff.mp (hobject.1 (Heap.get?_eq_some_iff.mp ho').1)
      simp [ho] at hlive

/-- Setting one attribute changes this one, and no other. -/
theorem attribute?_set {new : Value → Value → Option Value} (h : m.Accounts attributes methods)
    (hobject : m.Usable object) (hbinds : m.Binds new m') (hother : m'.Usable other) :
    m'.attribute? (attributes ++ [⟨object, name, v⟩]) other given =
      if (other = object ∧ given = name) ∧ (m.attributes? object).isSome then some v
      else m.attribute? attributes other given := by
  rw [attribute?_eq, attribute?_eq, latest?_append, latest?_singleton]
  rcases h.attributes?_cases hobject hbinds hother with hsome | ⟨hnone, hne, hlatest⟩
  · rw [hsome]
    by_cases hsame : other = object ∧ given = name
    · obtain ⟨rfl, rfl⟩ := hsame
      by_cases ha : (m.attributes? other).isSome = true <;> simp [ha]
    · have hsame' : ¬ (object = other ∧ name = given) := fun heq => hsame ⟨heq.1.symm, heq.2.symm⟩
      simp only [hsame, hsame', if_false, false_and, Option.none_or]
  · simp [hne, hne.symm, hlatest, hnone]

end Accounts

end Machine

/-- Attributes are a map for each object: the value is the one set last, setting one changes no other,
and values that are neither plain objects nor exceptions have none.  That objects and values are usable
shuts out dangling references and the table of symbols.  The law itself does not depend on the table, but
with a reference to it among the attributes nothing would bar a client from changing the names by which
attributes are found. -/
theorem attributes_independent (settings : HeapSettings) (commands : List Command)
    (hfair : Command.FairAll commands (Machine.new settings)) {m : Machine}
    (hm : m = Command.serve commands (Machine.new settings)) {object : Value} (name : String)
    (hobject : m.Usable object) :
    (((getAttribute object name).after m).HasRoom →
      m.Gets object name (m.attribute? (commands.flatMap Command.attributes) object name)) ∧
    ∀ {v : Value} {m' : Machine}, m.Usable v → m' = (setAttribute object name v).after m → m'.HasRoom →
      m.Sets object name v (m.attributes? object) ∧
      ∀ {other : Value} {given : String}, m'.Usable other →
        ((getAttribute other given).after m').HasRoom → m'.Gets other given
          (if (other = object ∧ given = name) ∧ (m.attributes? object).isSome then some v
            else m.attribute? (commands.flatMap Command.attributes) other given) := by
  have haccounts : m.HasRoom → ∃ methods, m.Accounts (commands.flatMap Command.attributes) methods :=
    fun hroom => by
      subst hm
      exact ⟨_, (Bootstrap.accounts_new settings).serve hfair hroom⟩
  refine ⟨fun hroom => ?_, fun {v m'} hv hm' hroom => ?_⟩
  · have hget : (Command.getAttribute object name).Fair m := hobject
    have hgrows := Command.grows hget
    rw [Command.perform, after_map] at hgrows
    obtain ⟨methods, h⟩ := haccounts (hgrows.trans hroom)
    exact h.gets hobject hroom
  · subst hm'
    have hset : (Command.setAttribute object name v).Fair m := ⟨hobject, hv⟩
    obtain ⟨methods, h⟩ := haccounts ((Command.grows hset).trans hroom)
    refine ⟨h.sets hobject hv hroom, fun {other given} hother hroom' => ?_⟩
    obtain ⟨new, hbinds, -⟩ := Command.accounted_perform h.settled hset hroom
    rw [← h.attribute?_set hobject hbinds hother]
    exact (h.perform hset hroom).gets hother hroom'

/-- A plain object is made and kept, and its size is set twice. -/
def resizing (cls object : Value) : List Command :=
  [.make cls (.plain .absent), .keep object, .setAttribute object "size" (.ofInt 1),
    .setAttribute object "size" (.ofInt 2)]

theorem fairAll_resizing {m : Machine} {cls object : Value} (hm : m.Settled) (hcls : m.Usable cls)
    (h : ∀ n ∈ [1, 2, 3], (Command.serve ((resizing cls object).take n) m).Usable object ∧
      ∀ i, (Command.serve ((resizing cls object).take n) m).Usable (.ofInt i)) :
    Command.FairAll (resizing cls object) m := by
  refine ⟨⟨⟨fun _ => Body.noConfusion, ?_⟩, ⟨hcls.1, ?_, fun _ => nofun⟩, hcls.2, Body.avoids_plain.mpr ?_⟩,
    (h 1 (by decide)).1, ⟨(h 2 (by decide)).1, (h 2 (by decide)).2 1⟩,
    ⟨(h 3 (by decide)).1, (h 3 (by decide)).2 2⟩, trivial⟩
  · rintro _ ⟨⟩
    rfl
  · intro v hv
    rw [List.mem_singleton.mp hv]
    exact Heap.resolves_of_not_isRef rfl
  · exact ne_of_not_isRef hm.discreet.isRef rfl

theorem latest_resizing (cls object : Value) :
    latest? ((resizing cls object).flatMap Command.attributes) object "size" = some (.ofInt 2) := by
  simp [resizing, Command.attributes, latest?]

/-- The machine after so many of these commands. -/
def resized (n : Nat) : Machine :=
  Command.serve ((resizing ((Machine.new {}).classValue .object) (.ofSlot 211 0)).take n) (Machine.new {})

instance (m : Machine) : Decidable m.HasRoom := inferInstanceAs (Decidable (m.heap.slots.size ≤ 2 ^ 32))

set_option maxRecDepth 100000 in
theorem resized_facts :
    ([1, 2, 3, 4].all fun n => (resized n).heap.isLive (.ofSlot 211 0) &&
      (resized n).symbols.table != .ofSlot 211 0 && (resized n).symbols.table.isRef) = true ∧
    ((resized 4).attributes? (.ofSlot 211 0)).isSome = true ∧
    ((getAttribute (.ofSlot 211 0) "size").after (resized 4)).HasRoom ∧
    ((setAttribute (.ofSlot 211 0) "size" (.ofInt 3)).after (resized 4)).HasRoom := by
  decide +kernel

theorem usable_resized {n : Nat} (hn : n ∈ [1, 2, 3, 4]) :
    (resized n).Usable (.ofSlot 211 0) ∧ ∀ i, (resized n).Usable (.ofInt i) := by
  have h := List.all_eq_true.mp resized_facts.1 n hn
  rw [Bool.and_eq_true, Bool.and_eq_true, bne_iff_ne] at h
  obtain ⟨⟨hlive, hne⟩, href⟩ := h
  exact ⟨⟨fun _ => hlive, hne.symm⟩, fun i =>
    ⟨Heap.resolves_of_not_isRef (isRef_ofInt i), ne_of_not_isRef href (isRef_ofInt i)⟩⟩

/-- The size is 2, and it may be set to 3. -/
theorem attributes_independent_size : (resized 4).Usable (.ofSlot 211 0) ∧
    (resized 4).Gets (.ofSlot 211 0) "size" (some (.ofInt 2)) ∧
    ∃ m', setAttribute (.ofSlot 211 0) "size" (.ofInt 3) (resized 4) = .ok () m' := by
  have hm := (Bootstrap.accounts_new {}).settled
  have husable := usable_resized (n := 4) (by decide)
  have hfacts := resized_facts.2
  have hfair := fairAll_resizing hm ⟨(hm.intact.anchored_classValue .object).resolves,
    hm.discreet.classValue_ne .object⟩ fun n hn => usable_resized (List.mem_append_left [4] hn)
  have hserve : ∀ (m : Machine) (cls object : Value), Command.serve ((resizing cls object).take 4) m =
      Command.serve (resizing cls object) m := fun _ _ _ => rfl
  have hrun : resized 4 = Command.serve _ _ := hserve _ _ _
  -- what the machine is made of does not matter any more
  generalize resized 4 = m at husable hfacts hrun ⊢
  obtain ⟨hsome, hget, hset⟩ := hfacts
  have h := attributes_independent {} _ hfair hrun "size" husable.1
  obtain ⟨a, ha⟩ := Option.isSome_iff_exists.mp hsome
  refine ⟨husable.1, ?_, ?_⟩
  · have hgets := h.1 hget
    rw [attribute?_eq, if_pos hsome, latest_resizing] at hgets
    exact hgets
  · have hsets := (h.2 (husable.2 3) rfl hset).1
    rw [ha] at hsets
    exact hsets

end ObjectMachine
