import Mathlib.Tactic
import ObjectMachine.Proofs.Frames.Unwinding
import ObjectMachine.Proofs.Dictionary.Judgements

/-! The stacks of native calls are balanced.

An operation gives the stacks of handles, frames, open rescues and values in flight back as it found
them, however it ends.  Two things are left to the code around: a cleanup goes to the innermost frame
and stays there, and a handle stays until its scope ends.  `Steady` says this of an effect, and the
rules follow the way effects are built. -/

namespace ObjectMachine

/-- The stacks of native calls. -/
def Machine.callStacks (m : Machine) : Array Value × List Frame × List UnwindTarget × List Value :=
  (m.handles, m.frames, m.targets, m.inFlight)

/-- How the stacks may differ between two machines.  The handles at `places` may be overwritten, the
innermost frame may have more cleanups, and if `inScope`, there may be more handles on top. -/
structure Machine.Balanced (inScope : Bool) (places : Set Nat) (m m' : Machine) : Prop where
  size_le : m.handles.size ≤ m'.handles.size
  size_eq : inScope = false → m'.handles.size = m.handles.size
  slot : ∀ i < m.handles.size, i ∉ places → m'.handles[i]? = m.handles[i]?
  frames : ∃ cs, m'.frames = register cs m.frames
  targets : m'.targets = m.targets
  inFlight : m'.inFlight = m.inFlight

namespace Machine.Balanced

variable {inScope : Bool} {places : Set Nat} {m m' m'' : Machine}

theorem of_callStacks_eq (h : m'.callStacks = m.callStacks) : m.Balanced inScope places m' := by
  simp only [callStacks, Prod.mk.injEq] at h
  obtain ⟨hhandles, hframes, htargets, hflight⟩ := h
  refine ⟨hhandles ▸ le_rfl, fun _ => hhandles ▸ rfl, fun i _ _ => hhandles ▸ rfl, ⟨[], ?_⟩,
    htargets, hflight⟩
  rw [hframes, register_nil]

/-- The later code may overwrite handles that the earlier code made. -/
theorem trans_above {inScope' : Bool} {places' : Set Nat} (h : m.Balanced inScope places m')
    (h' : m'.Balanced inScope' places' m'') (hs : inScope = false → inScope' = false)
    (hp : ∀ i ∈ places', i ∈ places ∨ m.handles.size ≤ i) : m.Balanced inScope places m'' where
  size_le := h.size_le.trans h'.size_le
  size_eq hout := (h'.size_eq (hs hout)).trans (h.size_eq hout)
  slot i hi hmem := by
    have hi' : i ∉ places' := fun hmem' => (hp i hmem').elim hmem hi.not_ge
    exact (h'.slot i (hi.trans_le h.size_le) hi').trans (h.slot i hi hmem)
  frames := by
    obtain ⟨cs, hcs⟩ := h.frames
    obtain ⟨cs', hcs'⟩ := h'.frames
    exact ⟨cs ++ cs', by rw [hcs', hcs, register_append]⟩
  targets := h'.targets.trans h.targets
  inFlight := h'.inFlight.trans h.inFlight

theorem trans (h : m.Balanced inScope places m') (h' : m'.Balanced inScope places m'') :
    m.Balanced inScope places m'' := h.trans_above h' id fun _ => Or.inl

theorem mono {inScope' : Bool} {places' : Set Nat} (h : m.Balanced inScope places m')
    (hs : inScope' = false → inScope = false) (hp : places ⊆ places') :
    m.Balanced inScope' places' m' where
  size_le := h.size_le
  size_eq hout := h.size_eq (hs hout)
  slot i hi hmem := h.slot i hi fun hmem' => hmem (hp hmem')
  frames := h.frames
  targets := h.targets
  inFlight := h.inFlight

theorem depth_eq (h : m.Balanced inScope places m') : m'.frames.length = m.frames.length := by
  obtain ⟨cs, hcs⟩ := h.frames
  rw [hcs]
  cases m.frames <;> rfl

end Machine.Balanced

/-- That the stacks stay balanced. -/
def Judgement.steady (inScope : Bool) (places : Set Nat) : Judgement :=
  .ofRel (Machine.Balanced inScope places) (fun _ => .of_callStacks_eq rfl) fun _ _ _ => .trans

namespace Effect

open Judgement

/-- Whether an effect leaves the stacks as they are. -/
def Idle (a : Effect α) : Prop := ∀ m, (a.after m).callStacks = m.callStacks

/-- Whether an effect is balanced on every machine. -/
def Steady (inScope : Bool) (places : Set Nat) (a : Effect α) : Prop :=
  (Judgement.steady inScope places).Meets a

variable {inScope : Bool} {places : Set Nat} {a : Effect α} {f : α → Effect β}

theorem Steady.balanced (ha : Steady inScope places a) (m : Machine) :
    m.Balanced inScope places (a.after m) := ha m

/-! ### Rules -/

theorem Idle.steady (ha : Idle a) : Steady inScope places a := fun m => .of_callStacks_eq (ha m)

theorem Steady.mono {places' : Set Nat} (ha : Steady inScope places a) (hp : places ⊆ places') :
    Steady inScope places' a := fun m => (ha m).mono id hp

theorem Steady.weaken (ha : Steady inScope places a) : Steady true places a := fun m =>
  (ha m).mono nofun subset_rfl

/-- What leaves every handle alone can be used anywhere. -/
theorem Steady.lift (ha : Steady false ∅ a) : Steady inScope places a := fun m =>
  (ha m).mono (fun _ => rfl) (Set.empty_subset places)

theorem Steady.outcome (ha : Steady inScope places a) : Steady inScope places (outcome a) :=
  fun m => forgets_ofRel (ha m)

theorem steady_heedless : (Judgement.steady inScope places).Heedless :=
  heedless_ofRel fun _ _ _ _ => .of_callStacks_eq rfl

theorem steady_excuses : (Judgement.steady inScope places).Excuses := excuses_ofRel

theorem steady_report (r : Report) : Steady inScope places (report r) :=
  Idle.steady fun _ => rfl

theorem steady_setSession (g : Machine → Session) :
    Steady inScope places (update fun m => { m with session := g m }) :=
  Idle.steady fun _ => rfl

theorem steady_setUnwindState (state : UnwindState) :
    Steady inScope places (update fun m => { m with unwindState := state }) :=
  Idle.steady fun _ => rfl

/-! ### Handles -/

theorem steady_pin (v : Value) : Steady true places (pin v) := fun m => by
  refine ⟨?_, nofun, fun i hi _ => ?_, ⟨[], (register_nil _).symm⟩, rfl, rfl⟩
  · show m.handles.size ≤ (m.handles.push v).size
    simp
  · show (m.handles.push v)[i]? = m.handles[i]?
    rw [Array.getElem?_push_lt hi, Array.getElem?_eq_getElem hi]

theorem steady_setHandle {place : Nat} (hp : place ∈ places) (v : Value) :
    Steady inScope places (setHandle place v) := fun m => by
  have hsize : (m.handles.setIfInBounds place v).size = m.handles.size := Array.size_setIfInBounds
  refine ⟨hsize.ge, fun _ => hsize, fun i _ hi => ?_, ⟨[], (register_nil _).symm⟩, rfl, rfl⟩
  have hne : place ≠ i := fun h => hi (h ▸ hp)
  exact Array.getElem?_setIfInBounds_ne hne

/-- In a scope of its own, code may make handles and overwrite those it made. -/
def steadyScope (m : Machine) : (Judgement.steady inScope places).Scope m where
  inner := .steady true (places ∪ {i | m.handles.size ≤ i})
  pin := steady_pin
  close {_ a} ha := by
    obtain ⟨hsize, -, hslot, hframes, htargets, hflight⟩ := ha
    show m.Balanced inScope places ((withHandles a).after m)
    rw [after_withHandles]
    have hback : ((a.after m).handles.shrink m.handles.size).size = m.handles.size := by
      rw [Array.size_shrink]
      exact min_eq_left hsize
    refine ⟨hback.ge, fun _ => hback, fun i hi hp => ?_, hframes, htargets, hflight⟩
    rw [← hslot i hi fun hmem => hmem.elim hp (Nat.not_le.mpr hi), Array.shrink_eq_take,
      Array.take_eq_extract, Array.getElem?_extract, Nat.sub_zero, Nat.zero_add, min_eq_left hsize,
      if_pos hi]

theorem steadyScope_open (m : Machine) :
    (steadyScope m : (Judgement.steady inScope places).Scope m).Open :=
  ⟨steady_heedless, steady_excuses⟩

theorem Steady.withHandles (ha : Steady true places a) : Steady inScope places (withHandles a) :=
  fun m => (steadyScope m).close (ha.mono Set.subset_union_left m)

/-! ### Raising -/

theorem steady_raises : (Judgement.steady inScope places).Raises where
  makes := steady_heedless.makes
  captureTrace := meets_captureTrace steadyScope fun _ => steady_heedless.makes
  throwException := meets_throwException_ofRel fun _ => .of_callStacks_eq rfl

theorem steady_raiseError (kind : ErrorKind) (message : String) :
    Steady inScope places (raiseError kind message : Effect α) :=
  steady_raises.raiseError kind message

theorem steady_discardException (exc : Value) (context : String) :
    Steady inScope places (discardException exc context) :=
  steady_heedless.discardException (steady_setUnwindState _) exc context

end Effect

/-! ### Tables -/

open Effect Judgement

/-- Whether hashing and comparing leave the stacks balanced. -/
def SteadyKeys (keys : Keys) : Prop := (Judgement.steady false ∅).MeetsKeys keys

variable {inScope : Bool} {places : Set Nat}

/-- Keys that are balanced anywhere are so in a scope. -/
theorem SteadyKeys.lift {keys : Keys} (hk : SteadyKeys keys) :
    (Judgement.steady inScope places).MeetsKeys keys :=
  ⟨fun key => Steady.lift (hk.hash key), fun key other => Steady.lift (hk.equal key other)⟩

namespace Dictionary

variable {meaning : KeyMeaning}

section Operations

variable (hk : ∀ s, SteadyKeys (meaning s))

include hk

theorem steady_lookup (table key : Value) : (lookup meaning table key).Steady inScope places :=
  fun m => (steadyScope_open m).lookup fun s => SteadyKeys.lift (hk s)

theorem steady_insert (table key record : Value) :
    (insert meaning table key record).Steady inScope places :=
  fun m => (steadyScope_open m).insert fun s => SteadyKeys.lift (hk s)

theorem steady_add (table key record : Value) :
    (add meaning table key record).Steady inScope places :=
  fun m => (steadyScope_open m).add fun s => SteadyKeys.lift (hk s)

theorem steady_delete (table key : Value) : (delete meaning table key).Steady inScope places :=
  fun m => (steadyScope_open m).delete fun s => SteadyKeys.lift (hk s)

theorem steady_deleteSafe (table key : Value) :
    (deleteSafe meaning table key).Steady inScope places :=
  fun m => (steadyScope_open m).deleteSafe fun s => SteadyKeys.lift (hk s)

end Operations

/-- The handles that a traversal overwrites are its own. -/
theorem steady_forEach {visitor : Value → Value → Effect Visit}
    (hvisitor : ∀ key v, (visitor key v).Steady true places) (patience : Nat) (table : Value) :
    (forEach patience table visitor).Steady inScope places := fun m =>
  (steadyScope_open m).forEach (fun _ _ hplace => steady_setHandle (Or.inr hplace) _)
    (fun key v => (hvisitor key v).mono Set.subset_union_left) patience

end Dictionary

end ObjectMachine
