import Mathlib.Tactic
import ObjectMachine.Proofs.Dictionary.Invariant
import ObjectMachine.Proofs.Frames.Balance
import ObjectMachine.Proofs.Machine.Contracts
import ObjectMachine.Proofs.Naming.Lasting

/-! Effects over time.

Whatever an effect does and however it ends, the heap it leaves is a later one.  `Advances` says this
with what may have been written and what the new objects may be; the rules follow the way effects are
built.  Nothing needs to be known of the machine but that its objects are numbered, and, where an
effect writes to what it has made itself, that its references have room. -/

namespace ObjectMachine

open Machine

/-- What an effect, started on a machine whose objects are numbered, makes of the heap. -/
def Effect.Advances (k : Nat) (written : Set Value) (made : Body → Prop) (pre : Prop)
    (a : Effect α) (m : Machine) (post : α → Machine → Prop) : Prop :=
  Promises (m.heap.Numbered ∧ k ≤ m.heap.nextSerial ∧ pre) a m fun r m' =>
    m.heap.Later k written made m'.heap ∧ ∀ x, r = .ok x → post x m'

namespace Effect

variable {α β : Type} {k : Nat} {written : Set Value} {made : Body → Prop} {pre : Prop} {m : Machine}
  {a : Effect α} {f : α → Effect β} {post mid : α → Machine → Prop} {goal : β → Machine → Prop}

namespace Advances

/-! ### Rules -/

theorem later (h : Advances k written made pre a m post) (hn : m.heap.Numbered)
    (hk : k ≤ m.heap.nextSerial) (hp : pre) (hroom : (a.after m).HasRoom) :
    m.heap.Later k written made (a.after m).heap := (h.keeps ⟨hn, hk, hp⟩ hroom).1

theorem answers (h : Advances k written made pre a m post) (hn : m.heap.Numbered)
    (hk : k ≤ m.heap.nextSerial) (hp : pre) (x : α) (m' : Machine) (hx : a m = .ok x m')
    (hroom : m'.HasRoom) : post x m' := (h.keeps_of_ok hx ⟨hn, hk, hp⟩ hroom).2 x rfl

/-- An effect that leaves the heap alone. -/
theorem of_heap_eq (h : (a.after m).heap = m.heap)
    (hp : m.heap.Numbered → pre → ∀ x m', a m = .ok x m' → post x m') :
    Advances k written made pre a m post := by
  refine ⟨by rw [h], fun hpre _ => ⟨?_, fun x hx => hp hpre.1 hpre.2.2 x _ (eq_ok_of_ending hx)⟩⟩
  rw [h]
  exact .refl hpre.1

theorem imp {pre' : Prop} {post' : α → Machine → Prop} (ha : Advances k written made pre a m post)
    (hpre : pre' → pre) (hpost : pre' → ∀ x m', post x m' → post' x m') :
    Advances k written made pre' a m post' :=
  Promises.mono ha (fun hp => ⟨hp.1, hp.2.1, hpre hp.2.2⟩) fun _ m' hp _ h =>
    ⟨h.1, fun x hx => hpost hp.2.2 x m' (h.2 x hx)⟩

theorem bind (ha : Advances k written made pre a m mid)
    (hf : ∀ x m', a m = .ok x m' →
      Advances k written made (pre ∧ m.heap.Later k written made m'.heap ∧ mid x m') (f x) m' goal) :
    Advances k written made pre (a >>= f) m goal :=
  Promises.bind ha (fun x m' h => Promises.mono (hf x m' h)
    (fun hp => ⟨hp.2.1.numbered, hp.1.2.1.trans hp.2.1.serial_le, hp.1.2.2, hp.2.1, hp.2.2 x rfl⟩)
    fun _ _ hp _ h => ⟨hp.2.1.trans h.1, h.2⟩) fun _ _ _ h => ⟨h.1, nofun⟩

/-- An effect of which nothing but the heap is of interest. -/
theorem andThen (ha : Advances k written made True a m fun _ _ => True)
    (hf : ∀ x m', a m = .ok x m' → Advances k written made True (f x) m' fun _ _ => True) :
    Advances k written made True (a >>= f) m fun _ _ => True :=
  ha.bind fun x m' h => (hf x m' h).imp (fun _ => trivial) fun _ _ _ h => h

theorem ask_bind {g : Machine → α} (hf : Advances k written made pre (f (g m)) m goal) :
    Advances k written made pre (ask g >>= f) m goal := Promises.ask_bind hf

theorem read_bind {facet : Facet α} {v : Value}
    (hf : ∀ x, m.heap.read facet v = .ok x → Advances k written made pre (f x) m goal) :
    Advances k written made pre (read facet v >>= f) m goal :=
  Promises.read_bind hf fun _ _ hp => ⟨.refl hp.1, nofun⟩

theorem pure (x : α) : Advances k written made pre (pure x) m fun _ _ => True :=
  .of_heap_eq rfl fun _ _ _ _ _ => trivial

theorem fault (u : Fault) : Advances k written made pre (fault u : Effect α) m post :=
  .of_heap_eq rfl fun _ _ x m' hx => by cases hx

theorem update {g : Machine → Machine} (h : (g m).heap = m.heap) :
    Advances k written made pre (update g) m fun _ _ => True := .of_heap_eq h fun _ _ _ _ _ => trivial

theorem pin (v : Value) : Advances k written made pre (pin v) m fun _ m' => m'.heap = m.heap :=
  .of_heap_eq rfl fun _ _ _ _ h => by obtain ⟨-, rfl⟩ := EStateM.Result.ok.inj h; rfl

theorem withHandles (ha : Advances k written made pre a m post) :
    Advances k written made pre (withHandles a) m fun _ _ => True :=
  Promises.withHandles ha fun _ _ _ h => ⟨h.1, fun _ _ => trivial⟩

/-! ### Making and writing -/

theorem alloc (cls : Value) {body : Body} (hbody : made body) :
    Advances k written made pre (alloc cls body) m fun v m' => m'.heap.Young k v := by
  have hstore : ∀ {n : Machine}, m.heap.slots.size ≤ n.heap.slots.size →
      (m.heap.Numbered → k ≤ m.heap.nextSerial →
        m.heap.Later k written made n.heap ∧ n.heap.Numbered ∧ k ≤ n.heap.nextSerial) →
      Effect.alloc cls body m = store cls body n →
      Advances k written made pre (Effect.alloc cls body) m fun v m' => m'.heap.Young k v := by
    intro n hsize hl heq
    refine Promises.of_ok heq (hsize.trans (n.heap.size_le_insert cls body)) fun hp hroom => ?_
    obtain ⟨hl, hn', hk'⟩ := hl hp.1 hp.2.1
    refine ⟨hl.trans (Heap.later_insert hn' hk' cls hbody), fun v hv => ?_⟩
    obtain rfl := Except.ok.inj hv
    exact Heap.young_nextReference hn' hk' cls body hroom
  rcases alloc_cases cls body m with h | h
  · exact hstore le_rfl (fun hn hk => ⟨.refl hn, hn, hk⟩) h
  · exact hstore (n := m.collectWith _) (Heap.size_collect m.heap _).ge
      (fun hn hk => ⟨Heap.later_collect hn _, hn.collect _, hk⟩) h

/-- Writing to what may be written, or to what is young. -/
theorem write {facet : Facet α} {v : Value} {g : α → α} (hw : pre → v ∈ written ∨ m.heap.Young k v)
    (hg : ∀ b x, facet.get? b = some x → (facet.put (g x)).outline = b.outline ∧
      (made b → made (facet.put (g x)))) :
    Advances k written made pre (write facet v g) m fun _ _ => True := by
  refine ⟨(size_after_write facet v g m).ge, fun ⟨hn, _, hp⟩ _ => ⟨?_, fun _ _ => trivial⟩⟩
  · rcases after_write facet v g m with h | h
    · rw [h]
      exact .refl hn
    · rw [h]
      refine Heap.later_modifyObject hn (hw hp) fun o _ => ⟨⟨rfl, ?_⟩, rfl, rfl, ?_⟩
      · dsimp only
        cases hx : facet.get? o.body with
        | none => rfl
        | some x => exact (hg o.body x hx).1
      · dsimp only
        cases hx : facet.get? o.body with
        | none => exact id
        | some x => exact (hg o.body x hx).2

theorem pinAll : ∀ {m : Machine} (vs : List Value),
    Advances k written made pre (pinAll vs) m fun _ m' => m'.heap = m.heap
  | m, [] => .of_heap_eq rfl fun _ _ _ _ h => by obtain ⟨-, rfl⟩ := EStateM.Result.ok.inj h; rfl
  | m, v :: vs => (pin v).bind fun _ _ _ => (pinAll vs).imp And.left fun h _ _ h' => h'.trans h.2.2

theorem newText (htext : ∀ s, made (.text s)) (s : String) :
    Advances k written made pre (newText s) m fun v m' => m'.heap.Young k v :=
  .ask_bind (.alloc _ (htext s))

theorem newTable (htable : ∀ t, made (.table t)) (strategy : Strategy) (size : Nat) :
    Advances k written made pre (newTable strategy size) m fun v m' => m'.heap.Young k v :=
  .ask_bind (.alloc _ (htable _))

/-! ### Tables and symbols -/

/-- A change of a table that keeps its strategy. -/
theorem writeTable (htable : ∀ t, made (.table t)) {table : Value} (hw : table ∈ written)
    {g : Table → Table} (hg : ∀ t, (g t).strategy = t.strategy) :
    Advances k written made pre (Effect.write Facet.table table g) m fun _ _ => True := by
  refine .write (fun _ => Or.inl hw) fun b t ht => ⟨?_, fun _ => htable _⟩
  rw [← Facet.lawful_table.put_eq ht]
  simp only [Facet.table, Body.outline, hg]

theorem addHashed (htable : ∀ t, made (.table t)) {table : Value} (hw : table ∈ written)
    (hash : UInt64) (key record : Value) :
    Advances k written made True (Dictionary.addHashed table hash key record) m fun _ _ => True := by
  have hprepend : ∀ {m : Machine}, Advances k written made True
      (Effect.write Facet.table table (·.prepend hash key record)) m fun _ _ => True :=
    .writeTable htable hw fun t => t.strategy_prepend hash key record
  refine .read_bind fun t _ => ?_
  dsimp only
  split
  · refine (writeTable htable hw fun t => ?_).andThen fun _ _ _ => ?_
    · exact (Table.Change.rehash (Table.primeAtLeast_pos _)).strategy_eq
    · exact (update rfl).andThen fun _ _ _ => hprepend
  · exact hprepend

theorem findTextFrom (t : Table) (text : String) (hash : UInt64) : ∀ {m : Machine} (fuel : Nat)
    (cursor : Option EntryId), Advances k written made True
      (Dictionary.findTextFrom t text hash fuel cursor) m fun _ _ => True
  | _, 0, none => .pure _
  | _, _ + 1, none => .pure _
  | _, 0, some _ => .fault _
  | m, fuel + 1, some id => by
    rw [Dictionary.findTextFrom]
    cases t.get? id with
    | none => exact .fault _
    | some e =>
      have hrest : ∀ hit : Bool, Advances k written made True (if hit then Pure.pure (some e.record)
          else Dictionary.findTextFrom t text hash fuel e.next : Effect (Option Value)) m
          fun _ _ => True := by
        intro hit
        cases hit with
        | true => exact .pure _
        | false => exact findTextFrom t text hash fuel e.next
      dsimp only
      split
      · exact .read_bind fun _ _ => hrest _
      · exact hrest false

/-- Interning writes to the table of symbols, and makes a text at most. -/
theorem intern (htext : ∀ s, made (.text s)) (htable : ∀ t, made (.table t)) (name : String)
    (hw : m.symbols.table ∈ written) :
    Advances k written made True (Effect.intern name) m fun _ _ => True := by
  have hlookup : Advances k written made True (Dictionary.lookupText m.symbols.table name) m
      fun _ _ => True := by
    refine .read_bind fun t _ => ?_
    split
    · exact findTextFrom t name _ _ _
    · exact .fault _
  refine .ask_bind (hlookup.andThen fun found m₁ _ => ?_)
  cases found with
  | some symbol => exact .pure symbol
  | none =>
    refine .ask_bind ((update rfl).andThen fun _ m₂ _ => ?_)
    refine ((newText htext name).imp id fun _ _ _ _ => trivial).andThen fun key m₃ _ => ?_
    refine Advances.andThen (.withHandles (Advances.andThen
      ((pinAll _).imp id fun _ _ _ _ => trivial) fun _ m₄ _ => ?_)) fun _ _ _ => .pure _
    rw [Dictionary.keysOf_bind]
    exact .read_bind fun _ _ => Advances.andThen (.read_bind fun _ _ => .pure _) fun _ _ _ =>
      .addHashed htable hw _ _ _

end Advances

end Effect

/-! ### Raising -/

/-- A body of no class, without a table of names of its own. -/
def Body.Bare (b : Body) : Prop := (∀ c, b ≠ .cls c) ∧ ∀ a, b.names? = some a → a = .absent

namespace Effect.Advances

theorem pushTraceLines {trace : Value} : ∀ {m : Machine} {pre : Prop} (names : List String),
    (pre → m.heap.Young k trace) →
      Advances k written Body.Bare pre (Effect.pushTraceLines trace names) m fun _ _ => True
  | _, _, [], _ => .pure ()
  | m, pre, name :: names, hp => by
    refine (newText (fun _ => ⟨nofun, nofun⟩) name).bind fun line m₁ _ =>
      (Advances.write (fun h => Or.inr (h.2.1.young (hp h.1))) fun b items hb => ?_).bind
        fun _ m₂ _ => pushTraceLines names fun h => h.2.1.young (h.1.2.1.young (hp h.1.1))
    rw [← Facet.lawful_array.put_eq hb]
    exact ⟨rfl, fun _ => ⟨nofun, nofun⟩⟩

theorem newArray (items : List Value) :
    Advances k written Body.Bare pre (Effect.newArray items) m fun v m' => m'.heap.Young k v :=
  .ask_bind (.alloc _ ⟨nofun, nofun⟩)

theorem newException (cls : Value) (message : String) :
    Advances k written Body.Bare pre (Effect.newException cls message) m
      fun v m' => m'.heap.Young k v := by
  refine (newText (fun _ => ⟨nofun, nofun⟩) message).bind fun _ _ _ => .alloc _ ⟨nofun, ?_⟩
  rintro _ ⟨⟩
  rfl

theorem captureTrace {exc : Value} (hp : pre → m.heap.Young k exc) :
    Advances k written Body.Bare pre (Effect.captureTrace exc) m fun _ _ => True := by
  refine .ask_bind (.withHandles ((pin exc).bind fun _ m₁ _ => (newArray []).bind fun trace m₂ _ =>
    (pin trace).bind fun _ m₃ _ => (pushTraceLines _ fun h => ?_).bind fun _ m₄ _ =>
      .write (fun h => Or.inr ?_) fun b e hb => ?_))
  · exact h.2.1.young h.1.2.2
  · exact h.2.1.young (h.1.2.1.young (h.1.1.2.1.young (h.1.1.1.2.1.young (hp h.1.1.1.1))))
  · rw [← Facet.lawful_exception.put_eq hb]
    exact ⟨rfl, fun hbare => ⟨nofun, hbare.2⟩⟩

/-- An error is made of a text, an exception and its trace. -/
theorem raiseError (kind : ErrorKind) (message : String) :
    Advances k written Body.Bare True (Effect.raiseError kind message : Effect α) m fun _ _ => True :=
  .ask_bind ((newException _ message).bind fun _ _ _ => (captureTrace fun h => h.2.2).bind
    fun _ _ _ => (update rfl).bind fun _ _ _ => .of_heap_eq rfl fun _ _ _ _ _ => trivial)

end Effect.Advances

end ObjectMachine
