import Mathlib.Tactic
import ObjectMachine.Proofs.Program.Evaluation
import ObjectMachine.Proofs.Program.Traps

/-! Native programs and the stacks they work on.

`Native` is the language of native code: programs that open scopes, frames and rescues around each
other, pin values, register cleanups, send messages, raise, and work on objects and tables, with programs
again as bodies, handlers and visitors.  Methods and cleanups are stored programs, and `decode` says what
native code each of them is.

A value is pinned through one of the scopes around the program, and its handle belongs to this scope: it
can be handed on to code outside of the scopes further in, but never to code outside of its own.  All
handles stand on one stack, though, and a scope that ends takes everything from its base upwards.  So a
handle is there for as long as it may be used only if it was pinned through the innermost scope
(`Native.Local`), and a call gives back the stack at the height it found only if whatever it pins stands in a
scope that it opens itself (`Native.Contained`). -/

namespace ObjectMachine

open Effect

/-! ### Handles -/

/-- The handles that a program knows by name. -/
structure Known : Type 1 where
  Name : Type
  /-- The scope that the handle belongs to.  Scopes are numbered from the outermost one on. -/
  scope : Name → Nat
  /-- Whether the program may overwrite it. -/
  lent : Name → Prop

namespace Known

def none : Known := ⟨Empty, Empty.elim, Empty.elim⟩

/-- A handle that has just been pinned. -/
def one (scope : Nat) : Known := ⟨Unit, fun _ => scope, fun _ => True⟩

def join (J K : Known) : Known := ⟨J.Name ⊕ K.Name, Sum.elim J.scope K.scope, Sum.elim J.lent K.lent⟩

/-- Handles that are among those that a program knows, perhaps to be read only. -/
structure Share (J K : Known) where
  name : J.Name → K.Name
  scope_eq : ∀ j, J.scope j = K.scope (name j)
  lent_of : ∀ j, J.lent j → K.lent (name j)

variable (K : Known)

/-- The places of handles that may be overwritten. -/
def writable (places : K.Name → Nat) : Set Nat := {place | ∃ k, K.lent k ∧ places k = place}

/-- Whether the handles `J` are among those that a program was given, or lie above a height. -/
def Hands (places : K.Name → Nat) (height : Nat) (J : Known) (new : J.Name → Nat) : Prop :=
  ∀ j, (∃ k, places k = new j ∧ (J.lent j → K.lent k)) ∨ height ≤ new j

/-- Whether the handles stand below a height, and those of a scope below the bases of all scopes further
in. -/
def Stands (scopes : Nat) (bases : Nat → Nat) (height : Nat) (places : K.Name → Nat) : Prop :=
  ∀ k, places k < height ∧ ∀ s < scopes, K.scope k < s → places k < bases s

variable {K} {J J' K' : Known} {places : K.Name → Nat} {new : J.Name → Nat} {new' : J'.Name → Nat}
  {scopes height height' : Nat} {bases : Nat → Nat}

theorem writable_none (places : none.Name → Nat) : none.writable places = ∅ :=
  Set.eq_empty_iff_forall_notMem.mpr fun _ ⟨k, _⟩ => k.elim

theorem writable_share (share : K'.Share K) : K'.writable (places ∘ share.name) ⊆ K.writable places :=
  fun _ ⟨k, hlent, hplace⟩ => ⟨share.name k, share.lent_of k hlent, hplace⟩

namespace Hands

theorem mono (h : K.Hands places height J new) (hle : height' ≤ height) :
    K.Hands places height' J new := fun j => (h j).imp_right hle.trans

theorem mem_writable_or (h : K.Hands places height J new) {place : Nat}
    (hp : place ∈ (J.join K).writable (Sum.elim new places)) :
    place ∈ K.writable places ∨ height ≤ place := by
  obtain ⟨k | k, hlent, rfl⟩ := hp
  · exact (h k).imp_left fun ⟨k', heq, hlent'⟩ => ⟨k', hlent' hlent, heq⟩
  · exact Or.inl ⟨k, hlent, rfl⟩

/-- What is handed on by code that was handed handles itself. -/
theorem trans (h : K.Hands places height J new)
    (h' : (J.join K).Hands (Sum.elim new places) height' J' new') (hle : height ≤ height') :
    K.Hands places height J' new' := by
  intro j
  rcases h' j with ⟨k | k, heq, hlent⟩ | hj
  · rcases h k with ⟨k', heq', hlent'⟩ | hk
    · exact Or.inl ⟨k', heq'.trans heq, fun hj => hlent' (hlent hj)⟩
    · exact Or.inr (hk.trans heq.le)
  · exact Or.inl ⟨k, heq, hlent⟩
  · exact Or.inr (hle.trans hj)

theorem of_share (share : J.Share K) : K.Hands places height J (places ∘ share.name) :=
  fun j => Or.inl ⟨share.name j, rfl, share.lent_of j⟩

theorem share {share : K'.Share K} (h : K'.Hands (places ∘ share.name) height J new) :
    K.Hands places height J new := fun j =>
  (h j).imp_left fun ⟨k, heq, hlent⟩ => ⟨share.name k, heq, fun hj => share.lent_of k (hlent hj)⟩

end Hands

namespace Stands

theorem mono (h : K.Stands scopes bases height places) (hle : height ≤ height') :
    K.Stands scopes bases height' places := fun k => ⟨(h k).1.trans_le hle, (h k).2⟩

theorem join (h : K.Stands scopes bases height places) (h' : J.Stands scopes bases height new) :
    (J.join K).Stands scopes bases height (Sum.elim new places)
  | .inl j => h' j
  | .inr k => h k

theorem share (h : K.Stands scopes bases height places) (share : J.Share K) :
    J.Stands scopes bases height (places ∘ share.name) := fun j =>
  ⟨(h (share.name j)).1, fun s hs hlt => (h (share.name j)).2 s hs (share.scope_eq j ▸ hlt)⟩

/-- A scope is opened on top. -/
theorem enter (h : K.Stands scopes bases height places) :
    K.Stands (scopes + 1) (Function.update bases scopes height) height places := by
  refine fun k => ⟨(h k).1, fun s hs hlt => ?_⟩
  by_cases htop : s = scopes
  · rw [htop, Function.update_self]
    exact (h k).1
  · rw [Function.update_of_ne htop]
    exact (h k).2 s (by omega) hlt

/-- What is handed on by a scope stands where it was opened. -/
theorem leave (h : J.Stands (scopes + 1) (Function.update bases scopes height) height' new)
    (houter : ∀ j, J.scope j < scopes) : J.Stands scopes bases height new := by
  refine fun j => ⟨?_, fun s hs hlt => ?_⟩
  · simpa using (h j).2 scopes (Nat.lt_succ_self _) (houter j)
  · have hj := (h j).2 s (by omega) hlt
    rwa [Function.update_of_ne hs.ne] at hj

end Stands

end Known

/-- Places hold no values. -/
instance {ι : Type} : Rooted (ι → Nat) := ⟨fun _ => []⟩

/-! ### Programs -/

/-- A native program with a number of scopes around it.  It knows handles, and hands on handles along
with its answer. -/
inductive Native : (scopes : Nat) → (known new : Known) → Type → Type 1 where
  /-- A step that leaves the stacks alone. -/
  | step {n : Nat} {K : Known} {α : Type} (a : Effect α) (idle : a.Idle) : Native n K .none α
  | andThen {n : Nat} {K J J' : Known} {α β : Type} (first : Native n K J α)
      (next : α → Native n (J.join K) J' β) : Native n K J' β
  /-- A program whose end is looked at. -/
  | attempt {n : Nat} {K J J' : Known} {α β : Type} (body : Native n K J α)
      (returned : α → Native n (J.join K) J' β) (failed : Unwind → Native n K J' β) :
      Native n K J' β
  /-- An answer along with handles. -/
  | give {n : Nat} {K J : Known} {α : Type} (share : J.Share K) (x : α) : Native n K J α
  /-- A part that is given some of the handles. -/
  | part {n : Nat} {K K' J : Known} {α : Type} (share : K'.Share K) (body : Native n K' J α) :
      Native n K J α
  /-- A scope; its own handles stay inside. -/
  | withHandles {n : Nat} {K J : Known} {α : Type} (body : Native (n + 1) K J α)
      (outer : ∀ j, J.scope j < n) : Native n K J α
  /-- Pins a value through a scope. -/
  | pin {n : Nat} {K : Known} (scope : Nat) (reach : scope < n) (v : Value) :
      Native n K (.one scope) Unit
  | get {n : Nat} {K : Known} (k : K.Name) : Native n K .none Value
  | set {n : Nat} {K : Known} (k : K.Name) (lent : K.lent k) (v : Value) : Native n K .none Unit
  | callFrame {n : Nat} {K J : Known} {α : Type} [Rooted α] (kind : FrameKind) (name : String)
      (receiver : Value) (body : Native n K J α) : Native n K J α
  | addCleanup {n : Nat} {K : Known} (c : Cleanup) : Native n K .none Unit
  | rescue {n : Nat} {K J : Known} {α : Type} (classes : List Value) (body : Native n K J α)
      (handler : Value → Native n K J α) : Native n K J α
  /-- Runs a body in a boundary frame and tells how it ended. -/
  | execute {n : Nat} {K J : Known} (name : String) (body : Native n K J Value) :
      Native n K .none (Termination Value)
  | symbol {n : Nat} {K : Known} (name : String) : Native n K .none Value
  | global {n : Nat} {K : Known} (name : String) : Native n K .none (Option Value)
  | defineMethod {n : Nat} {K : Known} (cls : Value) (method : NativeMethod) : Native n K .none Unit
  /-- An operation on objects, classes, tables, exceptions or the heap; sending a message is one. -/
  | perform {n : Nat} {K : Known} (op : Operation) (operands : List Value) : Native n K .none Value
  | forEach {n : Nat} {K J : Known} (table : Value)
      (visitor : Value → Value → Native n K J Dictionary.Visit) : Native n K .none Bool

namespace Native

variable {n : Nat} {K J J' K' : Known} {α β : Type}

/-- Hands on no handles. -/
def plain (a : Effect α) : Effect (α × (Known.none.Name → Nat)) := a >>= fun x => pure (x, Empty.elim)

/-- Looks at the answer only. -/
def answer {ι : Type} (a : Effect (α × ι)) : Effect α := a >>= fun r => pure r.1

/-- Runs a program with its handles at the given places; gives the places of those it hands on. -/
def denote (traps : Traps) (calls : Calls) :
    {n : Nat} → {K J : Known} → {α : Type} → Native n K J α → (K.Name → Nat) → Effect (α × (J.Name → Nat))
  | _, _, _, _, .step a _, _ => plain a
  | _, _, _, _, .andThen first next, places =>
    first.denote traps calls places >>= fun r => (next r.1).denote traps calls (Sum.elim r.2 places)
  | _, _, _, _, .attempt body returned failed, places =>
    outcome (body.denote traps calls places) >>= fun ended =>
      match ended with
      | .ok r => (returned r.1).denote traps calls (Sum.elim r.2 places)
      | .error u => (failed u).denote traps calls places
  | _, _, _, _, .give share x, places => pure (x, places ∘ share.name)
  | _, _, _, _, .part share body, places => body.denote traps calls (places ∘ share.name)
  | _, _, _, _, .withHandles body _, places => Effect.withHandles (body.denote traps calls places)
  | _, _, _, _, .pin _ _ v, _ => Effect.pin v >>= fun place => pure ((), fun _ => place)
  | _, _, _, _, .get k, places => plain (traps.getHandle (places k))
  | _, _, _, _, .set k _ v, places => plain (traps.setHandle (places k) v)
  | _, _, _, _, @callFrame _ _ _ _ _ kind name receiver body, places =>
    traps.callFrame calls.run kind name receiver (body.denote traps calls places)
  | _, _, _, _, .addCleanup c, _ => plain (Effect.addCleanup c)
  | _, _, _, _, .rescue classes body handler, places =>
    traps.rescue classes (body.denote traps calls places) fun exc =>
      (handler exc).denote traps calls places
  | _, _, _, _, .execute name body, places =>
    plain (outcome (traps.callFrame calls.run .finish name .nil
      (answer (body.denote traps calls places))) >>= terminate)
  | _, _, _, _, .symbol name, _ => plain (intern name)
  | _, _, _, _, .global name, _ => plain (getGlobal name)
  | _, _, _, _, .defineMethod cls method, _ => plain (Effect.defineMethod cls method)
  | _, _, _, _, .perform op operands, _ => plain (traps.perform calls op operands)
  | _, _, _, _, .forEach table visitor, places =>
    plain (traps.forEach calls.patience table fun key v =>
      answer ((visitor key v).denote traps calls places))

/-- Runs a body, then a cleanup, however the body ends. -/
def ensure [Rooted α] (body : Native n K J α) (cleanup : Program) : Native n K J α :=
  .callFrame .native "ensure" .nil <| .andThen (.addCleanup ⟨.nil, cleanup, false⟩) fun _ =>
    .part ⟨Sum.inr, fun _ => rfl, fun _ h => h⟩ body

theorem denote_ensure [Rooted α] (calls : Calls) (body : Native n K J α) (cleanup : Program)
    (places : K.Name → Nat) : (ensure body cleanup).denote .own calls places =
      Effect.ensure calls.run (body.denote .own calls places) cleanup := by
  rw [ensure, denote, denote, denote, plain, bind_assoc, Traps.own_callFrame]
  rfl

theorem denote_execute (calls : Calls) (name : String) (body : Native n K J Value)
    (places : K.Name → Nat) : (execute name body : Native n K .none _).denote .own calls places =
      plain (Effect.execute calls.run name (answer (body.denote .own calls places))) := by
  rw [denote, Traps.own_callFrame, execute_eq]

/-- Whether all that is pinned stands in scopes that the program opens itself.  A traversal is a scope
for its visitor. -/
def Contained : {n : Nat} → {K J : Known} → {α : Type} → Native n K J α → Prop
  | _, _, _, _, .pin _ _ _ => False
  | _, _, _, _, .andThen first next => first.Contained ∧ ∀ x, (next x).Contained
  | _, _, _, _, .attempt body returned failed =>
    body.Contained ∧ (∀ x, (returned x).Contained) ∧ ∀ u, (failed u).Contained
  | _, _, _, _, .part _ body => body.Contained
  | _, _, _, _, @callFrame _ _ _ _ _ _ _ _ body => body.Contained
  | _, _, _, _, .rescue _ body handler => body.Contained ∧ ∀ exc, (handler exc).Contained
  | _, _, _, _, .execute _ body => body.Contained
  | _, _, _, _, _ => True

/-- Whether all that is pinned is pinned through the innermost scope around it. -/
def Local : {n : Nat} → {K J : Known} → {α : Type} → Native n K J α → Prop
  | n, _, _, _, .pin scope _ _ => scope + 1 = n
  | _, _, _, _, .andThen first next => first.Local ∧ ∀ x, (next x).Local
  | _, _, _, _, .attempt body returned failed =>
    body.Local ∧ (∀ x, (returned x).Local) ∧ ∀ u, (failed u).Local
  | _, _, _, _, .part _ body => body.Local
  | _, _, _, _, .withHandles body _ => body.Local
  | _, _, _, _, @callFrame _ _ _ _ _ _ _ _ body => body.Local
  | _, _, _, _, .rescue _ body handler => body.Local ∧ ∀ exc, (handler exc).Local
  | _, _, _, _, .execute _ body => body.Local
  | _, _, _, _, .forEach _ visitor => ∀ key v, (visitor key v).Local
  | _, _, _, _, _ => True

/-- With no scope around it, a program pins only in its own. -/
theorem contained_of_zero (p : Native 0 K J α) : p.Contained := by
  generalize hn : 0 = n at p
  induction p with
  | pin scope reach v =>
    subst hn
    exact absurd reach (Nat.not_lt_zero _)
  | andThen first next ihfirst ihnext => exact ⟨ihfirst hn, fun x => ihnext x hn⟩
  | attempt body returned failed ihbody ihreturned ihfailed =>
    exact ⟨ihbody hn, fun x => ihreturned x hn, fun u => ihfailed u hn⟩
  | part share body ih => exact ih hn
  | callFrame kind name receiver body ih => exact ih hn
  | rescue classes body handler ihbody ihhandler => exact ⟨ihbody hn, fun exc => ihhandler exc hn⟩
  | execute name body ih => exact ih hn
  | _ => exact True.intro

end Native

end ObjectMachine
