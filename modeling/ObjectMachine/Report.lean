import ObjectMachine.Fault
import ObjectMachine.Binary64.Basic

/-! What a run shows to the outside: pictures of values, and the reports of programs. -/

namespace ObjectMachine

/-- A picture of a value, taken to a bounded depth. -/
inductive View where
  | fixnum (n : Int)
  | nil
  | bool (b : Bool)
  | absent
  | symbol (name : String)
  | stale
  | big (n : Int) (cls : Option String)
  | hugeBig (bits : Nat) (hash : Int) (cls : Option String)
  | float (x : Binary64) (cls : Option String)
  | text (s : String) (cls : Option String)
  | array (items : List View) (cls : Option String)
  | dict (pairs : List (View × View)) (strategy : String) (bins count : Nat) (cls : Option String)
  | iterator (cls : Option String)
  | cls (name : String) (cls : Option String)
  | plain (attributes : Option (List (View × View))) (cls : Option String)
  | exception (message : View) (trace : List String) (context : View)
      (attributes : Option (List (View × View))) (cls : Option String)
  | native (name : String) (arity : Nat) (cls : Option String)
  | deep (kind : ObjectKind)

/-- Whether an exception is on its way, being handled, or neither. -/
inductive UnwindState where
  | running | unwinding | handled
  deriving DecidableEq

def UnwindState.name : UnwindState → String
  | .running => "Running"
  | .unwinding => "Unwinding"
  | .handled => "Handled"

/-- How a run in a boundary frame ended. -/
inductive Termination (α : Type) where
  | completed (result : α)
  | unhandled (className message : String) (trace : List String)
  | aborted (fault : Fault)

namespace Termination

/-- The exit code of a run. -/
def exitCode : Termination α → Nat
  | .completed _ => 0
  | .unhandled _ _ _ => 1
  | .aborted _ => 70

def map (f : α → β) : Termination α → Termination β
  | .completed a => .completed (f a)
  | .unhandled c m t => .unhandled c m t
  | .aborted f => .aborted f

end Termination

/-- What a program reports while it runs. -/
inductive Report where
  | note (text : String)
  | view (v : View)
  | text (s : String)
  | count (n : Nat)
  | table (debug : String) (stamp : UInt64) (grow : Bool)
  | mapping (key record : View)
  | values (vs : List View)
  | option (v : Option View)
  | depthAndValue (depth : Nat) (v : View)
  | exception (message : String) (trace : List String) (context : Option View)
  | termination (t : Termination View)
  | state (unwind : UnwindState) (frames : List String) (targets : List (Nat × Nat))
  | frame (debug : Option String)
  | collection (collections marked freed live : Nat)
  | flags (byte : Nat) (has : Bool)
  | texts (ts : List String)
  | roots (slots references : Nat)
  | scope (size : Nat)
  | depths (frames handles : Nat)

end ObjectMachine
