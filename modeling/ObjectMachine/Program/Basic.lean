import ObjectMachine.Table.Basic
import ObjectMachine.Binary64.Basic
import ObjectMachine.Primitive.Basic

/-! Native programs.

A program is what the body of a method, a cleanup, a handler or a visitor runs.  It is data: the
heap stores the programs of methods, and the frames those of cleanups.  Most of it is
`apply op operands`, which evaluates the operands from left to right, keeps each one alive from then
on, and performs one operation of the machine on them. -/

namespace ObjectMachine

/-- The kinds of frames. `finish` is the boundary at the top of a run. -/
inductive FrameKind where
  | native | method | package | cls | finish
  deriving DecidableEq

/-- The name of a frame kind in diagnostics. -/
def FrameKind.name : FrameKind → String
  | .native => "Native"
  | .method => "Method"
  | .package => "Package"
  | .cls => "Class"
  | .finish => "Finish"

/-- The flags in an object's header. -/
inductive Flag where
  | marked | frozen
  deriving DecidableEq

/-- What to do with a flag. -/
inductive FlagChange where
  | add | remove | keep
  deriving DecidableEq

/-- Operations on objects and classes. -/
inductive ObjectOp where
  | same | truthy
  | call (name : String)
  | primitive (p : Primitive)
  | display
  | instantiate
  | newClass (name : String)
  | findMethod | isSubclass | isInstance | classOf | typeName | className
  | getAttribute (name : String)
  | setAttribute (name : String)
  | setGlobal (name : String)
  | symbolCount | symbolId
  | array
  deriving DecidableEq

/-- Operations on tables and their iterators. -/
inductive TableOp where
  | new (strategy : Strategy) (size : Nat)
  | insert | add | lookup | delete | deleteSafe | fetch
  | lookupText (text : String)
  | cleanup | size | copy | dump | info
  | dangle
  | iterator | next | currentKey | currentValue | drain | restamp
  deriving DecidableEq

/-- Operations on exceptions and frames. -/
inductive FrameOp where
  | raise (kind : ErrorKind) (message : String)
  | throw
  | fatal (message : String)
  | exception (message : String)
  | matches
  | discard (context : String)
  | inspect
  | state | frameInfo | depth
  deriving DecidableEq

/-- Operations on the heap. -/
inductive HeapOp where
  | collect | statistics
  | enable (on : Bool)
  | shouldCollect | isLive | kind | debug | serial
  | flags (change : FlagChange) (flag : Flag)
  | edges
  | addToEdges (amount : Int)
  | roots
  deriving DecidableEq

/-- The operations a program can apply to operands. -/
inductive Operation where
  | object (op : ObjectOp)
  | table (op : TableOp)
  | frame (op : FrameOp)
  | heap (op : HeapOp)
  deriving DecidableEq

/-- A native program. -/
inductive Program where
  | constant (v : Value)
  | text (s : String)
  | bignum (n : Int)
  | integer (n : Int)
  | float (x : Binary64)
  | symbol (name : String)
  | register (name : String)
  | global (name : String)
  | weak (name : String)
  | self
  | argument (index : Nat)
  | resource
  | sequence (steps : List Program)
  | branch (condition yes no : Program)
  | iterate (count : Nat) (register : String) (body : Program)
  | setRegister (name : String) (body : Program)
  | setWeak (name : String) (body : Program)
  | note (text : String)
  | observe (body : Program)
  | apply (op : Operation) (operands : List Program)
  | defineMethod (cls : Program) (name : String) (arity : Nat) (body : Program)
  | forEach (table : Program) (keyRegister valueRegister : String) (body : Program)
  | frame (kind : FrameKind) (name : String) (receiver body : Program)
  | frameValues (name : String) (items : List Program)
  | frameOption (name : String) (body : Program)
  | framePair (name : String) (body : Program)
  | cleanup (resource body : Program)
  | ensure (body cleanup : Program)
  | rescue (classes : List Program) (body : Program) (register : String) (handler : Program)
  | execute (name : String) (body : Program)
  | scope (items : List Program) (body : Program)

end ObjectMachine
