import ObjectMachine.Value

/-! What can go wrong.

A raised exception is an object of the machine and travels as `Unwind.raise`; a `rescue` may stop
it.  A `Fault` is a broken invariant of the machine itself; it travels as `Unwind.fatal` and no
`rescue` ever sees it. -/

namespace ObjectMachine

/-- The kinds of objects the heap holds. -/
inductive ObjectKind where
  | plain | cls | text | array | table | iterator | bignum | float | exception | native
  deriving DecidableEq

/-- The name a kind has in diagnostics. -/
def ObjectKind.name : ObjectKind → String
  | .plain => "Object"
  | .cls => "Class"
  | .text => "String"
  | .array => "Array"
  | .table => "Dict"
  | .iterator => "DictIterator"
  | .bignum => "Bignum"
  | .float => "Float"
  | .exception => "Exception"
  | .native => "NativeFunction"

/-- The ways in which a table can turn out to be corrupted. -/
inductive Corruption where
  | unlinkOfDeadEntry
  | unreachableFromBin
  | danglingLink
  | iteratorEntryVanished
  deriving DecidableEq

/-- The wording of a corruption. -/
def Corruption.message : Corruption → String
  | .unlinkOfDeadEntry => "unlink of a dead entry"
  | .unreachableFromBin => "entry not reachable from its bin"
  | .danglingLink => "dangling chain link"
  | .iteratorEntryVanished => "iterator entry vanished"

/-- A broken invariant.  `depthExceeded` is the machine's own bound on nested calls. -/
inductive Fault where
  | staleReference (v : Value)
  | notAReference (v : Value)
  | notAFixnum (v : Value)
  | kindMismatch (expected found : ObjectKind)
  | corruptedTable (how : Corruption)
  | tableModifiedDuringIteration
  | iteratorNotPositioned
  | unsupportedStrategy (name : String)
  | noActiveFrame
  | depthExceeded
  | other (text : String)
  deriving DecidableEq

/-- The wording of a fault. -/
def Fault.message : Fault → String
  | .staleReference v => s!"stale reference {v.debug}: slot was freed or reused"
  | .notAReference v => s!"expected a heap reference, got {v.debug}"
  | .notAFixnum v => s!"expected a fixnum, got {v.debug}"
  | .kindMismatch expected found =>
    s!"type tag mismatch: expected {expected.name}, found {found.name}"
  | .corruptedTable how => s!"table chain is corrupted: {how.message}"
  | .tableModifiedDuringIteration => "table modified during iteration"
  | .iteratorNotPositioned => "iterator is not positioned on an entry"
  | .unsupportedStrategy name => s!"key strategy `{name}` does not support this operation"
  | .noActiveFrame => "no active frame"
  | .depthExceeded => "calls nested too deeply"
  | .other text => text

/-- Why an operation did not return normally. -/
inductive Unwind where
  | raise (exc : Value)
  | fatal (fault : Fault)
  deriving DecidableEq

/-- The built-in exception classes. -/
inductive ErrorKind where
  | exception | typeError | valueError | keyError | zeroDivisionError | importError | ioError
  | indexError | argumentError | attributeError | nameError
  deriving DecidableEq

namespace ErrorKind

/-- Every kind, the general one first. -/
def all : List ErrorKind :=
  [.exception, .typeError, .valueError, .keyError, .zeroDivisionError, .importError, .ioError,
    .indexError, .argumentError, .attributeError, .nameError]

/-- The name of the class of a kind. -/
def className : ErrorKind → String
  | .exception => "Exception"
  | .typeError => "TypeError"
  | .valueError => "ValueError"
  | .keyError => "KeyError"
  | .zeroDivisionError => "ZeroDivisionError"
  | .importError => "ImportError"
  | .ioError => "IOError"
  | .indexError => "IndexError"
  | .argumentError => "ArgumentError"
  | .attributeError => "AttributeError"
  | .nameError => "NameError"

/-- Position of a kind in `all`. -/
def index : ErrorKind → Nat
  | .exception => 0
  | .typeError => 1
  | .valueError => 2
  | .keyError => 3
  | .zeroDivisionError => 4
  | .importError => 5
  | .ioError => 6
  | .indexError => 7
  | .argumentError => 8
  | .attributeError => 9
  | .nameError => 10

end ErrorKind

end ObjectMachine
