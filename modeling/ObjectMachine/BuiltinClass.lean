import ObjectMachine.Primitive.Basic
import ObjectMachine.Fault

/-! The classes the machine itself needs to know. -/

namespace ObjectMachine

/-- A built-in class. -/
inductive BuiltinClass where
  | object | cls | nil | bool | symbol | fixnum | bignum | float | string | array | dict
  | dictIterator | nativeFunction
  | error (kind : ErrorKind)
  deriving DecidableEq

namespace BuiltinClass

/-- Every built-in class, in the order of creation. -/
def all : List BuiltinClass :=
  [.object, .cls, .nil, .bool, .symbol, .fixnum, .bignum, .float, .string, .array, .dict,
    .dictIterator, .nativeFunction] ++ ErrorKind.all.map .error

/-- Position of a class in `all`. -/
def index : BuiltinClass → Nat
  | .object => 0
  | .cls => 1
  | .nil => 2
  | .bool => 3
  | .symbol => 4
  | .fixnum => 5
  | .bignum => 6
  | .float => 7
  | .string => 8
  | .array => 9
  | .dict => 10
  | .dictIterator => 11
  | .nativeFunction => 12
  | .error kind => 13 + kind.index

/-- The global name of a class. -/
def name : BuiltinClass → String
  | .object => "Object"
  | .cls => "Class"
  | .nil => "Nil"
  | .bool => "Bool"
  | .symbol => "Symbol"
  | .fixnum => "Fixnum"
  | .bignum => "Bignum"
  | .float => "Float"
  | .string => "String"
  | .array => "Array"
  | .dict => "Dict"
  | .dictIterator => "DictIterator"
  | .nativeFunction => "NativeFunction"
  | .error kind => kind.className

/-- The kind of body the instances of a class get; none if it makes no instances. -/
def instanceKind : BuiltinClass → Option ObjectKind
  | .object => some .plain
  | .string => some .text
  | .array => some .array
  | .dict => some .table
  | .error _ => some .exception
  | _ => none

/-- The superclass; none for the root. -/
def superclass : BuiltinClass → Option BuiltinClass
  | .object => none
  | .error .exception => some .object
  | .error _ => some (.error .exception)
  | _ => some .object

end BuiltinClass

end ObjectMachine
