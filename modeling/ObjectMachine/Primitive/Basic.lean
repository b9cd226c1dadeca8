import ObjectMachine.Number.Operator

/-! The built-in methods: what they are called, how many arguments they take, and which class each
belongs to.  What they do is said in the modules beside this one. -/

namespace ObjectMachine

/-- The built-in methods. -/
inductive Primitive where
  | compare (c : Comparison)
  | numberHash
  | fixnumBinary (op : BinOp)
  | fixnumNegate | fixnumIdentity | fixnumInvert | fixnumText
  | bignumBinary (op : BinOp)
  | bignumNegate | bignumIdentity | bignumInvert | bignumText
  | floatBinary (op : BinOp)
  | floatNegate | floatIdentity | floatText
  | objectEqual | objectNotEqual | objectHash | objectText | objectClass | objectKindOf
  | classNew | className
  | nilText | boolText | symbolText
  | stringEqual | stringHash | stringText | stringConcat | stringSize | stringToNumber
  | arraySize | arrayAt | arrayPush
  | dictFetch | dictStore | dictGet | dictInclude | dictDelete | dictSize
  | exceptionText | exceptionMessage
  deriving DecidableEq

/-- A built-in method with its selector and the number of its arguments. -/
structure PrimitiveMethod where
  name : String
  arity : Nat
  primitive : Primitive
  deriving DecidableEq

/-- The lists of built-in methods.  The number classes share the first. -/
inductive PrimitiveList where
  | comparison | fixnum | bignum | float | object | cls | nil | bool | symbol | string | array
  | dict | exception
  deriving DecidableEq

namespace PrimitiveList

/-- The methods of a list, in the order of their installation. -/
def methods : PrimitiveList → List PrimitiveMethod
  | .comparison =>
    [⟨"<=>", 1, .compare .order⟩, ⟨"==", 1, .compare .equal⟩, ⟨"!=", 1, .compare .notEqual⟩,
      ⟨"<", 1, .compare .less⟩, ⟨"<=", 1, .compare .lessEqual⟩, ⟨">", 1, .compare .greater⟩,
      ⟨">=", 1, .compare .greaterEqual⟩, ⟨"hash", 0, .numberHash⟩]
  | .fixnum =>
    BinOp.all.map (fun op => ⟨op.symbol, 1, .fixnumBinary op⟩) ++
      [⟨"-self", 0, .fixnumNegate⟩, ⟨"+self", 0, .fixnumIdentity⟩, ⟨"~self", 0, .fixnumInvert⟩,
        ⟨"to_s", 0, .fixnumText⟩]
  | .bignum =>
    BinOp.all.map (fun op => ⟨op.symbol, 1, .bignumBinary op⟩) ++
      [⟨"-self", 0, .bignumNegate⟩, ⟨"+self", 0, .bignumIdentity⟩, ⟨"~self", 0, .bignumInvert⟩,
        ⟨"to_s", 0, .bignumText⟩]
  | .float =>
    BinOp.all.map (fun op => ⟨op.symbol, 1, .floatBinary op⟩) ++
      [⟨"-self", 0, .floatNegate⟩, ⟨"+self", 0, .floatIdentity⟩, ⟨"to_s", 0, .floatText⟩]
  | .object =>
    [⟨"==", 1, .objectEqual⟩, ⟨"!=", 1, .objectNotEqual⟩, ⟨"hash", 0, .objectHash⟩,
      ⟨"to_s", 0, .objectText⟩, ⟨"class", 0, .objectClass⟩, ⟨"kind_of?", 1, .objectKindOf⟩]
  | .cls => [⟨"new", 0, .classNew⟩, ⟨"name", 0, .className⟩, ⟨"to_s", 0, .className⟩]
  | .nil => [⟨"to_s", 0, .nilText⟩]
  | .bool => [⟨"to_s", 0, .boolText⟩]
  | .symbol => [⟨"to_s", 0, .symbolText⟩]
  | .string =>
    [⟨"==", 1, .stringEqual⟩, ⟨"hash", 0, .stringHash⟩, ⟨"to_s", 0, .stringText⟩,
      ⟨"+", 1, .stringConcat⟩, ⟨"size", 0, .stringSize⟩, ⟨"to_number", 0, .stringToNumber⟩]
  | .array => [⟨"size", 0, .arraySize⟩, ⟨"[]", 1, .arrayAt⟩, ⟨"push", 1, .arrayPush⟩]
  | .dict =>
    [⟨"[]", 1, .dictFetch⟩, ⟨"[]=", 2, .dictStore⟩, ⟨"get", 1, .dictGet⟩,
      ⟨"include?", 1, .dictInclude⟩, ⟨"delete", 1, .dictDelete⟩, ⟨"size", 0, .dictSize⟩]
  | .exception => [⟨"to_s", 0, .exceptionText⟩, ⟨"message", 0, .exceptionMessage⟩]

/-- The method of a list with a given selector. -/
def find? (l : PrimitiveList) (name : String) : Option Primitive :=
  (l.methods.find? (·.name == name)).map (·.primitive)

end PrimitiveList

end ObjectMachine
