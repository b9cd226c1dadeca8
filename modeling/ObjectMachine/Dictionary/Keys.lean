import ObjectMachine.Machine.Raising

/-! Keys: how the hash and the equality of a table's keys are computed.

A table only knows its strategy.  Operations on tables take the meaning of strategies, a function
from strategies to `Keys`, as a parameter.  Symbol keys, text keys and residue keys need nothing but
the heap; the keys of a value table send messages, so their meaning is given where messages are. -/

namespace ObjectMachine

/-- Hash and equality of keys.  The first operand of `equal` is the key looked for, the second the
one stored.  `patience` is how many steps beyond the size of the table a search may take when the
table changes under it. -/
structure Keys where
  hash : Value → Effect UInt64
  equal : Value → Value → Effect Bool
  patience : Nat := 0

/-- `h · 997 + byte` over the bytes, folded with its upper part. -/
def textHash (s : String) : UInt64 :=
  let h := s.toUTF8.foldl (fun h b => h * 997 + b.toUInt64) (0 : UInt64)
  h + (h >>> 5)

namespace Keys

/-- Identity; symbols hash to their numbers. -/
def symbol : Keys where
  hash key := pure <| match key.symbol? with
    | some id => UInt64.ofNat id
    | none => key.word
  equal key other := pure (key == other)

/-- Contents of text objects. -/
def text : Keys where
  hash key := do return textHash (← Effect.read Facet.text key)
  equal key other :=
    if key == other then pure true
    else do
      let a ← Effect.read Facet.text key
      let b ← Effect.read Facet.text other
      return a == b

/-- Identity; fixnums hash to their residue, everything else to zero. -/
def residue (modulus : Nat) : Keys where
  hash key := pure <| match key.fixnum? with
    | some n => UInt64.ofNat (n % modulus).toNat
    | none => 0
  equal key other := pure (key == other)

end Keys

/-- A meaning of strategies. -/
abbrev KeyMeaning := Strategy → Keys

end ObjectMachine
