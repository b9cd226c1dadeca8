import ObjectMachine.Calls
import ObjectMachine.Snapshot

/-! The registers and the other variables of programs. -/

namespace ObjectMachine.Effect

/-- How many registers there are. -/
def registerCount : Nat := 64

/-- Makes the register array and binds it to a global, which keeps it alive. -/
def openRegisters : Effect Unit := do
  let registers ← newArray (List.replicate registerCount .nil)
  setGlobal "$regs" registers
  update fun m => { m with session := { m.session with registers := registers } }

/-- The value of a register; `nil` before it is set. -/
def getRegister (name : String) : Effect Value := do
  let session ← ask (·.session)
  match session.registerNames.idxOf? name with
  | none => return .nil
  | some place => return (← read Facet.array session.registers).getD place .nil

/-- Sets a register; a new name gets the next free place. -/
def setRegister (name : String) (v : Value) : Effect Unit := do
  let session ← ask (·.session)
  let place := session.registerNames.idxOf name
  if place = session.registerNames.length then
    update fun m => { m with session :=
      { m.session with registerNames := m.session.registerNames ++ [name] } }
  write Facet.array session.registers (·.setIfInBounds place v)

/-- A value kept without being a root. -/
def getWeak (name : String) : Effect Value :=
  ask fun m => (m.session.weak.lookup name).getD .nil

/-- Keeps a value without making it a root. -/
def setWeak (name : String) (v : Value) : Effect Unit :=
  update fun m => { m with session := { m.session with
    weak := (name, v) :: m.session.weak.filter (·.1 != name) } }

/-- The receiver of the innermost running method program. -/
def self : Effect Value := ask fun m => (m.session.activations.head?.map (·.receiver)).getD .nil

/-- An argument of the innermost running method program. -/
def selfArgument (index : Nat) : Effect Value :=
  ask fun m => (m.session.activations.head?.bind (·.arguments[index]?)).getD .absent

/-- The resource of the innermost running cleanup. -/
def currentResource : Effect Value := ask fun m => m.session.resources.head?.getD .nil

/-- Reports the picture of a value. -/
def reportView (v : Value) : Effect Unit := do report (.view (← ask (·.view v)))

end ObjectMachine.Effect
