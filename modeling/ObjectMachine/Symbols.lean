import ObjectMachine.Dictionary.Basic

/-! Symbols and globals.

Names map to symbols through a table with text keys on the heap, so the name texts are ordinary
objects that the table keeps alive.  Symbols are numbered in the order of their first use. -/

namespace ObjectMachine.Effect

/-- The symbol of a name, made on first use. -/
def intern (name : String) : Effect Value := do
  let table ← ask (·.symbols.table)
  match ← Dictionary.lookupText table name with
  | some symbol => return symbol
  | none =>
    let id ← ask (·.symbols.names.size)
    update fun m => { m with symbols := { m.symbols with names := m.symbols.names.push name } }
    let symbol := Value.ofSymbol id
    let key ← newText name
    Dictionary.add (fun _ => Keys.text) table key symbol
    return symbol

/-- Binds a global name. -/
def setGlobal (name : String) (v : Value) : Effect Unit :=
  withHandles do
    let _ ← pin v
    let key ← intern name
    let globals ← ask (·.globals)
    let _ ← Dictionary.insert (fun _ => Keys.symbol) globals key v

/-- The value of a global name. -/
def getGlobal (name : String) : Effect (Option Value) := do
  let key ← intern name
  let globals ← ask (·.globals)
  Dictionary.lookup (fun _ => Keys.symbol) globals key

end ObjectMachine.Effect
