import ObjectMachine.Script

/-! The command line: `arith` evaluates an operator with the numeric tower, `table` fills a table and
tells its shape. -/

namespace ObjectMachine.CommandLine

open Effect

/-- What to do. -/
inductive Command where
  | arith (lhs op rhs : String) (hex : Bool)
  | table (count : Nat) (dump : Bool)
  deriving DecidableEq

/-- A command with the settings of the heap it runs on. -/
structure Invocation where
  settings : HeapSettings
  command : Command
  deriving DecidableEq

/-- What a run prints and how it exits. -/
structure Output where
  exitCode : Nat
  out : String := ""
  err : String := ""
  deriving DecidableEq

/-! ### Reading the arguments

An argument with two dashes in front is an option, and a value may follow it behind an equals sign.
The argument `--` ends the options.  Where an operand may begin with a dash, an unknown option is
taken for the operand; everywhere else it is refused. -/

/-- A count: decimal digits after an optional plus sign, within 64 bits. -/
def readCount? (s : String) : Option Nat :=
  let digits := match s.toList with
    | '+' :: rest => rest
    | cs => cs
  if digits.isEmpty || !digits.all Char.isDigit then none
  else
    let n := Literal.positional 10 digits
    if n < 1 <<< 64 then some n else none

/-- What an argument looks like. -/
inductive Argument where
  | option (name : String) (value : Option String)
  | dashed
  | endOfOptions
  | plain
  deriving DecidableEq

/-- Tells options, other arguments with a dash in front, and the rest apart.  A dash alone is
plain. -/
def classify (s : String) : Argument :=
  match s.toList with
  | ['-', '-'] => .endOfOptions
  | '-' :: '-' :: text =>
    match text.span (· != '=') with
    | (name, _ :: value) => .option (String.ofList name) (some (String.ofList value))
    | (name, []) => .option (String.ofList name) none
  | '-' :: _ :: _ => .dashed
  | _ => .plain

/-- The arguments of a command: one flag, and operands of which some may begin with a dash. -/
structure Signature where
  flag : String
  operands : Nat
  mayBeDashed : Nat → Bool

/-- The operands read so far, the latest first, and whether the flag was given. -/
structure Given where
  operands : List String := []
  flag : Bool := false

/-- Reads the arguments of a command up to the end. -/
def readArguments (signature : Signature) (g : Given) : List String → Option Given
  | [] => if g.operands.length = signature.operands then some g else none
  | s :: rest =>
    let operand := readArguments signature { g with operands := s :: g.operands } rest
    let dashed := if signature.mayBeDashed g.operands.length then operand else none
    match classify s with
    | .plain => operand
    | .dashed => dashed
    | .endOfOptions =>
      let operands := rest.reverse ++ g.operands
      if operands.length = signature.operands then some { g with operands := operands } else none
    | .option name value =>
      if name == signature.flag then
        if g.flag || value.isSome then none else readArguments signature { g with flag := true } rest
      else dashed

/-- The command a name and its arguments spell. -/
def readCommand? (name : String) (args : List String) : Option Command :=
  if name == "arith" then
    match readArguments ⟨"hex", 3, (· != 1)⟩ {} args with
    | some ⟨[rhs, op, lhs], hex⟩ => some (.arith lhs op rhs hex)
    | _ => none
  else if name == "table" then
    match readArguments ⟨"dump", 1, fun _ => false⟩ {} args with
    | some ⟨[count], dump⟩ => (readCount? count).map (.table · dump)
    | _ => none
  else none

/-- The options in front of a command; each may be given once. -/
structure Options where
  threshold : Option Nat := none
  stress : Bool := false

/-- The settings the options stand for. -/
def Options.settings (o : Options) : HeapSettings :=
  { threshold := o.threshold.getD ({} : HeapSettings).threshold, stress := o.stress }

/-- Sets the threshold, if it was not set and the text is a count. -/
def Options.withThreshold? (o : Options) (text : String) : Option Options :=
  if o.threshold.isSome then none
  else (readCount? text).map fun n => { o with threshold := some n }

/-- Reads the options, then the command. -/
def readFrom? (o : Options) : List String → Option Invocation
  | [] => none
  | s :: rest =>
    match classify s, rest with
    | .option "stress-gc" none, rest => if o.stress then none else readFrom? { o with stress := true } rest
    | .option "gc-threshold" (some text), rest => (o.withThreshold? text).bind (readFrom? · rest)
    | .option "gc-threshold" none, text :: rest => (o.withThreshold? text).bind (readFrom? · rest)
    | .plain, rest => (readCommand? s rest).map fun command => ⟨o.settings, command⟩
    | _, _ => none

/-- The invocation a list of arguments spells, if it spells one. -/
def read? (args : List String) : Option Invocation := readFrom? {} args

/-! ### Running -/

/-- The text of an integer result in hexadecimal. -/
def hexText (v : Value) : Effect String := do
  match ← ask (·.number? v) with
  | some (.fixed n) => return Literal.hex n
  | some (.big n) => return Literal.hex n
  | _ =>
    let found ← ask (·.typeName v)
    raiseError .typeError s!"cannot render '{found}' as hex"

/-- Evaluates `lhs op rhs` and gives the text of the result. -/
def arith (lhs op rhs : String) (hex : Bool) : Effect Value :=
  withHandles do
    let left ← parseNumber lhs
    let _ ← pin left
    let right ← parseNumber rhs
    let _ ← pin right
    let result ← Calls.top.callMethod left op [right]
    let _ ← pin result
    let text ← if hex then hexText result else Calls.top.display result
    newText text

/-- Fills a table with `value-i` under the number `i`. -/
def fill (dict : Value) : Nat → Nat → Effect Unit
  | 0, _ => pure ()
  | remaining + 1, i => do
    let v ← newText ("value-" ++ Digits.ofNat 10 i)
    let _ ← Dictionary.insert Calls.top.keys dict (.ofNat i) v
    fill dict remaining (i + 1)

/-- Counts an entry and goes on. -/
def countVisit : Effect Dictionary.Visit := do
  update fun m => { m with session := { m.session with visits := m.session.visits + 1 } }
  return .proceed

/-- Fills a table and gives a line on its shape. -/
def fillTable (count : Nat) (dump : Bool) : Effect Value := do
  let dict ← newTable .value 0
  setGlobal "table" dict
  fill dict count 0
  let _ ← Dictionary.forEach Calls.top.patience dict fun _ _ => countVisit
  let visited := Digits.ofNat 10 (← ask (·.session.visits))
  if dump then
    let _ ← Dictionary.dump dict
  let bins := Digits.ofNat 10 (← read Facet.table dict).bins.size
  let size := Digits.ofNat 10 (← Dictionary.size dict)
  let collections := Digits.ofNat 10 (← ask (·.heap.counts.collections))
  newText s!"{size} entries ({visited} visited) in {bins} bins, {collections} collections"

/-- The body of a command and the name of its frame. -/
def Command.body : Command → String × Effect Value
  | .arith lhs op rhs hex => ("<arith>", CommandLine.arith lhs op rhs hex)
  | .table count dump => ("<table>", fillTable count dump)

/-- What a finished run prints. -/
def output (m : Machine) (t : Termination Value) : Output :=
  match t with
  | .completed v =>
    let line := (m.heap.read? Facet.text v).getD v.debug
    { exitCode := t.exitCode, out := line ++ "\n" }
  | .unhandled className message _ =>
    { exitCode := t.exitCode, err := s!"{className}: {message}\n" }
  | .aborted fault => { exitCode := t.exitCode, err := s!"internal error: {fault.message}\n" }

/-- Runs an invocation. -/
def run (i : Invocation) : Output :=
  match i.settings.problem? with
  | some problem => { exitCode := 2, err := s!"invalid heap settings: {problem}\n" }
  | none =>
    let (name, body) := i.command.body
    match Effect.execute Calls.top.run name body (Machine.new i.settings) with
    | .ok t m => output m t
    | .error _ m => output m (.aborted .depthExceeded)

end ObjectMachine.CommandLine
