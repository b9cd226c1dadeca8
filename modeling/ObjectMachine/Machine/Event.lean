import ObjectMachine.Fault

/-! What the machine records while it runs.  Events are kept as data; their wording and their
severity are said here. -/

namespace ObjectMachine

/-- Severities, the gravest first. -/
inductive Severity where
  | error | warn | info | debug | trace
  deriving DecidableEq

namespace Severity

def rank : Severity → Nat
  | .error => 0
  | .warn => 1
  | .info => 2
  | .debug => 3
  | .trace => 4

def name : Severity → String
  | .error => "ERROR"
  | .warn => "WARN"
  | .info => "INFO"
  | .debug => "DEBUG"
  | .trace => "TRACE"

end Severity

/-- A recorded event. -/
inductive Event where
  | staleSkipped (v : Value)
  | collected (number marked freed live : Nat)
  | bootstrapped (classes live : Nat)
  | rehashed (table : Value) (old new : Nat)
  | chainChanged
  | discarded (context className message : String)
  | chained (replacement earlier : Value)
  | dumped (text : String)
  | unhandled (className message : String) (trace : List String)
  | aborted (fault : Fault)

namespace Event

def severity : Event → Severity
  | .staleSkipped _ => .warn
  | .collected _ _ _ _ => .debug
  | .bootstrapped _ _ => .debug
  | .rehashed _ _ _ => .trace
  | .chainChanged => .warn
  | .discarded _ _ _ => .warn
  | .chained _ _ => .debug
  | .dumped _ => .debug
  | .unhandled _ _ _ => .error
  | .aborted _ => .error

/-- The wording of an event. -/
def message : Event → String
  | .staleSkipped v => s!"collector skipped stale reference {v.debug}"
  | .collected number marked freed live =>
    s!"gc #{Digits.ofNat 10 number}: marked {Digits.ofNat 10 marked}, "
      ++ s!"freed {Digits.ofNat 10 freed}, live {Digits.ofNat 10 live}"
  | .bootstrapped classes live =>
    s!"bootstrapped runtime: {Digits.ofNat 10 classes} classes, "
      ++ s!"{Digits.ofNat 10 live} live objects"
  | .rehashed table old new =>
    s!"rehashed table {table.debug}: {Digits.ofNat 10 old} -> {Digits.ofNat 10 new} bins"
  | .chainChanged => "table chain changed under a lookup; treating key as absent"
  | .discarded context className message => s!"{context}: discarding {className}: {message}"
  | .chained replacement earlier =>
    s!"cleanup raised {replacement.debug}; chaining {earlier.debug} as its context"
  | .dumped text => text
  | .unhandled className message trace =>
    "Traceback (most recent call last):" ++ String.join (trace.reverse.map ("\n  in " ++ ·))
      ++ s!"\n{className}: {message}"
  | .aborted fault => s!"aborting: {fault.message}"

end Event

/-- The events of at least the given severity. -/
def eventsUpTo (severity : Severity) (events : List Event) : List Event :=
  events.filter (·.severity.rank ≤ severity.rank)

end ObjectMachine
