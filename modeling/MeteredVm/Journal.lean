import MeteredVm.Frame

/-!
# MeteredVm.Journal

A record of what happened while code ran, the latest event first. Traces and log lines are read
off it afterwards (`MeteredVm.Journal.Trace`, `MeteredVm.Journal.Lines`); nothing in the machine
reads it.
-/

namespace MeteredVm

inductive Step where
  | proceed
  /-- The frame ended in an exceptional halt. -/
  | halt (reason : HaltReason)
  /-- The operation moved the frame to another state. -/
  | terminal (status : Status)
  deriving DecidableEq, Repr

/-- A frame that is about to execute an operation, after the checks and before the charge. -/
structure Snapshot where
  depth : Nat
  pc : Nat
  operation : String
  opcode : Opcode
  /-- `none` when the cost was not computed or is not an amount of gas. -/
  cost : Option Gas
  gas : Gas
  /-- The operand stack, top first. -/
  stack : List Word
  memorySize : Nat
  deriving DecidableEq

inductive Event where
  | checked (snapshot : Snapshot)
  | refused (depth pc : Nat) (operation : String) (reason : HaltReason)
  | broke (operation : String) (pc : Nat) (failure : Fatal)
  | stepped (step : Step)
  | requested (kind : CallKind) (codeAddress : Address) (gas : Gas)
  | entered (depth : Nat) (address : Address) (gas : Gas)
  | left (depth : Nat) (status : Status) (gas : Gas)
  /-- A nested call was refused because its parent is too deep. -/
  | tooDeep (depth : Nat)
  /-- A nested call was refused because its caller cannot pay the value. -/
  | unaffordable (caller : Address) (value : Word)
  /-- The open frames were dropped after an internal failure. -/
  | discarded (frames : Nat) (failure : Fatal)
  deriving DecidableEq

/-- The events of a run, the latest first. -/
abbrev Journal := List Event

end MeteredVm
