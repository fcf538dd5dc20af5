/-!
# MeteredVm.Exit

The ways in which execution stops early.

* `HaltReason` — the interpreter ends a frame because of what its code asked for.
* `Fatal` — an internal rule was broken; no code can cause one under a well-formed
  instruction set.
* `ExitError` — either of them, as the result of running a frame.

Each has a name, used in diagnostics, and a message.
-/

namespace MeteredVm

inductive HaltReason where
  /-- The next operation costs more gas than is left. -/
  | outOfGas
  /-- The stack holds fewer items than the operation consumes. -/
  | stackUnderflow
  /-- The operation would grow the stack over its limit. -/
  | stackOverflow
  /-- The jump target is not a landing mark for this kind of jump. -/
  | badJumpDestination
  /-- The byte is not an operation of the code's version. -/
  | badInstruction
  /-- A copy reads past the end of the return data. -/
  | returnDataOutOfBounds
  /-- A write was attempted in a static frame. -/
  | illegalStateChange
  /-- Memory would grow past its limit. -/
  | memoryOutOfBounds
  /-- A subroutine return with nowhere to return to. -/
  | returnStackUnderflow
  /-- A subroutine call with a full return stack. -/
  | returnStackOverflow
  /-- The cost of the operation is not an amount of gas. -/
  | costOverflow
  deriving DecidableEq, Repr

namespace HaltReason

def all : List HaltReason :=
  [outOfGas, stackUnderflow, stackOverflow, badJumpDestination, badInstruction,
    returnDataOutOfBounds, illegalStateChange, memoryOutOfBounds, returnStackUnderflow,
    returnStackOverflow, costOverflow]

def name : HaltReason → String
  | outOfGas => "InsufficientGas"
  | stackUnderflow => "InsufficientStackItems"
  | stackOverflow => "TooManyStackItems"
  | badJumpDestination => "InvalidJumpDestination"
  | badInstruction => "InvalidOperation"
  | returnDataOutOfBounds => "InvalidReturnDataBufferAccess"
  | illegalStateChange => "IllegalStateChange"
  | memoryOutOfBounds => "OutOfBounds"
  | returnStackUnderflow => "InvalidRetsub"
  | returnStackOverflow => "TooManyReturnStackItems"
  | costOverflow => "GasCostOverflow"

def message : HaltReason → String
  | outOfGas => "Out of gas"
  | stackUnderflow => "Stack underflow"
  | stackOverflow => "Stack overflow"
  | badJumpDestination => "Bad jump destination"
  | badInstruction => "Bad instruction"
  | returnDataOutOfBounds => "Out of bounds"
  | illegalStateChange => "Illegal state change"
  | memoryOutOfBounds => "Out of bounds"
  | returnStackUnderflow => "Invalid retsub"
  | returnStackOverflow => "Return stack overflow"
  | costOverflow => "Gas cost overflow"

def ofName? (s : String) : Option HaltReason := all.find? (·.name == s)

end HaltReason

inductive Fatal where
  /-- An operation was to be charged without a known cost. -/
  | costUnavailable
  /-- An operation met a halt that its checks should have ruled out. -/
  | unchecked (reason : HaltReason)
  /-- A frame that is not executing was asked to run. -/
  | notExecuting
  /-- A suspended frame without a pending request, or a frame resumed that was not suspended. -/
  | unhandledSuspension
  /-- A substate was closed that had not been opened. -/
  | unevenSubstate
  /-- Gas handed back to a frame does not fit. -/
  | gasAccountingOverflow
  /-- A frame was to leave an exceptional halt, or to enter one without a reason. -/
  | invalidTransition
  deriving DecidableEq, Repr

namespace Fatal

/-- The failures in the order in which they are listed, the unchecked halts last. -/
def all : List Fatal :=
  [costUnavailable, notExecuting, unhandledSuspension, unevenSubstate, gasAccountingOverflow,
    invalidTransition] ++ HaltReason.all.map unchecked

/-- The name of a failure; an unchecked halt shows its reason. -/
def name : Fatal → String
  | costUnavailable => "GasCostUnavailable"
  | unchecked reason => "UncheckedHalt(" ++ reason.name ++ ")"
  | notExecuting => "NotExecuting"
  | unhandledSuspension => "UnhandledSuspension"
  | unevenSubstate => "UnevenSubstate"
  | gasAccountingOverflow => "GasAccountingOverflow"
  | invalidTransition => "InvalidStateTransition"

def ofName? (s : String) : Option Fatal := all.find? (·.name == s)

end Fatal

inductive ExitError where
  /-- The frame ended in an exceptional halt. -/
  | exception (reason : HaltReason)
  /-- The run was broken off by an internal failure. -/
  | fatal (failure : Fatal)
  deriving DecidableEq, Repr

namespace ExitError

def name : ExitError → String
  | exception reason => "Exception(" ++ reason.name ++ ")"
  | fatal failure => "Fatal(" ++ failure.name ++ ")"

def message : ExitError → String
  | exception reason => "exceptional halt: " ++ reason.message
  | fatal failure => "fatal: " ++ failure.name

def isFatal : ExitError → Bool
  | exception _ => false
  | fatal _ => true

def haltReason? : ExitError → Option HaltReason
  | exception reason => some reason
  | fatal _ => none

def resultName (e : ExitError) : String := "Err(" ++ e.name ++ ")"

end ExitError

end MeteredVm
