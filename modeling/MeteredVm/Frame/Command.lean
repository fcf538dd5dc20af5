import MeteredVm.Frame

/-!
# MeteredVm.Frame.Command

The ways to change a frame from outside, as data.

* `Command` — one change with its arguments.
* `Command.perform` — carries it out and answers with a `Reply`, or a `Fault` that says in whose
  terms it failed. A failed command may have changed the frame.
-/

namespace MeteredVm

inductive Fault where
  | halt (reason : HaltReason)
  | fatal (failure : Fatal)
  /-- A sum or difference is not an amount of gas. -/
  | gasOverflow
  deriving DecidableEq

inductive Reply where
  | done
  | word (w : Word)
  | size (n : Nat)
  | number (n : Int)
  | bytes (b : Bytes)
  | logs (l : List Log)
  | request (r : Option MessageRequest)
  deriving DecidableEq

/-- Stack items are counted from the top, which is item 0. -/
inductive Command where
  | push (w : Word)
  | pop
  | peek (n : Nat)
  | set (n : Nat) (w : Word)
  | dup (n : Nat)
  | swap (n : Nat)
  | pushReturn (pc : Nat)
  | popReturn
  | expand (offset len : Nat)
  | load (offset len : Nat)
  | loadWord (offset : Nat)
  | store (offset : Nat) (bytes : Bytes)
  /-- Stores exactly `len` bytes, zeros standing in for missing ones. -/
  | storeFilled (offset : Nat) (bytes : Bytes) (len : Nat)
  | copy (offset : Nat) (data : Bytes) (dataOffset : Word) (len : Nat)
  | setPc (pc : Nat)
  | charge (amount : Gas)
  | credit (amount : Gas)
  | setCost (cost : Option Gas)
  | setStatus (status : Status)
  | halt (reason : HaltReason)
  | setOutput (bytes : Bytes)
  | takeOutput
  | setReturnData (bytes : Bytes)
  | addLog (log : Log)
  | takeLogs
  | addRefund (amount : Int)
  | suspend (request : MessageRequest)
  | takePending
  | resume (offset len : Nat) (outcome : ChildOutcome)
  | fail (failure : Fatal)

namespace Command

abbrev Effect := EStateM Fault Frame Reply

def update (change : Frame → Frame) : Effect := fun f => .ok .done (change f)

/-- Answers with a part of the frame and then changes it. -/
def take (part : Frame → Reply) (change : Frame → Frame) : Effect := fun f =>
  .ok (part f) (change f)

def updateStack (change : Stack → Except HaltReason Stack) : Effect := fun f =>
  match change f.stack with
  | .ok stack => .ok .done { f with stack := stack }
  | .error reason => .error (.halt reason) f

def performPop : Effect := fun f =>
  match f.stack.pop with
  | .ok (w, stack) => .ok (.word w) { f with stack := stack }
  | .error reason => .error (.halt reason) f

def performPeek (n : Nat) : Effect := fun f =>
  match f.stack.peek n with
  | .ok w => .ok (.word w) f
  | .error reason => .error (.halt reason) f

def performPushReturn (pc : Nat) : Effect := fun f =>
  match f.returnStack.push pc with
  | .ok stack => .ok .done { f with returnStack := stack }
  | .error reason => .error (.halt reason) f

def performPopReturn : Effect := fun f =>
  match f.returnStack.pop with
  | .ok (pc, stack) => .ok (.size pc) { f with returnStack := stack }
  | .error reason => .error (.halt reason) f

/-- Changes the gas left, if the result is an amount of gas. -/
def updateGas (change : Frame → Option Frame) : Effect := fun f =>
  match change f with
  | some f => .ok .done f
  | none => .error .gasOverflow f

def performSetStatus (status : Status) : Effect := fun f =>
  match f.setStatus status with
  | .ok f => .ok .done f
  | .error failure => .error (.fatal failure) f

def performResume (offset len : Nat) (outcome : ChildOutcome) : Effect := fun f =>
  match Frame.resume offset len outcome f with
  | .ok _ f => .ok .done f
  | .error failure f => .error (.fatal failure) f

def perform : Command → Effect
  | push w => updateStack (·.push w)
  | pop => performPop
  | peek n => performPeek n
  | set n w => updateStack (·.set n w)
  | dup n => updateStack (·.dup n)
  | swap n => updateStack (·.swap n)
  | pushReturn pc => performPushReturn pc
  | popReturn => performPopReturn
  | expand offset len => update fun f => { f with memory := f.memory.expand offset len }
  | load offset len =>
    take (fun f => .bytes (f.memory.read offset len))
      fun f => { f with memory := f.memory.expand offset len }
  | loadWord offset =>
    take (fun f => .word (f.memory.readWord offset))
      fun f => { f with memory := f.memory.expand offset 32 }
  | store offset bytes => update fun f => { f with memory := f.memory.write offset bytes }
  | storeFilled offset bytes len =>
    update fun f => { f with memory := f.memory.writeFilled offset bytes len }
  | copy offset data dataOffset len =>
    update fun f => { f with memory := f.memory.copy offset data dataOffset len }
  | setPc pc => update fun f => { f with pc := pc }
  | charge amount => updateGas (·.charge amount)
  | credit amount => updateGas (·.credit amount)
  | setCost cost => update fun f => { f with cost := cost }
  | setStatus status => performSetStatus status
  | halt reason => update (·.halt reason)
  | setOutput bytes => update fun f => { f with output := bytes }
  | takeOutput => take (.bytes ·.output) fun f => { f with output := #[] }
  | setReturnData bytes => update fun f => { f with returnData := bytes }
  | addLog log => update (·.addLog log)
  | takeLogs => take (.logs ·.logs) fun f => { f with logs := [] }
  | addRefund amount =>
    take (fun f => .number (f.addRefund amount).refund) (·.addRefund amount)
  | suspend request => update (·.suspend request)
  | takePending => take (.request ·.pending) fun f => { f with pending := none }
  | resume offset len outcome => performResume offset len outcome
  | fail failure => fun f => .error (.fatal failure) f

/-- Carries out commands in order up to the first that fails. -/
def performAll : List Command → EStateM Fault Frame Unit
  | [] => pure ()
  | c :: cs => do
    let _ ← c.perform
    performAll cs

end Command

end MeteredVm
