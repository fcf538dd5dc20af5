import MeteredVm.Interpreter

/-!
# MeteredVm.Executor

Nested calls.

A call only suspends its frame. The executor keeps the frames of a message on a call stack,
innermost first, and owns one substate of the world for each of them. `Executor.advance` makes
one move: the innermost frame executes an operation, a suspended frame's child is started or
refused, or an ended frame hands its outcome to the one that waits for it.

* `Executor.startChild` — refuses a call that is too deep or whose value cannot be paid.
  `Executor.startChild_eq`: no transfer fails after that.
* `Executor.finish` — keeps the changes of a frame only if it succeeded.
* `Executor.process` — runs a message with all the calls it makes. After an internal failure
  every substate still open is dropped.
-/

namespace MeteredVm

abbrev CodeCache := Std.ExtTreeMap Address Code

structure Outcome where
  status : Status
  /-- What the frame returned, or what it gave as it reverted. -/
  output : Bytes
  /-- The gas left; nothing after a halt. -/
  gas : Gas
  refund : Int
  /-- The logs of all calls that count; empty unless the message succeeded. -/
  logs : List Log
  haltReason : Option HaltReason
  deriving DecidableEq

structure CallTree where
  /-- The open frames, innermost first. -/
  frames : List Frame
  world : World
  codes : CodeCache := {}
  journal : Journal := []

inductive Progress where
  | running (tree : CallTree)
  | finished (outcome : Outcome) (tree : CallTree)
  | failed (failure : Fatal) (tree : CallTree)

structure Executor where
  vm : Interpreter
  rules : Rules

namespace CallTree

def record (t : CallTree) (e : Event) : CallTree := { t with journal := e :: t.journal }

/-- The code of an account, from the cache if it was called before. -/
def code (t : CallTree) (a : Address) : Code :=
  t.codes[a]?.getD (Code.ofBytes (t.world.code a) (t.world.version a))

def remember (t : CallTree) (a : Address) : CallTree :=
  if t.codes.contains a then t else { t with codes := t.codes.insert a (t.code a) }

/-- Hands `outcome` to the frame `parent`, the innermost one, which waited for it. -/
def deliver (t : CallTree) (parent : Frame) (rest : List Frame)
    (outcome : MessageRequest → ChildOutcome) : Progress :=
  match parent.pending with
  | none => .failed .unhandledSuspension { t with frames := parent :: rest }
  | some request =>
    let parent := { parent with pending := none }
    match Frame.resume request.outputOffset request.outputLength (outcome request) parent with
    | .ok _ parent => .running { t with frames := parent :: rest }
    | .error failure parent => .failed failure { t with frames := parent :: rest }

/-- Resumes `parent` as if its child had failed at once without using any gas. -/
def refuse (t : CallTree) (parent : Frame) (rest : List Frame) : Progress :=
  t.deliver parent rest fun request => .notStarted request.gas

end CallTree

/-- What becomes of the changes of a frame that ended in `status`. -/
def Status.merge : Status → Merge
  | succeeded => .commit
  | reverted => .revert
  | _ => .discard

namespace Frame

def gasBack (f : Frame) : Gas :=
  if f.status = .succeeded ∨ f.status = .reverted then f.gas else 0

def childOutcome (f : Frame) : ChildOutcome :=
  let success := decide (f.status = .succeeded)
  { success
    output := f.output
    gas := f.gasBack
    refund := if success then f.refund else 0
    logs := if success then f.logs else [] }

def outcome (f : Frame) : Outcome :=
  let child := f.childOutcome
  { status := f.status
    output := child.output
    gas := child.gas
    refund := child.refund
    logs := child.logs
    haltReason := f.haltReason }

def child (parent : Frame) (request : MessageRequest) (code : Code) (limits : Limits) : Frame :=
  Frame.start
    { code
      initialGas := request.gas
      depth := parent.depth + 1
      address := request.address
      caller := request.caller
      origin := parent.origin
      value := request.apparentValue
      input := request.input
      gasPrice := parent.gasPrice
      isStatic := request.isStatic
      block := parent.block }
    limits

end Frame

namespace Executor

/--
Starts the child that `parent` waits for, or refuses it. The value moves in the child's substate,
which is closed again if the transfer fails.
-/
def startChild (x : Executor) (t : CallTree) (parent : Frame) (rest : List Frame) : Progress :=
  match parent.pending with
  | none => .failed .unhandledSuspension t
  | some request =>
    if x.rules.callDepth.toNat ≤ parent.depth then
      (t.record (.tooDeep parent.depth)).refuse parent rest
    else if t.world.balance request.caller < request.transferValue then
      (t.record (.unaffordable request.caller request.transferValue)).refuse parent rest
    else
      let t := { t with world := t.world.enter }
      match t.world.transfer request.caller request.address request.transferValue with
      | none =>
        match t.world.leave .discard with
        | .error failure => .failed failure t
        | .ok world => { t with world := world }.refuse parent rest
      | some world =>
        let t := { t with world := world }.remember request.codeAddress
        let child := parent.child request (t.code request.codeAddress) x.rules.limits
        let t := t.record (.entered child.depth child.address child.gas)
        .running { t with frames := child :: parent :: rest }

/-- The transfer fails only where the caller was refused already, for want of the value. -/
theorem startChild_eq (x : Executor) (t : CallTree) (parent : Frame) (rest : List Frame) :
    x.startChild t parent rest =
      match parent.pending with
      | none => .failed .unhandledSuspension t
      | some request =>
        if x.rules.callDepth.toNat ≤ parent.depth then
          (t.record (.tooDeep parent.depth)).refuse parent rest
        else
          match t.world.enter.transfer request.caller request.address request.transferValue with
          | none =>
            (t.record (.unaffordable request.caller request.transferValue)).refuse parent rest
          | some world =>
            let t := { t with world := world }.remember request.codeAddress
            let child := parent.child request (t.code request.codeAddress) x.rules.limits
            let t := t.record (.entered child.depth child.address child.gas)
            .running { t with frames := child :: parent :: rest } := by
  unfold startChild
  cases parent.pending with
  | none => rfl
  | some request =>
    dsimp only
    split
    · rfl
    · have hpaid : t.world.enter.transfer request.caller request.address request.transferValue =
          none ↔ t.world.balance request.caller < request.transferValue := by
        rw [World.transfer_eq_none, World.balance_enter]
      cases htransfer : t.world.enter.transfer request.caller request.address
          request.transferValue with
      | none => rw [if_pos (hpaid.mp htransfer)]
      | some world =>
        rw [if_neg fun hshort => nomatch htransfer.symm.trans (hpaid.mpr hshort)]

/-- Closes the substate of an ended frame and hands its outcome on. -/
def finish (t : CallTree) (f : Frame) (rest : List Frame) : Progress :=
  match t.world.leave f.status.merge with
  | .error failure => .failed failure { t with frames := rest }
  | .ok world =>
    let t := { t with world := world, frames := rest }
    match rest with
    | [] => .finished f.outcome t
    | parent :: rest =>
      (t.record (.left f.depth f.status f.gasBack)).deliver parent rest fun _ => f.childOutcome

def stepFrame (x : Executor) (t : CallTree) (f : Frame) (rest : List Frame) : Progress :=
  match x.vm.step { frame := f, world := t.world, journal := t.journal } with
  | .ok _ m =>
    .running { t with frames := m.frame :: rest, world := m.world, journal := m.journal }
  | .error failure m =>
    .failed failure { t with frames := m.frame :: rest, world := m.world, journal := m.journal }

def advance (x : Executor) (t : CallTree) : Progress :=
  match t.frames with
  | [] => .failed .unhandledSuspension t
  | f :: rest =>
    match f.status with
    | .executing => x.stepFrame t f rest
    | .suspended => x.startChild t f rest
    | _ => finish t f rest

/-- Makes moves until the message has ended, at most a given number of them. -/
def run (x : Executor) : Nat → CallTree → Progress
  | 0, t => .running t
  | moves + 1, t =>
    match x.advance t with
    | .running t => run x moves t
    | ended => ended

/--
More moves than any amount of gas pays for: every child that is started or refused was asked for
by an operation that was paid, and every child is finished once.
-/
def moveBound : Nat := 0x4_0000_0000_0000_0000

/-- A message before its first operation, in a substate of its own. -/
def begin (frame : Frame) (world : World) (codes : CodeCache) (journal : Journal) : CallTree :=
  { frames := [frame], world := world.enter, codes, journal }

/-- Drops what an internal failure left open. -/
def cleanUp : Progress → Progress
  | .failed failure t =>
    let t := t.record (.discarded t.frames.length failure)
    .failed failure { t with world := t.world.abandon t.frames.length }
  | progress => progress

def process (x : Executor) (frame : Frame) (world : World) (codes : CodeCache)
    (journal : Journal) : Progress :=
  cleanUp (x.run moveBound (begin frame world codes journal))

end Executor

end MeteredVm
