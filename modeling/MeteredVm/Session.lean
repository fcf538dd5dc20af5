import MeteredVm.Executor

/-!
# MeteredVm.Session

Messages processed one after the other over one world, between other changes of that world.

The code cache lives as long as the session, or until it is dropped. `Session.settle` writes the
changes of the innermost substate to the ledger and starts over on it.
-/

namespace MeteredVm

structure Session where
  world : World
  codes : CodeCache := {}
  journal : Journal := []

inductive Session.Change where
  | process (frame : Frame)
  | forget
  | settle
  | setStorage (a : Address) (key value : Word)
  | transfer (source target : Address) (value : Word)
  | enter
  | leave (merge : Merge)

inductive Session.Answer where
  | done
  | flag (b : Bool)
  | changes (c : Changes)
  | outcome (o : Outcome)
  | failure (f : Fatal)
  /-- The message did not end within the bound on moves. -/
  | outOfMoves

namespace Session

def after (s : Session) (t : CallTree) : Session :=
  { s with world := t.world, codes := t.codes, journal := t.journal }

def process (x : Executor) (frame : Frame) (s : Session) : Answer × Session :=
  match x.process frame s.world s.codes s.journal with
  | .finished outcome t => (.outcome outcome, s.after t)
  | .failed failure t => (.failure failure, s.after t)
  | .running t => (.outOfMoves, s.after t)

def perform (x : Executor) (s : Session) : Change → Answer × Session
  | .process frame => s.process x frame
  | .forget => (.done, { s with codes := {} })
  | .settle => (.changes s.world.changes, { s with world := s.world.settle })
  | .setStorage a key value => (.done, { s with world := s.world.setStorage a key value })
  | .transfer source target value =>
    match s.world.transfer source target value with
    | some world => (.flag true, { s with world := world })
    | none => (.flag false, s)
  | .enter => (.done, { s with world := s.world.enter })
  | .leave merge =>
    match s.world.leave merge with
    | .ok world => (.done, { s with world := world })
    | .error failure => (.failure failure, s)

end Session

end MeteredVm
