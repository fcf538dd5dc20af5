import MeteredVm.Journal

/-!
# MeteredVm.Journal.Trace

Two accounts of a run, read off its journal.

* `Journal.trace` — an entry for each operation checked, with the reason if its step was a halt.
* `Journal.signals` — each operation checked, and each halt that a check decided.
-/

namespace MeteredVm

/-- An operation checked, and the reason if its step ended in a halt. -/
structure TraceEntry where
  snapshot : Snapshot
  haltReason : Option HaltReason := none
  deriving DecidableEq

/-- What a listener to the interpreter hears. -/
inductive Signal where
  | step (snapshot : Snapshot)
  | halt (depth pc : Nat) (reason : HaltReason)
  deriving DecidableEq

namespace Journal

/-- The trace so far, latest entry first, after one more event. -/
def extendTrace (entries : List TraceEntry) : Event → List TraceEntry
  | .checked s => { snapshot := s } :: entries
  | .stepped (.halt reason) =>
    match entries with
    | [] => []
    | latest :: earlier => { latest with haltReason := some reason } :: earlier
  | _ => entries

def trace (j : Journal) : List TraceEntry := (j.reverse.foldl extendTrace []).reverse

def signal? : Event → Option Signal
  | .checked s => some (.step s)
  | .refused depth pc _ reason => some (.halt depth pc reason)
  | _ => none

def signals (j : Journal) : List Signal := j.reverse.filterMap signal?

end Journal

end MeteredVm
