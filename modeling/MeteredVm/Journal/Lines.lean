import MeteredVm.Journal

/-!
# MeteredVm.Journal.Lines

The log lines of a run, read off its journal. Single steps and requests are of level `trace`,
everything else is of level `debug`, the more severe one.
-/

namespace MeteredVm

inductive Level where
  | debug
  | trace
  deriving DecidableEq, Repr

namespace Level

def name : Level → String
  | debug => "DEBUG"
  | trace => "TRACE"

/-- Whether a line of level `line` is shown when lines down to `shown` are. -/
def shows (shown line : Level) : Bool := shown == .trace || line == .debug

end Level

def Gas.describe (g : Gas) : String := Hex.number g.toNat

namespace Journal

/-- The text of a cost that may be missing. -/
def describeCost : Option Gas → String
  | some g => "Some(" ++ toString g.toNat ++ ")"
  | none => "None"

/-- The items of a stack in decimal, bottom first. -/
def describeStack (items : List Word) : String :=
  "[" ++ String.intercalate ", " (items.reverse.map fun w => toString w.toNat) ++ "]"

def describeSnapshot (s : Snapshot) : String :=
  "depth " ++ toString s.depth ++ " pc " ++ toString s.pc ++ " " ++ s.operation
    ++ " cost " ++ describeCost s.cost ++ " gas " ++ s.gas.describe
    ++ " stack " ++ describeStack s.stack

/-- The line of an event, if it has one. -/
def line? : Event → Option (Level × String)
  | .checked s => some (.trace, describeSnapshot s)
  | .refused depth pc operation reason =>
    some (.debug, "exceptional halt at depth " ++ toString depth ++ " pc " ++ toString pc
      ++ " (" ++ operation ++ "): " ++ reason.message)
  | .broke operation pc failure =>
    some (.debug, operation ++ " failed at pc " ++ toString pc ++ ": " ++ failure.name)
  | .stepped _ => none
  | .requested kind codeAddress gas =>
    some (.trace, kind.name ++ " to " ++ Address.describe codeAddress
      ++ " with " ++ gas.describe ++ " gas")
  | .entered depth address gas =>
    some (.debug, "entering depth " ++ toString depth ++ " at " ++ Address.describe address
      ++ " with " ++ gas.describe ++ " gas")
  | .left depth status gas =>
    some (.debug, "leaving depth " ++ toString depth ++ " with " ++ status.name
      ++ ", " ++ gas.describe ++ " gas left")
  | .tooDeep depth => some (.debug, "call depth limit reached at depth " ++ toString depth)
  | .unaffordable caller value =>
    some (.debug, Address.describe caller ++ " cannot afford " ++ toString value.toNat)
  | .discarded frames failure =>
    some (.debug, "discarding " ++ toString frames ++ " open frames after " ++ failure.name)

/-- The lines of a run in order, down to the level `shown`. -/
def lines (j : Journal) (shown : Level) : List (Level × String) :=
  (j.reverse.filterMap line?).filter fun (level, _) => shown.shows level

end Journal

end MeteredVm
