import MeteredVm.Code
import MeteredVm.Gas
import MeteredVm.Text.Record

/-!
# MeteredVm.Message

What passes between a frame and its surroundings.

* `Message` — what a frame is told about the call it runs.
* `MessageRequest` — the nested call that a suspended frame waits for.
* `ChildOutcome` — what a finished nested call hands back.
* `Log` — an entry that a frame leaves in the log of the transaction.
-/

namespace MeteredVm

structure BlockValues where
  coinbase : Address := 0
  timestamp : Word := 0
  number : Word := 0
  difficulty : Word := 0
  gasLimit : Word := 0
  baseFee : Word := 0
  chainId : Word := 0
  deriving DecidableEq

/-- The text of an account name: always forty digits. -/
def Address.describe (a : Address) : String := "0x" ++ Hex.padded 40 a.toNat

/-- The diagnostic text of block values; words are in decimal. -/
def BlockValues.describe (b : BlockValues) : String :=
  Text.record "BlockValues"
    [("coinbase", Address.describe b.coinbase),
     ("timestamp", toString b.timestamp.toNat),
     ("number", toString b.number.toNat),
     ("difficulty", toString b.difficulty.toNat),
     ("gas_limit", toString b.gasLimit.toNat),
     ("base_fee", toString b.baseFee.toNat),
     ("chain_id", toString b.chainId.toNat)]

structure Log where
  address : Address
  topics : List Word
  data : Bytes
  deriving DecidableEq

inductive CallKind where
  | call
  | delegateCall
  | staticCall
  deriving DecidableEq, Repr

namespace CallKind

def all : List CallKind := [call, delegateCall, staticCall]

def name : CallKind → String
  | call => "Call"
  | delegateCall => "DelegateCall"
  | staticCall => "StaticCall"

def ofName? (s : String) : Option CallKind := all.find? (·.name == s)

end CallKind

/-- A nested call, as the calling operation describes it. -/
structure MessageRequest where
  kind : CallKind := .call
  /-- The gas handed to the child, the stipend included. -/
  gas : Gas := 0
  /-- The account whose storage and balance the child runs against. -/
  address : Address := 0
  /-- The account whose code the child runs. -/
  codeAddress : Address := 0
  caller : Address := 0
  /-- The value moved from `caller` to `address`. -/
  transferValue : Word := 0
  /-- The value that the child is told. -/
  apparentValue : Word := 0
  input : Bytes := #[]
  isStatic : Bool := false
  /-- The start of the memory window for the child's output. -/
  outputOffset : Nat := 0
  outputLength : Nat := 0
  deriving DecidableEq

/-- What a finished nested call hands back. -/
structure ChildOutcome where
  success : Bool
  output : Bytes := #[]
  gas : Gas := 0
  refund : Int := 0
  logs : List Log := []
  deriving DecidableEq

/-- The outcome of a call that never started: all gas comes back. -/
def ChildOutcome.notStarted (gas : Gas) : ChildOutcome := { success := false, gas := gas }

/-- What a frame is told about the call it runs. -/
structure Message where
  code : Code := Code.empty
  initialGas : Gas := 0
  /-- Zero for the outermost call. -/
  depth : Nat := 0
  address : Address := 0
  caller : Address := 0
  origin : Address := 0
  value : Word := 0
  input : Bytes := #[]
  gasPrice : Word := 0
  isStatic : Bool := false
  block : BlockValues := {}

end MeteredVm
