import MeteredVm.Gas
import MeteredVm.Text.Record

/-!
# MeteredVm.Fees

The prices of operations.

* `FeeSchedule` — the prices and rules that differ between tariffs.
* `Fees.memory` and `Fees.expansion` — what active memory costs, and what its growth costs.
* `FeeSchedule.exp`, `Fees.copy`, `Fees.keccak`, `Fees.log`, `FeeSchedule.call` — prices that
  depend on operands.
* `FeeSchedule.store` and `FeeSchedule.storeRefund` — storage writes; under net metering a write
  is priced by what the cell held before the transaction, holds now and will hold.

A price is `none` when its exact value is not an amount of gas.
-/

namespace MeteredVm

structure FeeSchedule where
  load : Gas
  balance : Gas
  callBase : Gas
  exponentByte : Gas
  /-- Storage writes are metered net of what the transaction did before. -/
  netMetering : Bool
  /-- A child gets at most all but one 64th of the gas left. -/
  allButOne64th : Bool
  /-- Only an account that does not exist is new, and it is charged for without value too. -/
  emptyExists : Bool
  deriving DecidableEq

namespace FeeSchedule

def frontier : FeeSchedule :=
  { load := 50
    balance := 20
    callBase := 40
    exponentByte := 10
    netMetering := false
    allButOne64th := false
    emptyExists := true }

/-- The repriced schedule, with net metering and the 64th rule. -/
def istanbul : FeeSchedule :=
  { load := 800
    balance := 700
    callBase := 700
    exponentByte := 50
    netMetering := true
    allButOne64th := true
    emptyExists := false }

def describe (s : FeeSchedule) : String :=
  Text.record "FeeSchedule"
    [("gas_sload", toString s.load.toNat),
     ("gas_balance", toString s.balance.toNat),
     ("gas_call", toString s.callBase.toNat),
     ("gas_expbyte", toString s.exponentByte.toNat),
     ("sstore_net_metering", Text.bool s.netMetering),
     ("call_all_but_one_64th", Text.bool s.allButOne64th),
     ("empty_considered_exists", Text.bool s.emptyExists)]

end FeeSchedule

/-- The named tariffs; the third prices like the second. -/
inductive Tariff where
  | frontier
  | istanbul
  | berlin
  deriving DecidableEq, Repr

namespace Tariff

def all : List Tariff := [frontier, istanbul, berlin]

def name : Tariff → String
  | frontier => "Frontier"
  | istanbul => "Istanbul"
  | berlin => "Berlin"

def ofName? (s : String) : Option Tariff := all.find? (·.name == s)

def fees : Tariff → FeeSchedule
  | frontier => FeeSchedule.frontier
  | istanbul => FeeSchedule.istanbul
  | berlin => FeeSchedule.istanbul

def describe (t : Tariff) : String :=
  Text.record (t.name ++ "GasCalculator") [("schedule", t.fees.describe)]

end Tariff

namespace Fees

def zeroTier : Gas := 0
def baseTier : Gas := 2
def veryLowTier : Gas := 3
def lowTier : Gas := 5
def midTier : Gas := 8
def highTier : Gas := 10
def jumpDest : Gas := 1
def blockHash : Gas := 20
def selfBalance : Gas := 5
def beginSub : Gas := 1
def jumpSub : Gas := 10
def returnSub : Gas := 5
def callValue : Gas := 9000
def newAccount : Gas := 25000
/-- Free gas for a child that receives value. -/
def stipend : Gas := 2300
def storeFresh : Gas := 20000
def storeReset : Gas := 5000
/-- A net-metered storage write is refused while this much gas or less is left. -/
def storeSentry : Gas := 2300
/-- The refund for clearing a cell. -/
def clearRefund : Int := 15000

/-- The price of `words` active words: `3 * words + words * words / 512`. -/
def memory (words : Nat) : Option Gas := do
  let linear ← Gas.ofNat? (3 * words)
  let square ← Gas.ofNat? (words * words)
  Gas.ofNat? (linear.toNat + square.toNat / 512)

/--
The price of growing memory from `active` words until it covers the range. An empty range costs
nothing, wherever it lies.
-/
def expansion (active : Nat) (offset len : Word) : Option Gas :=
  if len = 0 then some 0
  else do
    let stop ← Word.add? offset len
    let words ← Gas.ofNat? stop.wordCount
    if words.toNat ≤ active then some 0
    else
      let grown ← memory words.toNat
      let paid ← memory active
      grown.sub? paid

/-- `perWord` for each word that holds a part of `len` bytes. -/
def perWord (perWord : Gas) (len : Word) : Option Gas := do
  perWord.mul? (← Gas.ofNat? len.wordCount)

def memoryAccess (active : Nat) (offset len : Word) : Option Gas := do
  veryLowTier.add? (← expansion active offset len)

def copy (active : Nat) (offset len : Word) : Option Gas := do
  let cost ← veryLowTier.add? (← perWord 3 len)
  cost.add? (← expansion active offset len)

def keccak (active : Nat) (offset len : Word) : Option Gas := do
  let cost ← Gas.add? 30 (← perWord 6 len)
  cost.add? (← expansion active offset len)

def log (active : Nat) (offset len : Word) (topics : Nat) : Option Gas := do
  let data ← Gas.mul? 8 (← Gas.ofWord? len)
  let cost ← Gas.add? 375 data
  let cost ← cost.add? (← Gas.ofNat? (375 * topics))
  cost.add? (← expansion active offset len)

end Fees

namespace FeeSchedule

/-- Raising to the power `power`, by the number of its bytes. -/
def exp (s : FeeSchedule) (power : Word) : Option Gas := do
  (← s.exponentByte.mul? (← Gas.ofNat? power.byteLength)).add? 10

/-- Writing `new` over `current`, where the ledger holds `settled`. -/
def store (s : FeeSchedule) (settled current new : Word) : Gas :=
  if s.netMetering then
    if new = current then s.load
    else if settled = current then
      if settled = 0 then Fees.storeFresh else Fees.storeReset
    else s.load
  else if new ≠ 0 ∧ current = 0 then Fees.storeFresh
  else Fees.storeReset

/-- The refund for that write; negative when an earlier refund is taken back. -/
def storeRefund (s : FeeSchedule) (settled current new : Word) : Int :=
  if s.netMetering then
    if current = new then 0
    else if settled = current then
      if settled ≠ 0 ∧ new = 0 then Fees.clearRefund else 0
    else
      let clearing : Int :=
        if settled = 0 then 0
        else if current = 0 then -Fees.clearRefund
        else if new = 0 then Fees.clearRefund
        else 0
      let restoring : Int :=
        if settled ≠ new then 0
        else if settled = 0 then (Fees.storeFresh.toNat : Int) - s.load.toNat
        else (Fees.storeReset.toNat : Int) - s.load.toNat
      clearing + restoring
  else if current ≠ 0 ∧ new = 0 then Fees.clearRefund
  else 0

/-- The gas below or at which a storage write is refused. -/
def storeSentry? (s : FeeSchedule) : Option Gas :=
  if s.netMetering then some Fees.storeSentry else none

/-- What a child gets of `requested` when the caller has `remaining` gas after paying the call. -/
def childGas (s : FeeSchedule) (remaining : Gas) (requested : Word) : Option Gas :=
  if s.allButOne64th then
    let cap := remaining.allButOne64th
    if cap.toNat < requested.toNat then some cap else Gas.ofWord? requested
  else Gas.ofWord? requested

/-- A nested call without the gas for the child. -/
def call (s : FeeSchedule) (memoryCost : Gas) (transfersValue recipientIsNew : Bool) :
    Option Gas := do
  let cost ← s.callBase.add? memoryCost
  let cost ← if transfersValue then cost.add? Fees.callValue else some cost
  if recipientIsNew && (transfersValue || s.emptyExists) then cost.add? Fees.newAccount
  else some cost

end FeeSchedule

end MeteredVm
