import MeteredVm.Fees
import MeteredVm.Frame

/-!
# MeteredVm.Rules

The rules that a network runs under: limits, a tariff, and which optional operations exist. The
four named sets are `Rules.frontier`, `Rules.istanbul`, `Rules.berlin` and `Rules.london`; each of
the last three only adds operations to the one before it.
-/

namespace MeteredVm

structure Rules where
  limits : Limits := {}
  /-- The greatest depth at which a frame may still be started by its parent. -/
  callDepth : UInt64 := 1024
  tariff : Tariff
  delegateCall : Bool
  revert : Bool
  returnData : Bool
  staticCall : Bool
  shifts : Bool
  chainId : Bool
  selfBalance : Bool
  baseFee : Bool
  subroutines : Bool
  deriving DecidableEq

namespace Rules

def frontier : Rules :=
  { tariff := .frontier
    delegateCall := false
    revert := false
    returnData := false
    staticCall := false
    shifts := false
    chainId := false
    selfBalance := false
    baseFee := false
    subroutines := false }

def istanbul : Rules :=
  { tariff := .istanbul
    delegateCall := true
    revert := true
    returnData := true
    staticCall := true
    shifts := true
    chainId := true
    selfBalance := true
    baseFee := false
    subroutines := false }

def berlin : Rules := { istanbul with tariff := .berlin, subroutines := true }

def london : Rules := { berlin with baseFee := true }

def ofName? (s : String) : Option Rules :=
  match s with
  | "frontier" => some frontier
  | "istanbul" => some istanbul
  | "berlin" => some berlin
  | "london" => some london
  | _ => none

def describe (c : Rules) : String :=
  Text.record "Config"
    [("max_stack_size", toString c.limits.stack),
     ("max_return_stack_size", toString c.limits.returnStack),
     ("memory_limit", toString c.limits.memory),
     ("call_stack_limit", toString c.callDepth),
     ("gas_schedule", c.tariff.name),
     ("eip7_delegate_call", Text.bool c.delegateCall),
     ("eip140_revert", Text.bool c.revert),
     ("eip211_return_data", Text.bool c.returnData),
     ("eip214_static_call", Text.bool c.staticCall),
     ("eip145_bitwise_shifting", Text.bool c.shifts),
     ("eip1344_chain_id", Text.bool c.chainId),
     ("eip1884_self_balance", Text.bool c.selfBalance),
     ("eip3198_base_fee", Text.bool c.baseFee),
     ("eip2315_subroutines", Text.bool c.subroutines)]

end Rules

end MeteredVm
