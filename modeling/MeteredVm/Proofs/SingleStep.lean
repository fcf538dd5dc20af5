import Mathlib.Algebra.Group.Nat.Defs
import MeteredVm.Proofs.Decoding
import MeteredVm.Proofs.Tracing

/-!
# MeteredVm.Proofs.SingleStep

The contract of a single step.

The checks of an operation ask in a fixed order, and the first refusal wins. Two of them compare
machine integers; for a stack limit below `2 ^ 63` they say what exact integers say. A refused
operation leaves everything as it was, except that the frame is halted; an admitted one takes
exactly its price, and moves the frame on or ends its turn in place.

* `Operation.refusal?`: the first refusal, in exact integers. `Operation.halt_check`: it is the
  verdict of the checks.
* `Frame.performed_goes_on_or_ends`: where an operation leaves the frame.
* `Interpreter.step_halts_iff`: when a step halts for a given reason;
  `Interpreter.step_halts_own`: when it does for one that only its own instruction gives.
* `Interpreter.step_refused_or_charged`: the contract.
-/

namespace MeteredVm

namespace Operation

/-- The first reason to refuse an operation, if there is one. -/
def refusal? (op : Operation) (f : Frame) (w : World) : Option HaltReason :=
  if (f.stack.limit.toNat : Int) < f.stack.height + op.produced - op.consumed then
    some .stackOverflow
  else if f.stack.height < op.consumed then some .stackUnderflow
  else
    match op.cost f w with
    | none => some .costOverflow
    | some cost => if f.gas < cost then some .outOfGas else op.haltCondition f w

section

variable {op : Operation} {f : Frame} {w : World}

theorem stackHalt_eq {s : Signature} {stack : Stack} (hc : s.consumed ≤ 17) (hp : s.produced ≤ 17)
    (hl : stack.limit.toNat < 2 ^ 63) :
    stackHalt s stack =
      if (stack.limit.toNat : Int) < stack.height + s.produced - s.consumed then
        some .stackOverflow
      else if stack.height < s.consumed then some .stackUnderflow
      else none := by
  have hlimit : stack.limit.toInt64.toInt = stack.limit.toNat := by
    rw [toInt_limit]
    exact if_pos hl
  rw [stackHalt_eq_signed hc hp, hlimit]

theorem halt_check (hc : op.consumed ≤ 17) (hp : op.produced ≤ 17)
    (hl : f.stack.limit.toNat < 2 ^ 63) : (op.check f w).halt = op.refusal? f w := by
  rw [check, stackHalt_eq hc hp hl, refusal?]
  by_cases hover : (f.stack.limit.toNat : Int) < f.stack.height + op.produced - op.consumed
  · rw [if_pos hover, if_pos hover]
  · rw [if_neg hover, if_neg hover]
    by_cases hunder : f.stack.height < op.consumed
    · rw [if_pos hunder, if_pos hunder]
    · rw [if_neg hunder, if_neg hunder]
      cases op.cost f w with
      | none => rfl
      | some cost =>
        dsimp only [gasHalt]
        by_cases hgas : f.gas < cost
        · rw [if_pos hgas, if_pos hgas]
        · rw [if_neg hgas, if_neg hgas]

theorem gasHalt_eq_none {cost : Option Gas} {gas : Gas} :
    gasHalt cost gas = none ↔ ∃ g, cost = some g ∧ g ≤ gas := by
  cases cost with
  | none => simp [gasHalt]
  | some g =>
    have hle : ¬ gas < g ↔ g ≤ gas := Nat.not_lt
    simp [gasHalt, hle]

theorem halt_check_own {reason : HaltReason}
    (hr : reason ∉ [.stackOverflow, .stackUnderflow, .costOverflow, .outOfGas]) :
    (op.check f w).halt = some reason ↔ stackHalt op.toSignature f.stack = none ∧
      gasHalt (op.cost f w) f.gas = none ∧ op.haltCondition f w = some reason := by
  have hstack : stackHalt op.toSignature f.stack ≠ some reason := by grind [stackHalt]
  have hgas : gasHalt (op.cost f w) f.gas ≠ some reason := by
    cases op.cost f w <;> grind [gasHalt]
  rw [halt_check_eq]
  cases hs : stackHalt op.toSignature f.stack with
  | some other => simpa [hs] using hstack
  | none =>
    cases hg : gasHalt (op.cost f w) f.gas with
    | some other => simpa [hg] using hgas
    | none => simp

end

end Operation

theorem Interpreter.counts_operationAt (c : Rules) (code : Code) (pc : Nat) :
    ((ofRules c).operationAt code pc).consumed ≤ 17 ∧
      ((ofRules c).operationAt code pc).produced ≤ 17 := by
  rcases operationAt_ofRules c code pc with h | ⟨i, p, h, -⟩
  · rw [h]
    exact ⟨Nat.zero_le _, Nat.zero_le _⟩
  · rw [h]
    exact ⟨i.consumed_le, i.produced_le⟩

/-- The four jumps, and no others, set the program counter themselves. -/
theorem Instruction.name_of_jumps {i : Instruction} (h : i.signature.jumps = true) :
    i.signature.name ∈ ["JUMP", "JUMPI", "JUMPSUB", "RETURNSUB"] := by
  cases i with
  | jump | jumpIf | jumpSub | returnSub => simp [signature, plain]
  | _ => cases h

theorem Instruction.statusAfter_of_jumps {i : Instruction} {status : Status}
    (h : i.signature.jumps = true) : i.statusAfter status = status := by
  cases i with
  | jump | jumpIf | jumpSub | returnSub => rfl
  | _ => cases h

namespace Frame

variable {fees : FeeSchedule} {f : Frame} {w : World} {i : Instruction} {cost : Gas}
  {s : Signature}

theorem pc_performed (he : f.status = .executing) (hj : i.signature.jumps = false)
    (hs : s.jumps = i.signature.jumps) :
    (f.performed fees w i cost s).pc =
      if i.statusAfter .executing = .executing then f.pc + s.size else f.pc := by
  have hpc : (i.frameAfter fees (f.paid cost) w).pc = f.pc := i.pc_frameAfter fees _ w hj
  have hstatus : (i.frameAfter fees (f.paid cost) w).status = i.statusAfter .executing := by
    simp [paid, he]
  simp only [performed, advance_eq, hpc, hstatus, hs, hj, and_true]

theorem stepResult_executing (h : f.status = .executing) : f.stepResult = .proceed := by
  simp [stepResult, h]

theorem stepResult_terminal {status : Status} (h : f.status = status)
    (hs : status = .suspended ∨ status = .succeeded ∨ status = .reverted) :
    f.stepResult = .terminal status := by
  rcases hs with rfl | rfl | rfl <;> simp [stepResult, h]

/-- An operation lets its frame go on behind it, or it ends the turn of the frame in place. -/
theorem performed_goes_on_or_ends (he : f.status = .executing)
    (hs : s.name = i.signature.name ∧ s.jumps = i.signature.jumps) :
    ((f.performed fees w i cost s).stepResult = .proceed ∧
        (f.performed fees w i cost s).status = .executing ∧
        (s.name ∉ ["JUMP", "JUMPI", "JUMPSUB", "RETURNSUB"] →
          (f.performed fees w i cost s).pc = f.pc + s.size)) ∨
      ∃ status, (f.performed fees w i cost s).stepResult = .terminal status ∧
        (f.performed fees w i cost s).status = status ∧
        (f.performed fees w i cost s).pc = f.pc := by
  have hstatus : (f.performed fees w i cost s).status = i.statusAfter .executing :=
    status_performed he
  rcases i.statusAfter_cases with ⟨hgoes, -⟩ | hends
  · left
    refine ⟨stepResult_executing (hstatus.trans hgoes), hstatus.trans hgoes, fun hname => ?_⟩
    have hjumps : i.signature.jumps = false := by
      refine Bool.eq_false_iff.mpr fun hj => hname ?_
      rw [hs.1]
      exact Instruction.name_of_jumps hj
    rw [pc_performed he hjumps hs.2, if_pos hgoes]
  · right
    have hgoes : i.statusAfter .executing ≠ .executing := by
      rcases hends with h | h | h <;> simp [h]
    have hjumps : i.signature.jumps = false :=
      Bool.eq_false_iff.mpr fun hj => hgoes (Instruction.statusAfter_of_jumps hj)
    refine ⟨_, stepResult_terminal hstatus hends, hstatus, ?_⟩
    rw [pc_performed he hjumps hs.2, if_neg hgoes]

end Frame

/-- The operands and the gas suffice: no check refuses the instruction but its own. -/
def Instruction.Suffices (fees : FeeSchedule) (f : Frame) (w : World) (i : Instruction) : Prop :=
  Operation.stackHalt i.signature f.stack = none ∧
    ∃ cost, i.cost fees f w = some cost ∧ cost ≤ f.gas

instance (fees : FeeSchedule) (f : Frame) (w : World) (i : Instruction) :
    Decidable (i.Suffices fees f w) :=
  decidable_of_iff (Operation.stackHalt i.signature f.stack = none ∧
      (i.cost fees f w).any (· ≤ f.gas) = true) <| by
    simp [Instruction.Suffices, Option.any_eq_true]

theorem Rules.admitted?_of_suffices {c : Rules} {f : Frame} {w : World} {i : Instruction}
    (he : f.status = .executing) (hi : c.instructionAt? f.code f.pc = some i)
    (hs : i.Suffices c.tariff.fees f w) (hc : i.haltCondition c.tariff.fees f = none) :
    c.admitted? f w = some i := by
  obtain ⟨hstack, hgas⟩ := hs
  have hhalt : ((i.toOperation c.tariff.fees).check f w).halt = none := by
    rw [Operation.halt_check_eq]
    show (Operation.stackHalt i.signature f.stack).or
      ((Operation.gasHalt (i.cost c.tariff.fees f w) f.gas).or
        (i.haltCondition c.tariff.fees f)) = none
    rw [hstack, Operation.gasHalt_eq_none.mpr hgas, hc]
    rfl
  rw [admitted?, if_pos he, hi, Option.filter_some, hhalt]
  rfl

namespace Interpreter

section

variable {c : Rules} {f : Frame} {w : World} {op : Operation}

theorem step_of_refusal {reason : HaltReason} (journal : Journal) (he : f.status = .executing)
    (hl : f.stack.limit.toNat < 2 ^ 63) (hop : (ofRules c).operationAt f.code f.pc = op)
    (hr : op.refusal? f w = some reason) :
    ∃ journal', (ofRules c).step ⟨f, w, journal⟩ =
      .ok (.halt reason) ⟨(f.facing op.toSignature).halt reason, w, journal'⟩ := by
  obtain ⟨hconsumed, hproduced⟩ := counts_operationAt c f.code f.pc
  have hfacing := check_facing c f.code f.pc op.toSignature f w
  rw [hop] at hconsumed hproduced hfacing
  refine step_of_refused journal he hop ?_
  rw [hfacing, Operation.halt_check hconsumed hproduced hl, hr]

theorem step_of_no_refusal (journal : Journal) (he : f.status = .executing)
    (hl : f.stack.limit.toNat < 2 ^ 63) (hop : (ofRules c).operationAt f.code f.pc = op)
    (hr : op.refusal? f w = none) :
    ∃ i p cost journal', op = i.operation c.tariff.fees p ∧ op.cost f w = some cost ∧
      cost ≤ f.gas ∧ (ofRules c).step ⟨f, w, journal⟩ =
        .ok ((f.facing op.toSignature).performed c.tariff.fees w i cost op.toSignature).stepResult
          ⟨(f.facing op.toSignature).performed c.tariff.fees w i cost op.toSignature,
            i.worldAfter (f.facing op.toSignature) w, journal'⟩ := by
  obtain ⟨hconsumed, hproduced⟩ := counts_operationAt c f.code f.pc
  have hfacing := check_facing c f.code f.pc op.toSignature f w
  rw [hop] at hconsumed hproduced hfacing
  have hnone : (op.check f w).halt = none := by
    rw [Operation.halt_check hconsumed hproduced hl, hr]
  obtain ⟨-, -, cost, hprice, hpaid, hcost⟩ := Operation.check_halt_eq_none hnone
  rw [← hfacing] at hnone hcost
  rcases operationAt_ofRules c f.code f.pc with hi | ⟨i, p, hi, -⟩
  · rw [← hop, hi] at hnone
    exact absurd hnone (Operation.check_invalid _ w)
  · rw [hop] at hi
    obtain ⟨cost', hpasses, hcost'⟩ := Operation.passes_of_check (hi ▸ hnone)
    rw [← hi] at hpasses hcost'
    obtain rfl := Option.some.inj (hcost.symm.trans hcost')
    obtain ⟨journal', hstep⟩ := step_of_passes journal he hop hi hnone hcost hpasses
    exact ⟨i, p, cost, journal', hi, hprice, hpaid, hstep⟩

end

/-- A step halts for the reason that the checks of its instruction give, and for no other. -/
theorem step_halts_iff {c : Rules} {f : Frame} {w : World} {i : Instruction} (journal : Journal)
    (he : f.status = .executing) (hi : c.instructionAt? f.code f.pc = some i)
    (reason : HaltReason) :
    (∃ m, (ofRules c).step ⟨f, w, journal⟩ = .ok (.halt reason) m) ↔
      ((i.toOperation c.tariff.fees).check f w).halt = some reason := by
  obtain ⟨p, hop⟩ := operationAt_of_some hi
  rw [← Instruction.check_operation (p := p),
    ← Instruction.check_facing (i.operation c.tariff.fees p).toSignature]
  cases hh : ((i.operation c.tariff.fees p).check
      (f.facing (i.operation c.tariff.fees p).toSignature) w).halt with
  | some other =>
    obtain ⟨journal', hstep⟩ := step_of_refused journal he hop hh
    rw [hstep]
    refine ⟨fun ⟨m, hm⟩ => ?_, fun ho => ⟨_, by rw [Option.some.inj ho]⟩⟩
    cases hm
    rfl
  | none =>
    obtain ⟨cost, hpasses, hcost⟩ := Operation.passes_of_check hh
    obtain ⟨journal', hstep⟩ := step_of_passes journal he hop rfl hh hcost hpasses
    rw [hstep]
    refine ⟨fun ⟨m, hm⟩ => ?_, fun ho => by cases ho⟩
    obtain ⟨hresult, -⟩ := EStateM.Result.ok.inj hm
    refine absurd hresult (Frame.stepResult_ne_halt ?_ reason)
    exact Frame.performed_ne_halted c.tariff.fees w i cost _ he

theorem step_halts_own {c : Rules} {f : Frame} {w : World} {i : Instruction} (journal : Journal)
    (he : f.status = .executing) (hi : c.instructionAt? f.code f.pc = some i)
    {reason : HaltReason}
    (hr : reason ∉ [.stackOverflow, .stackUnderflow, .costOverflow, .outOfGas]) :
    (∃ m, (ofRules c).step ⟨f, w, journal⟩ = .ok (.halt reason) m) ↔
      i.Suffices c.tariff.fees f w ∧ i.haltCondition c.tariff.fees f = some reason := by
  rw [step_halts_iff journal he hi, Operation.halt_check_own hr, Operation.gasHalt_eq_none,
    Instruction.Suffices, and_assoc]
  rfl

/--
A step of an executing frame does one of two things. If an operation is refused, the step answers
with the first reason; the frame is halted without output, it shows the operation it looked at, and
nothing else of it has changed, nor has the world. If no check refuses the operation, the gas left
is lowered by its price. Then the frame goes on, behind the operation unless it is a jump, or its
turn ends where it is.
-/
theorem step_refused_or_charged (c : Rules) (f : Frame) (w : World) (journal : Journal)
    (he : f.status = .executing) (hl : f.stack.limit.toNat < 2 ^ 63) :
    let op := (ofRules c).operationAt f.code f.pc
    (∀ reason, op.refusal? f w = some reason → ∃ journal', (ofRules c).step ⟨f, w, journal⟩ =
      .ok (.halt reason)
        ⟨{ f with
            operation := some op.toSignature
            status := .halted
            haltReason := some (f.haltReason.getD reason)
            output := #[] }, w, journal'⟩) ∧
      (op.refusal? f w = none → ∃ cost result f' w' journal', op.cost f w = some cost ∧
        (ofRules c).step ⟨f, w, journal⟩ = .ok result ⟨f', w', journal'⟩ ∧
        f'.gas.toNat + cost.toNat = f.gas.toNat ∧
        ((result = .proceed ∧ f'.status = .executing ∧
            (op.name ∉ ["JUMP", "JUMPI", "JUMPSUB", "RETURNSUB"] → f'.pc = f.pc + op.size)) ∨
          ∃ status, result = .terminal status ∧ f'.status = status ∧ f'.pc = f.pc)) := by
  intro op
  refine ⟨fun reason hr => step_of_refusal journal he hl rfl hr, fun hr => ?_⟩
  obtain ⟨i, p, cost, journal', hi, hprice, hpaid, hstep⟩ := step_of_no_refusal journal he hl rfl hr
  have hs : op.toSignature = (i.operation c.tariff.fees p).toSignature := congrArg _ hi
  refine ⟨cost, _, _, _, journal', hprice, hstep, ?_, ?_⟩
  · rw [Frame.gas_performed]
    exact Nat.sub_add_cancel hpaid
  · exact Frame.performed_goes_on_or_ends (f := f.facing op.toSignature) he (hs ▸ ⟨rfl, rfl⟩)

/-- One operand and 2 units of gas for an addition, which needs two operands and costs 3. -/
def adding : Frame :=
  { Frame.start { code := Code.ofBytes #[0x01] 0, initialGas := 2 } {} with stack := ⟨[7], 1024⟩ }

def pushing : Frame := Frame.start { code := Code.ofBytes #[0x60, 7] 0, initialGas := 10 } {}

set_option maxRecDepth 8000 in
theorem adding_refused :
    ((ofRules .london).operationAt adding.code adding.pc).refusal? adding { base := {} } =
        some .stackUnderflow ∧
      ((ofRules .london).operationAt pushing.code pushing.pc).refusal? pushing { base := {} } =
        none ∧
      ((ofRules .london).operationAt pushing.code pushing.pc).cost pushing { base := {} } =
        some 3 := by
  decide +kernel

/-- The missing operand is noticed before the missing gas, and no gas is taken. -/
theorem step_refused_or_charged_adding :
    (∃ journal', (ofRules .london).step ⟨adding, { base := {} }, []⟩ =
      .ok (.halt .stackUnderflow)
        ⟨{ adding with
            operation := some ((ofRules .london).operationAt adding.code adding.pc).toSignature
            status := .halted
            haltReason := some .stackUnderflow
            output := #[] }, { base := {} }, journal'⟩) ∧
      ∃ result f' w' journal', (ofRules .london).step ⟨pushing, { base := {} }, []⟩ =
        .ok result ⟨f', w', journal'⟩ ∧ f'.gas.toNat = 7 := by
  obtain ⟨hrefused, hadmitted, hprice⟩ := adding_refused
  have hadding := step_refused_or_charged .london adding { base := {} } [] rfl (by decide)
  have hpushing := step_refused_or_charged .london pushing { base := {} } [] rfl (by decide)
  obtain ⟨cost, result, f', w', journal', hcost, hstep, hgas, -⟩ := hpushing.2 hadmitted
  obtain rfl := Option.some.inj (hprice.symm.trans hcost)
  exact ⟨hadding.1 _ hrefused, result, f', w', journal', hstep, Nat.add_right_cancel (m := 3) hgas⟩

end Interpreter

end MeteredVm
