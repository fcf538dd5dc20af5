import MeteredVm.Proofs.Rollback
import MeteredVm.Script

/-!
# MeteredVm.Proofs.Failures

What becomes of an internal failure.

An effect may fail after it has changed its frame in any way. The step that executed it breaks off
with the same failure and marks the frame as failed, and whatever was running the frame breaks off
too: a run of the frame alone, and a message in which the frame is at any depth. Only a frame that
the effect had halted cannot be marked, since a halt is never left.

* `Interpreter.Fails`: the effect of the next operation is reached, and it fails.
* `Interpreter.step_of_fails`: what the step makes of that.
* `Interpreter.BreaksOff`: a failure that ends a step, and every run and message that comes to it.
* `Interpreter.fails_breaksOff`: every failure of an effect does. `Interpreter.halt_hides_failure`:
  an effect that halts its frame first.
-/

namespace MeteredVm

theorem Action.bind_error {α β : Type} {a : Action α} {k : α → Action β} {m m' : Machine}
    {failure : Fatal} (h : a m = .error failure m') : (a >>= k) m = .error failure m' := by
  simp only [bind, EStateM.bind, h]

theorem Operation.apply_of_error {op : Operation} {f : Frame} {w : World} {journal : Journal}
    {cost : Gas} {failure : Fatal} {m' : Machine} (hpaid : cost ≤ f.gas)
    (h : op.execute ⟨f.paid cost, w, journal⟩ = .error failure m') :
    op.apply (some cost) ⟨f, w, journal⟩ = .error failure m' := by
  have hcharge : Action.charge cost ⟨{ f with cost := some cost }, w, journal⟩ =
      .ok () ⟨f.paid cost, w, journal⟩ := by
    simp only [Action.charge, Frame.charge_eq hpaid, Machine.withFrame]
  unfold Operation.apply
  rw [Action.require_bind rfl, Action.modifyFrame_bind]
  dsimp only [Machine.withFrame]
  rw [Action.bind_ok hcharge, Action.bind_error h]

namespace Interpreter

/-- The machine when the effect of its next operation begins: the checks ran, `cost` was charged. -/
def charged (vm : Interpreter) (m : Machine) (cost : Gas) : Machine :=
  let op := vm.operationAt m.frame.code m.frame.pc
  (checked op m.frame m.world m.journal).withFrame ((m.frame.facing op.toSignature).paid cost)

/-- The checks let the next operation pass, and its effect fails and leaves `m'`. -/
structure Fails (vm : Interpreter) (m : Machine) (failure : Fatal) (m' : Machine) : Prop where
  executing : m.frame.status = .executing
  admitted :
    let op := vm.operationAt m.frame.code m.frame.pc
    (op.check (m.frame.facing op.toSignature) m.world).halt = none
  effect :
    let op := vm.operationAt m.frame.code m.frame.pc
    ∃ cost, op.cost (m.frame.facing op.toSignature) m.world = some cost ∧
      op.execute (vm.charged m cost) = .error failure m'

section

variable {vm : Interpreter} {m m' : Machine} {failure : Fatal}

theorem breakOff_of_ne_halted (op : Operation) (failure : Fatal) (h : m.frame.status ≠ .halted) :
    breakOff op failure m =
      .error failure ((m.record (.broke op.name m.frame.pc failure)).withFrame
        { m.frame with status := .failed }) := by
  have hmark : m.frame.setStatus .failed = .ok { m.frame with status := .failed } :=
    if_neg (by simp [h])
  unfold breakOff
  dsimp only [Machine.record]
  rw [hmark]

theorem breakOff_of_halted (op : Operation) (failure : Fatal) (h : m.frame.status = .halted) :
    breakOff op failure m =
      .error .invalidTransition (m.record (.broke op.name m.frame.pc failure)) := by
  have hmark : m.frame.setStatus .failed = .error .invalidTransition := if_pos (.inl h)
  unfold breakOff
  dsimp only [Machine.record]
  rw [hmark]

theorem step_of_fails (h : vm.Fails m failure m') :
    vm.step m = breakOff (vm.operationAt m.frame.code m.frame.pc) failure m' := by
  have hadmitted := h.admitted
  obtain ⟨cost, hprice, heffect⟩ := h.effect
  obtain ⟨-, -, cost', hprice', hpaid, hcost⟩ := Operation.check_halt_eq_none hadmitted
  obtain rfl : cost' = cost := Option.some.inj (hprice'.symm.trans hprice)
  generalize hop : vm.operationAt m.frame.code m.frame.pc = op at *
  have happly : op.apply (op.check (m.frame.facing op.toSignature) m.world).cost
      (checked op m.frame m.world m.journal) = .error failure m' := by
    rw [hcost]
    refine Operation.apply_of_error hpaid ?_
    rw [charged, hop] at heffect
    exact heffect
  have hstep := step_eq (w := m.world) m.journal h.executing hop
  rw [show vm.step m = _ from hstep, hadmitted, happly]

theorem run_add (k n : Nat) : ∀ {m : Machine}, vm.run k m = .outOfSteps m' →
    vm.run (k + n) m = vm.run n m' := by
  induction k with
  | zero =>
    intro m h
    cases h
    rw [Nat.zero_add]
  | succ k ih =>
    intro m h
    rw [run] at h
    rw [Nat.succ_add, run]
    cases hstep : vm.step m with
    | error other m₁ =>
      rw [hstep] at h
      cases h
    | ok s m₁ =>
      rw [hstep] at h
      cases s with
      | proceed => exact ih h
      | halt reason => cases h
      | terminal status => cases h

end

/--
The machine breaks off with `failure` and leaves its frame as `f`: in one step, at the end of every
run that comes to it, and in every message that comes to it, however many calls deep. The runs and
the messages may have any number of steps and moves, if only they come so far.
-/
structure BreaksOff (vm : Interpreter) (m : Machine) (failure : Fatal) (f : Frame) : Prop where
  step : ∃ m', vm.step m = .error failure m' ∧ m'.frame = f
  run : ∀ m₀ k, vm.run k m₀ = .outOfSteps m → ∀ n, k < n →
    ∃ m', vm.run n m₀ = .ended (.error (.fatal failure)) m' ∧ m'.frame = f
  message : ∀ (rules : Rules) frame world codes journal k t rest,
    Executor.run ⟨vm, rules⟩ k (Executor.begin frame world codes journal) = .running t →
    t.frames = m.frame :: rest → t.world = m.world → t.journal = m.journal →
    (∀ n, k < n → (Executor.cleanUp
        (Executor.run ⟨vm, rules⟩ n (Executor.begin frame world codes journal))).failure? =
          some failure) ∧
      (k < Executor.moveBound →
        (Executor.process ⟨vm, rules⟩ frame world codes journal).failure? = some failure)

section

variable {vm : Interpreter} {m m' : Machine} {failure : Fatal}

theorem run_of_step_error (h : vm.step m = .error failure m') (n : Nat) :
    vm.run (n + 1) m = .ended (.error (.fatal failure)) m' := by
  rw [run, h]

theorem breaksOff_of_step {f : Frame} (he : m.frame.status = .executing)
    (h : vm.step m = .error failure m') (hf : m'.frame = f) : vm.BreaksOff m failure f := by
  refine ⟨⟨m', h, hf⟩, ?_, ?_⟩
  · intro m₀ k hk n hn
    obtain ⟨n, rfl⟩ := Nat.exists_eq_add_of_lt hn
    refine ⟨m', ?_, hf⟩
    rw [Nat.add_assoc, run_add k (n + 1) hk, run_of_step_error h]
  · intro rules frame world codes journal k t rest hk hframes hworld hjournal
    have hadvance : ∃ t', Executor.advance ⟨vm, rules⟩ t = .failed failure t' := by
      refine ⟨{ t with frames := m'.frame :: rest, world := m'.world, journal := m'.journal }, ?_⟩
      simp only [Executor.advance, hframes, he, Executor.stepFrame, hworld, hjournal]
      rw [show vm.step ⟨m.frame, m.world, m.journal⟩ = _ from h]
    obtain ⟨t', ht'⟩ := hadvance
    have hends : ∀ n, k < n → (Executor.cleanUp (Executor.run ⟨vm, rules⟩ n
        (Executor.begin frame world codes journal))).failure? = some failure := by
      intro n hn
      obtain ⟨n, rfl⟩ := Nat.exists_eq_add_of_lt hn
      rw [Nat.add_assoc, Executor.run_add k (n + 1) hk, Executor.run, ht']
      rfl
    exact ⟨hends, hends Executor.moveBound⟩

end

/--
Whatever an effect did before it failed, the failure breaks off the step, the run and the message
unchanged and its frame is left failed, unless the effect had halted the frame. Then the frame
stays halted, as the effect has left it, and there is an internal failure all the same.
-/
theorem fails_breaksOff (vm : Interpreter) {m m' : Machine} {failure : Fatal}
    (h : vm.Fails m failure m') :
    (m'.frame.status ≠ .halted →
      vm.BreaksOff m failure { m'.frame with status := .failed }) ∧
    (m'.frame.status = .halted → ∃ other, vm.BreaksOff m other m'.frame) := by
  have hstep := step_of_fails h
  refine ⟨fun hs => ?_, fun hs => ?_⟩
  · rw [breakOff_of_ne_halted _ _ hs] at hstep
    exact breaksOff_of_step h.executing hstep rfl
  · rw [breakOff_of_halted _ _ hs] at hstep
    exact ⟨_, breaksOff_of_step h.executing hstep rfl⟩

/-- Ends its frame as if it reverted, and then fails. -/
def givingUp : Script :=
  { opcode := 0x0c
    name := "GIVEUP"
    consumed := 0
    produced := 0
    cost := some 1
    haltReason := none
    commands := [.setOutput #[7], .setStatus .reverted, .fail (.unchecked .memoryOutOfBounds)] }

def halting : Script :=
  { givingUp with commands := [.halt .outOfGas, .fail .notExecuting] }

def scripted (s : Script) : Interpreter :=
  ⟨(InstructionSet.ofRules .london).put 0 s.toOperation, .berlin⟩

/-- The beginning of a message whose first operation is the scripted one. -/
def scriptedNext : Machine where
  frame := Frame.start { code := Code.ofBytes #[0x0c] 0, initialGas := 10 } {}
  world := ({ base := {} } : World).enter

theorem operationAt_scripted {s : Script} (h : s.opcode = 0x0c) :
    (scripted s).operationAt scriptedNext.frame.code scriptedNext.frame.pc = s.toOperation := by
  have hbyte : scriptedNext.frame.code.opcodeAt? scriptedNext.frame.pc = some 0x0c := rfl
  have hversion : scriptedNext.frame.code.version = 0 := rfl
  have hget : (scripted s).instructionSet.get? 0x0c 0 = some s.toOperation := by
    rw [scripted, InstructionSet.get?_put, if_pos ⟨rfl, h.symm⟩]
  unfold operationAt
  rw [hbyte]
  dsimp only
  rw [resolve, hversion, hget, Option.getD_some]

theorem execute_of_error {commands : List Command} {m : Machine} {fault : Fault} {f : Frame}
    (h : Command.performAll commands m.frame = .error fault f) :
    Script.execute commands m = .error fault.toFatal (m.withFrame f) := by
  unfold Script.execute
  rw [h]

def scriptedFrame (s : Script) (cost : Gas) : Frame :=
  (scriptedNext.frame.facing s.toSignature).paid cost

theorem fails_scripted (s : Script) (cost : Gas) (fault : Fault) {f : Frame}
    (hs : s.opcode = 0x0c) (hcost : s.cost = some cost)
    (hadmitted : (s.toOperation.check (scriptedNext.frame.facing s.toSignature)
      scriptedNext.world).halt = none)
    (h : Command.performAll s.commands (scriptedFrame s cost) = .error fault f) :
    ∃ m', (scripted s).Fails scriptedNext fault.toFatal m' ∧ m'.frame = f := by
  have hop := operationAt_scripted hs
  refine ⟨((scripted s).charged scriptedNext cost).withFrame f, ⟨rfl, ?_, cost, ?_, ?_⟩, rfl⟩
  · rw [hop]
    exact hadmitted
  · rw [hop]
    exact hcost
  · rw [charged, hop]
    exact execute_of_error h

theorem fails_breaksOff_givingUp :
    (∃ m', (scripted givingUp).Fails scriptedNext (.unchecked .memoryOutOfBounds) m' ∧
      m'.frame.status = .reverted ∧
      (scripted givingUp).BreaksOff scriptedNext (.unchecked .memoryOutOfBounds)
        { m'.frame with status := .failed }) ∧
    ∃ m' other, (scripted halting).Fails scriptedNext .notExecuting m' ∧
      m'.frame.status = .halted ∧ (scripted halting).BreaksOff scriptedNext other m'.frame := by
  constructor
  · obtain ⟨m', hfails, hframe⟩ := fails_scripted givingUp 1
      (.fatal (.unchecked .memoryOutOfBounds)) rfl rfl (by decide +kernel) rfl
    have hstatus : m'.frame.status = .reverted := hframe ▸ rfl
    have hne : m'.frame.status ≠ .halted := by simp [hstatus]
    exact ⟨m', hfails, hstatus, (fails_breaksOff _ hfails).1 hne⟩
  · obtain ⟨m', hfails, hframe⟩ := fails_scripted halting 1 (.fatal .notExecuting) rfl
      rfl (by decide +kernel) rfl
    have hstatus : m'.frame.status = .halted := hframe ▸ rfl
    obtain ⟨other, hother⟩ := (fails_breaksOff _ hfails).2 hstatus
    exact ⟨m', other, hfails, hstatus, hother⟩

/-- A halted frame cannot be marked as failed, and this is what is reported in its place. -/
theorem halt_hides_failure :
    (∃ m', (scripted halting).Fails scriptedNext .notExecuting m') ∧
    (∀ f, ¬ (scripted halting).BreaksOff scriptedNext .notExecuting f) ∧
    (∃ m', (scripted halting).step scriptedNext = .error .invalidTransition m' ∧
      m'.frame.status = .halted) ∧
    (Executor.process ⟨scripted halting, .london⟩ scriptedNext.frame { base := {} } {}
      []).failure? = some .invalidTransition := by
  obtain ⟨m', hfails, hframe⟩ := fails_scripted halting 1 (.fatal .notExecuting) rfl
    rfl (by decide +kernel) rfl
  have hstatus : m'.frame.status = .halted := hframe ▸ rfl
  have hstep := step_of_fails hfails
  rw [breakOff_of_halted _ _ hstatus] at hstep
  have hmessage := (breaksOff_of_step hfails.executing hstep rfl).message .london
    scriptedNext.frame { base := {} } {} [] 0 _ [] rfl rfl rfl rfl
  refine ⟨⟨m', hfails⟩, fun f hbreaks => ?_, ⟨_, hstep, hstatus⟩, ?_⟩
  · obtain ⟨m₁, h, -⟩ := hbreaks.step
    cases hstep.symm.trans h
  · exact hmessage.2 (by decide)

end Interpreter

end MeteredVm
