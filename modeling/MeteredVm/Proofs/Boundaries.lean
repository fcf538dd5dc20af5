import MeteredVm.Proofs.Moves

/-!
# MeteredVm.Proofs.Boundaries

The program counter never stands in the middle of an instruction.

* `Code.Between`: the places between the instructions of a code.
* `Frame.Aligned`: the program counter and every return address are boundaries, or lie behind the
  code. `Frame.Steps.aligned` and `Frame.resume_aligned`: steps and resumptions keep it, the failed
  ones too.
* `Interpreter.moves_aligned`: it holds of every state that a frame can reach;
  `Executor.run_aligned`: and of every frame of a message.
-/

namespace MeteredVm

namespace Code

/-- A place between instructions: a boundary, or any offset behind the last byte. -/
def Between (c : Code) (pc : Nat) : Prop := c.Boundary pc ∨ c.size ≤ pc

end Code

namespace Instruction

/-- The table and the walk agree on how long an instruction is. -/
theorem size_eq (i : Instruction) :
    i.signature.size = 1 + Opcode.immediateLength i.signature.opcode := by
  cases i with
  | push n | dup n | swap n | log n =>
    revert n
    decide
  | unary op | binary op | ternary op => cases op <;> rfl
  | read what | lookup what => cases what <;> rfl
  | copy source => cases source <;> rfl
  | call kind => cases kind <;> rfl
  | _ => rfl

end Instruction

theorem Code.Boundary.behind {c : Code} {pc : Nat} {i : Instruction} (h : c.Boundary pc)
    (hb : c.opcodeAt? pc = some i.signature.opcode) : c.Boundary (pc + i.signature.size) := by
  rw [i.size_eq, ← Nat.add_assoc]
  exact .next h hb

theorem Code.boundary_of_isBeginSub {c : Code} {pc : Nat} (h : c.isBeginSub pc = true) :
    c.Boundary (pc + 1) := by
  obtain ⟨-, byte, hpc⟩ := isBeginSub_iff.mp h
  exact hpc.behind (i := .beginSub) byte

namespace Frame

/-- The frame runs `code` and stands between its instructions, and so it does when it returns. -/
structure Aligned (code : Code) (f : Frame) : Prop where
  runs : f.code = code
  pc : code.Between f.pc
  returns : ∀ pc ∈ f.returnStack.items, code.Between pc
  waiting : f.status = .suspended → code.Between (f.pc + 1)

theorem start_aligned (message : Message) (limits : Limits) :
    (Frame.start message limits).Aligned message.code where
  runs := rfl
  pc := .inl .zero
  returns := by simp [Frame.start, ReturnStack.empty]
  waiting := by simp [Frame.start]

section

variable {fees : FeeSchedule} {f f' : Frame} {w w' : World} {i : Instruction} {code : Code}

theorem between_of_jumps (hi : i.signature.jumps = true) (hc : i.haltCondition fees f = none)
    (hnext : f.code.Boundary (f.pc + i.signature.size))
    (hr : ∀ pc ∈ f.returnStack.items, f.code.Between pc) :
    f.code.Between (i.frameAfter fees f w).pc := by
  cases i with
  | jump => exact .inl (Code.isJumpDest_iff.mp (Instruction.jumpHalt_eq_none hc).2).2.2
  | jumpIf =>
    show f.code.Between (if f.operand 1 = 0 then f.pc + 1 else (f.operand 0).toNat)
    by_cases h : f.operand 1 = 0
    · rw [if_pos h]
      exact .inl hnext
    · rw [if_neg h]
      have hj : Instruction.jumpHalt f (f.operand 0) = none := (if_neg h).symm.trans hc
      exact .inl (Code.isJumpDest_iff.mp (Instruction.jumpHalt_eq_none hj).2).2.2
  | jumpSub => exact .inl (Code.boundary_of_isBeginSub (Instruction.jumpSubHalt_eq_none hc).2.1)
  | returnSub =>
    show f.code.Between (f.returnStack.items.headD 0)
    cases hs : f.returnStack.items with
    | nil => exact .inl .zero
    | cons pc rest => exact hr pc (hs ▸ List.mem_cons_self)
  | _ => cases hi

theorem between_performed {cost : Gas} {s : Signature} (hj : s.jumps = i.signature.jumps)
    (hs : s.size = i.signature.size) (hc : i.haltCondition fees f = none)
    (hpc : f.code.Between f.pc) (hnext : f.code.Boundary (f.pc + i.signature.size))
    (hr : ∀ pc ∈ f.returnStack.items, f.code.Between pc) :
    f.code.Between (f.performed fees w i cost s).pc := by
  have hpaid : (i.frameAfter fees (f.paid cost) w).pc = (i.frameAfter fees f w).pc := by
    cases i <;> rfl
  simp only [performed, advance_eq, hpaid]
  cases hjumps : i.signature.jumps with
  | true =>
    rw [if_neg (by simp [hj, hjumps])]
    exact between_of_jumps hjumps hc hnext hr
  | false =>
    rw [Instruction.pc_frameAfter fees f w i hjumps, hs]
    split
    · exact .inl hnext
    · exact hpc

theorem Steps.aligned {s : Step} (hf : f.Aligned code) (he : f.status = .executing)
    (h : f.Steps fees w s f' w') : f'.Aligned code := by
  obtain rfl := hf.runs
  cases h with
  | refused sig reason => exact ⟨rfl, hf.pc, hf.returns, by simp [Frame.halt]⟩
  | performed i p sig cost hsig hp found =>
    have hstatus : ((f.facing sig).performed fees w i cost sig).status = i.statusAfter .executing :=
      status_performed he
    rcases found with hb | rfl
    · have hnext : f.code.Boundary (f.pc + i.signature.size) := by
        rcases hf.pc with hpc | hpc
        · exact hpc.behind hb
        · exact absurd (Array.getElem?_eq_some_iff.mp hb).1 (Nat.not_lt.mpr hpc)
      refine ⟨code_performed, ?_, ?_, ?_⟩
      · exact between_performed (f := f.facing sig) (hsig ▸ rfl) (hsig ▸ rfl) hp.clear hf.pc hnext
          hf.returns
      · intro pc hpc
        simp only [Frame.performed, advance_eq] at hpc
        rcases Instruction.returnStack_frameAfter _ _ _ _ pc hpc with hpc | ⟨rfl, rfl⟩
        · exact hf.returns pc hpc
        · exact .inl hnext
      · intro hs
        rw [hstatus] at hs
        cases i with
        | call kind =>
          simp only [Frame.performed, advance_eq, Instruction.pc_frameAfter _ _ _ (.call kind) rfl]
          rw [if_neg (by simp [Instruction.statusAfter])]
          exact .inl hnext
        | _ => cases hs
    · -- behind the code there is a stop, which does not move the frame on
      refine ⟨rfl, hf.pc, hf.returns, ?_⟩
      intro hs
      cases hstatus.symm.trans hs

theorem resumed_aligned {request : MessageRequest} {outcome : ChildOutcome} {gas : Gas}
    (hf : f.Aligned code) (hs : f.status = .suspended) :
    (f.resumed request outcome gas).Aligned code :=
  ⟨hf.runs, hf.waiting hs, hf.returns, by simp [resumed]⟩

theorem resume_aligned (offset len : Nat) (outcome : ChildOutcome) (hf : f.Aligned code) :
    match resume offset len outcome f with
    | .ok _ f' => f'.Aligned code
    | .error _ f' => f'.Aligned code := by
  rcases resume_cases offset len outcome f with
    hrefused | ⟨hs, hgas | ⟨gas, ⟨reason, hfull⟩ | ⟨stack, hdone⟩⟩⟩
  · rw [hrefused]
    exact hf
  · -- when the gas does not fit, the frame is left executing at the call
    rw [hgas]
    exact ⟨hf.runs, hf.pc, hf.returns, by simp⟩
  · rw [hfull]
    exact ⟨hf.runs, hf.pc, hf.returns, by simp⟩
  · rw [hdone]
    simp only [adopt]
    cases outcome.success <;> exact ⟨hf.runs, hf.waiting hs, hf.returns, by simp⟩

end

/-- What can be done with a frame, apart from changing it by hand. -/
inductive Move where
  | step (world : World) (journal : Journal)
  | takePending
  | resume (offset len : Nat) (outcome : ChildOutcome)

end Frame

namespace Interpreter

/-- The frame after a move. One that fails leaves what it had done up to the failure. -/
def move (vm : Interpreter) (f : Frame) : Frame.Move → Frame
  | .step world journal =>
    match vm.step ⟨f, world, journal⟩ with
    | .ok _ m => m.frame
    | .error _ m => m.frame
  | .takePending => { f with pending := none }
  | .resume offset len outcome =>
    match Frame.resume offset len outcome f with
    | .ok _ f => f
    | .error _ f => f

theorem move_aligned (c : Rules) {f : Frame} {code : Code} (hf : f.Aligned code)
    (move : Frame.Move) : ((ofRules c).move f move).Aligned code := by
  cases move with
  | step world journal =>
    by_cases he : f.status = .executing
    · obtain ⟨s, f', w', journal', hstep, hsteps⟩ := step_ofRules c world journal he
      simp only [Interpreter.move, hstep]
      exact hsteps.aligned hf he
    · simp only [Interpreter.move, step, if_pos he]
      exact hf
  | takePending => exact ⟨hf.runs, hf.pc, hf.returns, hf.waiting⟩
  | resume offset len outcome =>
    have h := Frame.resume_aligned offset len outcome hf
    simp only [Interpreter.move]
    cases hr : Frame.resume offset len outcome f with
    | ok _ f' | error _ f' =>
      rw [hr] at h
      exact h

theorem moves_aligned (c : Rules) {code : Code} (moves : List Frame.Move) :
    ∀ {f : Frame}, f.Aligned code → (moves.foldl (ofRules c).move f).Aligned code := by
  induction moves with
  | nil =>
    intro f hf
    exact hf
  | cons move moves ih =>
    intro f hf
    exact ih (move_aligned c hf move)

/--
Whatever steps a new frame takes and however it is resumed in between, its program counter and
every return address are boundaries of its code, or lie behind it.
-/
theorem positions_between_instructions (c : Rules) (message : Message) (limits : Limits)
    (moves : List Frame.Move) :
    let f := moves.foldl (ofRules c).move (Frame.start message limits)
    f.code = message.code ∧ message.code.Between f.pc ∧
      ∀ pc ∈ f.returnStack.items, message.code.Between pc := by
  have h := moves_aligned c moves (Frame.start_aligned message limits)
  exact ⟨h.runs, h.pc, h.returns⟩

end Interpreter

theorem Frame.lasting_aligned (c : Rules) : Frame.Lasting c fun f => f.Aligned f.code where
  start := start_aligned
  steps := by
    intro f f' w w' s hf he hs
    have h := hs.aligned hf he
    rwa [← h.runs] at h
  resumed := by
    intro f request outcome gas hf hs _
    exact resumed_aligned hf hs

theorem Executor.run_aligned (c r : Rules) (message : Message) (limits : Limits) (world : World)
    (codes : CodeCache) (journal : Journal) (n : Nat) {t : CallTree}
    (h : run ⟨.ofRules c, r⟩ n (begin (Frame.start message limits) world codes journal) =
      .running t) : ∀ f ∈ t.frames, f.Aligned f.code :=
  run_begin_lasting message limits world codes journal (Frame.lasting_aligned c) r n h

end MeteredVm
