import MeteredVm.Proofs.Steps

/-!
# MeteredVm.Proofs.Soundness

The frames that a run under a set of rules can reach.

* `Frame.Sound`: the invariant of a frame. A halted frame says why and has no output, a suspended
  one waits for a child whose output has room, and every size is far from the end of its range.
* `Frame.Steps.sound`: a step keeps it; `Frame.Steps.account` is the account of its gas.
* `Frame.resume_cases`: where a resumption can leave a frame. `Frame.resume_eq` and
  `Frame.resumed_sound`: one that waits can be resumed, and then it is sound again.
-/

namespace MeteredVm

/-- The frame waits for `request`, and there is room for the outcome. -/
structure Frame.Waits (f : Frame) (request : MessageRequest) : Prop where
  pending : f.pending = some request
  room : f.stack.height < f.stack.limit.toNat
  limit : f.stack.limit.toNat < 0x8000_0000_0000_0000
  reach : f.pc < f.code.size
  window : f.memory.Covers request.outputOffset request.outputLength

/-- What holds of every frame of a run. -/
structure Frame.Sound (f : Frame) : Prop where
  height : f.stack.height ≤ f.stack.limit.toNat
  limit : f.stack.height = 0 ∨ f.stack.limit.toNat < 0x8000_0000_0000_0000
  returns : ∀ pc ∈ f.returnStack.items, pc ≤ f.code.size
  words : f.memory.words < 0x1_0000_0000
  pc : f.pc ≤ f.code.size + 32
  waiting : f.status = .suspended → ∃ request, f.Waits request
  unhalted : f.status ≠ .halted → f.haltReason = none
  halted : f.status = .halted → f.haltReason ≠ none ∧ f.output = #[]
  unfailed : f.status ≠ .failed

namespace Frame

theorem start_sound (message : Message) (limits : Limits) : (Frame.start message limits).Sound where
  height := Nat.zero_le _
  limit := .inl rfl
  returns := by simp [Frame.start, ReturnStack.empty]
  words := (Memory.words_empty _).trans_lt (by decide)
  pc := Nat.zero_le _
  waiting := by simp [Frame.start]
  unhalted := by simp [Frame.start]
  halted := by simp [Frame.start]
  unfailed := by simp [Frame.start]

def pendingGas (f : Frame) : Nat :=
  if f.status = .suspended then (f.pending.map (·.gas.toNat)).getD 0 else 0

theorem pendingGas_eq_zero {f : Frame} (h : f.status ≠ .suspended) : f.pendingGas = 0 :=
  if_neg h

theorem Waits.pendingGas_eq {f : Frame} {request : MessageRequest} (h : f.Waits request)
    (hs : f.status = .suspended) : f.pendingGas = request.gas.toNat := by
  simp [pendingGas, hs, h.pending]

theorem Sound.halt {f : Frame} (h : f.Sound) (s : Signature) (reason : HaltReason) :
    ((f.facing s).halt reason).Sound where
  height := h.height
  limit := h.limit
  returns := h.returns
  words := h.words
  pc := h.pc
  waiting := by simp [Frame.halt]
  unhalted := by simp [Frame.halt]
  halted := by simp [Frame.halt]
  unfailed := by simp [Frame.halt]

section

variable {fees : FeeSchedule} {f : Frame} {w : World} {i : Instruction} {cost : Gas}
  {s : Signature}

theorem advance_eq (f : Frame) (s : Signature) : f.advance s =
    { f with pc := if f.status = .executing ∧ s.jumps = false then f.pc + s.size else f.pc } := by
  unfold advance
  split <;> rfl

theorem status_performed (he : f.status = .executing) :
    (f.performed fees w i cost s).status = i.statusAfter .executing := by
  simp [performed, advance_eq, paid, he]

theorem gas_performed : (f.performed fees w i cost s).gas = f.gas.saturatingSub cost := by
  simp [performed, advance_eq, paid]

theorem message_performed : (f.performed fees w i cost s).toMessage = f.toMessage := by
  simp [performed, advance_eq, paid]

theorem code_performed : (f.performed fees w i cost s).code = f.code :=
  congrArg Message.code message_performed

theorem haltReason_performed : (f.performed fees w i cost s).haltReason = f.haltReason := by
  simp [performed, advance_eq, paid]

theorem height_performed (h : i.Passes fees f w cost) :
    (f.performed fees w i cost s).stack.height =
      f.stack.height - i.signature.consumed + i.pushed := by
  rw [performed, advance_eq]
  exact Instruction.height_frameAfter fees (f.paid cost) w i h.operands

theorem stackLimit_performed :
    (f.performed fees w i cost s).stack.limit = f.stack.limit := by
  simp [performed, advance_eq, paid]

theorem size_performed : (f.performed fees w i cost s).memory.size =
    max f.memory.size (32 * Instruction.wordsFor 0 (i.ranges f)) := by
  rw [performed, advance_eq]
  refine (Instruction.size_frameAfter ..).trans ?_
  cases i <;> rfl

theorem words_performed : (f.performed fees w i cost s).memory.words =
    Instruction.wordsFor f.memory.words (i.ranges f) := by
  rw [performed, advance_eq]
  refine (Instruction.words_frameAfter ..).trans ?_
  cases i <;> rfl

theorem refund_performed (h : i ≠ .storageStore) :
    (f.performed fees w i cost s).refund = f.refund := by
  rw [performed, advance_eq]
  exact Instruction.refund_frameAfter h

theorem logs_performed (h : ∀ n, i ≠ .log n) :
    (f.performed fees w i cost s).logs = f.logs := by
  rw [performed, advance_eq]
  exact Instruction.logs_frameAfter h

theorem returns_performed (hr : ∀ pc ∈ f.returnStack.items, pc ≤ f.code.size)
    (reach : f.pc < f.code.size ∨ i = .stop) :
    ∀ pc ∈ (f.performed fees w i cost s).returnStack.items, pc ≤ f.code.size := by
  rw [performed, advance_eq]
  rcases reach with hpc | rfl
  · intro pc h
    rcases Instruction.returnStack_frameAfter fees (f.paid cost) w i pc h with h | ⟨rfl, -⟩
    · exact hr pc h
    · exact hpc
  · exact hr

theorem pc_performed_le (hs : i.signature.jumps = s.jumps ∧ i.signature.size = s.size)
    (h : i.Passes fees f w cost)
    (hr : ∀ pc ∈ f.returnStack.items, pc ≤ f.code.size) (hpc : f.pc ≤ f.code.size + 32)
    (reach : f.pc < f.code.size ∨ i = .stop) :
    (f.performed fees w i cost s).pc ≤ f.code.size + 32 := by
  have hpaid : (i.frameAfter fees (f.paid cost) w).pc = (i.frameAfter fees f w).pc := by
    cases i <;> rfl
  rcases reach with hlt | rfl
  · rw [performed, advance_eq]
    dsimp only
    rw [hpaid]
    cases hj : i.signature.jumps with
    | true =>
      have hjumps : s.jumps = true := hs.1 ▸ hj
      rw [if_neg fun hn => Bool.noConfusion (hjumps.symm.trans hn.2)]
      exact Nat.le_add_right_of_le (Instruction.pc_frameAfter_le hj h.clear hlt hr)
    | false =>
      rw [Instruction.pc_frameAfter fees f w i hj]
      have hsize := i.size_le
      split <;> omega
  · exact hpc

/-- Only a call suspends its frame, and then the child gets less than the call costs. -/
theorem suspended_performed {t : Tariff} (he : f.status = .executing)
    (h : i.Passes t.fees f w cost) (reach : f.pc < f.code.size ∨ i = .stop)
    (hs : (f.performed t.fees w i cost s).status = .suspended) :
    ∃ request, (f.performed t.fees w i cost s).Waits request ∧
      request.gas.toNat + 40 ≤ cost.toNat := by
  rw [status_performed he] at hs
  cases i with
  | call kind =>
    obtain ⟨gas, hg, hle⟩ := Call.exists_childGas h.price
    have hpc : f.pc < f.code.size := reach.resolve_right (by simp)
    have hroom := h.room
    have hp : (Instruction.call kind).signature.produced = 1 := rfl
    refine ⟨Call.requested kind (f.paid cost) gas, ⟨?_, ?_, ?_, ?_, ?_⟩, ?_⟩
    · rw [performed, advance_eq]
      refine (Instruction.pending_call ..).trans ?_
      rw [hg]
      rfl
    · rw [height_performed h, stackLimit_performed]
      show _ + 0 < _
      omega
    · rw [stackLimit_performed]
      exact h.limit
    · rw [code_performed, performed, advance_eq]
      exact hpc
    · refine Instruction.covers_requested kind (f.paid cost) gas ?_
      rw [size_performed]
      exact Nat.le_max_right ..
    · cases kind <;> exact hle
  | stop | ret | revert => cases hs
  | _ => cases hs

end

theorem lt_size_of_found {i : Instruction} {f : Frame}
    (h : f.code.opcodeAt? f.pc = some i.signature.opcode ∨ i = .stop) :
    f.pc < f.code.size ∨ i = .stop :=
  h.imp_left fun hb => (Array.getElem?_eq_some_iff.mp hb).1

namespace Steps

section

variable {t : Tariff} {f f' : Frame} {w w' : World} {s : Step}

theorem outer_eq (h : f.Steps t.fees w s f' w') : w'.outer = w.outer := by
  cases h with
  | refused => rfl
  | performed i => simp

theorem base_eq (h : f.Steps t.fees w s f' w') : w'.base = w.base := by
  cases h with
  | refused => rfl
  | performed i => simp

theorem message_eq (h : f.Steps t.fees w s f' w') : f'.toMessage = f.toMessage := by
  cases h with
  | refused => rfl
  | performed => exact message_performed

/-- A request that was not there before is that of a call whose checks have passed. -/
theorem pending_cases {fees : FeeSchedule} (h : f.Steps fees w s f' w') :
    f'.pending = f.pending ∨
      ∃ kind sig cost gas, (Instruction.call kind).Passes fees (f.facing sig) w cost ∧
        f'.pending = some (Call.requested kind (f.facing sig) gas) := by
  cases h with
  | refused => exact .inl rfl
  | performed i p sig cost hsig hp =>
    simp only [Frame.performed, advance_eq]
    rcases Instruction.pending_frameAfter fees ((f.facing sig).paid cost) w i with
      h | ⟨kind, gas, rfl, h⟩
    · exact .inl h
    · exact .inr ⟨kind, sig, cost, gas, hp, h⟩

theorem sound (h : f.Steps t.fees w s f' w') (hf : f.Sound) (he : f.status = .executing) :
    f'.Sound := by
  cases h with
  | refused sig reason => exact hf.halt sig reason
  | performed i p sig cost hsig hp found =>
    have he' : (f.facing sig).status = .executing := he
    have reach : f.pc < f.code.size ∨ i = .stop := lt_size_of_found found
    have hunhalted : f.haltReason = none := hf.unhalted (by simp [he])
    have hstatus : ∀ status, ((f.facing sig).performed t.fees w i cost sig).status = status →
        i.statusAfter .executing = status := by
      intro status hs
      rw [← hs, status_performed he']
    refine ⟨?_, ?_, ?_, ?_, ?_, ?_, ?_, ?_, ?_⟩
    · have hroom := hp.room
      have hpushed := i.pushed_le
      rw [height_performed hp, stackLimit_performed]
      omega
    · rw [stackLimit_performed]
      exact .inr hp.limit
    · rw [code_performed]
      exact returns_performed (f := f.facing sig) hf.returns reach
    · rw [words_performed]
      exact Instruction.wordsFor_lt hf.words (Instruction.expansion_of_cost hp.price)
    · rw [code_performed]
      exact pc_performed_le (hsig ▸ ⟨rfl, rfl⟩) hp hf.returns hf.pc reach
    · intro hs
      obtain ⟨request, hwaits, -⟩ := suspended_performed he' hp reach hs
      exact ⟨request, hwaits⟩
    · intro
      rw [haltReason_performed]
      exact hunhalted
    · intro hs
      rcases i.statusAfter_cases with ⟨h, -⟩ | h | h | h <;> rw [hstatus _ hs] at h <;> cases h
    · intro hs
      rcases i.statusAfter_cases with ⟨h, -⟩ | h | h | h <;> rw [hstatus _ hs] at h <;> cases h

/--
The gas of a step. A frame that goes on has paid, one that waits has paid more than its child
gets, and one that ended has got nothing.
-/
theorem account (h : f.Steps t.fees w s f' w') (he : f.status = .executing) :
    (f'.status = .executing ∧ f'.gas.toNat + 1 ≤ f.gas.toNat) ∨
      (f'.status = .suspended ∧ f'.gas.toNat + f'.pendingGas + 40 ≤ f.gas.toNat) ∨
      (f'.status.isTerminal = true ∧ f'.gas.toNat ≤ f.gas.toNat) := by
  cases h with
  | refused sig reason => exact .inr (.inr ⟨rfl, Nat.le_refl _⟩)
  | performed i p sig cost hsig hp found =>
    have he' : (f.facing sig).status = .executing := he
    have reach : f.pc < f.code.size ∨ i = .stop := lt_size_of_found found
    have hpaid : cost.toNat ≤ f.gas.toNat := hp.paid
    have hgas : ((f.facing sig).performed t.fees w i cost sig).gas.toNat =
        f.gas.toNat - cost.toNat := congrArg Gas.toNat gas_performed
    have hstatus : ((f.facing sig).performed t.fees w i cost sig).status =
        i.statusAfter .executing := status_performed he'
    rcases i.statusAfter_cases with ⟨h, hends⟩ | h | h | h
    · have hcost := Instruction.one_le_cost hp.price hends
      exact .inl ⟨hstatus.trans h, by omega⟩
    · have hs := hstatus.trans h
      obtain ⟨request, hwaits, hle⟩ := suspended_performed he' hp reach hs
      rw [hwaits.pendingGas_eq hs]
      exact .inr (.inl ⟨hs, by omega⟩)
    · rw [hstatus, h]
      exact .inr (.inr ⟨rfl, by omega⟩)
    · rw [hstatus, h]
      exact .inr (.inr ⟨rfl, by omega⟩)

theorem result (h : f.Steps t.fees w s f' w') (hf : f.Sound) (he : f.status = .executing) :
    s = f'.stepResult := by
  cases h with
  | refused sig reason =>
    have hn : f.haltReason = none := hf.unhalted (by simp [he])
    simp [stepResult, Frame.halt, Frame.facing, hn]
  | performed => rfl

end

end Steps

theorem size_write_extract {m : Memory} {offset len : Nat} (h : m.Covers offset len)
    (output : Bytes) : (m.write offset (output.extract 0 len)).size = m.size := by
  have hle : (output.extract 0 len).size ≤ len := by
    rw [Array.size_extract]
    omega
  rw [Memory.size_write, Memory.size_expand_of_covers (h.of_le hle)]

/-- Where a resumption leaves the frame: it is refused, or it gets as far as its gas, or further. -/
theorem resume_cases (offset len : Nat) (outcome : ChildOutcome) (f : Frame) :
    resume offset len outcome f = .error .unhandledSuspension f ∨ f.status = .suspended ∧
      (resume offset len outcome f = .error .gasAccountingOverflow { f with status := .executing } ∨
      ∃ gas, let credited : Frame :=
          { f with
            status := .executing
            gas := gas
            memory := f.memory.write offset (outcome.output.extract 0 len) }
        (∃ reason, resume offset len outcome f = .error (.unchecked reason) credited) ∨
        ∃ stack, resume offset len outcome f = .ok ()
          { adopt { credited with stack := stack } outcome with
            returnData := outcome.output
            pc := f.pc + 1 }) := by
  unfold resume
  by_cases hs : f.status = .suspended
  · refine .inr ⟨hs, ?_⟩
    rw [if_neg fun hn => hn hs]
    simp only [credit]
    cases f.gas.add? outcome.gas with
    | none => exact .inl rfl
    | some gas =>
      refine .inr ⟨gas, ?_⟩
      simp only [Option.map_some]
      cases f.stack.push (Word.ofBool outcome.success) with
      | error reason => exact .inl ⟨reason, rfl⟩
      | ok stack =>
        refine .inr ⟨stack, ?_⟩
        simp only [adopt]
        cases outcome.success <;> rfl
  · exact .inl (if_pos hs)

def resumed (f : Frame) (request : MessageRequest) (outcome : ChildOutcome) (gas : Gas) : Frame :=
  { f with
    pending := none
    status := .executing
    gas := gas
    memory := f.memory.write request.outputOffset
      (outcome.output.extract 0 request.outputLength)
    stack := { f.stack with items := Word.ofBool outcome.success :: f.stack.items }
    logs := if outcome.success then f.logs ++ outcome.logs else f.logs
    refund := if outcome.success then MeteredVm.addRefund f.refund outcome.refund else f.refund
    returnData := outcome.output
    pc := f.pc + 1 }

section

variable {f : Frame} {request : MessageRequest} {outcome : ChildOutcome} {gas : Gas}

theorem resume_eq (request : MessageRequest) (hs : f.status = .suspended)
    (room : f.stack.height < f.stack.limit.toNat) (hg : f.gas.add? outcome.gas = some gas) :
    resume request.outputOffset request.outputLength outcome { f with pending := none } =
      .ok () (f.resumed request outcome gas) := by
  have hpush := Stack.push_eq (s := f.stack) (Word.ofBool outcome.success) room
  unfold resume
  rw [if_neg fun hn => hn hs]
  simp only [credit, hg, Option.map_some, hpush]
  unfold resumed adopt
  cases outcome.success <;> rfl

theorem Waits.size_resumed (hw : f.Waits request) :
    (f.resumed request outcome gas).memory.size = f.memory.size :=
  size_write_extract hw.window outcome.output

theorem resumed_sound (hf : f.Sound) (hs : f.status = .suspended) (hw : f.Waits request) :
    (f.resumed request outcome gas).Sound := by
  have hheight : (f.resumed request outcome gas).stack.height = f.stack.height + 1 :=
    List.length_cons
  have hreach := hw.reach
  exact
    { height := hheight ▸ hw.room
      limit := .inr hw.limit
      returns := hf.returns
      words := (congrArg (· / 32) hw.size_resumed).trans_lt hf.words
      pc := Nat.le_trans hreach (Nat.le_add_right ..)
      waiting := by simp [resumed]
      unhalted := fun _ => hf.unhalted (by simp [hs])
      halted := by simp [resumed]
      unfailed := by simp [resumed] }

end

end Frame

end MeteredVm
