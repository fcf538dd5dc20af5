import MeteredVm.Proofs.FrameBounds
import MeteredVm.Proofs.Isolation
import MeteredVm.Proofs.SingleStep

/-!
# MeteredVm.Proofs.ChildOutput

What a nested call returns reaches its caller intact.

The output of a call is a slice of its memory, read by its last operation. It travels through the
frame that ended and the outcome to the caller, which keeps all of it as its return data and writes
as much of it to memory as fits into the window that the calling operation named. A call that halts
or never starts has no output.

* `Rules.handsOn`: what the last operation of a frame hands on.
  `Interpreter.output_of_step`: it is the output of the frame.
* `Executor.Answers`: how a frame that waits comes to go on. `Executor.exists_answers`: it always
  does; `Executor.Answers.resumed`: with what it goes on then.
* `Frame.Receives`: the caller with the answer. `Rules.CopiesFrom`: return data can be read in any
  part that lies within it.
* `Executor.output_reaches_caller`: all of this, for each call that is made.
-/

namespace MeteredVm

/-- The output that a frame hands on if the next operation is its last one. -/
def Rules.handsOn (c : Rules) (f : Frame) (w : World) : Bytes :=
  match c.admitted? f w with
  | some .ret | some .revert => f.memory.read (f.operand 0).toNat (f.operand 1).toNat
  | _ => #[]

namespace Instruction

theorem output_frameAfter {fees : FeeSchedule} {f : Frame} {w : World} {i : Instruction}
    (h : (i.statusAfter .executing).isTerminal = true) :
    (i.frameAfter fees f w).output =
      if i = .ret ∨ i = .revert then f.memory.read (f.operand 0).toNat (f.operand 1).toNat
      else #[] := by
  cases i with
  | stop | ret | revert => rfl
  | _ => cases h

end Instruction

namespace Interpreter

variable {c : Rules}

theorem output_of_step {f : Frame} {w : World} {journal : Journal} {s : Step} {m : Machine}
    (h : (ofRules c).step ⟨f, w, journal⟩ = .ok s m) (hended : m.frame.status.isTerminal = true) :
    m.frame.output = c.handsOn f w := by
  have he : f.status = .executing := executing_of_step h
  unfold Rules.handsOn
  rcases frame_of_step h with ⟨i, sig, cost, ha, hm⟩ | ⟨ha, sig, reason, hm⟩
  · rw [hm, Frame.status_performed (f := f.facing sig) he] at hended
    rw [ha, hm, Frame.performed, Frame.advance_eq]
    refine (Instruction.output_frameAfter hended).trans ?_
    cases i <;> rfl
  · rw [ha, hm]
    rfl

/-- A range that an operation touches is no longer than its end, and that keeps to the limit. -/
theorem length_lt_sizeBound {f : Frame} {w : World} {i : Instruction} {r : OperandRange}
    (h : c.admitted? f w = some i) (hr : r ∈ i.ranges f) : r.2.toNat < sizeBound := by
  obtain ⟨-, s, cost, -, -, -, hpasses, -⟩ := step_performs [] h
  have hlimit := Instruction.ranges_of_clear hpasses.clear r (by cases i <;> exact hr)
  by_cases hempty : r.2 = 0
  · rw [hempty]
    decide
  · exact Nat.lt_of_le_of_lt (Nat.le_add_left ..) (Memory.stop_lt_sizeBound hlimit hempty)

theorem size_handsOn (f : Frame) (w : World) : (c.handsOn f w).size ≤ sizeBound := by
  have hread : ∀ {i}, c.admitted? f w = some i → (f.operand 0, f.operand 1) ∈ i.ranges f →
      (f.memory.read (f.operand 0).toNat (f.operand 1).toNat).size ≤ sizeBound := by
    intro i ha hr
    rw [Memory.size_read]
    exact Nat.le_of_lt (length_lt_sizeBound ha hr)
  unfold Rules.handsOn
  split
  · rename_i ha
    exact hread ha List.mem_cons_self
  · rename_i ha
    exact hread ha List.mem_cons_self
  · exact Nat.zero_le _

theorem exists_step_of_outOfSteps {m m' : Machine} {k : Nat} (he : m.frame.status = .executing)
    (h : (ofRules c).run (k + 1) m = .outOfSteps m') :
    ∃ m₁, (ofRules c).step m = .ok .proceed m₁ ∧ m₁.frame.status = .executing ∧
      m₁.frame.returnData = m.frame.returnData ∧ (ofRules c).run k m₁ = .outOfSteps m' := by
  obtain ⟨s, f₁, w₁, journal₁, hstep, hsteps⟩ := step_ofRules c m.world m.journal he
  rw [run_of_step k hstep] at h
  cases s with
  | halt reason | terminal status => cases h
  | proceed =>
    refine ⟨_, hstep, hsteps.executing rfl, ?_, h⟩
    rcases frame_of_step hstep with ⟨i, sig, cost, -, hm⟩ | ⟨-, sig, reason, hm⟩
    · rw [hm, Frame.performed, Frame.advance_eq]
      exact Instruction.returnData_frameAfter ..
    · rw [hm]
      rfl

end Interpreter

/--
A frame that asks for a part of its return data, with operands and gas enough and below the memory
limit, gets those bytes of `o`, and halts if there are not so many.
-/
def Rules.CopiesFrom (c : Rules) (o : Bytes) (m : Machine) : Prop :=
  c.instructionAt? m.frame.code m.frame.pc = some (.copy .returnData) →
  (Instruction.copy .returnData).Suffices c.tariff.fees m.frame m.world →
  m.frame.memory.exceedsLimit (m.frame.operand 0) (m.frame.operand 2) = false →
  let target := (m.frame.operand 0).toNat
  let start := (m.frame.operand 1).toNat
  let len := (m.frame.operand 2).toNat
  (start + len ≤ o.size → ∃ m', (Interpreter.ofRules c).step m = .ok .proceed m' ∧
    ∀ i, m'.frame.memory.byteAt i =
      if target ≤ i ∧ i < target + len then o.byteAt (start + (i - target))
      else m.frame.memory.byteAt i) ∧
  (o.size < start + len → ∃ m',
    (Interpreter.ofRules c).step m = .ok (.halt .returnDataOutOfBounds) m')

theorem Rules.copiesFrom_returnData (c : Rules) {m : Machine} (he : m.frame.status = .executing)
    (hsize : m.frame.returnData.size ≤ sizeBound) : c.CopiesFrom m.frame.returnData m := by
  intro hi hs hlimit target start len
  refine ⟨fun hfits => ?_, fun hover => ?_⟩
  · have hclear : (Instruction.copy .returnData).haltCondition c.tariff.fees m.frame = none := by
      refine (if_pos hfits).trans (Instruction.memoryHalt_eq_none.mpr ?_)
      simpa [Instruction.ranges] using hlimit
    have ha := admitted?_of_suffices he hi hs hclear
    obtain ⟨-, s, cost, journal', -, -, -, hstep⟩ := Interpreter.step_performs m.journal ha
    rw [Frame.stepResult_executing (Frame.status_performed (f := m.frame.facing s) he)] at hstep
    refine ⟨_, hstep, fun i => ?_⟩
    rw [Frame.performed, Frame.advance_eq]
    exact m.frame.memory.byteAt_copy target hsize (m.frame.operand 1) len i
  · have hhalt : (Instruction.copy .returnData).haltCondition c.tariff.fees m.frame =
        some .returnDataOutOfBounds := if_neg (Nat.not_le.mpr hover)
    exact (Interpreter.step_halts_own m.journal he hi (by decide)).mpr ⟨hs, hhalt⟩

/-- The frame `parent` goes on as `caller` with the answer of its child. -/
structure Frame.Receives (parent : Frame) (window : OperandRange) (success : Bool) (o : Bytes)
    (caller : Frame) : Prop where
  executing : caller.status = .executing
  returnData : caller.returnData = o
  flag : caller.stack.items = Word.ofBool success :: parent.stack.items
  size : caller.memory.size = parent.memory.size
  bytes : ∀ i, caller.memory.byteAt i =
    if window.1.toNat ≤ i ∧ i < window.1.toNat + min window.2.toNat o.size then
      o.byteAt (i - window.1.toNat)
    else parent.memory.byteAt i

namespace Frame

variable {parent : Frame} {request : MessageRequest} {window : OperandRange}

/-- The output is cut to the window, and the window lies in the memory. -/
theorem Waits.receives (hw : parent.Waits request)
    (hwindow : (request.outputOffset, request.outputLength) = window.placed)
    (outcome : ChildOutcome) (gas : Gas) :
    parent.Receives window outcome.success outcome.output
      (parent.resumed request outcome gas) where
  executing := rfl
  returnData := rfl
  flag := rfl
  size := hw.size_resumed
  bytes := by
    intro i
    refine (Memory.byteAt_write ..).trans ?_
    rw [Array.size_extract, Nat.sub_zero]
    by_cases hempty : window.2 = 0
    · obtain ⟨-, hlength⟩ := Prod.mk.inj (hwindow.trans (OperandRange.placed_empty hempty))
      have hzero : window.2.toNat = 0 := by rw [hempty]; rfl
      rw [if_neg (by omega), if_neg (by omega)]
    · obtain ⟨hoffset, hlength⟩ := Prod.mk.inj (hwindow.trans (OperandRange.placed_eq hempty))
      rw [hoffset, hlength]
      split
      · exact (Bytes.byteAt_extract _ (by omega)).trans (by rw [Nat.zero_add])
      · rfl

end Frame

theorem CallTree.resumed_of_deliver {t t' : CallTree} {parent : Frame} {rest : List Frame}
    {request : MessageRequest} {outcome : MessageRequest → ChildOutcome}
    (hs : parent.status = .suspended) (hw : parent.Waits request)
    (h : t.deliver parent rest outcome = .running t') :
    ∃ gas, t'.frames = parent.resumed request (outcome request) gas :: rest := by
  cases hg : parent.gas.add? (outcome request).gas with
  | some gas =>
    cases h.symm.trans (deliver_eq outcome hs hw hg)
    exact ⟨gas, rfl⟩
  | none =>
    simp [deliver, hw.pending, Frame.resume, Frame.credit, hs, hg] at h

namespace Executor

/--
The frame that waits in `t` goes on in `t'`, after a child that was refused or one that has ended.
The answer of the child is whether it succeeded and what it handed on.
-/
inductive Answers (c r : Rules) (t : CallTree) : Bool → Bytes → CallTree → Prop
  | refused {t' : CallTree} (next : advance ⟨.ofRules c, r⟩ t = .running t')
    (same : t'.frames.length = t.frames.length) : Answers c r t false #[] t'
  | ended {t₁ t₂ t₃ t' : CallTree} {child last ended : Frame}
    (starts : advance ⟨.ofRules c, r⟩ t = .running t₁) (started : t₁.frames = child :: t.frames)
    (runs : Within ⟨.ofRules c, r⟩ (t.frames.length + 1) t₁ t₂)
    (before : t₂.frames = last :: t.frames) (executing : last.status = .executing)
    (ends : advance ⟨.ofRules c, r⟩ t₂ = .running t₃) (after : t₃.frames = ended :: t.frames)
    (terminal : ended.status.isTerminal = true)
    (returns : advance ⟨.ofRules c, r⟩ t₃ = .running t') :
    Answers c r t (decide (ended.status = .succeeded)) (c.handsOn last t₂.world) t'

section

variable {c r : Rules} {t t' : CallTree} {f parent : Frame} {rest : List Frame}
  {request : MessageRequest} {success : Bool} {o : Bytes}

theorem Answers.resumed (h : Answers c r t success o t') (hframes : t.frames = parent :: rest)
    (hs : parent.status = .suspended) (hw : parent.Waits request) :
    ∃ outcome gas, t'.frames = parent.resumed request outcome gas :: rest ∧
      outcome.success = success ∧ outcome.output = o := by
  cases h with
  | refused next same =>
    rw [advance_suspended hframes hs] at next
    rcases refused_or_started r parent request t.world with hn | ⟨hd, u, hu⟩
    · obtain ⟨e, hrefused⟩ := startChild_refused c rest hw.pending hn
      rw [hrefused] at next
      obtain ⟨gas, hafter⟩ := CallTree.resumed_of_deliver hs hw next
      exact ⟨_, gas, hafter, rfl, rfl⟩
    · obtain ⟨t₁, hstart, hafter, -⟩ := advance_started (c := c) hframes hs hw.pending hd hu
      rw [advance_suspended hframes hs] at hstart
      cases hstart.symm.trans next
      rw [hafter, hframes] at same
      exact absurd same (Nat.succ_ne_self _)
  | @ended t₁ t₂ t₃ _ child last ended _ _ _ before executing ends after terminal returns =>
    obtain ⟨s, m, hstep, hm⟩ := advance_executing before executing ends
    obtain ⟨rfl, -⟩ := List.cons.inj (after.symm.trans hm)
    rw [hframes] at after
    rw [advance_of_isTerminal after terminal, finish] at returns
    split at returns
    · cases returns
    · obtain ⟨gas, hafter⟩ := CallTree.resumed_of_deliver hs hw returns
      exact ⟨_, gas, hafter, rfl, Interpreter.output_of_step hstep terminal⟩

theorem Answers.size_le (h : Answers c r t success o t') : o.size ≤ sizeBound := by
  cases h with
  | refused => exact Nat.zero_le _
  | ended => exact Interpreter.size_handsOn _ _

theorem exists_answers (c r : Rules) (hframes : t.frames = parent :: rest)
    (hs : parent.status = .suspended) (hw : parent.Waits request)
    (hlt : parent.gas.toNat + request.gas.toNat < 0x1_0000_0000_0000_0000) :
    ∃ success o t', Answers c r t success o t' := by
  rcases refused_or_started r parent request t.world with hn | ⟨hd, u, hu⟩
  · obtain ⟨gas, t', -, hnext, hafter, -⟩ :=
      advance_refused_of_lt (c := c) hframes hs hw hn hlt
    exact ⟨_, _, t', .refused hnext (by rw [hafter, hframes]; rfl)⟩
  · obtain ⟨t₁, hstart, hstarted, rfl, -⟩ :=
      advance_started (c := c) hframes hs hw.pending hd hu
    have houter : t₁.world.outer = t.world.substates := (World.transfer_sameBelow hu).outer
    rw [← hframes] at hstarted
    obtain ⟨t₂, t₃, last, ended, hruns, hbefore, hexecuting, hends, hafter, hterminal, hgas,
      hbelow⟩ := child_ends c r hstarted (Frame.start_sound _ _) rfl
        (by rw [houter]; exact List.cons_ne_nil _ _)
    obtain ⟨changes, hleave, -⟩ :=
      World.leave_cons ended.status.merge (hbelow.outer.trans houter)
    have hback : parent.gas.toNat + ended.gasBack.toNat < 0x1_0000_0000_0000_0000 :=
      Nat.lt_of_le_of_lt (Nat.add_le_add_left (Nat.le_trans ended.gasBack_le hgas) _) hlt
    obtain ⟨gas, t₄, -, hreturns, -⟩ :=
      advance_returned_of_lt (c := c) (r := r) (hframes ▸ hafter) hterminal hs hw hleave hback
    exact ⟨_, _, t₄, .ended hstart hstarted hruns hbefore hexecuting hends hafter hterminal
      hreturns⟩

/-- A call that is executed leaves its frame waiting, with the window for the output. -/
theorem advance_call {kind : CallKind} (h : t.frames = f :: rest)
    (hcall : c.admitted? f t.world = some (.call kind)) :
    ∃ t₁ parent request, advance ⟨.ofRules c, r⟩ t = .running t₁ ∧
      t₁.frames = parent :: rest ∧ parent.status = .suspended ∧ parent.Waits request ∧
      (request.outputOffset, request.outputLength) = (Call.outputRange kind f).placed ∧
      parent.gas.toNat + request.gas.toNat < 0x1_0000_0000_0000_0000 := by
  obtain ⟨-, s, cost, journal', -, he, hpasses, hstep⟩ :=
    Interpreter.step_performs t.journal hcall
  have hreach := Rules.lt_size_of_instructionAt? (Rules.instructionAt?_of_admitted? hcall)
  have hstatus : ((f.facing s).performed c.tariff.fees t.world (.call kind) cost s).status =
      .suspended := Frame.status_performed (f := f.facing s) he
  obtain ⟨request, hwaits, hgas⟩ :=
    Frame.suspended_performed (f := f.facing s) he hpasses hreach hstatus
  have hpending : ((f.facing s).performed c.tariff.fees t.world (.call kind) cost s).pending =
      some (Call.requested kind ((f.facing s).paid cost)
        ((Call.childGas? c.tariff.fees kind ((f.facing s).paid cost) t.world).getD 0)) := by
    rw [Frame.performed, Frame.advance_eq]
    exact Instruction.pending_call ..
  obtain rfl := Option.some.inj (hwaits.pending.symm.trans hpending)
  have hpaid : cost.toNat ≤ f.gas.toNat := hpasses.paid
  have hleft : ((f.facing s).performed c.tariff.fees t.world (.call kind) cost s).gas.toNat =
      f.gas.toNat - cost.toNat := congrArg Gas.toNat Frame.gas_performed
  have hlt := f.gas.isLt
  have hadvance : advance ⟨.ofRules c, r⟩ t = .running { t with
      frames := (f.facing s).performed c.tariff.fees t.world (.call kind) cost s :: rest
      world := (Instruction.call kind).worldAfter (f.facing s) t.world
      journal := journal' } := by
    simp only [advance, h, he, stepFrame, hstep]
  exact ⟨_, _, _, hadvance, rfl, hstatus, hwaits, by cases kind <;> rfl, by omega⟩

/-- The steps of a frame are moves of the message, and its return data stays, while it goes on. -/
theorem run_of_outOfSteps (r : Rules) {m : Machine} (k : Nat) : ∀ {t : CallTree} {f : Frame},
    t.frames = f :: rest → f.status = .executing →
      (Interpreter.ofRules c).run k ⟨f, t.world, t.journal⟩ = .outOfSteps m →
      run ⟨.ofRules c, r⟩ k t = .running
          { t with frames := m.frame :: rest, world := m.world, journal := m.journal } ∧
        m.frame.status = .executing ∧ m.frame.returnData = f.returnData := by
  induction k with
  | zero =>
    intro t f h he hrun
    cases hrun
    exact ⟨by rw [← h]; rfl, he, rfl⟩
  | succ k ih =>
    intro t f h he hrun
    obtain ⟨m₁, hstep, he₁, hdata, hrest⟩ := Interpreter.exists_step_of_outOfSteps he hrun
    have hadvance : advance ⟨.ofRules c, r⟩ t = .running { t with
        frames := m₁.frame :: rest, world := m₁.world, journal := m₁.journal } := by
      simp only [advance, h, he, stepFrame, hstep]
    obtain ⟨hmoves, hexecuting, hkept⟩ := ih (t := { t with
        frames := m₁.frame :: rest, world := m₁.world, journal := m₁.journal }) rfl he₁ hrest
    refine ⟨?_, hexecuting, hkept.trans hdata⟩
    rw [run, hadvance]
    exact hmoves

end

/--
A call that is executed suspends its frame, and the frame comes to go on when the child was refused
or has ended. Then its return data is the whole output of the child; its memory is as large as it
was and is changed only in the window, as far as the output goes; and the flag on its stack says
whether the child succeeded. As long as the frame goes on, it can read its return data in any part
that lies within it, and it halts if it asks for any other.
-/
theorem output_reaches_caller (c r : Rules) (t : CallTree) (f : Frame) (rest : List Frame)
    (kind : CallKind) (h : t.frames = f :: rest)
    (hcall : c.admitted? f t.world = some (.call kind)) :
    ∃ t₁ parent, advance ⟨.ofRules c, r⟩ t = .running t₁ ∧ t₁.frames = parent :: rest ∧
      parent.status = .suspended ∧ (∃ success o t₂, Answers c r t₁ success o t₂) ∧
      ∀ success o t₂, Answers c r t₁ success o t₂ →
        ∃ caller, t₂.frames = caller :: rest ∧
          parent.Receives (Call.outputRange kind f) success o caller ∧
          ∀ k m, (Interpreter.ofRules c).run k ⟨caller, t₂.world, t₂.journal⟩ = .outOfSteps m →
            run ⟨.ofRules c, r⟩ k t₂ = .running
                { t₂ with frames := m.frame :: rest, world := m.world, journal := m.journal } ∧
              c.CopiesFrom o m := by
  obtain ⟨t₁, parent, request, hadvance, hframes, hs, hwaits, hwindow, hlt⟩ :=
    advance_call (r := r) h hcall
  refine ⟨t₁, parent, hadvance, hframes, hs, exists_answers c r hframes hs hwaits hlt, ?_⟩
  intro success o t₂ hanswers
  have hsize := hanswers.size_le
  obtain ⟨outcome, gas, hafter, rfl, rfl⟩ := hanswers.resumed hframes hs hwaits
  refine ⟨_, hafter, hwaits.receives hwindow outcome gas, fun k m hrun => ?_⟩
  obtain ⟨hmoves, hexecuting, hdata⟩ := run_of_outOfSteps r k hafter rfl hrun
  refine ⟨hmoves, ?_⟩
  rw [show outcome.output = m.frame.returnData from hdata.symm] at hsize ⊢
  exact c.copiesFrom_returnData hexecuting hsize

/-- Calls account 6 with a window of two bytes, and then copies bytes 1 to 3 and 2 to 4. -/
def inquiring : Message where
  code := Code.ofBytes
    #[0x60, 2, 0x60, 1, 0x60, 0, 0x60, 0, 0x60, 0, 0x60, 6, 0x61, 0x75, 0x30, 0xf1,
      0x60, 3, 0x60, 1, 0x60, 0, 0x3e, 0x60, 3, 0x60, 2, 0x60, 0, 0x3e] 0
  initialGas := 100000
  address := 5

def inquired : World :=
  let code := #[0x63, 1, 2, 3, 4, 0x60, 0, 0x52, 0x60, 4, 0x60, 28, 0xfd]
  { base := ({} : Ledger).insert 6 { code } }

def inquiry : Nat → CallTree
  | 0 => begin (Frame.start inquiring {}) inquired {} []
  | k + 1 => (advance ⟨.ofRules .london, .london⟩ (inquiry k)).tree

set_option maxRecDepth 8000 in
theorem inquiry_goes_on : ∀ k < 16,
    (advance ⟨.ofRules .london, .london⟩ (inquiry k)).outcome? = none ∧
      (advance ⟨.ofRules .london, .london⟩ (inquiry k)).failure? = none := by
  decide +kernel

theorem advance_inquiry {k : Nat} (hk : k < 16) :
    advance ⟨.ofRules .london, .london⟩ (inquiry k) = .running (inquiry (k + 1)) :=
  Progress.eq_running (inquiry_goes_on k hk).1 (inquiry_goes_on k hk).2

set_option maxRecDepth 8000 in
theorem inquiry_calls :
    (inquiry 7).frames.map (Rules.london.admitted? · (inquiry 7).world) = [some (.call .call)] ∧
    (inquiry 8).frames.length = 1 ∧ (∀ k < 7, (inquiry (k + 9)).frames.length = 2) ∧
    (inquiry 14).frames.map (fun f => (f.status, Rules.london.handsOn f (inquiry 14).world)) =
      [(.executing, #[1, 2, 3, 4]), (.suspended, #[])] ∧
    (inquiry 15).frames.map (·.status) = [.reverted, .suspended] := by
  decide +kernel

theorem inquiry_sound {k : Nat} (hk : k ≤ 16) : (inquiry k).Sound := by
  induction k with
  | zero => exact begin_sound _ _ _ _ _
  | succ k ih => exact (sound_of_advance (ih (by omega)) (advance_inquiry hk)).1

theorem within_inquiry {k : Nat} (hk : k < 7) :
    Within ⟨.ofRules .london, .london⟩ 2 (inquiry 9) (inquiry (k + 9)) := by
  induction k with
  | zero => exact .refl
  | succ k ih =>
    refine .move (ih (by omega)) (advance_inquiry (by omega)) ?_
    exact Nat.le_of_eq (inquiry_calls.2.2.1 (k + 1) hk).symm

theorem inquiry_frames {k : Nat} (hk : k < 7) :
    ∃ child, (inquiry (k + 9)).frames = child :: (inquiry 8).frames := by
  obtain ⟨-, hcaller, hlength, -⟩ := inquiry_calls
  have hs : (inquiry 8).Sound := inquiry_sound (by omega)
  have hstarted : ∃ child, (inquiry 9).frames = child :: (inquiry 8).frames := by
    have hone := hlength 0 (by omega)
    cases advance_transition hs (advance_inquiry (k := 8) (by omega)) with
    | stepped before _ _ after | refused before _ _ _ _ after | returned before _ _ _ _ _ after =>
      rw [before] at hcaller
      rw [after] at hone
      simp only [List.length_cons] at hcaller hone
      omega
    | started before _ _ _ _ after =>
      rw [before]
      exact ⟨_, after⟩
  obtain ⟨child, hchild⟩ : ∃ child, (inquiry 9).frames = [] ++ child :: (inquiry 8).frames :=
    hstarted
  obtain ⟨upper, f, hframes, -⟩ := frame_of_within (P := fun _ => True) (fun _ _ _ => trivial)
    (fun _ _ _ => trivial) (inquiry_sound (by omega))
    (by rw [hcaller]; exact within_inquiry hk) hchild trivial
  have htwo := hlength k hk
  rw [hframes, List.length_append, List.length_cons, hcaller] at htwo
  obtain rfl : upper = [] := List.eq_nil_of_length_eq_zero (by omega)
  exact ⟨f, hframes⟩

theorem answers_inquiry : Answers .london .london (inquiry 8) false #[1, 2, 3, 4] (inquiry 16) := by
  obtain ⟨-, hcaller, -, hlast, hended⟩ := inquiry_calls
  obtain ⟨child, hchild⟩ := inquiry_frames (k := 0) (by omega)
  obtain ⟨last, hbefore⟩ := inquiry_frames (k := 5) (by omega)
  obtain ⟨ended, hafter⟩ := inquiry_frames (k := 6) (by omega)
  rw [hbefore, List.map_cons, List.cons.injEq, Prod.mk.injEq] at hlast
  rw [hafter, List.map_cons, List.cons.injEq] at hended
  have hanswers := Answers.ended (advance_inquiry (k := 8) (by omega)) hchild ?_ hbefore hlast.1.1
    (advance_inquiry (k := 14) (by omega)) hafter (by rw [hended.1]; rfl)
    (advance_inquiry (k := 15) (by omega))
  · rw [hlast.1.2, hended.1] at hanswers
    exact hanswers
  · rw [hcaller]
    exact within_inquiry (k := 5) (by omega)

def informed : Machine :=
  ⟨(inquiry 16).frames.headD (Frame.start inquiring {}), (inquiry 16).world, (inquiry 16).journal⟩

/-- The operands of a copy of return data that a frame is about to make and has the means for. -/
def copying? (c : Rules) : Run → Option (Nat × Nat × Nat)
  | .outOfSteps m =>
    if c.instructionAt? m.frame.code m.frame.pc = some (.copy .returnData) ∧
        (Instruction.copy .returnData).Suffices c.tariff.fees m.frame m.world ∧
        m.frame.memory.exceedsLimit (m.frame.operand 0) (m.frame.operand 2) = false then
      some ((m.frame.operand 0).toNat, (m.frame.operand 1).toNat, (m.frame.operand 2).toNat)
    else none
  | .ended _ _ => none

theorem copies_of_copying {c : Rules} {run : Run} {o : Bytes} {target start len : Nat}
    (h : copying? c run = some (target, start, len))
    (hcopies : ∀ m, run = .outOfSteps m → c.CopiesFrom o m) :
    ∃ m, run = .outOfSteps m ∧
      (start + len ≤ o.size → ∃ m', (Interpreter.ofRules c).step m = .ok .proceed m' ∧
        ∀ i, m'.frame.memory.byteAt i =
          if target ≤ i ∧ i < target + len then o.byteAt (start + (i - target))
          else m.frame.memory.byteAt i) ∧
      (o.size < start + len → ∃ m',
        (Interpreter.ofRules c).step m = .ok (.halt .returnDataOutOfBounds) m') := by
  cases run with
  | ended result m => cases h
  | outOfSteps m =>
    rw [copying?] at h
    split at h
    · rename_i hmeans
      cases h
      exact ⟨m, rfl, hcopies m rfl hmeans.1 hmeans.2.1 hmeans.2.2⟩
    · cases h

set_option maxRecDepth 8000 in
theorem informed_copies :
    copying? .london ((Interpreter.ofRules .london).run 3 informed) = some (0, 1, 3) ∧
      copying? .london ((Interpreter.ofRules .london).run 7 informed) = some (0, 2, 3) := by
  decide +kernel

/--
The callee reverts with four bytes. Two of them fit into the window of the caller, which then reads
the last three from its return data; it halts when it asks for one that is not there.
-/
theorem output_reaches_caller_inquiry : ∃ f parent caller,
    (inquiry 7).frames = [f] ∧ (inquiry 8).frames = [parent] ∧ (inquiry 16).frames = [caller] ∧
    Answers .london .london (inquiry 8) false #[1, 2, 3, 4] (inquiry 16) ∧
    parent.Receives (Call.outputRange .call f) false #[1, 2, 3, 4] caller ∧
    (∃ m m',
      (Interpreter.ofRules .london).run 3 ⟨caller, (inquiry 16).world, (inquiry 16).journal⟩ =
        .outOfSteps m ∧
      (Interpreter.ofRules .london).step m = .ok .proceed m' ∧
      m'.frame.memory.byteAt 2 = 4) ∧
    ∃ m m',
      (Interpreter.ofRules .london).run 7 ⟨caller, (inquiry 16).world, (inquiry 16).journal⟩ =
        .outOfSteps m ∧
      (Interpreter.ofRules .london).step m = .ok (.halt .returnDataOutOfBounds) m' := by
  obtain ⟨f, hframes, hcall⟩ := List.map_eq_singleton_iff.mp inquiry_calls.1
  obtain ⟨t₁, parent, hadvance, hparent, -, -, hgoes⟩ :=
    output_reaches_caller .london .london (inquiry 7) f [] .call hframes hcall
  have hsuspended : t₁ = inquiry 8 :=
    Progress.running.inj (hadvance.symm.trans (advance_inquiry (k := 7) (by omega)))
  rw [hsuspended] at hparent hgoes
  obtain ⟨caller, hcaller, hreceives, hcopies⟩ := hgoes _ _ _ answers_inquiry
  have hinformed : informed = ⟨caller, (inquiry 16).world, (inquiry 16).journal⟩ := by
    rw [informed, hcaller]
    rfl
  obtain ⟨hfirst, hsecond⟩ := informed_copies
  rw [hinformed] at hfirst hsecond
  obtain ⟨m, hrun, hcopied, -⟩ := copies_of_copying hfirst fun m h => (hcopies 3 m h).2
  obtain ⟨m₁, hrun₁, -, hhalts⟩ := copies_of_copying hsecond fun m h => (hcopies 7 m h).2
  obtain ⟨m', hstep, hbytes⟩ := hcopied (by decide)
  obtain ⟨m₁', hstep₁⟩ := hhalts (by decide)
  exact ⟨f, parent, caller, hframes, hparent, hcaller, answers_inquiry, hreceives,
    ⟨m, m', hrun, hstep, (hbytes 2).trans ((if_pos (by decide)).trans (by decide))⟩,
    m₁, m₁', hrun₁, hstep₁⟩

end Executor

end MeteredVm
