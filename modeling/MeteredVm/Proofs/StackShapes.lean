import MeteredVm.Proofs.MemoryFees

/-!
# MeteredVm.Proofs.StackShapes

The declared shape of an operation is what it does to the stack.

The checks only compare two numbers of a table with the height of the stack, and the effect pops and
pushes elsewhere; a call even pops in its own effect and pushes when its frame is resumed. What ties
them together is that an effect commutes with replacing everything below the operands: the price,
the refusal and the effect are the same over any other lower stack, and that stack is left as it is.

* `Frame.above`: a frame with its top items standing on another stack.
* `Instruction.cost_above`, `Instruction.haltCondition_above`, `Instruction.frameAfter_above`: none
  of them looks below the operands.
* `Operation.complete`: an effect with the outcome of the child, if it asks for one.
  `Instruction.completed` is what it comes to.
* `Operation.shape_as_declared`: every operation of a table.
-/

namespace MeteredVm

/-- The frame with the top `n` items of its stack standing on `rest`. -/
def Frame.above (f : Frame) (n : Nat) (rest : List Word) : Frame :=
  { f with stack := { f.stack with items := f.stack.items.take n ++ rest } }

def Machine.above (m : Machine) (n : Nat) (rest : List Word) : Machine :=
  m.withFrame (m.frame.above n rest)

namespace Frame

variable {f : Frame} {n k : Nat} {rest : List Word}

theorem length_take (h : n ≤ f.stack.height) : (f.stack.items.take n).length = n := by
  rw [List.length_take]
  exact Nat.min_eq_left h

theorem height_above (rest : List Word) (h : n ≤ f.stack.height) :
    (f.above n rest).stack.height = n + rest.length := by
  rw [Stack.height, above, List.length_append, length_take h]

theorem operand_above (h : n ≤ f.stack.height) (hk : k < n) :
    (f.above n rest).operand k = f.operand k := by
  have hlen : k < (f.stack.items.take n).length := by rwa [length_take h]
  simp only [operand, Stack.operand, above, List.getD_eq_getElem?_getD]
  rw [List.getElem?_append_left hlen, List.getElem?_take_of_lt hk]

theorem replaceTop_above (h : n ≤ f.stack.height) (hk : k ≤ n) (results : List Word) :
    (f.above n rest).replaceTop k results =
      (f.replaceTop k results).above (n - k + results.length) rest := by
  have hlen : k ≤ (f.stack.items.take n).length := by rwa [length_take h]
  simp only [replaceTop, above]
  rw [List.drop_append_of_le_length hlen, List.drop_take, Nat.add_comm (n - k),
    List.take_length_add_append, List.append_assoc]

theorem replaceTop_above_self (h : n ≤ f.stack.height) (results : List Word) :
    (f.above n rest).replaceTop n results = (f.replaceTop n results).above results.length rest := by
  rw [replaceTop_above h (Nat.le_refl n), Nat.sub_self, Nat.zero_add]

theorem set_set_above (h : n + 2 ≤ f.stack.height) (a b : Word) :
    ((f.above (n + 2) rest).stack.items.set 0 a).set (n + 1) b =
      ((f.stack.items.set 0 a).set (n + 1) b).take (n + 2) ++ rest := by
  have hlen := length_take h
  rw [above, List.set_append_left 0 a (by omega),
    List.set_append_left (n + 1) b (by rw [List.length_set]; omega), List.take_set, List.take_set]

theorem above_drop (f : Frame) (n : Nat) : f.above n (f.stack.items.drop n) = f := by
  rw [above, List.take_append_drop]

theorem drop_of_above (h : f.above n rest = f) (hheight : f.stack.height = rest.length + n) :
    f.stack.items.drop n = rest := by
  have hlen : (f.stack.items.take n).length = n := length_take (by omega)
  have hitems : f.stack.items.take n ++ rest = f.stack.items :=
    congrArg (fun g : Frame => g.stack.items) h
  exact (List.append_cancel_left (hitems.trans (List.take_append_drop n _).symm)).symm

theorem finished_above (status : Status) (h : 2 ≤ f.stack.height) :
    (f.above 2 rest).finished status = (f.finished status).above 0 rest := by
  simp (disch := omega) only [finished, operand_above h, replaceTop_above_self h]
  rfl

end Frame

theorem Machine.above_drop (m : Machine) (n : Nat) :
    m.above n (m.frame.stack.items.drop n) = m := by
  rw [above, Frame.above_drop]
  rfl

namespace Call

variable {fees : FeeSchedule} {kind : CallKind} {f : Frame} {w : World} {rest : List Word}
  (h : inputIndex kind + 4 ≤ f.stack.height)

include h

theorem value_above : value kind (f.above (inputIndex kind + 4) rest) = value kind f := by
  rw [value, value, Frame.operand_above h (by omega)]

theorem inputRange_above :
    inputRange kind (f.above (inputIndex kind + 4) rest) = inputRange kind f := by
  rw [inputRange, inputRange, Frame.operand_above h (by omega), Frame.operand_above h (by omega)]

theorem outputRange_above :
    outputRange kind (f.above (inputIndex kind + 4) rest) = outputRange kind f := by
  rw [outputRange, outputRange, Frame.operand_above h (by omega), Frame.operand_above h (by omega)]

theorem baseCost_above :
    baseCost fees kind (f.above (inputIndex kind + 4) rest) w = baseCost fees kind f w := by
  simp (disch := omega) only [baseCost, memoryCost, recipientIsNew, value_above h,
    inputRange_above h, outputRange_above h, Frame.operand_above h]
  rfl

theorem cost_above :
    Call.cost fees kind (f.above (inputIndex kind + 4) rest) w = Call.cost fees kind f w := by
  simp (disch := omega) only [Call.cost, baseCost_above h, Frame.operand_above h]
  rfl

theorem childGas_above :
    childGas? fees kind (f.above (inputIndex kind + 4) rest) w = childGas? fees kind f w := by
  simp only [childGas?, share, baseCost_above h, value_above h]
  rfl

theorem requested_above (gas : Gas) :
    requested kind (f.above (inputIndex kind + 4) rest) gas = requested kind f gas := by
  simp (disch := omega) only [requested, value_above h, inputRange_above h, outputRange_above h,
    Frame.operand_above h]
  cases kind <;> rfl

theorem suspended_above (gas : Gas) :
    suspended kind (f.above (inputIndex kind + 4) rest) gas =
      (suspended kind f gas).above 0 rest := by
  simp only [suspended, inputRange_above h, outputRange_above h, requested_above h,
    Frame.replaceTop_above_self h]
  rfl

end Call

namespace Instruction

section

variable {fees : FeeSchedule} {f : Frame} {w : World} {i : Instruction} {rest : List Word}

theorem ranges_above (rest : List Word) (h : i.signature.consumed ≤ f.stack.height) :
    i.ranges (f.above i.signature.consumed rest) = i.ranges f := by
  cases i with
  | call kind =>
    rw [Call.consumed_eq] at h ⊢
    rw [ranges, ranges, Call.inputRange_above h, Call.outputRange_above h]
  | ret | revert | keccak | log | copy | memoryLoad | memoryStore | memoryStoreByte =>
    simp only [signature, plain] at h ⊢
    simp (disch := omega) only [ranges, Frame.operand_above h]
  | _ => rfl

theorem cost_above (h : i.signature.consumed ≤ f.stack.height) :
    i.cost fees (f.above i.signature.consumed rest) w = i.cost fees f w := by
  cases i with
  | call kind =>
    rw [Call.consumed_eq] at h ⊢
    exact Call.cost_above h
  | ret | revert | copy | keccak | memoryLoad | memoryStore | memoryStoreByte | storageStore
  | log =>
    simp only [signature, plain] at h ⊢
    simp (disch := omega) only [cost, Frame.operand_above h]
    rfl
  | binary op =>
    simp only [signature, plain] at h ⊢
    cases op with
    | exp => simp (disch := omega) only [cost, binaryCost, Frame.operand_above h]
    | _ => rfl
  | read what => cases what <;> rfl
  | _ => rfl

theorem haltCondition_above (h : i.signature.consumed ≤ f.stack.height) :
    i.haltCondition fees (f.above i.signature.consumed rest) = i.haltCondition fees f := by
  have hranges := ranges_above rest h
  cases i with
  | call kind =>
    simp only [haltCondition, hranges]
    rw [Call.consumed_eq] at h ⊢
    rw [Call.value_above h]
    rfl
  | copy source =>
    cases source with
    | returnData =>
      simp only [haltCondition, hranges]
      simp only [signature, plain] at h ⊢
      simp (disch := omega) only [Frame.operand_above h]
      rfl
    | _ =>
      simp only [haltCondition, hranges]
      rfl
  | jump | jumpIf | jumpSub =>
    simp only [signature, plain] at h ⊢
    simp (disch := omega) only [haltCondition, jumpSubHalt, Frame.operand_above h]
    rfl
  | storageStore | returnSub => rfl
  | _ =>
    simp only [haltCondition, hranges]
    rfl

/-- The effect leaves the lower items as they are, and puts its results on top of them. -/
theorem frameAfter_above (h : i.signature.consumed ≤ f.stack.height) :
    i.frameAfter fees (f.above i.signature.consumed rest) w =
      (i.frameAfter fees f w).above i.pushed rest := by
  cases i with
  | call kind =>
    rw [Call.consumed_eq] at h ⊢
    rw [frameAfter, frameAfter, Call.childGas_above h, Call.suspended_above h]
    rfl
  | stop | jumpDest | beginSub | returnSub => rfl
  | ret | revert => exact Frame.finished_above _ h
  | read what =>
    have hread : what.value (f.above 0 rest) w = what.value f w := by cases what <;> rfl
    exact (congrArg (fun value => (f.above 0 rest).replaceTop 0 [value]) hread).trans
      (Frame.replaceTop_above_self h _)
  | lookup what =>
    simp only [signature, plain] at h ⊢
    simp (disch := omega) only [frameAfter, Frame.operand_above h, Frame.replaceTop_above_self h]
    cases what <;> rfl
  | copy source =>
    simp only [signature, plain] at h ⊢
    simp (disch := omega) only [frameAfter, Frame.operand_above h, Frame.replaceTop_above_self h]
    cases source <;> rfl
  | dup n =>
    have hn : n.val + 1 ≤ f.stack.height := h
    -- the operand that is copied stays, so only the copy is new
    show (f.above (n + 1) rest).replaceTop 0 [(f.above (n + 1) rest).operand n] = _
    rw [Frame.operand_above hn (by omega), Frame.replaceTop_above hn (by omega)]
    rfl
  | swap n =>
    simp only [signature, plain] at h ⊢
    simp (disch := omega) only [frameAfter, Frame.operand_above h, Frame.set_set_above h]
    rfl
  | log n =>
    simp only [signature, plain] at h ⊢
    have htopics : ((List.range n).map fun k => (f.above (n + 2) rest).operand (k + 2)) =
        (List.range n).map fun k => f.operand (k + 2) := by
      refine List.map_congr_left fun k hk => Frame.operand_above h ?_
      have hlt := List.mem_range.mp hk
      omega
    simp (disch := omega) only [frameAfter, htopics, Frame.operand_above h,
      Frame.replaceTop_above_self h]
    rfl
  | _ =>
    simp only [signature, plain] at h ⊢
    simp (disch := omega) only [frameAfter, Frame.operand_above h, Frame.replaceTop_above_self h]
    rfl

theorem machineAfter_above {m : Machine} (h : i.signature.consumed ≤ m.frame.stack.height) :
    i.machineAfter fees (m.above i.signature.consumed rest) =
      (i.machineAfter fees m).above i.pushed rest := by
  have hframe : i.frameAfter fees (m.frame.above i.signature.consumed rest) m.world =
      (i.frameAfter fees m.frame m.world).above i.pushed rest := frameAfter_above h
  have hworld : i.worldAfter (m.frame.above i.signature.consumed rest) m.world =
      i.worldAfter m.frame m.world := by
    cases i with
    | storageStore =>
      simp only [signature, plain] at h ⊢
      simp (disch := omega) only [worldAfter, Frame.operand_above h]
      rfl
    | _ => rfl
  have hevents : i.eventsAfter fees (m.frame.above i.signature.consumed rest) m.world =
      i.eventsAfter fees m.frame m.world := by
    cases i with
    | call kind =>
      rw [Call.consumed_eq] at h ⊢
      rw [eventsAfter, eventsAfter, Call.childGas_above h, Call.requested_above h]
    | _ => rfl
  simp only [machineAfter, Machine.above, Machine.withFrame, hframe, hworld, hevents]

theorem Passes.above {cost : Gas} (h : i.Passes fees f w cost)
    (hrest : rest.length ≤ f.stack.height - i.signature.consumed) :
    i.Passes fees (f.above i.signature.consumed rest) w cost := by
  have hheight := Frame.height_above rest h.operands
  have hroom : (f.above i.signature.consumed rest).stack.height - i.signature.consumed +
      i.signature.produced ≤ f.stack.limit.toNat := by
    have hbefore := h.room
    omega
  exact
    { operands := by omega
      room := hroom
      limit := h.limit
      price := (cost_above h.operands).trans h.price
      paid := h.paid
      clear := (haltCondition_above h.operands).trans h.clear }

end

end Instruction

namespace Operation

theorem stackHalt_of_height_le {s : Signature} {stack stack' : Stack}
    (h : stackHalt s stack = none) (hlimit : stack'.limit = stack.limit)
    (hle : stack'.height ≤ stack.height) (hc : s.consumed ≤ stack'.height) :
    stackHalt s stack' = none := by
  unfold stackHalt at h ⊢
  by_cases hfull : stack.limit.toInt64.toInt < stack.height + s.stackChange
  · rw [if_pos hfull] at h
    cases h
  · rw [hlimit, if_neg (by omega), if_neg (by omega)]

theorem check_above {fees : FeeSchedule} {i : Instruction} {f : Frame} {w : World}
    {rest : List Word} (h : ((i.toOperation fees).check f w).halt = none)
    (hc : i.signature.consumed ≤ f.stack.height)
    (hrest : rest.length ≤ f.stack.height - i.signature.consumed) :
    (i.toOperation fees).check (f.above i.signature.consumed rest) w =
      (i.toOperation fees).check f w := by
  obtain ⟨hstack, -⟩ := check_halt_eq_none h
  have hheight := Frame.height_above rest hc
  have hle : (f.above i.signature.consumed rest).stack.height ≤ f.stack.height := by omega
  have hoperands : i.signature.consumed ≤ (f.above i.signature.consumed rest).stack.height := by
    omega
  have hstack' : stackHalt (i.toOperation fees).toSignature
      (f.above i.signature.consumed rest).stack = none :=
    stackHalt_of_height_le hstack rfl hle hoperands
  have hcost : (i.toOperation fees).cost (f.above i.signature.consumed rest) w =
      (i.toOperation fees).cost f w := Instruction.cost_above hc
  have hclear : (i.toOperation fees).haltCondition (f.above i.signature.consumed rest) w =
      (i.toOperation fees).haltCondition f w := Instruction.haltCondition_above hc
  simp only [check, hstack, hstack', hcost, hclear]
  rfl

end Operation

namespace Action

/-- Hands the outcome of its child to the frame, which waited for it. -/
def resume (outcome : ChildOutcome) : Action Unit := fun m =>
  match m.frame.pending with
  | none => .error .unhandledSuspension m
  | some request =>
    match Frame.resume request.outputOffset request.outputLength outcome
      { m.frame with pending := none } with
    | .ok _ f => .ok () (m.withFrame f)
    | .error failure f => .error failure (m.withFrame f)

def mapEnd (change : Machine → Machine) :
    EStateM.Result Fatal Machine Unit → EStateM.Result Fatal Machine Unit
  | .ok _ m => .ok () (change m)
  | .error failure m => .error failure (change m)

theorem after_of_mapEnd {a : Action Unit} {change : Machine → Machine} {m : Machine}
    (h : mapEnd change (a m) = a m) : change (a.after m) = a.after m := by
  unfold after
  cases ha : a m with
  | ok _ m' =>
    rw [ha] at h
    exact EStateM.Result.ok.inj h |>.2
  | error failure m' =>
    rw [ha] at h
    exact EStateM.Result.error.inj h |>.2

theorem resume_eq {m : Machine} {request : MessageRequest} {outcome : ChildOutcome} {gas : Gas}
    (hp : m.frame.pending = some request) (hs : m.frame.status = .suspended)
    (room : m.frame.stack.height < m.frame.stack.limit.toNat)
    (hg : m.frame.gas.add? outcome.gas = some gas) :
    resume outcome m = .ok () (m.withFrame (m.frame.resumed request outcome gas)) := by
  simp only [resume, hp, Frame.resume_eq request hs room hg]

end Action

namespace Operation

def isCall (op : Operation) : Bool := CallKind.all.any (·.opcode == op.opcode)

/-- The whole effect of an operation: a call also gets the outcome of its child back. -/
def complete (op : Operation) (outcome : ChildOutcome) : Action Unit :=
  if op.isCall then do
    op.execute
    Action.resume outcome
  else op.execute

theorem isCall_toOperation {fees : FeeSchedule} {i : Instruction} :
    (i.toOperation fees).isCall = true ↔ ∃ kind, i = .call kind := by
  constructor
  · intro h
    obtain ⟨kind, -, hkind⟩ := List.any_eq_true.mp h
    have hopcode : (Instruction.call kind).signature.opcode = i.signature.opcode :=
      eq_of_beq hkind
    exact ⟨kind, (Instruction.eq_of_opcode_eq hopcode).symm⟩
  · rintro ⟨kind, rfl⟩
    cases kind <;> rfl

end Operation

namespace Instruction

/-- What the effect comes to behind the checks; that of a call goes on when it is answered. -/
def completed (fees : FeeSchedule) (outcome : ChildOutcome) (i : Instruction) (m : Machine) :
    EStateM.Result Fatal Machine Unit :=
  match i with
  | call kind =>
    let m' := (call kind).machineAfter fees m
    let request := Call.requested kind m.frame ((Call.childGas? fees kind m.frame m.world).getD 0)
    let gas := (m.frame.gas.add? outcome.gas).getD 0
    .ok () (m'.withFrame (m'.frame.resumed request outcome gas))
  | i => i.executed fees m

section

variable {fees : FeeSchedule} {outcome : ChildOutcome} {m : Machine} {i : Instruction}

theorem completed_of_ne_call (h : ∀ kind, i ≠ .call kind) :
    i.completed fees outcome m = i.executed fees m := by
  cases i with
  | call kind => exact absurd rfl (h kind)
  | _ => rfl

theorem pushed_of_ne_call (h : ∀ kind, i ≠ .call kind) : i.pushed = i.signature.produced := by
  cases i with
  | call kind => exact absurd rfl (h kind)
  | _ => rfl

theorem pushed_eq : i.pushed =
    if (i.toOperation fees).isCall then 0 else (i.toOperation fees).produced := by
  by_cases hcall : (i.toOperation fees).isCall = true
  · obtain ⟨kind, rfl⟩ := Operation.isCall_toOperation.mp hcall
    rw [if_pos hcall]
    rfl
  · rw [if_neg hcall]
    exact pushed_of_ne_call fun kind hi => hcall (Operation.isCall_toOperation.mpr ⟨kind, hi⟩)

section

variable {rest : List Word} (h : i.signature.consumed ≤ m.frame.stack.height)

include h

theorem executed_above : i.executed fees (m.above i.signature.consumed rest) =
    Action.mapEnd (·.above i.pushed rest) (i.executed fees m) := by
  have hstatus : (m.above i.signature.consumed rest).frame.status = m.frame.status := rfl
  unfold executed
  rw [machineAfter_above h, hstatus]
  dsimp only
  split <;> rfl

theorem completed_above : i.completed fees outcome (m.above i.signature.consumed rest) =
    Action.mapEnd (·.above i.signature.produced rest) (i.completed fees outcome m) := by
  by_cases hcall : ∃ kind, i = .call kind
  · obtain ⟨kind, rfl⟩ := hcall
    have hafter : (call kind).machineAfter fees (m.above (call kind).signature.consumed rest) =
        ((call kind).machineAfter fees m).above (call kind).pushed rest := machineAfter_above h
    rw [Call.consumed_eq] at h hafter ⊢
    have hrequest : ∀ g, Call.requested kind (m.above (Call.inputIndex kind + 4) rest).frame g =
        Call.requested kind m.frame g := Call.requested_above h
    have hgas : Call.childGas? fees kind (m.above (Call.inputIndex kind + 4) rest).frame m.world =
        Call.childGas? fees kind m.frame m.world := Call.childGas_above h
    have hworld : (m.above (Call.inputIndex kind + 4) rest).world = m.world := rfl
    simp only [completed, hafter, hworld, hgas, hrequest]
    -- resuming only puts the flag on top of the stack
    rfl
  · have hne : ∀ kind, i ≠ .call kind := fun kind hi => hcall ⟨kind, hi⟩
    rw [completed_of_ne_call hne, completed_of_ne_call hne, executed_above h, pushed_of_ne_call hne]

end

theorem executed_of_live (h : m.frame.status ≠ .halted) :
    i.executed fees m = .ok () (i.machineAfter fees m) :=
  if_neg fun hdead => h hdead.1

theorem completed_of_live (h : m.frame.status ≠ .halted) :
    ∃ m', i.completed fees outcome m = .ok () m' := by
  cases i with
  | call kind => exact ⟨_, rfl⟩
  | _ => exact ⟨_, executed_of_live h⟩

theorem height_completed {a : Action Unit} (ha : a m = i.completed fees outcome m)
    (h : i.signature.consumed ≤ m.frame.stack.height) :
    (a.after m).frame.stack.height =
      m.frame.stack.height - i.signature.consumed + i.signature.produced := by
  have hheight := height_frameAfter fees m.frame m.world i h
  by_cases hcall : ∃ kind, i = .call kind
  · obtain ⟨kind, rfl⟩ := hcall
    rw [Action.after_ok ha]
    exact congrArg (· + 1) hheight
  · have hne : ∀ kind, i ≠ .call kind := fun kind hi => hcall ⟨kind, hi⟩
    rw [completed_of_ne_call hne] at ha
    rw [pushed_of_ne_call hne] at hheight
    obtain ⟨status, hframe⟩ := after_executed ha
    rw [hframe]
    exact hheight

theorem drop_completed {a : Action Unit} (ha : a m = i.completed fees outcome m)
    (h : i.signature.consumed ≤ m.frame.stack.height) :
    (a.after m).frame.stack.items.drop i.signature.produced =
      m.frame.stack.items.drop i.signature.consumed := by
  have habove : Action.mapEnd (·.above i.signature.produced
      (m.frame.stack.items.drop i.signature.consumed)) (a m) = a m := by
    rw [ha, ← completed_above h, Machine.above_drop]
  have hframe := congrArg Machine.frame (Action.after_of_mapEnd habove)
  refine Frame.drop_of_above hframe ?_
  rw [height_completed ha h, List.length_drop]
  rfl

end

section

variable {t : Tariff} {f : Frame} {w : World} {cost : Gas} {i : Instruction}
  {outcome : ChildOutcome}

theorem complete_eq_completed (journal : Journal) (h : i.Passes t.fees f w cost)
    (hg : (i.toOperation t.fees).isCall = true → (f.paid cost).credit outcome.gas ≠ none) :
    (i.toOperation t.fees).complete outcome ⟨f.paid cost, w, journal⟩ =
      i.completed t.fees outcome ⟨f.paid cost, w, journal⟩ := by
  by_cases hcall : (i.toOperation t.fees).isCall = true
  · obtain ⟨kind, rfl⟩ := Operation.isCall_toOperation.mp hcall
    obtain ⟨gas, hgas⟩ : ∃ gas, (f.paid cost).gas.add? outcome.gas = some gas := by
      refine Option.ne_none_iff_exists'.mp fun hnone => hg hcall ?_
      rw [Frame.credit, hnone, Option.map_none]
    have hroom : ((call kind).frameAfter t.fees (f.paid cost) w).stack.height <
        (f.paid cost).stack.limit.toNat := by
      rw [height_frameAfter t.fees (f.paid cost) w (call kind) h.operands]
      exact h.room
    rw [Operation.complete, if_pos hcall]
    show ((call kind).execute t.fees >>= fun _ => Action.resume outcome) _ = _
    rw [Action.bind_ok (execute_eq journal h (.inr rfl)),
      Action.resume_eq (pending_call t.fees (f.paid cost) w kind) rfl hroom hgas]
    simp only [completed, hgas, Option.getD_some]
  · have hne : ∀ kind, i ≠ .call kind := fun kind hi =>
      hcall (Operation.isCall_toOperation.mpr ⟨kind, hi⟩)
    rw [Operation.complete, if_neg hcall, completed_of_ne_call hne]
    exact execute_eq_executed journal h

end

end Instruction

namespace Operation

/--
Whatever operation of a table passes its checks on a frame: it takes its declared operands away and
leaves its declared results on what was below them, a call once it has been handed any outcome
whose gas fits. Neither its price nor its halt condition looks below the operands, and over another
lower stack, with room for the results, the verdict and the effect are the same.
-/
theorem shape_as_declared (c : Rules) {b : Opcode} {version : Nat} {op : Operation}
    (hop : (InstructionSet.ofRules c).get? b version = some op) (f : Frame) (w : World)
    (journal : Journal) (hhalt : (op.check f w).halt = none) :
    ∃ cost, (op.check f w).cost = some cost ∧ op.consumed ≤ f.stack.height ∧
      (∀ rest, op.cost (f.above op.consumed rest) w = op.cost f w ∧
        op.haltCondition (f.above op.consumed rest) w = op.haltCondition f w) ∧
      (∀ rest : List Word, rest.length ≤ f.stack.height - op.consumed →
        op.check (f.above op.consumed rest) w = op.check f w ∧
        op.execute ⟨(f.above op.consumed rest).paid cost, w, journal⟩ =
          Action.mapEnd (·.above (if op.isCall then 0 else op.produced) rest)
            (op.execute ⟨f.paid cost, w, journal⟩)) ∧
      ∀ outcome, (op.isCall = true → (f.paid cost).credit outcome.gas ≠ none) →
        let done := (op.complete outcome).after ⟨f.paid cost, w, journal⟩
        (f.status ≠ .halted → op.complete outcome ⟨f.paid cost, w, journal⟩ = .ok () done) ∧
        done.frame.stack.height = f.stack.height - op.consumed + op.produced ∧
        done.frame.stack.items.drop op.produced = f.stack.items.drop op.consumed ∧
        ∀ rest : List Word, rest.length ≤ f.stack.height - op.consumed →
          op.complete outcome ⟨(f.above op.consumed rest).paid cost, w, journal⟩ =
            Action.mapEnd (·.above op.produced rest)
              (op.complete outcome ⟨f.paid cost, w, journal⟩) := by
  rcases InstructionSet.enabled_of_mem_operations (InstructionSet.mem_of_get?_ofRules hop) with
    rfl | ⟨i, -, rfl⟩
  · exact absurd hhalt (check_invalid f w)
  have hcheck := hhalt
  rw [← i.operation_table c.tariff.fees] at hcheck
  obtain ⟨cost, hpasses, hcost⟩ := passes_of_check hcheck
  rw [i.operation_table c.tariff.fees] at hcost
  have ho : i.signature.consumed ≤ f.stack.height := hpasses.operands
  refine ⟨cost, hcost, ho,
    fun rest => ⟨Instruction.cost_above ho, Instruction.haltCondition_above ho⟩,
    fun rest hrest => ⟨check_above hhalt ho hrest, ?_⟩, fun outcome hgas => ?_⟩
  · have hpasses' := hpasses.above hrest
    rw [← Instruction.pushed_eq]
    refine (Instruction.execute_eq_executed journal hpasses').trans ?_
    refine Eq.trans ?_ (congrArg _ (Instruction.execute_eq_executed journal hpasses).symm)
    exact Instruction.executed_above (m := ⟨f.paid cost, w, journal⟩) ho
  · have hrun := Instruction.complete_eq_completed journal hpasses hgas
    refine ⟨fun hs => ?_, Instruction.height_completed hrun ho,
      Instruction.drop_completed hrun ho, fun rest hrest => ?_⟩
    · obtain ⟨m, hm⟩ := Instruction.completed_of_live (m := ⟨f.paid cost, w, journal⟩) hs
      have hok := hrun.trans hm
      rw [Action.after_ok hok]
      exact hok
    · have hgas' : (i.toOperation c.tariff.fees).isCall = true →
          ((f.above i.signature.consumed rest).paid cost).credit outcome.gas ≠ none := by
        intro hcall hnone
        exact hgas hcall (Option.map_eq_none_iff.mpr (Option.map_eq_none_iff.mp hnone))
      refine (Instruction.complete_eq_completed journal (hpasses.above hrest) hgas').trans ?_
      rw [hrun]
      exact Instruction.completed_above (m := ⟨f.paid cost, w, journal⟩) ho

/-- A frame that calls account 7 and has two more items below the operands of the call. -/
def asking : Frame :=
  { Frame.start { code := Code.ofBytes #[0xf1] 0, initialGas := 100000, address := 5 } {} with
    stack := ⟨[1000, 7, 0, 0, 0, 0, 0, 11, 12], 1024⟩ }

set_option maxRecDepth 8000 in
theorem asking_passes :
    ((Instruction.call .call).toOperation Rules.london.tariff.fees).check asking { base := {} } =
      ⟨none, some 1700⟩ := by
  decide +kernel

/-- The child leaves 600 gas. Its flag lies on the two items, and would lie on any other. -/
theorem shape_as_declared_asking :
    let op := (Instruction.call .call).toOperation Rules.london.tariff.fees
    let after (f : Frame) : Machine :=
      (op.complete { success := true, gas := 600 }).after ⟨f.paid 1700, { base := {} }, []⟩
    (after asking).frame.stack.height = 3 ∧
      (after asking).frame.stack.items.drop 1 = [11, 12] ∧
      op.complete { success := true, gas := 600 }
        ⟨(asking.above 7 [13]).paid 1700, { base := {} }, []⟩ =
          Action.mapEnd (·.above 1 [13]) (.ok () (after asking)) := by
  intro op after
  have hpasses : op.check asking { base := {} } = ⟨none, some 1700⟩ := asking_passes
  obtain ⟨cost, hcost, -, -, -, hall⟩ := shape_as_declared .london
    (InstructionSet.get?_ofRules_of_enabled (i := .call .call) rfl) asking { base := {} } []
    (congrArg Verdict.halt hpasses)
  obtain rfl : 1700 = cost := Option.some.inj ((congrArg Verdict.cost hpasses).symm.trans hcost)
  obtain ⟨hdone, hheight, hdrop, habove⟩ := hall { success := true, gas := 600 } fun _ => by decide
  have hreplaced := habove [13] (by decide)
  rw [hdone (by decide)] at hreplaced
  exact ⟨hheight, hdrop, hreplaced⟩

end Operation

end MeteredVm
