import MeteredVm.Proofs.Actions
import MeteredVm.Proofs.Prices

/-!
# MeteredVm.Proofs.Effects

What an instruction does once its checks passed, as a function.

`Instruction.execute` pops, reads and pushes, and each of these may fail. Behind the checks none
of them does, and the effect is then `Instruction.frameAfter` on the frame and
`Instruction.worldAfter` on the world. Everything proved about running instructions is proved
about these two functions.

* `Instruction.Passes`: the checks of an instruction pass.
* `Instruction.execute_eq`: behind the checks the effect is `frameAfter` and `worldAfter`.
  `Instruction.execute_eq_executed`: so it is for a frame that halted, which only cannot be ended.
-/

namespace MeteredVm

namespace Frame

def paid (f : Frame) (cost : Gas) : Frame :=
  { f with cost := some cost, gas := f.gas.saturatingSub cost }

/-- The frame that ends in `status` with the memory range of its two operands as output. -/
def finished (f : Frame) (status : Status) : Frame :=
  let (offset, len) := ((f.operand 0).toNat, (f.operand 1).toNat)
  { f.replaceTop 2 [] with
    memory := f.memory.expand offset len
    output := f.memory.read offset len
    status := status }

end Frame

namespace Call

/-- The gas that goes to the child: its share, and the stipend if it receives value. -/
def childGas? (fees : FeeSchedule) (kind : CallKind) (f : Frame) (w : World) : Option Gas := do
  let share ← share fees kind f w
  if value kind f = 0 then some share else share.add? Fees.stipend

def requested (kind : CallKind) (f : Frame) (gas : Gas) : MessageRequest :=
  request kind f (f.operand 1).toAddress (value kind f) gas
    (f.memory.read (inputRange kind f).1.toNat (inputRange kind f).2.toNat)
    (OperandRange.placed (outputRange kind f)).1 (OperandRange.placed (outputRange kind f)).2

def suspended (kind : CallKind) (f : Frame) (gas : Gas) : Frame :=
  { f.replaceTop (inputIndex kind + 4) [] with
    memory := (f.memory.expand (outputRange kind f).1.toNat (outputRange kind f).2.toNat).expand
      (inputRange kind f).1.toNat (inputRange kind f).2.toNat
    pending := some (requested kind f gas)
    status := .suspended }

end Call

namespace Instruction

/-- The frame after the effect of an instruction whose checks passed. -/
def frameAfter (fees : FeeSchedule) (f : Frame) (w : World) : Instruction → Frame
  | stop => { f with output := #[], status := .succeeded }
  | ret => f.finished .succeeded
  | revert => f.finished .reverted
  | unary op => f.replaceTop 1 [op.eval (f.operand 0)]
  | binary op => f.replaceTop 2 [op.eval (f.operand 0) (f.operand 1)]
  | ternary op => f.replaceTop 3 [op.eval (f.operand 0) (f.operand 1) (f.operand 2)]
  | read what => f.replaceTop 0 [what.value f w]
  | lookup what => f.replaceTop 1 [what.value f w (f.operand 0)]
  | copy source =>
    { f.replaceTop 3 [] with
      memory := f.memory.copy (f.operand 0).toNat (source.data f) (f.operand 1)
        (f.operand 2).toNat }
  | keccak =>
    let (offset, len) := ((f.operand 0).toNat, (f.operand 1).toNat)
    { f.replaceTop 2 [(Keccak.hash (f.memory.read offset len)).toWord] with
      memory := f.memory.expand offset len }
  | pop => f.replaceTop 1 []
  | push n => f.replaceTop 0 [f.code.immediate f.pc (n + 1)]
  | dup n => f.replaceTop 0 [f.operand n]
  | swap n =>
    { f with
      stack := { f.stack with
        items := (f.stack.items.set 0 (f.operand (n + 1))).set (n + 1) (f.operand 0) } }
  | memoryLoad =>
    { f.replaceTop 1 [f.memory.readWord (f.operand 0).toNat] with
      memory := f.memory.expand (f.operand 0).toNat 32 }
  | memoryStore =>
    { f.replaceTop 2 [] with
      memory := f.memory.write (f.operand 0).toNat (f.operand 1).toBytes }
  | memoryStoreByte =>
    { f.replaceTop 2 [] with
      memory := f.memory.write (f.operand 0).toNat #[UInt8.ofNat (f.operand 1).toNat] }
  | storageStore =>
    (f.replaceTop 2 []).addRefund (fees.storeRefund (w.settledStorage f.address (f.operand 0))
      (w.storage f.address (f.operand 0)) (f.operand 1))
  | jump => { f.replaceTop 1 [] with pc := (f.operand 0).toNat }
  | jumpIf =>
    { f.replaceTop 2 [] with pc := if f.operand 1 = 0 then f.pc + 1 else (f.operand 0).toNat }
  | jumpDest => f
  | beginSub => f
  | jumpSub =>
    { f.replaceTop 1 [] with
      returnStack := { f.returnStack with items := (f.pc + 1) :: f.returnStack.items }
      pc := (f.operand 0).toNat + 1 }
  | returnSub =>
    { f with
      pc := f.returnStack.items.headD 0
      returnStack := { f.returnStack with items := f.returnStack.items.tail } }
  | log n =>
    let (offset, len) := ((f.operand 0).toNat, (f.operand 1).toNat)
    Frame.addLog
      { f.replaceTop (n + 2) [] with memory := f.memory.expand offset len }
      { address := f.address
        topics := (List.range n).map fun k => f.operand (k + 2)
        data := f.memory.read offset len }
  | call kind => Call.suspended kind f ((Call.childGas? fees kind f w).getD 0)

/-- The world after the effect: only a storage write changes it. -/
def worldAfter (f : Frame) (w : World) : Instruction → World
  | storageStore => w.setStorage f.address (f.operand 0) (f.operand 1)
  | _ => w

def eventsAfter (fees : FeeSchedule) (f : Frame) (w : World) : Instruction → Journal
  | call kind =>
    let request := Call.requested kind f ((Call.childGas? fees kind f w).getD 0)
    [.requested kind request.codeAddress request.gas]
  | _ => []

def machineAfter (fees : FeeSchedule) (i : Instruction) (m : Machine) : Machine :=
  { frame := i.frameAfter fees m.frame m.world
    world := i.worldAfter m.frame m.world
    journal := i.eventsAfter fees m.frame m.world ++ m.journal }

structure Passes (fees : FeeSchedule) (f : Frame) (w : World) (cost : Gas) (i : Instruction) :
    Prop where
  operands : i.signature.consumed ≤ f.stack.height
  room : f.stack.height - i.signature.consumed + i.signature.produced ≤ f.stack.limit.toNat
  limit : f.stack.limit.toNat < 0x8000_0000_0000_0000
  price : i.cost fees f w = some cost
  paid : cost ≤ f.gas
  clear : i.haltCondition fees f = none

theorem memoryHalt_eq_none {f : Frame} {touched : List OperandRange} :
    memoryHalt f touched = none ↔ ∀ r ∈ touched, f.memory.exceedsLimit r.1 r.2 = false := by
  simp [memoryHalt]

theorem writeHalt_eq_none {f : Frame} {writes : Bool} {touched : List OperandRange}
    (h : writeHalt f writes touched = none) : memoryHalt f touched = none := by
  unfold writeHalt at h
  split at h
  · cases h
  · exact h

theorem ranges_of_clear {fees : FeeSchedule} {f : Frame} {i : Instruction}
    (h : i.haltCondition fees f = none) :
    ∀ r ∈ i.ranges f, f.memory.exceedsLimit r.1 r.2 = false := by
  cases i with
  | copy source =>
    cases source with
    | returnData =>
      simp only [haltCondition] at h
      split at h
      · exact memoryHalt_eq_none.mp h
      · cases h
    | _ => exact memoryHalt_eq_none.mp h
  | log n => exact memoryHalt_eq_none.mp (writeHalt_eq_none h)
  | call kind => exact memoryHalt_eq_none.mp (writeHalt_eq_none h)
  | storageStore | jump | jumpIf | jumpSub | returnSub => simp [ranges]
  | _ => exact memoryHalt_eq_none.mp h

theorem jumpHalt_eq_none {f : Frame} {w : Word} (h : jumpHalt f w = none) :
    w.toNat < sizeBound ∧ f.code.isJumpDest w.toNat = true := by
  unfold jumpHalt at h
  by_cases hw : w.toNat < sizeBound
  · rw [Word.toSize?_eq_some hw] at h
    simp only at h
    split at h
    · rename_i hd
      exact ⟨hw, hd⟩
    · cases h
  · rw [Word.toSize?, if_neg hw] at h
    cases h

theorem jumpSubHalt_eq_none {f : Frame} (h : jumpSubHalt f = none) :
    (f.operand 0).toNat < sizeBound ∧ f.code.isBeginSub (f.operand 0).toNat = true ∧
      f.returnStack.isFull = false := by
  unfold jumpSubHalt at h
  by_cases hw : (f.operand 0).toNat < sizeBound
  · rw [Word.toSize?_eq_some hw] at h
    simp only at h
    split at h
    · rename_i hb
      split at h
      · cases h
      · rename_i hfull
        exact ⟨hw, hb, by simpa using hfull⟩
    · cases h
  · rw [Word.toSize?, if_neg hw] at h
    cases h

section

variable {fees : FeeSchedule} {m : Machine}

theorem execute_unary (op : UnaryOp) (ho : 1 ≤ m.frame.stack.height)
    (hr : m.frame.stack.height - 1 < m.frame.stack.limit.toNat) :
    (unary op).execute fees m = .ok () ((unary op).machineAfter fees m) := by
  show (Action.pop >>= fun a => Action.push (op.eval a)) (m.dropTop 0) = _
  rw [Action.pop_bind (by omega)]
  exact Action.push_dropTop _ hr

theorem execute_binary (op : BinaryOp) (ho : 2 ≤ m.frame.stack.height)
    (hr : m.frame.stack.height - 2 < m.frame.stack.limit.toNat) :
    (binary op).execute fees m = .ok () ((binary op).machineAfter fees m) := by
  show (Action.pop >>= fun a => Action.pop >>= fun b => Action.push (op.eval a b))
    (m.dropTop 0) = _
  rw [Action.pop_bind (by omega), Action.pop_bind (by omega)]
  exact Action.push_dropTop _ hr

theorem execute_ternary (op : TernaryOp) (ho : 3 ≤ m.frame.stack.height)
    (hr : m.frame.stack.height - 3 < m.frame.stack.limit.toNat) :
    (ternary op).execute fees m = .ok () ((ternary op).machineAfter fees m) := by
  show (Action.pop >>= fun a => Action.pop >>= fun b => Action.pop >>= fun c =>
    Action.push (op.eval a b c)) (m.dropTop 0) = _
  rw [Action.pop_bind (by omega), Action.pop_bind (by omega), Action.pop_bind (by omega)]
  exact Action.push_dropTop _ hr

theorem execute_read (what : Reading)
    (hr : m.frame.stack.height < m.frame.stack.limit.toNat) :
    (read what).execute fees m = .ok () ((read what).machineAfter fees m) :=
  Action.push_dropTop (m := m) (n := 0) (what.value m.frame m.world) hr

theorem execute_lookup (what : Lookup) (ho : 1 ≤ m.frame.stack.height)
    (hr : m.frame.stack.height - 1 < m.frame.stack.limit.toNat) :
    (lookup what).execute fees m = .ok () ((lookup what).machineAfter fees m) := by
  show (Action.pop >>= fun a => Action.frame >>= fun f => Action.world >>= fun w =>
    Action.push (what.value f w a)) (m.dropTop 0) = _
  rw [Action.pop_bind (by omega), Action.frame_bind, Action.world_bind,
    Action.push_dropTop _ hr]
  cases what <;> rfl

theorem execute_pop (ho : 1 ≤ m.frame.stack.height) :
    pop.execute fees m = .ok () (pop.machineAfter fees m) := by
  show (Action.pop >>= fun _ => pure ()) (m.dropTop 0) = _
  rw [Action.pop_bind (by omega)]
  rfl

theorem execute_push (n : Fin 32) (hr : m.frame.stack.height < m.frame.stack.limit.toNat) :
    (push n).execute fees m = .ok () ((push n).machineAfter fees m) :=
  Action.push_dropTop (m := m) (n := 0) (m.frame.code.immediate m.frame.pc (n + 1)) hr

theorem execute_dup (n : Fin 16) (ho : n + 1 ≤ m.frame.stack.height)
    (hr : m.frame.stack.height < m.frame.stack.limit.toNat) :
    (dup n).execute fees m = .ok () ((dup n).machineAfter fees m) := by
  have hp : m.frame.stack.dup n = .ok { m.frame.stack with
      items := m.frame.operand n :: m.frame.stack.items } := by
    simp only [Stack.dup, Stack.peek_eq ho]
    exact Stack.push_eq _ hr
  simp only [execute, Action.updateStack, hp]
  rfl

theorem execute_swap (n : Fin 16) (ho : n + 2 ≤ m.frame.stack.height) :
    (swap n).execute fees m = .ok () ((swap n).machineAfter fees m) := by
  have hp : m.frame.stack.swap (n + 1) = .ok { m.frame.stack with
      items := (m.frame.stack.items.set 0 (m.frame.operand (n + 1))).set (n + 1)
        (m.frame.operand 0) } := by
    simp only [Stack.swap, Stack.peek_eq (s := m.frame.stack) (n := 0) (by omega),
      Stack.peek_eq (s := m.frame.stack) (n := n + 1) (by omega)]
    exact Stack.set_set_eq _ _ (by omega) (by omega)
  simp only [execute, Action.updateStack, hp]
  rfl

theorem execute_copy (source : CopySource) (ho : 3 ≤ m.frame.stack.height)
    (hm : m.frame.memory.exceedsLimit (m.frame.operand 0) (m.frame.operand 2) = false) :
    (copy source).execute fees m = .ok () ((copy source).machineAfter fees m) := by
  show (Action.frame >>= fun f => Action.pop >>= fun offset => Action.pop >>= fun dataOffset =>
    Action.pop >>= fun len => Action.range offset len >>= fun r =>
      Action.modifyFrame fun g =>
        { g with memory := g.memory.copy r.1 (source.data f) dataOffset r.2 }) (m.dropTop 0) = _
  rw [Action.frame_bind, Action.pop_bind (by omega), Action.pop_bind (by omega),
    Action.pop_bind (by omega), Action.range_bind hm, Action.modifyFrame_eq,
    Memory.copy_placed]
  cases source <;> rfl

theorem execute_keccak (ho : 2 ≤ m.frame.stack.height)
    (hr : m.frame.stack.height - 2 < m.frame.stack.limit.toNat)
    (hm : m.frame.memory.exceedsLimit (m.frame.operand 0) (m.frame.operand 1) = false) :
    keccak.execute fees m = .ok () (keccak.machineAfter fees m) := by
  show (Action.pop >>= fun offset => Action.pop >>= fun len => Action.range offset len >>= fun r =>
    Action.load r.1 r.2 >>= fun data => Action.push (Keccak.hash data).toWord) (m.dropTop 0) = _
  rw [Action.pop_bind (by omega), Action.pop_bind (by omega), Action.range_bind hm,
    Action.load_bind, Memory.read_placed, Memory.expand_placed]
  exact Action.push_dropTop (m := m.withFrame { m.frame with
    memory := m.frame.memory.expand (m.frame.operand 0).toNat (m.frame.operand 1).toNat }) _ hr

theorem execute_memoryLoad (ho : 1 ≤ m.frame.stack.height)
    (hr : m.frame.stack.height - 1 < m.frame.stack.limit.toNat)
    (hs : (m.frame.operand 0).toNat < sizeBound) :
    memoryLoad.execute fees m = .ok () (memoryLoad.machineAfter fees m) := by
  show (Action.pop >>= fun a => Action.size a >>= fun offset => Action.loadWord offset >>= fun w =>
    Action.push w) (m.dropTop 0) = _
  rw [Action.pop_bind (by omega), Action.size_bind hs]
  exact Action.push_dropTop (m := m.withFrame { m.frame with
    memory := m.frame.memory.expand (m.frame.operand 0).toNat 32 }) _ hr

theorem execute_memoryStore (ho : 2 ≤ m.frame.stack.height)
    (hs : (m.frame.operand 0).toNat < sizeBound) :
    memoryStore.execute fees m = .ok () (memoryStore.machineAfter fees m) := by
  show (Action.pop >>= fun a => Action.size a >>= fun offset => Action.pop >>= fun value =>
    Action.store offset value.toBytes) (m.dropTop 0) = _
  rw [Action.pop_bind (by omega), Action.size_bind hs, Action.pop_bind (by omega)]
  rfl

theorem execute_memoryStoreByte (ho : 2 ≤ m.frame.stack.height)
    (hs : (m.frame.operand 0).toNat < sizeBound) :
    memoryStoreByte.execute fees m = .ok () (memoryStoreByte.machineAfter fees m) := by
  show (Action.pop >>= fun a => Action.size a >>= fun offset => Action.pop >>= fun value =>
    Action.store offset #[UInt8.ofNat value.toNat]) (m.dropTop 0) = _
  rw [Action.pop_bind (by omega), Action.size_bind hs, Action.pop_bind (by omega)]
  rfl

theorem execute_storageStore (ho : 2 ≤ m.frame.stack.height) :
    storageStore.execute fees m = .ok () (storageStore.machineAfter fees m) := by
  show (Action.pop >>= fun key => Action.pop >>= fun new => Action.frame >>= fun f =>
    Action.world >>= fun w => Action.modifyFrame (·.addRefund
      (fees.storeRefund (w.settledStorage f.address key) (w.storage f.address key) new)) >>=
      fun _ => Action.modifyWorld (·.setStorage f.address key new)) (m.dropTop 0) = _
  rw [Action.pop_bind (by omega), Action.pop_bind (by omega), Action.frame_bind,
    Action.world_bind, Action.modifyFrame_bind]
  rfl

theorem execute_jump (ho : 1 ≤ m.frame.stack.height)
    (hs : (m.frame.operand 0).toNat < sizeBound) :
    jump.execute fees m = .ok () (jump.machineAfter fees m) := by
  show (Action.pop >>= fun a => Action.size a >>= fun pc => Action.setPc pc) (m.dropTop 0) = _
  rw [Action.pop_bind (by omega), Action.size_bind hs]
  rfl

theorem execute_jumpIf (ho : 2 ≤ m.frame.stack.height)
    (hs : m.frame.operand 1 ≠ 0 → (m.frame.operand 0).toNat < sizeBound) :
    jumpIf.execute fees m = .ok () (jumpIf.machineAfter fees m) := by
  show (Action.pop >>= fun destination => Action.pop >>= fun condition =>
    if condition = 0 then Action.frame >>= fun f => Action.setPc (f.pc + 1)
    else Action.size destination >>= fun pc => Action.setPc pc) (m.dropTop 0) = _
  rw [Action.pop_bind (by omega), Action.pop_bind (by omega)]
  simp only [machineAfter, frameAfter]
  by_cases hc : m.frame.operand 1 = 0
  · rw [if_pos hc, if_pos hc]
    rfl
  · rw [if_neg hc, if_neg hc, Action.size_bind (hs hc)]
    rfl

theorem execute_jumpSub (ho : 1 ≤ m.frame.stack.height)
    (hs : (m.frame.operand 0).toNat < sizeBound) (hf : m.frame.returnStack.isFull = false) :
    jumpSub.execute fees m = .ok () (jumpSub.machineAfter fees m) := by
  show (Action.pop >>= fun a => Action.size a >>= fun location => Action.frame >>= fun f =>
    Action.pushReturn (f.pc + 1) >>= fun _ => Action.setPc (location + 1)) (m.dropTop 0) = _
  have hp : Action.pushReturn (m.frame.pc + 1) (m.dropTop 1) = .ok () (m.withFrame
      { m.frame.replaceTop 1 [] with
        returnStack := { m.frame.returnStack with
          items := (m.frame.pc + 1) :: m.frame.returnStack.items } }) := by
    simp [Action.pushReturn, ReturnStack.push, Machine.dropTop, Machine.withFrame,
      Frame.replaceTop, hf]
  rw [Action.pop_bind (by omega), Action.size_bind hs, Action.frame_bind]
  exact Action.bind_ok hp

theorem execute_returnSub (hr : m.frame.returnStack.items ≠ []) :
    returnSub.execute fees m = .ok () (returnSub.machineAfter fees m) := by
  obtain ⟨pc, rest, hc⟩ := List.exists_cons_of_ne_nil hr
  show (Action.popReturn >>= fun pc => Action.setPc pc) m = _
  simp only [Action.popReturn, bind, EStateM.bind, ReturnStack.pop, hc, machineAfter, frameAfter]
  rfl

/-- All that is left to do once the output is set is to end the frame. -/
theorem finish_eq_setStatus (status : Status) (ho : 2 ≤ m.frame.stack.height)
    (hm : m.frame.memory.exceedsLimit (m.frame.operand 0) (m.frame.operand 1) = false) :
    finish status m = Action.setStatus status (m.withFrame
      { m.frame.finished status with status := m.frame.status }) := by
  show (Action.pop >>= fun offset => Action.pop >>= fun len => Action.range offset len >>= fun r =>
    Action.load r.1 r.2 >>= fun output => Action.modifyFrame ({ · with output := output }) >>=
      fun _ => Action.setStatus status) (m.dropTop 0) = _
  rw [Action.pop_bind (by omega), Action.pop_bind (by omega), Action.range_bind hm,
    Action.load_bind, Memory.read_placed, Memory.expand_placed, Action.modifyFrame_bind]
  rfl

theorem finish_eq {status : Status} (ho : 2 ≤ m.frame.stack.height)
    (hm : m.frame.memory.exceedsLimit (m.frame.operand 0) (m.frame.operand 1) = false)
    (he : m.frame.status ≠ .halted) (hs : status ≠ .halted) :
    finish status m = .ok () (m.withFrame (m.frame.finished status)) := by
  rw [finish_eq_setStatus status ho hm]
  exact Action.setStatus_eq he hs

/-- The topics are the operands below the memory range, the uppermost first. -/
theorem popTopics_eq (k : Nat) : ∀ n, n + k ≤ m.frame.stack.height →
    popTopics k (m.dropTop n) =
      .ok ((List.range k).map fun i => m.frame.operand (i + n)) (m.dropTop (n + k)) := by
  induction k with
  | zero => intro n _; rfl
  | succ k ih =>
    intro n hn
    show (Action.pop >>= fun topic => popTopics k >>= fun rest => pure (topic :: rest))
      (m.dropTop n) = _
    rw [Action.pop_bind (by omega), Action.bind_ok (ih (n + 1) (by omega)),
      List.range_succ_eq_map, List.map_cons, List.map_map]
    have hcomp : ((fun i => m.frame.operand (i + n)) ∘ Nat.succ) =
        fun i => m.frame.operand (i + (n + 1)) := by
      funext i
      rw [Function.comp_apply, Nat.succ_add_eq_add_succ]
    rw [hcomp, Nat.zero_add, show n + 1 + k = n + (k + 1) by omega]
    rfl

theorem execute_log (n : Fin 5) (ho : n + 2 ≤ m.frame.stack.height)
    (hm : m.frame.memory.exceedsLimit (m.frame.operand 0) (m.frame.operand 1) = false) :
    (log n).execute fees m = .ok () ((log n).machineAfter fees m) := by
  show (Action.pop >>= fun offset => Action.pop >>= fun len => Action.range offset len >>= fun r =>
    popTopics n >>= fun topics => Action.load r.1 r.2 >>= fun data =>
      Action.modifyFrame fun f => f.addLog { address := f.address, topics, data })
    (m.dropTop 0) = _
  rw [Action.pop_bind (by omega), Action.pop_bind (by omega), Action.range_bind hm,
    Action.bind_ok (popTopics_eq n 2 (by omega)), Action.load_bind, Memory.read_placed,
    Memory.expand_placed, Nat.add_comm 2 n.val]
  rfl

end

end Instruction

namespace Call

/--
Behind the checks the child's gas is known: the stipend fits, because the price of a call that
sends value is greater than the stipend. So the child gets less than its caller pays.
-/
theorem exists_childGas {t : Tariff} {kind : CallKind} {f : Frame} {w : World} {cost : Gas}
    (h : Call.cost t.fees kind f w = some cost) :
    ∃ gas, childGas? t.fees kind (f.paid cost) w = some gas ∧ gas.toNat + 40 ≤ cost.toNat := by
  obtain ⟨base, child, hb, -, hc⟩ := Call.cost_eq_some h
  have hge := baseCost_ge hb
  have hshare : share t.fees kind (f.paid cost) w = some child := by
    show (some cost >>= fun c => baseCost t.fees kind f w >>= fun b => c.sub? b) = _
    rw [hb]
    exact Gas.sub?_eq_some.mpr (by omega)
  by_cases hv : value kind f = 0
  · rw [if_pos hv] at hge
    refine ⟨child, ?_, by omega⟩
    rw [childGas?, hshare]
    exact if_pos hv
  · rw [if_neg hv] at hge
    have hs : Fees.stipend.toNat = 2300 := Gas.toNat_ofNat 2300 (by decide)
    have hlt := cost.isLt
    obtain ⟨gas, hg⟩ : ∃ gas, child.add? Fees.stipend = some gas := by
      refine Option.ne_none_iff_exists'.mp fun hn => ?_
      rw [Gas.add?_eq_none] at hn
      omega
    have hgas := Gas.add?_eq_some.mp hg
    refine ⟨gas, ?_, by omega⟩
    rw [childGas?, hshare]
    exact (if_neg hv).trans hg

/-- The effect of a call from its fourth operand on, when the value is known. -/
def describe (kind : CallKind) (share : Gas) (target value : Word) : Action Unit := do
  let inputOffset ← Action.pop
  let inputLength ← Action.pop
  let outputOffset ← Action.pop
  let outputLength ← Action.pop
  let (inputOffset, inputLength) ← Action.range inputOffset inputLength
  let (outputOffset, outputLength) ← Action.range outputOffset outputLength
  Action.expand outputOffset outputLength
  let input ← Action.load inputOffset inputLength
  let gas ← Action.require .gasAccountingOverflow
    (if value = 0 then some share else share.add? Fees.stipend)
  let request := request kind (← Action.frame) target.toAddress value gas input outputOffset
    outputLength
  Action.record (.requested kind request.codeAddress gas)
  Action.modifyFrame (·.suspend request)

section

variable {fees : FeeSchedule} {m : Machine} {kind : CallKind} {gas share : Gas}

theorem execute_eq_describe :
    execute fees kind = (Action.frame >>= fun f => Action.world >>= fun w =>
      Action.require .costUnavailable (Call.share fees kind f w) >>= fun share =>
      Action.pop >>= fun _ => Action.pop >>= fun target =>
      (if kind.hasValue then Action.pop else pure 0) >>= fun value =>
      describe kind share target value) := by
  cases kind <;> rfl

/-- Popping the value operand, which only a plain call has. -/
theorem value_bind {α : Type} {k : Word → Action α} (ho : inputIndex kind ≤ m.frame.stack.height) :
    ((if kind.hasValue then Action.pop else pure 0) >>= k) (m.dropTop 2) =
      k (value kind m.frame) (m.dropTop (inputIndex kind)) := by
  cases kind with
  | call => exact Action.pop_bind ho
  | delegateCall => rfl
  | staticCall => rfl

theorem describe_eq (ho : inputIndex kind + 4 ≤ m.frame.stack.height)
    (hg : (if value kind m.frame = 0 then some share else share.add? Fees.stipend) = some gas)
    (hin : m.frame.memory.exceedsLimit (inputRange kind m.frame).1 (inputRange kind m.frame).2 =
      false)
    (hout : m.frame.memory.exceedsLimit (outputRange kind m.frame).1
      (outputRange kind m.frame).2 = false) :
    describe kind share (m.frame.operand 1) (value kind m.frame) (m.dropTop (inputIndex kind)) =
      .ok () { m with
        frame := suspended kind m.frame gas
        journal := .requested kind (requested kind m.frame gas).codeAddress gas :: m.journal } := by
  have hi : m.frame.memory.exceedsLimit (m.frame.operand (inputIndex kind))
      (m.frame.operand (inputIndex kind + 1)) = false := hin
  have ho' : m.frame.memory.exceedsLimit (m.frame.operand (inputIndex kind + 1 + 1))
      (m.frame.operand (inputIndex kind + 1 + 1 + 1)) = false := hout
  show (Action.pop >>= fun inputOffset => Action.pop >>= fun inputLength =>
    Action.pop >>= fun outputOffset => Action.pop >>= fun outputLength =>
    Action.range inputOffset inputLength >>= fun i =>
    Action.range outputOffset outputLength >>= fun o =>
    Action.expand o.1 o.2 >>= fun _ => Action.load i.1 i.2 >>= fun input =>
    Action.require .gasAccountingOverflow
      (if value kind m.frame = 0 then some share else share.add? Fees.stipend) >>= fun gas =>
    Action.frame >>= fun f =>
    Action.record (.requested kind (request kind f (m.frame.operand 1).toAddress
      (value kind m.frame) gas input o.1 o.2).codeAddress gas) >>= fun _ =>
    Action.modifyFrame (·.suspend (request kind f (m.frame.operand 1).toAddress
      (value kind m.frame) gas input o.1 o.2))) (m.dropTop (inputIndex kind)) = _
  rw [Action.pop_bind (by omega), Action.pop_bind (by omega), Action.pop_bind (by omega),
    Action.pop_bind (by omega), Action.range_bind hi, Action.range_bind ho',
    Action.expand_load_bind, Action.require_bind hg, Memory.expand_placed, Memory.expand_placed,
    Memory.read_placed]
  rfl

theorem execute_eq (ho : inputIndex kind + 4 ≤ m.frame.stack.height)
    (hg : childGas? fees kind m.frame m.world = some gas)
    (hin : m.frame.memory.exceedsLimit (inputRange kind m.frame).1 (inputRange kind m.frame).2 =
      false)
    (hout : m.frame.memory.exceedsLimit (outputRange kind m.frame).1
      (outputRange kind m.frame).2 = false) :
    execute fees kind m = .ok () ((Instruction.call kind).machineAfter fees m) := by
  obtain ⟨share, hs, hgas⟩ := Option.bind_eq_some_iff.mp hg
  have hi : 2 ≤ inputIndex kind := by cases kind <;> decide
  rw [execute_eq_describe, Action.frame_bind, Action.world_bind, Action.require_bind hs]
  show (Action.pop >>= fun _ => Action.pop >>= fun target =>
    (if kind.hasValue then Action.pop else pure 0) >>= fun value =>
      describe kind share target value) (m.dropTop 0) = _
  rw [Action.pop_bind (by omega), Action.pop_bind (by omega), value_bind (by omega),
    describe_eq ho hgas hin hout]
  simp only [Instruction.machineAfter, Instruction.frameAfter, Instruction.worldAfter,
    Instruction.eventsAfter, hg, Option.getD_some]
  cases kind <;> rfl

theorem consumed_eq (kind : CallKind) :
    (Instruction.call kind).signature.consumed = inputIndex kind + 4 := by
  cases kind <;> rfl

end

end Call

namespace Instruction

/--
Behind the checks the effect of an instruction does not fail, and it is `machineAfter`. Only a
halted frame cannot be ended once more.
-/
theorem execute_eq {t : Tariff} {f : Frame} {w : World} {cost : Gas} {i : Instruction}
    (journal : Journal) (h : i.Passes t.fees f w cost)
    (he : f.status ≠ .halted ∨ i.endsFrame = false) :
    i.execute t.fees ⟨f.paid cost, w, journal⟩ =
      .ok () (i.machineAfter t.fees ⟨f.paid cost, w, journal⟩) := by
  have ho := h.operands
  have hr := h.room
  have hm := ranges_of_clear h.clear
  have hm0 : ∀ r s, i.ranges f = r :: s → (f.paid cost).memory.exceedsLimit r.1 r.2 = false :=
    fun r s hi => hm r (hi ▸ List.mem_cons_self)
  -- an address of 32 bytes, or of one, that keeps to the limit fits in 64 bits
  have hsize : ∀ (a len : Word) s, i.ranges f = (a, len) :: s → len ≠ 0 →
      a.toNat < sizeBound := fun a len s hi hl =>
    Nat.lt_of_le_of_lt (Nat.le_add_right ..) (Memory.stop_lt_sizeBound (hm0 _ s hi) hl)
  cases i with
  | stop =>
    show (Action.modifyFrame ({ · with output := #[] }) >>= fun _ =>
      Action.setStatus .succeeded) _ = _
    rw [Action.modifyFrame_bind]
    exact Action.setStatus_eq (he.resolve_right (by decide)) (by decide)
  | ret => exact finish_eq ho (hm0 _ _ rfl) (he.resolve_right (by decide)) (by decide)
  | revert => exact finish_eq ho (hm0 _ _ rfl) (he.resolve_right (by decide)) (by decide)
  | unary op => exact execute_unary op ho hr
  | binary op => exact execute_binary op ho hr
  | ternary op => exact execute_ternary op ho hr
  | read what => exact execute_read what hr
  | lookup what => exact execute_lookup what ho hr
  | copy source => exact execute_copy source ho (hm0 _ _ rfl)
  | keccak => exact execute_keccak ho hr (hm0 _ _ rfl)
  | pop => exact execute_pop ho
  | push n => exact execute_push n hr
  | dup n =>
    have hd : f.stack.height - (n + 1) + (n + 2) ≤ f.stack.limit.toNat := hr
    have hn : n + 1 ≤ f.stack.height := ho
    exact execute_dup n hn (show f.stack.height < f.stack.limit.toNat by omega)
  | swap n => exact execute_swap n ho
  | memoryLoad => exact execute_memoryLoad ho hr (hsize _ _ _ rfl (by decide))
  | memoryStore => exact execute_memoryStore ho (hsize _ _ _ rfl (by decide))
  | memoryStoreByte => exact execute_memoryStoreByte ho (hsize _ _ _ rfl (by decide))
  | storageStore => exact execute_storageStore ho
  | jump => exact execute_jump ho (jumpHalt_eq_none h.clear).1
  | jumpIf =>
    refine execute_jumpIf ho fun hc => ?_
    have hj : jumpHalt f (f.operand 0) = none := (if_neg hc).symm.trans h.clear
    exact (jumpHalt_eq_none hj).1
  | jumpDest => rfl
  | beginSub => rfl
  | jumpSub =>
    obtain ⟨hs, -, hf⟩ := jumpSubHalt_eq_none h.clear
    exact execute_jumpSub ho hs hf
  | returnSub =>
    refine execute_returnSub fun hn => ?_
    have hc := h.clear
    have hempty : f.returnStack.items.isEmpty = true := List.isEmpty_iff.mpr hn
    rw [haltCondition, if_pos hempty] at hc
    cases hc
  | log n => exact execute_log n ho (hm0 _ _ rfl)
  | call kind =>
    rw [Call.consumed_eq] at ho
    obtain ⟨gas, hg, -⟩ := Call.exists_childGas h.price
    exact Call.execute_eq ho hg (hm0 _ _ rfl)
      (hm _ (List.mem_cons_of_mem _ (List.mem_singleton_self _)))

/-- What the effect comes to behind the checks. A frame that halted cannot be ended again. -/
def executed (fees : FeeSchedule) (i : Instruction) (m : Machine) :
    EStateM.Result Fatal Machine Unit :=
  let m' := i.machineAfter fees m
  if m.frame.status = .halted ∧ i.endsFrame = true then
    .error .invalidTransition (m'.withFrame { m'.frame with status := m.frame.status })
  else .ok () m'

section

variable {t : Tariff} {f : Frame} {w : World} {cost : Gas} {i : Instruction}

/-- The attempt to end a frame that halted fails, after everything else was done. -/
theorem execute_halted (journal : Journal) (h : i.Passes t.fees f w cost)
    (hs : f.status = .halted) (he : i.endsFrame = true) :
    i.execute t.fees ⟨f.paid cost, w, journal⟩ = .error .invalidTransition
      ⟨{ i.frameAfter t.fees (f.paid cost) w with status := f.status }, w, journal⟩ := by
  have hpaid : (f.paid cost).status = .halted := hs
  cases i with
  | stop =>
    show (Action.modifyFrame ({ · with output := #[] }) >>= fun _ =>
      Action.setStatus .succeeded) _ = _
    rw [Action.modifyFrame_bind]
    exact Action.setStatus_halted hpaid
  | ret | revert =>
    have hm : (f.paid cost).memory.exceedsLimit (f.operand 0) (f.operand 1) = false :=
      ranges_of_clear h.clear _ List.mem_cons_self
    exact (finish_eq_setStatus (m := ⟨f.paid cost, w, journal⟩) _ h.operands hm).trans
      (Action.setStatus_halted hpaid)
  | _ => cases he

theorem execute_eq_executed (journal : Journal) (h : i.Passes t.fees f w cost) :
    i.execute t.fees ⟨f.paid cost, w, journal⟩ = i.executed t.fees ⟨f.paid cost, w, journal⟩ := by
  by_cases hdead : f.status = .halted ∧ i.endsFrame = true
  · refine (execute_halted journal h hdead.1 hdead.2).trans (Eq.trans ?_ (if_pos hdead).symm)
    have hends := hdead.2
    cases i with
    | stop | ret | revert => rfl
    | _ => cases hends
  · refine (execute_eq journal h ?_).trans (if_neg hdead).symm
    by_cases hs : f.status = .halted
    · exact .inr (by simpa [hs] using hdead)
    · exact .inl hs

end

end Instruction

end MeteredVm
