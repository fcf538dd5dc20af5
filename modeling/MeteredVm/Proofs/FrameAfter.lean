import MeteredVm.Proofs.Effects
import MeteredVm.Proofs.Landings

/-!
# MeteredVm.Proofs.FrameAfter

The frame after an instruction, part by part.

* the message, the gas, the limits, the halt reason and the return data stay as they are;
* `Instruction.statusAfter` and `Instruction.height_frameAfter` follow the signature;
* `Instruction.size_frameAfter`: memory grows to the ranges of the instruction, and no further;
* `Instruction.pc_frameAfter_le`: the program counter stays in reach of the code.
* `Instruction.pending_frameAfter`: a call asks for a child, and nothing else does.
* `Instruction.worldAfter_of_ne`, `Instruction.refund_frameAfter`, `Instruction.logs_frameAfter`:
  what only one instruction changes.
-/

namespace MeteredVm

theorem Word.size_toBytes (w : Word) : w.toBytes.size = 32 := by
  simp [Word.toBytes]

namespace Instruction

def statusAfter (i : Instruction) (status : Status) : Status :=
  match i with
  | stop | ret => .succeeded
  | revert => .reverted
  | call _ => .suspended
  | _ => status

theorem statusAfter_cases (i : Instruction) :
    (i.statusAfter .executing = .executing ∧ i.endsFrame = false) ∨
      i.statusAfter .executing = .suspended ∨
      i.statusAfter .executing = .succeeded ∨ i.statusAfter .executing = .reverted := by
  cases i with
  | stop | ret => exact .inr (.inr (.inl rfl))
  | revert => exact .inr (.inr (.inr rfl))
  | call kind => exact .inr (.inl rfl)
  | _ => exact .inl ⟨rfl, rfl⟩

/-- The number of results that an instruction has pushed when it is done; a call waits for its. -/
def pushed : Instruction → Nat
  | call _ => 0
  | i => i.signature.produced

theorem pushed_le (i : Instruction) : i.pushed ≤ i.signature.produced := by
  cases i with
  | call kind => exact Nat.zero_le _
  | _ => exact Nat.le_refl _

def wordsFor (active : Nat) (touched : List OperandRange) : Nat :=
  touched.foldr (fun r n => if r.2 = 0 then n else
    max n (Memory.wordsFor (r.1.toNat + r.2.toNat))) active

theorem height_of_items (f g : Frame) (n : Nat) (results : List Word)
    (h : g.stack.items = results ++ f.stack.items.drop n) :
    g.stack.height = f.stack.height - n + results.length := by
  rw [Stack.height, h, List.length_append, List.length_drop, Nat.add_comm]
  rfl

theorem le_wordsFor (active : Nat) (touched : List OperandRange) :
    active ≤ wordsFor active touched := by
  induction touched with
  | nil => exact Nat.le_refl _
  | cons r rest ih =>
    rw [wordsFor, List.foldr_cons]
    split
    · exact ih
    · exact Nat.le_trans ih (Nat.le_max_left ..)

theorem stop_le_wordsFor {active : Nat} {touched : List OperandRange} {r : OperandRange}
    (hr : r ∈ touched) (hl : r.2 ≠ 0) :
    Memory.wordsFor (r.1.toNat + r.2.toNat) ≤ wordsFor active touched := by
  induction touched with
  | nil => cases hr
  | cons s rest ih =>
    rw [wordsFor, List.foldr_cons]
    rcases List.mem_cons.mp hr with rfl | hr
    · rw [if_neg hl]
      exact Nat.le_max_right ..
    · split
      · exact ih hr
      · exact Nat.le_trans (ih hr) (Nat.le_max_left ..)

theorem wordsFor_lt {active : Nat} {touched : List OperandRange} (ha : active < 0x1_0000_0000)
    (h : ∀ r ∈ touched, ∃ g, Fees.expansion active r.1 r.2 = some g) :
    wordsFor active touched < 0x1_0000_0000 := by
  induction touched with
  | nil => exact ha
  | cons r rest ih =>
    rw [wordsFor, List.foldr_cons]
    have hrest := ih fun s hs => h s (List.mem_cons_of_mem r hs)
    split
    · exact hrest
    · rename_i hl
      obtain ⟨g, hg⟩ := h r List.mem_cons_self
      refine Nat.max_lt.mpr ⟨hrest, ?_⟩
      rcases Fees.expansion_words hg hl with hle | hlt
      · exact Nat.lt_of_le_of_lt hle ha
      · exact hlt

theorem wordsFor_cons (active : Nat) (r : OperandRange) (touched : List OperandRange) :
    wordsFor active (r :: touched) = max (wordsFor active touched) (wordsFor 0 [r]) := by
  rw [wordsFor, wordsFor, wordsFor, List.foldr_cons, List.foldr_cons, List.foldr_nil, Nat.zero_max]
  split
  · exact (Nat.max_zero _).symm
  · rfl

theorem wordsFor_eq_max (active : Nat) (touched : List OperandRange) :
    wordsFor active touched = max active (wordsFor 0 touched) := by
  induction touched with
  | nil => exact (Nat.max_zero _).symm
  | cons r rest ih => rw [wordsFor_cons, wordsFor_cons 0 r rest, ih, Nat.max_assoc]

section

variable (fees : FeeSchedule) (f : Frame) (w : World) (i : Instruction)

@[simp] theorem message_frameAfter : (i.frameAfter fees f w).toMessage = f.toMessage := by
  cases i <;> rfl

@[simp] theorem gas_frameAfter : (i.frameAfter fees f w).gas = f.gas := by
  cases i <;> rfl

@[simp] theorem haltReason_frameAfter : (i.frameAfter fees f w).haltReason = f.haltReason := by
  cases i <;> rfl

@[simp] theorem returnData_frameAfter : (i.frameAfter fees f w).returnData = f.returnData := by
  cases i <;> rfl

@[simp] theorem status_frameAfter : (i.frameAfter fees f w).status = i.statusAfter f.status := by
  cases i <;> rfl

@[simp] theorem stackLimit_frameAfter : (i.frameAfter fees f w).stack.limit = f.stack.limit := by
  cases i <;> rfl

@[simp] theorem outer_worldAfter : (i.worldAfter f w).outer = w.outer := by
  cases i <;> rfl

@[simp] theorem base_worldAfter : (i.worldAfter f w).base = w.base := by
  cases i <;> rfl

theorem height_frameAfter (h : i.signature.consumed ≤ f.stack.height) :
    (i.frameAfter fees f w).stack.height = f.stack.height - i.signature.consumed + i.pushed := by
  cases i with
  | swap n =>
    have hn : n + 2 ≤ f.stack.height := h
    show ((f.stack.items.set 0 _).set (n + 1) _).length = f.stack.height - (n + 2) + (n + 2)
    rw [List.length_set, List.length_set]
    show f.stack.height = _
    omega
  | dup n =>
    have hn : n + 1 ≤ f.stack.height := h
    show (f.replaceTop 0 [f.operand n]).stack.height = f.stack.height - (n + 1) + (n + 2)
    rw [Frame.height_replaceTop, List.length_singleton]
    omega
  | call kind =>
    rw [Call.consumed_eq]
    exact height_of_items f _ (Call.inputIndex kind + 4) [] rfl
  | stop | jumpDest | beginSub | returnSub => rfl
  | unary | lookup | memoryLoad => exact height_of_items f _ 1 [_] rfl
  | binary | keccak => exact height_of_items f _ 2 [_] rfl
  | ternary => exact height_of_items f _ 3 [_] rfl
  | read | push => exact height_of_items f _ 0 [_] rfl
  | pop | jump | jumpSub => exact height_of_items f _ 1 [] rfl
  | ret | revert | memoryStore | memoryStoreByte | storageStore | jumpIf =>
    exact height_of_items f _ 2 [] rfl
  | copy => exact height_of_items f _ 3 [] rfl
  | log n => exact height_of_items f _ (n + 2) [] rfl

theorem size_expand_range (m : Memory) (r : OperandRange) :
    (m.expand r.1.toNat r.2.toNat).size = max m.size (32 * wordsFor 0 [r]) := by
  have hempty : r.2 = 0 ↔ r.2.toNat = 0 := by
    rw [← BitVec.toNat_inj]
    rfl
  rw [Memory.size_expand, wordsFor, List.foldr_cons, List.foldr_nil, Nat.zero_max]
  simp only [hempty]
  split
  · exact (Nat.max_zero _).symm
  · rfl

theorem size_frameAfter : (i.frameAfter fees f w).memory.size =
    max f.memory.size (32 * wordsFor 0 (i.ranges f)) := by
  cases i with
  | copy source =>
    dsimp only [frameAfter]
    rw [Memory.size_copy]
    exact size_expand_range f.memory (f.operand 0, f.operand 2)
  | ret | revert | keccak | log => exact size_expand_range f.memory (f.operand 0, f.operand 1)
  | memoryLoad => exact size_expand_range f.memory (f.operand 0, 32)
  | memoryStore =>
    dsimp only [frameAfter]
    rw [Memory.size_write, Word.size_toBytes]
    exact size_expand_range f.memory (f.operand 0, 32)
  | memoryStoreByte =>
    dsimp only [frameAfter]
    rw [Memory.size_write]
    exact size_expand_range f.memory (f.operand 0, 1)
  | call kind =>
    dsimp only [frameAfter, Call.suspended]
    rw [size_expand_range _ (Call.inputRange kind f), size_expand_range _ (Call.outputRange kind f),
      Nat.max_assoc, Nat.mul_max_mul_left, ← wordsFor_cons]
    rfl
  | _ => exact (Nat.max_zero f.memory.size).symm

theorem words_frameAfter : (i.frameAfter fees f w).memory.words =
    wordsFor f.memory.words (i.ranges f) := by
  rw [Memory.words_eq, size_frameAfter, wordsFor_eq_max f.memory.words, Memory.words_eq]
  omega

theorem size_le : i.signature.size ≤ 33 := by
  cases i with
  | push n =>
    have hn := n.isLt
    show n.val + 2 ≤ 33
    omega
  | _ => exact (by decide : 1 ≤ 33)

theorem pc_frameAfter (h : i.signature.jumps = false) : (i.frameAfter fees f w).pc = f.pc := by
  cases i with
  | jump | jumpIf | jumpSub | returnSub => cases h
  | _ => rfl

/-- A return address is one that was there, or the address behind a subroutine call. -/
theorem returnStack_frameAfter :
    ∀ pc ∈ (i.frameAfter fees f w).returnStack.items,
      pc ∈ f.returnStack.items ∨ pc = f.pc + 1 ∧ i = .jumpSub := by
  intro pc hpc
  cases i with
  | jumpSub =>
    rcases List.mem_cons.mp hpc with rfl | hpc
    · exact .inr ⟨rfl, rfl⟩
    · exact .inl hpc
  | returnSub => exact .inl (List.mem_of_mem_tail hpc)
  | _ => exact .inl hpc

end

/-- A jump that the checks let pass lands in the code or just behind it. -/
theorem pc_frameAfter_le {fees : FeeSchedule} {f : Frame} {w : World} {i : Instruction}
    (hi : i.signature.jumps = true) (hc : i.haltCondition fees f = none)
    (hpc : f.pc < f.code.size) (hr : ∀ pc ∈ f.returnStack.items, pc ≤ f.code.size) :
    (i.frameAfter fees f w).pc ≤ f.code.size := by
  cases i with
  | jump => exact Nat.le_of_lt (Code.isJumpDest_iff.mp (jumpHalt_eq_none hc).2).1
  | jumpIf =>
    show (if f.operand 1 = 0 then f.pc + 1 else (f.operand 0).toNat) ≤ f.code.size
    by_cases h : f.operand 1 = 0
    · rw [if_pos h]
      exact hpc
    · rw [if_neg h]
      have hj : jumpHalt f (f.operand 0) = none := (if_neg h).symm.trans hc
      exact Nat.le_of_lt (Code.isJumpDest_iff.mp (jumpHalt_eq_none hj).2).1
  | jumpSub => exact (Code.isBeginSub_iff.mp (jumpSubHalt_eq_none hc).2.1).1
  | returnSub =>
    show f.returnStack.items.headD 0 ≤ f.code.size
    cases hs : f.returnStack.items with
    | nil => exact Nat.zero_le _
    | cons pc rest => exact hr pc (hs ▸ List.mem_cons_self)
  | _ => cases hi

theorem pending_call (fees : FeeSchedule) (f : Frame) (w : World) (kind : CallKind) :
    ((call kind).frameAfter fees f w).pending =
      some (Call.requested kind f ((Call.childGas? fees kind f w).getD 0)) := rfl

/-- A memory with room for the ranges of a call has room for the output of its child. -/
theorem covers_requested (kind : CallKind) (f : Frame) (gas : Gas) {m : Memory}
    (h : 32 * wordsFor 0 ((call kind).ranges f) ≤ m.size) :
    m.Covers (Call.requested kind f gas).outputOffset (Call.requested kind f gas).outputLength := by
  have hoffset : (Call.requested kind f gas).outputOffset = (Call.outputRange kind f).placed.1 := by
    cases kind <;> rfl
  have hlength : (Call.requested kind f gas).outputLength = (Call.outputRange kind f).placed.2 := by
    cases kind <;> rfl
  rw [hoffset, hlength]
  by_cases hl : (Call.outputRange kind f).2 = 0
  · rw [OperandRange.placed_empty hl]
    exact .inl rfl
  · have hmem : Call.outputRange kind f ∈ (call kind).ranges f :=
      List.mem_cons_of_mem _ (List.mem_singleton_self _)
    rw [OperandRange.placed_eq hl]
    exact .inr (Nat.le_trans (Nat.mul_le_mul_left 32 (stop_le_wordsFor hmem hl)) h)

theorem pending_frameAfter (fees : FeeSchedule) (f : Frame) (w : World) (i : Instruction) :
    (i.frameAfter fees f w).pending = f.pending ∨ ∃ kind gas, i = .call kind ∧
      (i.frameAfter fees f w).pending = some (Call.requested kind f gas) := by
  cases i with
  | call kind => exact .inr ⟨kind, _, rfl, rfl⟩
  | _ => exact .inl rfl

section

variable {fees : FeeSchedule} {f : Frame} {w : World} {i : Instruction}

theorem worldAfter_of_ne (h : i ≠ .storageStore) : i.worldAfter f w = w := by
  cases i with
  | storageStore => exact absurd rfl h
  | _ => rfl

theorem refund_frameAfter (h : i ≠ .storageStore) : (i.frameAfter fees f w).refund = f.refund := by
  cases i with
  | storageStore => exact absurd rfl h
  | _ => rfl

theorem logs_frameAfter (h : ∀ n, i ≠ .log n) : (i.frameAfter fees f w).logs = f.logs := by
  cases i with
  | log n => exact absurd rfl (h n)
  | _ => rfl

end

end Instruction

end MeteredVm
