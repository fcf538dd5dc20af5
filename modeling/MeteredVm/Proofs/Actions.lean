import MeteredVm.Instruction.Effect

/-!
# MeteredVm.Proofs.Actions

Running an action whose checks passed.

An effect pops its operands one after the other. `Machine.dropTop m n` is the machine `m` after
`n` of them are gone, and every operand is named by its place in `m`, so running an effect is
rewriting with the equations below, each under the condition that the checks guarantee.

* `Action.pop_bind`: popping operand `n`.
* `Action.push_dropTop`: pushing a result in the place of `n` operands.
* `Action.range_bind`: reading two operands as a memory range that keeps to the limit.
-/

namespace MeteredVm

def Frame.replaceTop (f : Frame) (n : Nat) (results : List Word) : Frame :=
  { f with stack := { f.stack with items := results ++ f.stack.items.drop n } }

def Machine.dropTop (m : Machine) (n : Nat) : Machine := m.withFrame (m.frame.replaceTop n [])

theorem Frame.height_replaceTop (f : Frame) (n : Nat) (results : List Word) :
    (f.replaceTop n results).stack.height = results.length + (f.stack.height - n) := by
  simp [Frame.replaceTop, Stack.height]

theorem Stack.drop_eq_operand_cons {s : Stack} {n : Nat} (h : n < s.height) :
    s.items.drop n = s.operand n :: s.items.drop (n + 1) := by
  have hn : n < s.items.length := h
  rw [List.drop_eq_getElem_cons hn, Stack.operand, List.getD_eq_getElem?_getD,
    List.getElem?_eq_getElem hn, Option.getD_some]

theorem Stack.push_eq {s : Stack} (w : Word) (h : s.height < s.limit.toNat) :
    s.push w = .ok { s with items := w :: s.items } := by
  rw [Stack.push, if_neg (by omega)]

theorem Stack.peek_eq {s : Stack} {n : Nat} (h : n < s.height) : s.peek n = .ok (s.operand n) := by
  have hn : n < s.items.length := h
  rw [Stack.peek, Stack.operand, List.getD_eq_getElem?_getD, List.getElem?_eq_getElem hn]
  rfl

theorem Stack.set_set_eq {s : Stack} (a b : Word) {i j : Nat} (hi : i < s.height)
    (hj : j < s.height) :
    (do (← s.set i a).set j b) = (.ok { s with items := (s.items.set i a).set j b } :
      Except HaltReason Stack) := by
  have hl : j < ({ s with items := s.items.set i a } : Stack).height := by
    simpa [Stack.height] using hj
  simp only [Stack.set, if_pos hi, bind, Except.bind, if_pos hl]

theorem Word.toSize?_eq_some {w : Word} (h : w.toNat < sizeBound) : w.toSize? = some w.toNat := by
  rw [Word.toSize?, if_pos h]

theorem Memory.stop_le_limit {m : Memory} {offset len : Word}
    (h : m.exceedsLimit offset len = false) (hl : len ≠ 0) :
    offset.toNat + len.toNat ≤ m.limit.toNat := by
  unfold exceedsLimit at h
  rw [if_neg hl] at h
  cases hs : (offset.add? len).bind Word.toSize? with
  | none =>
    rw [hs] at h
    cases h
  | some stop =>
    rw [hs] at h
    obtain ⟨sum, hsum, hsize⟩ := Option.bind_eq_some_iff.mp hs
    have hstop : stop = sum.toNat := by
      unfold Word.toSize? at hsize
      split at hsize
      · exact (Option.some.inj hsize).symm
      · cases hsize
    rw [← Word.add?_eq_some.mp hsum, ← hstop]
    exact Nat.not_lt.mp (of_decide_eq_false h)

theorem Memory.stop_lt_sizeBound {m : Memory} {offset len : Word}
    (h : m.exceedsLimit offset len = false) (hl : len ≠ 0) :
    offset.toNat + len.toNat < sizeBound :=
  Nat.lt_of_le_of_lt (m.stop_le_limit h hl) m.limit.toNat_lt

theorem Memory.read_zero (m : Memory) (offset : Nat) : m.read offset 0 = #[] := by
  simp [Memory.read]

theorem Memory.read_expand (m : Memory) (offset len offset' len' : Nat) :
    (m.expand offset len).read offset' len' = m.read offset' len' := by
  simp only [Memory.read_eq, Memory.byteAt_expand]

/-- Where an operand range lies: an empty one at offset 0. -/
def OperandRange.placed (r : OperandRange) : Nat × Nat :=
  if r.2 = 0 then (0, 0) else (r.1.toNat, r.2.toNat)

theorem OperandRange.placed_empty {r : OperandRange} (h : r.2 = 0) : r.placed = (0, 0) := if_pos h

theorem OperandRange.placed_eq {r : OperandRange} (h : r.2 ≠ 0) :
    r.placed = (r.1.toNat, r.2.toNat) := if_neg h

/-- An empty range may be thought to lie at the offset that was given for it. -/
theorem Memory.expand_placed (m : Memory) (r : OperandRange) :
    m.expand r.placed.1 r.placed.2 = m.expand r.1.toNat r.2.toNat := by
  by_cases h : r.2 = 0
  · simp [OperandRange.placed_empty h, Memory.expand, h]
  · rw [OperandRange.placed_eq h]

theorem Memory.read_placed (m : Memory) (r : OperandRange) :
    m.read r.placed.1 r.placed.2 = m.read r.1.toNat r.2.toNat := by
  by_cases h : r.2 = 0
  · simp [OperandRange.placed_empty h, Memory.read_zero, h]
  · rw [OperandRange.placed_eq h]

theorem Memory.copy_placed (m : Memory) (r : OperandRange) (data : Bytes) (dataOffset : Word) :
    m.copy r.placed.1 data dataOffset r.placed.2 = m.copy r.1.toNat data dataOffset r.2.toNat := by
  by_cases h : r.2 = 0
  · simp [OperandRange.placed_empty h, Memory.copy_zero, h]
  · rw [OperandRange.placed_eq h]

namespace Action

section

variable {α β : Type} {m m' : Machine} {n : Nat}

theorem bind_ok {a : Action α} {k : α → Action β} {x : α} (h : a m = .ok x m') :
    (a >>= k) m = k x m' := by
  simp only [bind, EStateM.bind, h]

theorem pop_bind {k : Word → Action β} (h : n < m.frame.stack.height) :
    (Action.pop >>= k) (m.dropTop n) = k (m.frame.operand n) (m.dropTop (n + 1)) := by
  refine bind_ok ?_
  simp only [Action.pop, Machine.dropTop, Machine.withFrame, Frame.replaceTop, List.nil_append,
    Stack.pop, Stack.drop_eq_operand_cons h, Frame.operand]

theorem push_dropTop (w : Word) (h : m.frame.stack.height - n < m.frame.stack.limit.toNat) :
    Action.push w (m.dropTop n) = .ok () (m.withFrame (m.frame.replaceTop n [w])) := by
  have hr : (m.frame.replaceTop n []).stack.height < m.frame.stack.limit.toNat := by
    rw [Frame.height_replaceTop, List.length_nil]
    omega
  have hp := Stack.push_eq (s := (m.dropTop n).frame.stack) w hr
  simp only [Action.push, Action.updateStack, hp]
  rfl

theorem frame_bind {k : Frame → Action β} : (Action.frame >>= k) m = k m.frame m := rfl

theorem world_bind {k : World → Action β} : (Action.world >>= k) m = k m.world m := rfl

theorem modifyFrame_bind {k : Unit → Action β} (change : Frame → Frame) :
    (Action.modifyFrame change >>= k) m = k () (m.withFrame (change m.frame)) := rfl

theorem modifyFrame_eq (change : Frame → Frame) :
    Action.modifyFrame change m = .ok () (m.withFrame (change m.frame)) := rfl

theorem require_bind {k : α → Action β} {failure : Fatal} {value : Option α} {x : α}
    (h : value = some x) : (Action.require failure value >>= k) m = k x m := by
  subst h; rfl

theorem size_bind {k : Nat → Action β} {w : Word} (h : w.toNat < sizeBound) :
    (Action.size w >>= k) m = k w.toNat m :=
  require_bind (Word.toSize?_eq_some h)

theorem range_bind {k : Nat × Nat → Action β} {memory : Memory} {offset len : Word}
    (h : memory.exceedsLimit offset len = false) :
    (Action.range offset len >>= k) m = k (OperandRange.placed (offset, len)) m := by
  unfold Action.range OperandRange.placed
  by_cases hl : len = 0
  · rw [if_pos hl, if_pos hl]; rfl
  · have hs := Memory.stop_lt_sizeBound h hl
    rw [if_neg hl, if_neg hl]
    refine bind_ok ?_
    rw [size_bind (by omega), size_bind (by omega)]
    rfl

theorem load_bind {k : Bytes → Action β} (offset len : Nat) :
    (Action.load offset len >>= k) m = k (m.frame.memory.read offset len)
      (m.withFrame { m.frame with memory := m.frame.memory.expand offset len }) := rfl

theorem expand_load_bind {k : Bytes → Action β} (offset len offset' len' : Nat) :
    (Action.expand offset len >>= fun _ => Action.load offset' len' >>= k) m =
      k (m.frame.memory.read offset' len')
        (m.withFrame { m.frame with
          memory := (m.frame.memory.expand offset len).expand offset' len' }) := by
  rw [← m.frame.memory.read_expand offset len]
  rfl

theorem setStatus_eq {status : Status} (h : m.frame.status ≠ .halted) (hs : status ≠ .halted) :
    Action.setStatus status m = .ok () (m.withFrame { m.frame with status := status }) := by
  simp [Action.setStatus, Frame.setStatus, h, hs]

theorem setStatus_halted {status : Status} (h : m.frame.status = .halted) :
    Action.setStatus status m = .error .invalidTransition m := by
  simp [Action.setStatus, Frame.setStatus, h]

end

end Action

end MeteredVm
