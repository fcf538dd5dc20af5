import MeteredVm.Interpreter
import MeteredVm.Proofs.Effects

/-!
# MeteredVm.Proofs.Substates

Opening and closing substates, and the actions that do neither.

* `World.leave_cons`: closing a substate uncovers the one around it.
* `World.abandon_append`: dropping the substates opened since leads back to the same world.
* `World.SameBelow`: two worlds differ in the innermost substate only.
* `Action.KeepsSubstates` and `Action.KeepsSubstates.execute`: no instruction opens or closes
  a substate, whether it succeeds or fails.
-/

namespace MeteredVm

namespace World

structure SameBelow (w w' : World) : Prop where
  base : w'.base = w.base
  outer : w'.outer = w.outer

namespace SameBelow

theorem refl (w : World) : w.SameBelow w := ⟨rfl, rfl⟩

theorem trans {w w' w'' : World} (h : w.SameBelow w') (h' : w'.SameBelow w'') :
    w.SameBelow w'' :=
  ⟨h'.base.trans h.base, h'.outer.trans h.outer⟩

end SameBelow

theorem leave_cons {w : World} {parent : Changes} {rest : List Changes} (merge : Merge)
    (h : w.outer = parent :: rest) :
    ∃ changes, w.leave merge = .ok ⟨w.base, changes, rest⟩ ∧
      (merge ≠ .commit → changes = parent) := by
  rw [leave, h]
  refine ⟨_, rfl, fun hm => ?_⟩
  rw [if_neg hm]

theorem length_outer_leave {w w' : World} {merge : Merge} (h : w.leave merge = .ok w') :
    w.outer.length = w'.outer.length + 1 := by
  unfold leave at h
  split at h
  · cases h
  · rename_i ho
    cases h
    rw [ho, List.length_cons]

theorem base_leave {w w' : World} {merge : Merge} (h : w.leave merge = .ok w') :
    w'.base = w.base := by
  unfold leave at h
  split at h
  · cases h
  · cases h
    rfl

theorem transfer_sameBelow {w w' : World} {source target : Address} {value : Word}
    (h : w.transfer source target value = some w') : w.SameBelow w' := by
  rcases transfer_cases h with ⟨-, rfl⟩ | ⟨-, -, rfl⟩
  · exact .refl w'
  · exact ⟨rfl, rfl⟩

theorem storage_transfer {w w' : World} {source target : Address} {value : Word}
    (h : w.transfer source target value = some w') : w'.storage = w.storage := by
  rcases transfer_cases h with ⟨-, rfl⟩ | ⟨-, -, rfl⟩
  · rfl
  · rfl

/-- Dropping the substates that were opened in `w`, and the one it stands in for, restores it. -/
theorem abandon_append {w : World} (inner : List Changes) :
    ∀ w' : World, w'.base = w.base → w'.outer = inner ++ w.substates →
      w'.abandon (inner.length + 1) = w := by
  induction inner with
  | nil =>
    intro w' hb ho
    obtain ⟨changes, hl, hc⟩ := leave_cons .discard ho
    rw [List.length_nil, abandon, hl, hc (by decide), hb]
    rfl
  | cons c inner ih =>
    intro w' hb ho
    obtain ⟨changes, hl, -⟩ := leave_cons .discard ho
    rw [List.length_cons, abandon, hl]
    exact ih _ hb rfl

end World

/-- Whether the action succeeds or fails, it opens and closes no substate. -/
def Action.KeepsSubstates {α : Type} (a : Action α) : Prop :=
  ∀ m, match a m with
    | .ok _ m' => m.world.SameBelow m'.world
    | .error _ m' => m.world.SameBelow m'.world

def Operation.KeepsSubstates (op : Operation) : Prop := op.execute.KeepsSubstates

namespace Action.KeepsSubstates

variable {α β : Type}

theorem ok {a : Action α} (h : a.KeepsSubstates) {m m' : Machine} {x : α}
    (ha : a m = .ok x m') : m.world.SameBelow m'.world := by
  have hm := h m
  rw [ha] at hm
  exact hm

theorem error {a : Action α} (h : a.KeepsSubstates) {m m' : Machine} {failure : Fatal}
    (ha : a m = .error failure m') : m.world.SameBelow m'.world := by
  have hm := h m
  rw [ha] at hm
  exact hm

theorem bind {a : Action α} {k : α → Action β} (ha : a.KeepsSubstates)
    (hk : ∀ x, (k x).KeepsSubstates) : (a >>= k).KeepsSubstates := by
  intro m
  simp only [Bind.bind, EStateM.bind]
  cases he : a m with
  | error failure m' => exact ha.error he
  | ok x m' =>
    have hm := ha.ok he
    have hx := hk x m'
    dsimp only
    cases hk' : k x m' with
    | ok y m'' =>
      rw [hk'] at hx
      exact hm.trans hx
    | error failure m'' =>
      rw [hk'] at hx
      exact hm.trans hx

theorem pure (x : α) : (Pure.pure x : Action α).KeepsSubstates := fun m => .refl m.world

theorem fail (failure : Fatal) : (Action.fail failure : Action α).KeepsSubstates :=
  fun m => .refl m.world

theorem frame : Action.frame.KeepsSubstates := fun m => .refl m.world

theorem world : Action.world.KeepsSubstates := fun m => .refl m.world

theorem record (e : Event) : (Action.record e).KeepsSubstates := fun m => .refl m.world

theorem modifyFrame (change : Frame → Frame) : (Action.modifyFrame change).KeepsSubstates :=
  fun m => .refl m.world

theorem load (offset len : Nat) : (Action.load offset len).KeepsSubstates :=
  fun m => .refl m.world

theorem loadWord (offset : Nat) : (Action.loadWord offset).KeepsSubstates :=
  fun m => .refl m.world

theorem require (failure : Fatal) (value : Option α) :
    (Action.require failure value).KeepsSubstates := by
  intro m
  cases value <;> exact .refl m.world

theorem size (w : Word) : (Action.size w).KeepsSubstates := require _ _

theorem range (offset len : Word) : (Action.range offset len).KeepsSubstates := by
  unfold Action.range
  split
  · exact pure _
  · exact (size _).bind fun _ => (size _).bind fun _ => pure _

theorem updateStack (change : Stack → Except HaltReason Stack) :
    (Action.updateStack change).KeepsSubstates := by
  intro m
  unfold Action.updateStack
  cases change m.frame.stack <;> exact .refl m.world

theorem push (w : Word) : (Action.push w).KeepsSubstates := updateStack _

theorem pop : Action.pop.KeepsSubstates := by
  intro m
  unfold Action.pop
  cases m.frame.stack.pop <;> exact .refl m.world

theorem pushReturn (pc : Nat) : (Action.pushReturn pc).KeepsSubstates := by
  intro m
  unfold Action.pushReturn
  cases m.frame.returnStack.push pc <;> exact .refl m.world

theorem popReturn : Action.popReturn.KeepsSubstates := by
  intro m
  unfold Action.popReturn
  cases m.frame.returnStack.pop <;> exact .refl m.world

theorem setStatus (status : Status) : (Action.setStatus status).KeepsSubstates := by
  intro m
  unfold Action.setStatus
  cases m.frame.setStatus status <;> exact .refl m.world

theorem setStorage (a : Address) (key value : Word) :
    (Action.modifyWorld (·.setStorage a key value)).KeepsSubstates := fun _ => ⟨rfl, rfl⟩

theorem finish (status : Status) : (Instruction.finish status).KeepsSubstates :=
  pop.bind fun _ => pop.bind fun _ => (range _ _).bind fun _ => (load _ _).bind fun _ =>
    (modifyFrame _).bind fun _ => setStatus _

theorem popTopics (n : Nat) : (Instruction.popTopics n).KeepsSubstates := by
  induction n with
  | zero => exact pure _
  | succ n ih => exact pop.bind fun _ => ih.bind fun _ => pure _

theorem call (fees : FeeSchedule) (kind : CallKind) :
    (Call.execute fees kind).KeepsSubstates := by
  have value : (if kind.hasValue then Action.pop else Pure.pure 0).KeepsSubstates := by
    split
    · exact pop
    · exact pure _
  rw [Call.execute_eq_describe]
  refine frame.bind fun _ => world.bind fun _ => (require _ _).bind fun _ => pop.bind fun _ =>
    pop.bind fun _ => value.bind fun _ => ?_
  exact pop.bind fun _ => pop.bind fun _ => pop.bind fun _ => pop.bind fun _ =>
    (range _ _).bind fun _ => (range _ _).bind fun _ => (modifyFrame _).bind fun _ =>
    (load _ _).bind fun _ => (require _ _).bind fun _ => frame.bind fun _ =>
    (record _).bind fun _ => modifyFrame _

theorem execute (fees : FeeSchedule) (i : Instruction) :
    (i.execute fees).KeepsSubstates := by
  cases i with
  | stop => exact (modifyFrame _).bind fun _ => setStatus _
  | ret => exact finish _
  | revert => exact finish _
  | unary op => exact pop.bind fun _ => push _
  | binary op => exact pop.bind fun _ => pop.bind fun _ => push _
  | ternary op => exact pop.bind fun _ => pop.bind fun _ => pop.bind fun _ => push _
  | read what => exact frame.bind fun _ => world.bind fun _ => push _
  | lookup what =>
    exact pop.bind fun _ => frame.bind fun _ => world.bind fun _ => push _
  | copy source =>
    exact frame.bind fun _ => pop.bind fun _ => pop.bind fun _ => pop.bind fun _ =>
      (range _ _).bind fun _ => modifyFrame _
  | keccak =>
    exact pop.bind fun _ => pop.bind fun _ => (range _ _).bind fun _ => (load _ _).bind fun _ =>
      push _
  | pop => exact pop.bind fun _ => pure _
  | push n => exact frame.bind fun _ => push _
  | dup n => exact updateStack (·.dup n)
  | swap n => exact updateStack (·.swap (n + 1))
  | memoryLoad => exact pop.bind fun _ => (size _).bind fun _ => (loadWord _).bind fun _ => push _
  | memoryStore =>
    exact pop.bind fun _ => (size _).bind fun _ => pop.bind fun _ => modifyFrame _
  | memoryStoreByte =>
    exact pop.bind fun _ => (size _).bind fun _ => pop.bind fun _ => modifyFrame _
  | storageStore =>
    exact pop.bind fun _ => pop.bind fun _ => frame.bind fun _ => world.bind fun _ =>
      (modifyFrame _).bind fun _ => setStorage _ _ _
  | jump => exact pop.bind fun _ => (size _).bind fun _ => modifyFrame _
  | jumpIf =>
    refine pop.bind fun _ => pop.bind fun condition => ?_
    split
    · exact frame.bind fun _ => modifyFrame _
    · exact (size _).bind fun _ => modifyFrame _
  | jumpDest => exact pure _
  | beginSub => exact pure _
  | jumpSub =>
    exact pop.bind fun _ => (size _).bind fun _ => frame.bind fun _ => (pushReturn _).bind fun _ =>
      modifyFrame _
  | returnSub => exact popReturn.bind fun _ => modifyFrame _
  | log n =>
    exact pop.bind fun _ => pop.bind fun _ => (range _ _).bind fun _ =>
      (popTopics n).bind fun _ => (load _ _).bind fun _ => modifyFrame _
  | call kind => exact call fees kind

end Action.KeepsSubstates

theorem InstructionSet.keepsSubstates_of_mem {c : Rules} {op : Operation}
    (h : op ∈ operations c) : op.KeepsSubstates := by
  rcases List.mem_append.mp h with h | h
  · obtain ⟨i, -, rfl⟩ := List.mem_map.mp h
    exact Action.KeepsSubstates.execute c.tariff.fees i
  · rw [List.mem_singleton.mp h]
    exact Action.KeepsSubstates.fail _

end MeteredVm
