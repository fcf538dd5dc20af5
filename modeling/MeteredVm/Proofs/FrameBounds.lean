import MeteredVm.Proofs.Evaluation

/-!
# MeteredVm.Proofs.FrameBounds

No frame of a message outgrows its limits.

The height of the operand stack is bounded by the check before an operation, that of the return
stack by the halt condition of the only operation that pushes there, and memory by a halt condition
on the ranges an operation touches. What is written when a call returns lies in the window that the
call touched as it suspended its frame, so resuming a frame does not make its memory grow.

* `Frame.InBounds`: the stacks are no higher than their limits, and memory is whole words, no more
  than its limit needs. `Frame.lasting_inBounds`: every frame of a message is in bounds.
* `CallTree.Limited`: the outermost frame has the limits that it was built with, and each frame
  above it those of the executor.
* `Executor.frame_of_within`: what becomes of one frame as long as it is open.
* `Executor.bounds_throughout`: the bounds at every point of a message.
-/

namespace MeteredVm

namespace Memory

@[simp] theorem limit_expand (m : Memory) (offset len : Nat) :
    (m.expand offset len).limit = m.limit := by
  unfold expand
  dsimp only
  split
  · rfl
  · split <;> rfl

theorem limit_set (m : Memory) (offset : Nat) (bytes : Bytes) (target : Option Nat) :
    (m.set offset bytes target).limit = m.limit := by
  unfold set
  dsimp only
  split
  · rfl
  · exact m.limit_expand ..

theorem limit_copy (m : Memory) (offset : Nat) (data : Bytes) (dataOffset : Word) (len : Nat) :
    (m.copy offset data dataOffset len).limit = m.limit := by
  unfold copy
  split
  · rfl
  · exact m.limit_set ..

end Memory

namespace Instruction

theorem wordsFor_le_limit {m : Memory} {touched : List OperandRange}
    (h : ∀ r ∈ touched, m.exceedsLimit r.1 r.2 = false) :
    wordsFor 0 touched ≤ Memory.wordsFor m.limit.toNat := by
  induction touched with
  | nil => exact Nat.zero_le _
  | cons r rest ih =>
    have hrest := ih fun s hs => h s (List.mem_cons_of_mem r hs)
    rw [wordsFor, List.foldr_cons]
    split
    · exact hrest
    · rename_i hl
      exact Nat.max_le.mpr ⟨hrest, Memory.wordsFor_mono
        (Memory.stop_le_limit (h r List.mem_cons_self) hl)⟩

end Instruction

namespace Frame

def limits (f : Frame) : Limits := ⟨f.stack.limit, f.returnStack.limit, f.memory.limit⟩

/-- The frame keeps to its limits, that of memory rounded up to whole words. -/
structure InBounds (f : Frame) : Prop where
  stack : f.stack.height ≤ f.limits.stack.toNat
  returnStack : f.returnStack.height ≤ f.limits.returnStack.toNat
  whole : 32 ∣ f.memory.size
  memory : f.memory.size ≤ 32 * Memory.wordsFor f.limits.memory.toNat

@[simp] theorem limits_start (message : Message) (limits : Limits) :
    (Frame.start message limits).limits = limits := rfl

@[simp] theorem limits_frameAfter (fees : FeeSchedule) (f : Frame) (w : World) (i : Instruction) :
    (i.frameAfter fees f w).limits = f.limits := by
  have hmemory : (i.frameAfter fees f w).memory.limit = f.memory.limit := by
    cases i with
    | ret | revert | keccak | memoryLoad | log => exact Memory.limit_expand ..
    | copy => exact Memory.limit_copy ..
    | memoryStore | memoryStoreByte => exact Memory.limit_set ..
    | call kind => exact (Memory.limit_expand ..).trans (Memory.limit_expand ..)
    | _ => rfl
  have hreturn : (i.frameAfter fees f w).returnStack.limit = f.returnStack.limit := by
    cases i <;> rfl
  simp [limits, hmemory, hreturn]

@[simp] theorem limits_resumed (f : Frame) (request : MessageRequest) (outcome : ChildOutcome)
    (gas : Gas) : (f.resumed request outcome gas).limits = f.limits := by
  simp [limits, resumed, Memory.write, Memory.limit_set]

section

variable {t : Tariff} {f f' : Frame} {w w' : World} {s : Step}

theorem limits_performed {i : Instruction} {cost : Gas} {sig : Signature} :
    (f.performed t.fees w i cost sig).limits = f.limits := by
  rw [performed, advance_eq]
  exact limits_frameAfter t.fees (f.paid cost) w i

/-- Only a subroutine call pushes a return address, and it needs room for it. -/
theorem returnHeight_performed {i : Instruction} {cost : Gas} {sig : Signature}
    (h : i.Passes t.fees f w cost) (hf : f.returnStack.height ≤ f.returnStack.limit.toNat) :
    (f.performed t.fees w i cost sig).returnStack.height ≤ f.returnStack.limit.toNat := by
  rw [performed, advance_eq]
  cases i with
  | jumpSub =>
    obtain ⟨-, -, hfull⟩ := Instruction.jumpSubHalt_eq_none h.clear
    have hroom : f.returnStack.height < f.returnStack.limit.toNat := by
      simpa [ReturnStack.isFull] using hfull
    exact hroom
  | returnSub =>
    have hpopped : f.returnStack.items.tail.length ≤ f.returnStack.height := by
      rw [List.length_tail]
      exact Nat.sub_le _ _
    exact Nat.le_trans hpopped hf
  | _ => exact hf

theorem Steps.limits_eq (h : f.Steps t.fees w s f' w') : f'.limits = f.limits := by
  cases h with
  | refused => rfl
  | performed => exact limits_performed

theorem Steps.size_le (h : f.Steps t.fees w s f' w') : f.memory.size ≤ f'.memory.size := by
  cases h with
  | refused => exact Nat.le_refl _
  | performed =>
    rw [size_performed]
    exact Nat.le_max_left ..

theorem Steps.inBounds (hf : f.InBounds) (h : f.Steps t.fees w s f' w') : f'.InBounds := by
  cases h with
  | refused => exact ⟨hf.stack, hf.returnStack, hf.whole, hf.memory⟩
  | performed i p sig cost _ passes =>
    have hroom := passes.room
    have hpushed := i.pushed_le
    refine ⟨?_, ?_, ?_, ?_⟩
    · rw [limits_performed, height_performed passes]
      show _ ≤ f.stack.limit.toNat
      exact Nat.le_trans (Nat.add_le_add_left hpushed _) hroom
    · rw [limits_performed]
      exact returnHeight_performed passes hf.returnStack
    · rw [size_performed]
      rcases Nat.le_total (32 * Instruction.wordsFor 0 (i.ranges (f.facing sig))) f.memory.size
        with hkept | hgrown
      · exact (Nat.max_eq_left hkept).symm ▸ hf.whole
      · exact (Nat.max_eq_right hgrown).symm ▸ Nat.dvd_mul_right 32 _
    · rw [limits_performed, size_performed]
      refine Nat.max_le.mpr ⟨hf.memory, Nat.mul_le_mul_left 32 ?_⟩
      exact Instruction.wordsFor_le_limit (Instruction.ranges_of_clear passes.clear)

theorem resumed_inBounds {request : MessageRequest} (hf : f.InBounds) (hw : f.Waits request)
    (outcome : ChildOutcome) (gas : Gas) : (f.resumed request outcome gas).InBounds where
  stack := by
    rw [limits_resumed]
    exact hw.room
  returnStack := by
    rw [limits_resumed]
    exact hf.returnStack
  whole := by
    rw [hw.size_resumed]
    exact hf.whole
  memory := by
    rw [limits_resumed, hw.size_resumed]
    exact hf.memory

end

theorem lasting_inBounds (c : Rules) : Frame.Lasting c InBounds where
  start _ _ := ⟨Nat.zero_le _, Nat.zero_le _, Nat.dvd_zero 32, Nat.zero_le _⟩
  steps hf _ h := h.inBounds hf
  resumed hf _ hw := resumed_inBounds hf hw _ _

end Frame

def CallTree.Limited (own inner : Limits) : List Frame → Prop
  | [] => True
  | f :: lower => f.limits = (if lower.isEmpty then own else inner) ∧ Limited own inner lower

namespace CallTree

variable {c r : Rules} {own inner : Limits} {t t' : CallTree}

theorem Limited.limits_eq {upper lower : List Frame} {f : Frame}
    (h : Limited own inner (upper ++ f :: lower)) :
    f.limits = if lower.isEmpty then own else inner := by
  induction upper with
  | nil => exact h.1
  | cons g upper ih => exact ih h.2

theorem Transition.limited (h : t.Transition c r t') (ht : Limited own r.limits t.frames) :
    Limited own r.limits t'.frames := by
  cases h with
  | stepped before _ steps after =>
    rw [before] at ht
    rw [after]
    exact ⟨steps.limits_eq.trans ht.1, ht.2⟩
  | refused before _ _ _ _ after =>
    rw [before] at ht
    rw [after]
    exact ⟨(Frame.limits_resumed ..).trans ht.1, ht.2⟩
  | started before _ _ _ _ after =>
    rw [before] at ht
    rw [after]
    exact ⟨rfl, ht⟩
  | returned before _ _ _ _ _ after =>
    rw [before] at ht
    rw [after]
    exact ⟨(Frame.limits_resumed ..).trans ht.2.1, ht.2.2⟩

end CallTree

namespace Executor

open CallTree

section

variable {c r : Rules} {t t' : CallTree} {lower : List Frame}

/-- What operations and resumptions keep holds of a frame as long as it is open. -/
theorem frame_of_transition {P : Frame → Prop}
    (steps : ∀ {f f' : Frame} {w w' : World} {s : Step}, P f → f.status = .executing →
      f.Steps c.tariff.fees w s f' w' → P f')
    (resumed : ∀ {f : Frame} {request : MessageRequest} {outcome : ChildOutcome} {gas : Gas},
      P f → f.status = .suspended → f.Waits request → P (f.resumed request outcome gas))
    (h : t.Transition c r t') (high : lower.length + 1 ≤ t'.frames.length)
    (ht : ∃ upper f, t.frames = upper ++ f :: lower ∧ P f) :
    ∃ upper f, t'.frames = upper ++ f :: lower ∧ P f := by
  obtain ⟨upper, f, hframes, hf⟩ := ht
  cases h with
  | stepped before executing hsteps after =>
    cases upper with
    | nil =>
      obtain ⟨rfl, rfl⟩ := List.cons.inj (hframes.symm.trans before)
      exact ⟨[], _, after, steps hf executing hsteps⟩
    | cons g upper =>
      obtain ⟨rfl, rfl⟩ := List.cons.inj (hframes.symm.trans before)
      exact ⟨_ :: upper, f, after, hf⟩
  | refused before suspended waits _ _ after =>
    cases upper with
    | nil =>
      obtain ⟨rfl, rfl⟩ := List.cons.inj (hframes.symm.trans before)
      exact ⟨[], _, after, resumed hf suspended waits⟩
    | cons g upper =>
      obtain ⟨rfl, rfl⟩ := List.cons.inj (hframes.symm.trans before)
      exact ⟨_ :: upper, f, after, hf⟩
  | started before _ _ _ _ after =>
    rw [← before, hframes] at after
    exact ⟨_ :: upper, f, after, hf⟩
  | returned before _ suspended waits _ _ after =>
    cases upper with
    | nil =>
      -- the frame itself would have ended
      obtain ⟨-, hlower⟩ := List.cons.inj (hframes.symm.trans before)
      rw [after, hlower] at high
      exact absurd high (Nat.lt_irrefl _)
    | cons g upper =>
      obtain ⟨-, hrest⟩ := List.cons.inj (hframes.symm.trans before)
      cases upper with
      | nil =>
        obtain ⟨rfl, rfl⟩ := List.cons.inj hrest
        exact ⟨[], _, after, resumed hf suspended waits⟩
      | cons p upper =>
        obtain ⟨rfl, rfl⟩ := List.cons.inj hrest
        exact ⟨_ :: upper, f, after, hf⟩

theorem frame_of_within {P : Frame → Prop}
    (steps : ∀ {f f' : Frame} {w w' : World} {s : Step}, P f → f.status = .executing →
      f.Steps c.tariff.fees w s f' w' → P f')
    (resumed : ∀ {f : Frame} {request : MessageRequest} {outcome : ChildOutcome} {gas : Gas},
      P f → f.status = .suspended → f.Waits request → P (f.resumed request outcome gas))
    {upper : List Frame} {f : Frame} (hs : t.Sound)
    (h : Within ⟨.ofRules c, r⟩ (lower.length + 1) t t') (hframes : t.frames = upper ++ f :: lower)
    (hf : P f) : ∃ upper f, t'.frames = upper ++ f :: lower ∧ P f := by
  induction h with
  | refl => exact ⟨upper, f, hframes, hf⟩
  | move before next high ih =>
    have hs' := (sound_of_within hs before).1
    exact frame_of_transition steps resumed (advance_transition hs' next) high ih

end

/--
At every point of a message each of its frames is in bounds. The outermost frame has the limits that
it was built with and every other those of the executor's rules, and as long as a frame is open its
memory does not shrink.
-/
theorem bounds_throughout (c r : Rules) (message : Message) (limits : Limits) (world : World)
    (codes : CodeCache) (journal : Journal) (n : Nat) {t : CallTree}
    (h : run ⟨.ofRules c, r⟩ n (begin (Frame.start message limits) world codes journal) =
      .running t) :
    ∀ upper f lower, t.frames = upper ++ f :: lower →
      f.InBounds ∧ f.limits = (if lower.isEmpty then limits else r.limits) ∧
      ∀ t', Within ⟨.ofRules c, r⟩ (lower.length + 1) t t' →
        ∃ upper' f', t'.frames = upper' ++ f' :: lower ∧ f.memory.size ≤ f'.memory.size := by
  intro upper f lower hframes
  have hbegin := begin_sound message limits world codes journal
  have hbounds := run_begin_lasting message limits world codes journal
    (Frame.lasting_inBounds c) r n h
  have hlimited : Limited limits r.limits t.frames :=
    run_keeps c r (P := fun t => Limited limits r.limits t.frames)
      (fun _ ht htransition => htransition.limited ht) n hbegin ⟨rfl, trivial⟩ h
  refine ⟨hbounds f (by simp [hframes]), ?_, ?_⟩
  · rw [hframes] at hlimited
    exact hlimited.limits_eq
  · intro t' hmoves
    have hs := (run_running c r n hbegin h).1
    refine frame_of_within (P := fun g => f.memory.size ≤ g.memory.size) ?_ ?_ hs hmoves hframes
      (Nat.le_refl _)
    · intro g g' w w' s hg _ hsteps
      exact Nat.le_trans hg hsteps.size_le
    · intro g request outcome gas hg _ hw
      rw [hw.size_resumed]
      exact hg

/-- The last byte that may be touched is written, and then account 6 is called. -/
def filling : Message where
  code := Code.ofBytes
    #[0x60, 1, 0x60, 32, 0x53, 0x60, 1, 0x60, 32, 0x60, 0, 0x60, 0, 0x60, 0, 0x60, 6,
      0x61, 0x75, 0x30, 0xf1] 0
  initialGas := 100000

def tight : Limits where
  stack := 7
  returnStack := 0
  memory := 33

def fillings : World :=
  let code := #[0x60, 7, 0x60, 0, 0x53, 0x60, 1, 0x60, 0, 0xf3]
  { base := ({} : Ledger).insert 6 { code } }

def fillingTree (k : Nat) : CallTree :=
  (run ⟨.ofRules .london, .london⟩ k (begin (Frame.start filling tight) fillings {} [])).tree

set_option maxRecDepth 8000 in
theorem filling_run : ∀ k ≤ 18,
    (run ⟨.ofRules .london, .london⟩ k
      (begin (Frame.start filling tight) fillings {} [])).outcome? = none ∧
    (run ⟨.ofRules .london, .london⟩ k
      (begin (Frame.start filling tight) fillings {} [])).failure? = none := by
  decide +kernel

theorem run_filling {k : Nat} (hk : k ≤ 18) :
    run ⟨.ofRules .london, .london⟩ k (begin (Frame.start filling tight) fillings {} []) =
      .running (fillingTree k) :=
  Progress.eq_running (filling_run k hk).1 (filling_run k hk).2

set_option maxRecDepth 8000 in
theorem filling_frames : (fillingTree 12).frames.map (·.memory.size) = [0, 64] ∧
    ∀ j ≤ 6, 2 ≤ (run ⟨.ofRules .london, .london⟩ j (fillingTree 12)).tree.frames.length := by
  decide +kernel

/--
The caller fills its memory up to a limit inside the second word; its callee has other limits.
-/
theorem bounds_throughout_filling : ∃ child caller,
    run ⟨.ofRules .london, .london⟩ 12 (begin (Frame.start filling tight) fillings {} []) =
      .running (fillingTree 12) ∧
    (fillingTree 12).frames = [child, caller] ∧
    caller.InBounds ∧ caller.limits = tight ∧ caller.memory.size = 64 ∧
    child.InBounds ∧ child.limits = Rules.london.limits ∧
    Within ⟨.ofRules .london, .london⟩ 2 (fillingTree 12) (fillingTree 18) ∧
    ∃ upper child', (fillingTree 18).frames = upper ++ child' :: [caller] ∧
      child.memory.size ≤ child'.memory.size := by
  obtain ⟨hstart, hhigh⟩ := filling_frames
  obtain ⟨child, rest, hframes⟩ : ∃ child rest, (fillingTree 12).frames = child :: rest :=
    List.exists_cons_of_ne_nil fun hnil => by simp [hnil] at hstart
  rw [hframes, List.map_cons, List.cons.injEq] at hstart
  obtain ⟨caller, rfl, hsize⟩ : ∃ caller, rest = [caller] ∧ caller.memory.size = 64 := by
    obtain ⟨caller, h, hsize⟩ := List.map_eq_singleton_iff.mp hstart.2
    exact ⟨caller, h, hsize⟩
  have hrun := run_filling (k := 12) (by omega)
  have hbounds := bounds_throughout .london .london filling tight fillings {} [] 12 hrun
  obtain ⟨hchild, hinner, hgrows⟩ := hbounds [] child [caller] hframes
  obtain ⟨hcaller, hown, -⟩ := hbounds [child] caller [] hframes
  have hmoves : Within ⟨.ofRules .london, .london⟩ 2 (fillingTree 12) (fillingTree 18) := by
    refine .of_run 6 ?_ fun j hj t₁ h => ?_
    · rw [← run_filling (k := 18) (by omega)]
      exact (run_add 12 6 hrun).symm
    · have hlength := hhigh j hj
      rw [h] at hlength
      exact hlength
  exact ⟨child, caller, hrun, hframes, hcaller, hown, hsize, hchild, hinner, hmoves,
    hgrows _ hmoves⟩

end Executor

end MeteredVm
