import MeteredVm.Proofs.Moves

/-!
# MeteredVm.Proofs.Rollback

A message that does not succeed leaves no trace in the world, whatever operations there are.

All that is asked of the operations is that their effects open and close no substate. Then each
frame of a message owns one substate, and the substates that were open before lie unchanged below.

* `CallTree.OpenOn`: a world lies below the substates of a message, under the lowest of its frames.
* `Executor.advance_openOn` and `Executor.finish_closes`: a move keeps it there, or the lowest
  frame ended and uncovers it.
* `Executor.rollback`: what becomes of the world after a message, and after each nested call.
-/

namespace MeteredVm

def Interpreter.KeepsSubstates (vm : Interpreter) : Prop :=
  ∀ version opcode op, vm.instructionSet.get? opcode version = some op →
    (∃ c, op ∈ InstructionSet.operations c) ∨ op.KeepsSubstates

structure World.SameAnswers (w w' : World) : Prop where
  balance : ∀ a, w'.balance a = w.balance a
  storage : ∀ a key, w'.storage a key = w.storage a key
  exists? : ∀ a, w'.exists? a = w.exists? a

theorem World.SameAnswers.of_eq {w w' : World} (h : w' = w) : w.SameAnswers w' := by
  subst h
  exact ⟨fun _ => rfl, fun _ _ => rfl, fun _ => rfl⟩

namespace Interpreter

theorem operationAt_keepsSubstates {vm : Interpreter} (h : vm.KeepsSubstates) (code : Code)
    (pc : Nat) : (vm.operationAt code pc).KeepsSubstates := by
  unfold operationAt
  cases code.opcodeAt? pc with
  | none => exact Action.KeepsSubstates.execute vm.tariff.fees .stop
  | some b =>
    show (vm.resolve b code.version).KeepsSubstates
    unfold resolve
    cases hg : vm.instructionSet.get? b code.version with
    | none => exact Action.KeepsSubstates.fail _
    | some op =>
      rcases h _ _ _ hg with ⟨c, hc⟩ | hk
      · exact InstructionSet.keepsSubstates_of_mem hc
      · exact hk

theorem apply_keepsSubstates {op : Operation} (h : op.KeepsSubstates) (cost : Option Gas) :
    (op.apply cost).KeepsSubstates := by
  have charge : ∀ cost, (Action.charge cost).KeepsSubstates := by
    intro cost m
    unfold Action.charge
    cases m.frame.charge cost <;> exact .refl m.world
  exact (Action.KeepsSubstates.require _ _).bind fun _ =>
    (Action.KeepsSubstates.modifyFrame _).bind fun _ => (charge _).bind fun _ => h.bind fun _ =>
      (Action.KeepsSubstates.modifyFrame _).bind fun _ => Action.KeepsSubstates.frame.bind fun _ =>
        Action.KeepsSubstates.pure _

theorem breakOff_sameBelow (op : Operation) (failure : Fatal) (m : Machine) :
    ∃ failure' m', breakOff op failure m = .error failure' m' ∧ m'.world = m.world := by
  unfold breakOff
  dsimp only
  split
  · exact ⟨_, _, rfl, rfl⟩
  · exact ⟨_, _, rfl, rfl⟩

theorem step_keepsSubstates {vm : Interpreter} (h : vm.KeepsSubstates) :
    vm.step.KeepsSubstates := by
  intro m
  by_cases he : m.frame.status = .executing
  · generalize hop : vm.operationAt m.frame.code m.frame.pc = op
    have hkeeps : op.KeepsSubstates := hop ▸ operationAt_keepsSubstates h _ _
    have hstep := step_eq (w := m.world) m.journal he hop
    rw [show vm.step m = _ from hstep]
    cases (op.check (m.frame.facing op.toSignature) m.world).halt with
    | some reason => exact .refl m.world
    | none =>
      have happly := apply_keepsSubstates hkeeps
        (op.check (m.frame.facing op.toSignature) m.world).cost
      dsimp only
      cases ha : op.apply (op.check (m.frame.facing op.toSignature) m.world).cost
          (checked op m.frame m.world m.journal) with
      | ok s m' =>
        have hm := happly.ok ha
        exact hm
      | error failure m' =>
        have hm := happly.error ha
        obtain ⟨failure', m'', hb, hw⟩ := breakOff_sameBelow op failure m'
        dsimp only
        rw [hb]
        dsimp only
        rw [hw]
        exact hm
  · have hstep : vm.step m = .error .notExecuting m := by simp [step, he]
    rw [hstep]
    exact .refl m.world

end Interpreter

def Progress.failure? : Progress → Option Fatal
  | .failed failure _ => some failure
  | _ => none

def Progress.outcome? : Progress → Option Outcome
  | .finished outcome _ => some outcome
  | _ => none

def Progress.tree : Progress → CallTree
  | .running t => t
  | .finished _ t => t
  | .failed _ t => t

theorem Progress.eq_running {p : Progress} (ho : p.outcome? = none) (hf : p.failure? = none) :
    p = .running p.tree := by
  cases p with
  | running t => rfl
  | finished outcome t => cases ho
  | failed failure t => cases hf

/--
The substates that were open in `w` are open again, and no others; unless the message succeeded,
the world answers as it did.
-/
def Progress.RollsBack (w : World) : Progress → Prop
  | .running _ => True
  | .failed _ t => t.world.depth = w.depth ∧ w.SameAnswers t.world
  | .finished outcome t =>
    t.world.depth = w.depth ∧ (outcome.status ≠ .succeeded → w.SameAnswers t.world)

/--
Under the `n`th frame, counted from the outermost, the world is `w`: the substates of the frames
above it and its own lie over those of `w`.
-/
structure CallTree.OpenOn (w : World) (n : Nat) (t : CallTree) : Prop where
  base : t.world.base = w.base
  above : ∃ inner, t.world.outer = inner ++ w.substates ∧ inner.length + n = t.frames.length

namespace CallTree

section

variable {w : World} {n : Nat} {t : CallTree} {f : Frame} {rest : List Frame}

theorem OpenOn.of_sameBelow {t' : CallTree} (h : t.OpenOn w n)
    (hw : t.world.SameBelow t'.world) (hl : t'.frames.length = t.frames.length) :
    t'.OpenOn w n := by
  obtain ⟨inner, hi, hn⟩ := h.above
  exact ⟨hw.base.trans h.base, inner, hw.outer.trans hi, hn.trans hl.symm⟩

theorem tree_deliver (t : CallTree) (parent : Frame) (rest : List Frame)
    (outcome : MessageRequest → ChildOutcome) :
    (t.deliver parent rest outcome).tree.world = t.world ∧
      (t.deliver parent rest outcome).tree.frames.length = rest.length + 1 ∧
      (t.deliver parent rest outcome).outcome? = none := by
  unfold deliver
  cases parent.pending with
  | none => exact ⟨rfl, rfl, rfl⟩
  | some request =>
    dsimp only
    split
    · exact ⟨rfl, rfl, rfl⟩
    · exact ⟨rfl, rfl, rfl⟩

end

end CallTree

namespace Executor

open CallTree

section

variable {x : Executor} {w : World} {n : Nat} {t : CallTree} {f : Frame} {rest : List Frame}

theorem stepFrame_openOn (hx : x.vm.KeepsSubstates) (h : t.OpenOn w n)
    (hf : t.frames = f :: rest) :
    (x.stepFrame t f rest).tree.OpenOn w n ∧ (x.stepFrame t f rest).outcome? = none := by
  have hkeeps := Interpreter.step_keepsSubstates hx
  unfold stepFrame
  cases hs : x.vm.step ⟨f, t.world, t.journal⟩ with
  | ok s m => exact ⟨h.of_sameBelow (hkeeps.ok hs) (by simp [hf, Progress.tree]), rfl⟩
  | error failure m => exact ⟨h.of_sameBelow (hkeeps.error hs) (by simp [hf, Progress.tree]), rfl⟩

/-- A child is started in a substate of its own, or the world stays as it is. -/
theorem startChild_cases (x : Executor) (hf : t.frames = f :: rest) :
    ((x.startChild t f rest).tree.world = t.world ∧
        (x.startChild t f rest).tree.frames.length = t.frames.length ∧
        (x.startChild t f rest).outcome? = none) ∨
      ∃ t', x.startChild t f rest = .running t' ∧ t'.world.base = t.world.base ∧
        t'.world.outer = t.world.substates ∧ t'.frames.length = t.frames.length + 1 := by
  have hrefuse : ∀ e, ((t.record e).refuse f rest).tree.world = t.world ∧
      ((t.record e).refuse f rest).tree.frames.length = t.frames.length ∧
      ((t.record e).refuse f rest).outcome? = none := by
    intro e
    rw [hf]
    exact tree_deliver (t.record e) f rest fun request => .notStarted request.gas
  rw [startChild_eq]
  cases f.pending with
  | none => exact .inl ⟨rfl, rfl, rfl⟩
  | some request =>
    dsimp only
    split
    · exact .inl (hrefuse _)
    · split
      · exact .inl (hrefuse _)
      · rename_i world htransfer
        have hbelow := World.transfer_sameBelow htransfer
        refine .inr ⟨_, rfl, ?_, ?_, ?_⟩
        · show (CallTree.remember _ _).world.base = _
          rw [world_remember]
          exact hbelow.base
        · show (CallTree.remember _ _).world.outer = _
          rw [world_remember]
          exact hbelow.outer
        · rw [hf]
          rfl

theorem startChild_openOn (h : t.OpenOn w n) (hf : t.frames = f :: rest) :
    (x.startChild t f rest).tree.OpenOn w n ∧ (x.startChild t f rest).outcome? = none := by
  rcases startChild_cases x hf with ⟨hw, hl, hfin⟩ | ⟨t', ht, hb, ho, hl⟩
  · exact ⟨h.of_sameBelow ⟨congrArg World.base hw, congrArg World.outer hw⟩ hl, hfin⟩
  · obtain ⟨inner, hi, hn⟩ := h.above
    rw [ht]
    refine ⟨⟨hb.trans h.base, t.world.changes :: inner, ?_, ?_⟩, rfl⟩
    · exact ho.trans (congrArg (t.world.changes :: ·) hi)
    · show inner.length + 1 + n = t'.frames.length
      omega

theorem finish_openOn (h : t.OpenOn w n) (hf : t.frames = f :: rest) (hn : 1 ≤ n)
    (hl : n < t.frames.length) :
    (finish t f rest).tree.OpenOn w n ∧ (finish t f rest).outcome? = none := by
  obtain ⟨inner, hi, hlength⟩ := h.above
  cases inner with
  | nil =>
    rw [List.length_nil] at hlength
    omega
  | cons changes inner =>
    obtain ⟨changes', hleave, -⟩ := World.leave_cons f.status.merge hi
    rw [List.length_cons, hf, List.length_cons] at hlength
    cases rest with
    | nil =>
      rw [List.length_nil] at hlength
      omega
    | cons parent rest =>
      unfold finish
      rw [hleave]
      dsimp only
      obtain ⟨hw, hl', hfin⟩ := tree_deliver (CallTree.record
        { t with world := ⟨t.world.base, changes', inner ++ w.substates⟩, frames := parent :: rest }
        (.left f.depth f.status f.gasBack)) parent rest fun _ => f.childOutcome
      refine ⟨⟨?_, inner, ?_, ?_⟩, hfin⟩
      · exact (congrArg World.base hw).trans h.base
      · exact congrArg World.outer hw
      · rw [List.length_cons] at hlength
        exact (by omega : inner.length + n = rest.length + 1).trans hl'.symm

theorem merge_ne_commit {s : Status} (h : s ≠ .succeeded) : s.merge ≠ .commit := by
  cases s <;> simp [Status.merge] at h ⊢

/-- The `n`th frame ends, and uncovers the world below it. -/
theorem finish_closes (h : t.OpenOn w n) (hf : t.frames = f :: rest)
    (hl : t.frames.length = n) :
    ∃ changes, (finish t f rest).tree.world = ⟨w.base, changes, w.outer⟩ ∧
      (f.status ≠ .succeeded → changes = w.changes) ∧
      (finish t f rest).tree.frames.length = rest.length ∧
      (rest = [] → ∃ t', finish t f rest = .finished f.outcome t') := by
  obtain ⟨inner, hi, hlength⟩ := h.above
  have hnil : inner = [] := List.eq_nil_of_length_eq_zero (by omega)
  rw [hnil] at hi
  obtain ⟨changes, hleave, hc⟩ := World.leave_cons f.status.merge hi
  rw [h.base] at hleave
  refine ⟨changes, ?_⟩
  unfold finish
  rw [hleave]
  cases rest with
  | nil => exact ⟨rfl, fun hs => hc (merge_ne_commit hs), rfl, fun _ => ⟨_, rfl⟩⟩
  | cons parent rest =>
    obtain ⟨hw, hl', -⟩ := tree_deliver (CallTree.record
      { t with world := ⟨w.base, changes, w.outer⟩, frames := parent :: rest }
      (.left f.depth f.status f.gasBack)) parent rest fun _ => f.childOutcome
    exact ⟨hw, fun hs => hc (merge_ne_commit hs), hl', by simp⟩

end

section

variable {x : Executor} {w : World} {n : Nat} {t : CallTree}

theorem advance_openOn (hx : x.vm.KeepsSubstates) (h : t.OpenOn w n) (hn : 1 ≤ n)
    {f : Frame} {rest : List Frame} (hf : t.frames = f :: rest)
    (hl : f.status.isTerminal = true → n < t.frames.length) :
    (x.advance t).tree.OpenOn w n ∧ (x.advance t).outcome? = none := by
  by_cases hs : f.status.isTerminal = true
  · rw [advance_of_isTerminal hf hs]
    exact finish_openOn h hf hn (hl hs)
  · unfold advance
    rw [hf]
    dsimp only
    cases h' : f.status with
    | executing => exact stepFrame_openOn hx h hf
    | suspended => exact startChild_openOn h hf
    | _ =>
      rw [h'] at hs
      exact absurd rfl hs

theorem exists_head (h : t.OpenOn w n) (hn : 1 ≤ n) : ∃ f rest, t.frames = f :: rest := by
  obtain ⟨inner, -, hl⟩ := h.above
  refine List.exists_cons_of_length_pos ?_
  omega

theorem run_openOn (hx : x.vm.KeepsSubstates) (moves : Nat) : ∀ {t : CallTree}, t.OpenOn w 1 →
    match x.run moves t with
    | .running t' => t'.OpenOn w 1
    | .failed _ t' => t'.OpenOn w 1
    | .finished outcome t' => ∃ changes, t'.world = ⟨w.base, changes, w.outer⟩ ∧
        (outcome.status ≠ .succeeded → changes = w.changes) := by
  induction moves with
  | zero =>
    intro t h
    exact h
  | succ moves ih =>
    intro t h
    obtain ⟨f, rest, hf⟩ := exists_head h (Nat.le_refl 1)
    unfold run
    by_cases hlast : f.status.isTerminal = true ∧ t.frames.length = 1
    · obtain ⟨changes, hw, hc, -, hfin⟩ := finish_closes h hf hlast.2
      rw [hf, List.length_cons] at hlast
      obtain ⟨t', ht⟩ := hfin (List.eq_nil_of_length_eq_zero (by omega))
      rw [ht] at hw
      rw [advance_of_isTerminal hf hlast.1, ht]
      exact ⟨changes, hw, hc⟩
    · have hlong : f.status.isTerminal = true → 1 < t.frames.length := by
        intro hs
        rw [hf, List.length_cons] at hlast ⊢
        have hne : rest.length + 1 ≠ 1 := fun he => hlast ⟨hs, he⟩
        omega
      obtain ⟨hopen, hfin⟩ := advance_openOn hx h (Nat.le_refl 1) hf hlong
      cases ha : x.advance t with
      | running t' =>
        rw [ha] at hopen
        exact ih hopen
      | failed failure t' =>
        rw [ha] at hopen
        exact hopen
      | finished outcome t' =>
        rw [ha] at hfin
        cases hfin

end

/-- Moves during which the message has at least `n` frames. -/
inductive Within (x : Executor) (n : Nat) (t : CallTree) : CallTree → Prop
  | refl : Within x n t t
  | move {t' t'' : CallTree} (before : Within x n t t') (next : x.advance t' = .running t'')
    (high : n ≤ t''.frames.length) : Within x n t t''

theorem run_add {x : Executor} {t' : CallTree} (k n : Nat) : ∀ {t : CallTree},
    x.run k t = .running t' → x.run (k + n) t = x.run n t' := by
  induction k with
  | zero =>
    intro t h
    cases h
    rw [Nat.zero_add]
  | succ k ih =>
    intro t h
    rw [Nat.succ_add, run]
    rw [run] at h
    cases ha : x.advance t with
    | running t₁ =>
      rw [ha] at h
      exact ih h
    | finished outcome t₁ | failed failure t₁ =>
      rw [ha] at h
      cases h

namespace Within

section

variable {x : Executor} {k n : Nat} {t t' t'' : CallTree}

theorem mono (h : Within x n t t') (hk : k ≤ n) : Within x k t t' := by
  induction h with
  | refl => exact .refl
  | move _ next high ih => exact .move ih next (Nat.le_trans hk high)

theorem trans (h : Within x n t t') (h' : Within x n t' t'') : Within x n t t'' := by
  induction h' with
  | refl => exact h
  | move _ next high ih => exact .move ih next high

theorem run (h : Within x n t t') : ∃ k, x.run k t = .running t' := by
  induction h with
  | refl => exact ⟨0, rfl⟩
  | move _ next _ ih =>
    obtain ⟨k, hk⟩ := ih
    refine ⟨k + 1, ?_⟩
    rw [run_add k 1 hk, Executor.run, next]
    rfl

theorem of_run {m : Nat} (k : Nat) : ∀ {t t' : CallTree}, x.run k t = .running t' →
    (∀ j ≤ k, ∀ t₁, x.run j t = .running t₁ → m ≤ t₁.frames.length) → x.Within m t t' := by
  induction k with
  | zero =>
    intro t t' h _
    cases h
    exact .refl
  | succ k ih =>
    intro t t' h high
    rw [Executor.run] at h
    cases ha : x.advance t with
    | finished outcome t₁ | failed failure t₁ =>
      rw [ha] at h
      cases h
    | running t₁ =>
      rw [ha] at h
      have hrest : ∀ j, x.run (j + 1) t = x.run j t₁ := fun j => by rw [Executor.run, ha]
      refine (Within.move .refl ha (high 1 (by omega) t₁ (hrest 0))).trans (ih h ?_)
      intro j hj t₂ h₂
      exact high (j + 1) (Nat.succ_le_succ hj) t₂ ((hrest j).trans h₂)

end

end Within

theorem Within.openOn {x : Executor} {w : World} {n : Nat} {t t' : CallTree}
    (hx : x.vm.KeepsSubstates) (h : Within x n t t') (hn : 1 ≤ n) (ht : t.OpenOn w n) :
    t'.OpenOn w n := by
  induction h with
  | refl => exact ht
  | @move t₁ t₂ _ next high ih =>
    obtain ⟨f, rest, hf⟩ := exists_head ih hn
    have hlong : f.status.isTerminal = true → n < t₁.frames.length := by
      intro hs
      obtain ⟨inner, -, hl⟩ := ih.above
      refine Nat.lt_of_le_of_ne (by omega) fun he => ?_
      obtain ⟨-, -, -, hlength, -⟩ := finish_closes ih hf he.symm
      rw [← advance_of_isTerminal hf hs, next] at hlength
      have hlow : t₂.frames.length = rest.length := hlength
      rw [hf, List.length_cons] at he
      omega
    obtain ⟨hopen, -⟩ := advance_openOn hx ih hn hf hlong
    rw [next] at hopen
    exact hopen

theorem begin_openOn (frame : Frame) (world : World) (codes : CodeCache) (journal : Journal) :
    (begin frame world codes journal).OpenOn world 1 := ⟨rfl, [], rfl, rfl⟩

/-- Once an internal failure is cleaned up, a message has left no trace unless it succeeded. -/
theorem run_rollsBack {x : Executor} (hx : x.vm.KeepsSubstates) (frame : Frame) (world : World)
    (codes : CodeCache) (journal : Journal) (moves : Nat) :
    (cleanUp (x.run moves (begin frame world codes journal))).RollsBack world := by
  have h := run_openOn hx moves (begin_openOn frame world codes journal)
  cases hrun : x.run moves (begin frame world codes journal) with
  | running t => exact True.intro
  | failed failure t =>
    rw [hrun] at h
    obtain ⟨inner, hi, hl⟩ := h.above
    have hw : t.world.abandon t.frames.length = world := by
      rw [← hl]
      exact World.abandon_append inner t.world h.base hi
    show World.depth (t.world.abandon t.frames.length) = _ ∧ _
    exact ⟨congrArg World.depth hw, .of_eq hw⟩
  | finished outcome t =>
    rw [hrun] at h
    obtain ⟨changes, hw, hc⟩ := h
    show t.world.depth = _ ∧ _
    rw [hw]
    refine ⟨rfl, fun hs => .of_eq ?_⟩
    rw [hc hs]

/-- A child that was started in `t` ends in `t₂`, and the world is again as it was in `t`. -/
theorem child_rollsBack {x : Executor} (hx : x.vm.KeepsSubstates) {t t₁ t₂ : CallTree}
    {parent child : Frame} {rest rest' : List Frame} (hf : t.frames = parent :: rest)
    (hs : parent.status = .suspended) (hstart : x.advance t = .running t₁)
    (hl : t₁.frames.length = t.frames.length + 1) (hrun : x.Within t₁.frames.length t₁ t₂)
    (hf₂ : t₂.frames = child :: rest') (hl₂ : t₂.frames.length = t₁.frames.length)
    (hended : child.status.isTerminal = true) (hfailed : child.status ≠ .succeeded) :
    (x.advance t₂).tree.world = t.world := by
  have hadvance : x.advance t = x.startChild t parent rest := by simp only [advance, hf, hs]
  have hopen : t₁.OpenOn t.world t₁.frames.length := by
    rcases startChild_cases x hf with ⟨-, hlength, -⟩ | ⟨t', ht, hb, ho, -⟩
    · rw [← hadvance, hstart] at hlength
      have hsame : t₁.frames.length = t.frames.length := hlength
      omega
    · rw [← hadvance, hstart] at ht
      cases ht
      exact ⟨hb, [], ho, Nat.zero_add _⟩
  have hopen₂ := hrun.openOn hx (by omega) hopen
  obtain ⟨changes, hw, hc, -, -⟩ := finish_closes hopen₂ hf₂ hl₂
  rw [advance_of_isTerminal hf₂ hended, hw, hc hfailed]

/--
Whatever operations there are, if none opens or closes a substate: a message closes what it
opened, and unless it succeeded every account is as before. The same holds of each child that was
started on the way and ended without success, when its substate is closed.
-/
theorem rollback (x : Executor) (hx : x.vm.KeepsSubstates) :
    (∀ frame world codes journal, (x.process frame world codes journal).RollsBack world) ∧
    (∀ frame world codes journal moves,
      (cleanUp (x.run moves (begin frame world codes journal))).RollsBack world) ∧
    ∀ t t₁ t₂ parent rest child rest', t.frames = parent :: rest → parent.status = .suspended →
      x.advance t = .running t₁ → t₁.frames.length = t.frames.length + 1 →
      x.Within t₁.frames.length t₁ t₂ → t₂.frames = child :: rest' →
      t₂.frames.length = t₁.frames.length → child.status.isTerminal = true →
      child.status ≠ .succeeded →
      (x.advance t₂).tree.world.depth = t.world.depth ∧
        t.world.SameAnswers (x.advance t₂).tree.world := by
  refine ⟨?_, run_rollsBack hx, ?_⟩
  · intro frame world codes journal
    exact run_rollsBack hx frame world codes journal moveBound
  · intro t t₁ t₂ parent rest child rest' hf hs hstart hl hrun hf₂ hl₂ hended hfailed
    have hw := child_rollsBack hx hf hs hstart hl hrun hf₂ hl₂ hended hfailed
    exact ⟨congrArg World.depth hw, .of_eq hw⟩

/-- An operation that writes to storage and then fails. -/
def scribble : Operation :=
  { opcode := 0x0c
    name := "SCRIBBLE"
    consumed := 0
    produced := 0
    cost := fun _ _ => some 1
    execute := Action.modifyWorld (·.setStorage 0 0 1) >>= fun _ => Action.fail .notExecuting }

def scribbler : Executor := ⟨⟨(InstructionSet.ofRules .london).put 0 scribble, .berlin⟩, .london⟩

theorem scribbler_keepsSubstates : scribbler.vm.KeepsSubstates := by
  intro version opcode op h
  have hput : ((InstructionSet.ofRules .london).put 0 scribble).get? opcode version = some op := h
  rw [InstructionSet.get?_put] at hput
  split at hput
  · cases hput
    exact .inr ((Action.KeepsSubstates.setStorage 0 0 1).bind fun _ =>
      Action.KeepsSubstates.fail _)
  · exact .inl ⟨.london, InstructionSet.mem_of_get?_ofRules hput⟩

def scribbling : Frame :=
  Frame.start { code := Code.ofBytes #[0x0c] 0, initialGas := 10 } {}

/-- A frame that asks for a child, whose code writes to storage and is then invalid. -/
def asking : CallTree where
  frames := [{ Frame.start {} {} with
    status := .suspended
    pending := some { gas := 30000, address := 1, codeAddress := 1 } }]
  world := { base := {} }
  codes := ({} : CodeCache).insert 1 (Code.ofBytes #[0x60, 1, 0x60, 0, 0x55, 0xfe] 0)

def trail : Nat → CallTree
  | 0 => asking
  | k + 1 => (scribbler.advance (trail k)).tree

set_option maxRecDepth 8000 in
theorem trail_goesOn : ∀ k < 5, (scribbler.advance (trail k)).outcome? = none ∧
    (scribbler.advance (trail k)).failure? = none ∧ (trail (k + 1)).frames.length = 2 := by
  decide +kernel

theorem advance_trail {k : Nat} (hk : k < 5) :
    scribbler.advance (trail k) = .running (trail (k + 1)) :=
  Progress.eq_running (trail_goesOn k hk).1 (trail_goesOn k hk).2.1

theorem within_trail (k : Nat) : k < 5 →
    scribbler.Within (trail 1).frames.length (trail 1) (trail (k + 1)) := by
  induction k with
  | zero =>
    intro _
    exact .refl
  | succ k ih =>
    intro hk
    have hone : (trail 1).frames.length = 2 := (trail_goesOn 0 (by omega)).2.2
    have hnext := (trail_goesOn (k + 1) hk).2.2
    exact .move (ih (by omega)) (advance_trail hk) (by omega)

set_option maxRecDepth 8000 in
theorem trail_halts : (trail 5).frames.map (·.status) = [.halted, .suspended] := by
  decide +kernel

set_option maxRecDepth 8000 in
theorem rollback_scribbler : scribbler.vm.KeepsSubstates ∧
    (scribbler.process scribbling { base := {} } {} []).failure? = some .notExecuting ∧
    (scribbler.process scribbling { base := {} } {} []).RollsBack { base := {} } ∧
    (trail 5).world.storage 1 0 = 1 ∧
    (trail 6).world.depth = (trail 0).world.depth ∧
    (trail 0).world.SameAnswers (trail 6).world := by
  have hrollback := rollback scribbler scribbler_keepsSubstates
  refine ⟨scribbler_keepsSubstates, by decide +kernel,
    hrollback.1 scribbling { base := {} } {} [], by decide +kernel, ?_⟩
  have hstart : (trail 1).frames.length = 2 := (trail_goesOn 0 (by omega)).2.2
  have hend : (trail 5).frames.length = 2 := (trail_goesOn 4 (by omega)).2.2
  have hhalts := trail_halts
  obtain ⟨child, rest, hf⟩ : ∃ child rest, (trail 5).frames = child :: rest :=
    List.exists_cons_of_length_pos (by omega)
  rw [hf, List.map_cons, List.cons.injEq] at hhalts
  refine hrollback.2.2 (trail 0) (trail 1) (trail 5) _ [] child rest rfl rfl
    (advance_trail (k := 0) (by omega)) hstart (within_trail 4 (by omega)) hf
    (hend.trans hstart.symm) ?_ ?_
  · simp [hhalts.1, Status.isTerminal]
  · simp [hhalts.1]

end Executor

end MeteredVm
