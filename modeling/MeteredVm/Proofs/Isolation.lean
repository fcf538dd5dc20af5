import MeteredVm.Proofs.Static

/-!
# MeteredVm.Proofs.Isolation

A nested call does not see the frames that wait for it.

Only the innermost frame moves, and only when it has ended is the frame below it looked at. So the
moves of a call are the same whatever waits below, and what is known of a message that starts with
a new frame holds of every new frame, even on top of frames that no message could have led to.

* `CallTree.over`: the same message on top of other frames. `Executor.advance_over` and
  `Executor.Within.over`: its moves are the same.
* `Executor.Returns.exists_last`: a frame that returns has executed a last operation.
* `Executor.child_ends`: so does every frame that is started, and it keeps within its gas.
-/

namespace MeteredVm

/-- The same message on top of `lower`. -/
def CallTree.over (t : CallTree) (lower : List Frame) : CallTree :=
  { t with frames := t.frames ++ lower }

namespace CallTree

variable (t : CallTree) (lower : List Frame)

theorem frames_over : (t.over lower).frames = t.frames ++ lower := rfl

theorem world_over : (t.over lower).world = t.world := rfl

theorem journal_over : (t.over lower).journal = t.journal := rfl

theorem remember_over (a : Address) : (t.over lower).remember a = (t.remember a).over lower := by
  unfold remember
  show (if t.codes.contains a then t.over lower else _) = _
  split
  · rfl
  · rfl

end CallTree

namespace Executor

section

variable {x : Executor} {t t' : CallTree} {f parent : Frame} {rest : List Frame}

theorem deliver_over (lower : List Frame) {outcome : MessageRequest → ChildOutcome}
    (h : t.deliver parent rest outcome = .running t') :
    (t.over lower).deliver parent (rest ++ lower) outcome = .running (t'.over lower) := by
  unfold CallTree.deliver at h ⊢
  cases hp : parent.pending with
  | none =>
    rw [hp] at h
    cases h
  | some request =>
    rw [hp] at h
    dsimp only at h ⊢
    split at h
    · cases h
      rfl
    · cases h

theorem stepFrame_over (lower : List Frame) (h : x.stepFrame t f rest = .running t') :
    x.stepFrame (t.over lower) f (rest ++ lower) = .running (t'.over lower) := by
  unfold stepFrame at h ⊢
  split at h
  · rename_i hstep
    cases h
    rw [CallTree.world_over, CallTree.journal_over, hstep]
    rfl
  · cases h

theorem startChild_over (lower : List Frame) (h : x.startChild t f rest = .running t') :
    x.startChild (t.over lower) f (rest ++ lower) = .running (t'.over lower) := by
  rw [startChild_eq] at h ⊢
  cases hp : f.pending with
  | none =>
    rw [hp] at h
    cases h
  | some request =>
    rw [hp] at h
    dsimp only at h ⊢
    by_cases hdepth : x.rules.callDepth.toNat ≤ f.depth
    · rw [if_pos hdepth] at h ⊢
      exact deliver_over lower h
    · rw [if_neg hdepth] at h ⊢
      cases htransfer : t.world.enter.transfer request.caller request.address
          request.transferValue with
      | none =>
        rw [htransfer] at h
        rw [CallTree.world_over, htransfer]
        exact deliver_over lower h
      | some world =>
        have hremember := ({ t with world := world } : CallTree).remember_over lower
          request.codeAddress
        rw [htransfer] at h
        rw [CallTree.world_over, htransfer]
        dsimp only at h ⊢
        rw [show ({ t.over lower with world := world } : CallTree).remember request.codeAddress =
          _ from hremember]
        cases h
        rfl

theorem finish_over (lower : List Frame) (h : finish t f rest = .running t') :
    finish (t.over lower) f (rest ++ lower) = .running (t'.over lower) := by
  unfold finish at h ⊢
  split at h
  · cases h
  · rename_i world hleave
    rw [CallTree.world_over, hleave]
    cases rest with
    | nil => cases h
    | cons parent rest => exact deliver_over lower h

/-- A move is the same on top of other frames, unless it ends the message. -/
theorem advance_over (lower : List Frame) (h : x.advance t = .running t') :
    x.advance (t.over lower) = .running (t'.over lower) := by
  cases hframes : t.frames with
  | nil =>
    simp only [advance, hframes] at h
    cases h
  | cons f rest =>
    have hover : (t.over lower).frames = f :: (rest ++ lower) := by
      rw [CallTree.frames_over, hframes, List.cons_append]
    cases hs : f.status with
    | executing =>
      simp only [advance, hframes, hs] at h
      simp only [advance, hover, hs]
      exact stepFrame_over lower h
    | suspended =>
      rw [advance_suspended hframes hs] at h
      rw [advance_suspended hover hs]
      exact startChild_over lower h
    | _ =>
      have hended : f.status.isTerminal = true := by rw [hs]; rfl
      rw [advance_of_isTerminal hframes hended] at h
      rw [advance_of_isTerminal hover hended]
      exact finish_over lower h

theorem Within.over {n : Nat} (lower : List Frame) (h : Within x n t t') :
    Within x (n + lower.length) (t.over lower) (t'.over lower) := by
  induction h with
  | refl => exact .refl
  | move _ next high ih =>
    refine .move ih (advance_over lower next) ?_
    rw [CallTree.frames_over, List.length_append]
    exact Nat.add_le_add_right high lower.length

end

section

variable {c r : Rules} {t t' : CallTree} {f f' : Frame} {rest : List Frame}

/-- The last move of a frame that returns is an operation that it executes. -/
theorem Returns.exists_last (hr : Returns ⟨.ofRules c, r⟩ t rest f' t') (hs : t.Sound)
    (h : t.frames = f :: rest) (he : f.status = .executing) :
    ∃ t₁ last, Within ⟨.ofRules c, r⟩ (rest.length + 1) t t₁ ∧ t₁.frames = last :: rest ∧
      last.status = .executing ∧ advance ⟨.ofRules c, r⟩ t₁ = .running t' := by
  have hended : ∀ {g : Frame} {below : List Frame}, t'.frames = g :: below →
      g.status ≠ .executing := by
    intro g below hg
    obtain ⟨rfl, -⟩ := List.cons.inj (hg.symm.trans hr.frames)
    exact Status.ne_executing_of_isTerminal hr.ended
  cases hr.moves with
  | refl => exact absurd he (hended h)
  | @move t₁ _ before next high =>
    refine ⟨t₁, ?_⟩
    cases advance_transition (sound_of_within hs before).1 next with
    | stepped hframes executing _ after =>
      obtain ⟨-, rfl⟩ := List.cons.inj (after.symm.trans hr.frames)
      exact ⟨_, before, hframes, executing, next⟩
    | refused _ _ _ _ _ after => exact absurd rfl (hended after)
    | started _ _ _ _ _ after => exact absurd rfl (hended after)
    | returned _ _ _ _ _ _ after => exact absurd rfl (hended after)

/-- Every new frame comes to its last operation and ends, whatever waits below it. -/
theorem child_ends (c r : Rules) {child : Frame} {lower : List Frame}
    (h : t.frames = child :: lower) (hf : child.Sound) (he : child.status = .executing)
    (houter : t.world.outer ≠ []) :
    ∃ t₁ t₂ last ended, Within ⟨.ofRules c, r⟩ (lower.length + 1) t t₁ ∧
      t₁.frames = last :: lower ∧ last.status = .executing ∧
      advance ⟨.ofRules c, r⟩ t₁ = .running t₂ ∧ t₂.frames = ended :: lower ∧
      ended.status.isTerminal = true ∧ ended.gas.toNat ≤ child.gas.toNat ∧
      t.world.SameBelow t₂.world := by
  -- alone the child is a message of its own
  let alone : CallTree := { t with frames := [child] }
  have hgas : alone.totalGas = child.gas.toNat := by
    have hframes : alone.frames = [child] := rfl
    rw [CallTree.totalGas_cons hframes, CallTree.stake,
      child.pendingGas_eq_zero (by simp [he])]
    rfl
  have hs : alone.Sound :=
    { inhabited := List.cons_ne_nil _ _
      frames := fun g hg => List.mem_singleton.mp hg ▸ hf
      waiting := by simp [alone]
      substates := List.length_pos_iff.mpr houter
      gas := hgas ▸ child.gas.isLt }
  have hover : alone.over lower = t := by
    show ({ t with frames := child :: lower } : CallTree) = t
    rw [← h]
  obtain ⟨ended, t₂, hreturns⟩ := exists_returns c r hs rfl he
  obtain ⟨t₁, last, hmoves, hlast, hexecutes, hends⟩ := hreturns.exists_last hs rfl he
  obtain ⟨k, hk⟩ := hreturns.moves.run
  have hleft := (run_running c r k hs hk).2.1
  rw [hgas, CallTree.totalGas_cons hreturns.frames, CallTree.stake] at hleft
  have hmoves' := hmoves.over lower
  rw [hover, List.length_nil, Nat.zero_add, Nat.add_comm] at hmoves'
  refine ⟨t₁.over lower, t₂.over lower, last, ended, hmoves', ?_, hexecutes,
    advance_over lower hends, ?_, hreturns.ended, by omega, hreturns.below⟩
  · rw [CallTree.frames_over, hlast, List.singleton_append]
  · rw [CallTree.frames_over, hreturns.frames, List.singleton_append]

end

end Executor

end MeteredVm
