import MeteredVm.Proofs.Rollback

/-!
# MeteredVm.Proofs.Safety

Nothing goes wrong inside a message that runs under a set of rules.

* `Frame.InRange`: the sizes and positions of a frame are far from the ends of their ranges.
* `Run.Clean`: the run of a frame ended, or waits, or halted for a reason that the frame shows.
* `Interpreter.runToHalt_clean`: running a sound frame to its halt is clean.
* `Executor.process_safe`: processing a message never meets an internal failure.
-/

namespace MeteredVm

/--
The positions that a frame works with can be computed and indexed. The last bound is for code
that is as long as a list of bytes can be: it covers the immediate data of a push.
-/
structure Frame.InRange (f : Frame) : Prop where
  stack : f.stack.height < 0x8000_0000_0000_0000
  memory : f.memory.size < sizeBound
  window : ∀ request, f.status = .suspended → f.pending = some request →
    request.outputLength = 0 ∨ request.outputOffset + request.outputLength ≤ f.memory.size
  pc : f.pc ≤ f.code.size + 32
  code : f.code.size < 0x8000_0000_0000_0000 → f.pc + 33 < sizeBound

/-- Every range that the instruction touches, rounded up to words, lies in `memory`. -/
def Instruction.FitsIn (i : Instruction) (f : Frame) (memory : Memory) : Prop :=
  ∀ r ∈ i.ranges f, r.2 ≠ 0 → 32 * Memory.wordsFor (r.1.toNat + r.2.toNat) ≤ memory.size

def Frame.Admits (c : Rules) (f : Frame) (w : World) (i : Instruction) : Prop :=
  ∃ p, (Interpreter.ofRules c).operationAt f.code f.pc = i.operation c.tariff.fees p ∧
    ((i.operation c.tariff.fees p).check
      (f.facing (i.operation c.tariff.fees p).toSignature) w).halt = none

/-- How the run of a frame may end: in a result of its code, or in a halt that it shows. -/
inductive Run.Clean : Run → Prop
  | done {m : Machine} (status : m.frame.status = .succeeded ∨ m.frame.status = .reverted ∨
      m.frame.status = .suspended) : Clean (.ended (.ok ()) m)
  | halted {m : Machine} {reason : HaltReason} (status : m.frame.status = .halted)
    (shown : m.frame.haltReason = some reason) (output : m.frame.output = #[]) :
    Clean (.ended (.error (.exception reason)) m)

structure CallTree.Safe (c r : Rules) (t : CallTree) : Prop where
  /-- Every frame works with positions in range. -/
  inRange : ∀ f ∈ t.frames, f.InRange
  /-- The memory that the next instruction touches is in range. -/
  fitsIn : ∀ f rest i s m, t.frames = f :: rest → f.Admits c t.world i →
    (Interpreter.ofRules c).step ⟨f, t.world, t.journal⟩ = .ok s m →
    i.FitsIn f m.frame.memory ∧ m.frame.InRange
  /-- The next move does not meet an internal failure. -/
  advances : ∀ failure t', Executor.advance ⟨.ofRules c, r⟩ t ≠ .failed failure t'
  /-- The innermost frame, if it executes, is run to a clean end by the next moves. -/
  halts : ∀ f rest, t.frames = f :: rest → f.status = .executing →
    ∃ result m k, (Interpreter.ofRules c).runToHalt ⟨f, t.world, t.journal⟩ = .ended result m ∧
      (Run.ended result m).Clean ∧
      Executor.run ⟨.ofRules c, r⟩ k t = .running { t with
        frames := m.frame :: rest, world := m.world, journal := m.journal }

theorem Frame.Sound.inRange {f : Frame} (h : f.Sound) : f.InRange where
  stack := by
    have hheight := h.height
    rcases h.limit with hzero | hlimit <;> omega
  memory := by
    have hwords := h.words
    rw [Memory.words_eq] at hwords
    unfold sizeBound
    omega
  window := by
    intro request hs hp
    obtain ⟨request', hw⟩ := h.waiting hs
    obtain rfl := Option.some.inj (hp.symm.trans hw.pending)
    exact hw.window.imp_right (Nat.le_trans (Memory.le_wordsFor _))
  pc := h.pc
  code := by
    have hpc := h.pc
    unfold sizeBound
    omega

namespace Interpreter

theorem run_clean (c : Rules) (n : Nat) : ∀ {f : Frame} (w : World) (journal : Journal),
    f.Sound → f.status = .executing → f.gas.toNat < n →
    ((ofRules c).run n ⟨f, w, journal⟩).Clean := by
  induction n with
  | zero =>
    intro f w journal _ _ hn
    omega
  | succ n ih =>
    intro f w journal hf he hn
    obtain ⟨s, f', w', journal', hstep, hs⟩ := step_ofRules c w journal he
    have hf' := hs.sound hf he
    have hresult := hs.result hf he
    unfold run
    rw [hstep, hresult]
    unfold Frame.stepResult
    cases hstatus : f'.status with
    | executing =>
      refine ih w' journal' hf' hstatus ?_
      rcases hs.account he with ⟨-, hle⟩ | ⟨h, -⟩ | ⟨h, -⟩
      · omega
      · cases hstatus.symm.trans h
      · rw [hstatus] at h
        cases h
    | halted =>
      obtain ⟨hreason, houtput⟩ := hf'.halted hstatus
      obtain ⟨reason, hreason⟩ := Option.ne_none_iff_exists'.mp hreason
      rw [hreason]
      exact .halted hstatus hreason houtput
    | failed => exact absurd hstatus hf'.unfailed
    | succeeded => exact .done (.inl hstatus)
    | reverted => exact .done (.inr (.inl hstatus))
    | suspended => exact .done (.inr (.inr hstatus))

theorem runToHalt_clean (c : Rules) {f : Frame} (w : World) (journal : Journal) (hf : f.Sound)
    (he : f.status = .executing) : ((ofRules c).runToHalt ⟨f, w, journal⟩).Clean :=
  run_clean c stepBound w journal hf he f.gas.isLt

theorem inRange_of_step {c : Rules} {f : Frame} {w : World} {journal : Journal} {m : Machine}
    {s : Step} (hf : f.Sound) (h : (ofRules c).step ⟨f, w, journal⟩ = .ok s m) :
    m.frame.InRange := by
  obtain ⟨he, hs⟩ := steps_of_step h
  exact (hs.sound hf he).inRange

theorem fitsIn_of_step {c : Rules} {f : Frame} {w : World} {journal : Journal} {m : Machine}
    {i : Instruction} {s : Step} (h : f.Admits c w i)
    (hs : (ofRules c).step ⟨f, w, journal⟩ = .ok s m) : i.FitsIn f m.frame.memory := by
  obtain ⟨p, hop, hh⟩ := h
  have he := executing_of_step hs
  obtain ⟨cost, hp, hc⟩ := Operation.passes_of_check hh
  obtain ⟨journal', hstep⟩ := step_of_passes journal he hop rfl hh hc hp
  rw [hstep] at hs
  cases hs
  intro r hr hl
  have hr' : r ∈ i.ranges (f.facing (i.operation c.tariff.fees p).toSignature) := by
    cases i <;> exact hr
  rw [Frame.size_performed]
  exact Nat.le_trans (Nat.mul_le_mul_left 32 (Instruction.stop_le_wordsFor hr' hl))
    (Nat.le_max_right ..)

end Interpreter

namespace Executor

/-- Running a frame to its end, as moves of the executor that leave the frames below alone. -/
theorem within_of_ended {x : Executor} {result : Except ExitError Unit} {m : Machine} (n : Nat) :
    ∀ {t : CallTree} {f : Frame} {rest : List Frame}, t.frames = f :: rest →
      f.status = .executing → x.vm.run n ⟨f, t.world, t.journal⟩ = .ended result m →
      (∀ failure, result ≠ .error (.fatal failure)) →
      x.Within (rest.length + 1) t
        { t with frames := m.frame :: rest, world := m.world, journal := m.journal } := by
  induction n with
  | zero =>
    intro t f rest _ _ h
    cases h
  | succ n ih =>
    intro t f rest hframes he h hresult
    have hadvance : x.advance t = x.stepFrame t f rest := by
      simp only [advance, hframes, he]
    unfold Interpreter.run at h
    cases hstep : x.vm.step ⟨f, t.world, t.journal⟩ with
    | error failure m' =>
      rw [hstep] at h
      cases h
      exact absurd rfl (hresult failure)
    | ok s m' =>
      have hfirst : x.Within (rest.length + 1) t { t with
          frames := m'.frame :: rest, world := m'.world, journal := m'.journal } := by
        refine .move .refl ?_ (Nat.le_refl _)
        rw [hadvance, stepFrame, hstep]
      have hlast : ∀ {result'}, Run.ended result' m' = .ended result m →
          x.Within (rest.length + 1) t { t with
            frames := m.frame :: rest, world := m.world, journal := m.journal } := by
        intro result' hm
        cases hm
        exact hfirst
      rw [hstep] at h
      cases s with
      | halt reason => exact hlast h
      | terminal status => exact hlast h
      | proceed =>
        by_cases he' : m'.frame.status = .executing
        · exact hfirst.trans (ih (t := { t with
            frames := m'.frame :: rest, world := m'.world, journal := m'.journal }) rfl he' h
            hresult)
        · -- a frame that is not executing cannot be run any further
          cases n with
          | zero => cases h
          | succ n =>
            have hstop : x.vm.step m' = .error .notExecuting m' := by
              simp [Interpreter.step, he']
            simp only [Interpreter.run, hstop] at h
            cases h
            exact absurd rfl (hresult .notExecuting)

theorem safe_of_sound {c r : Rules} {t : CallTree} (hs : t.Sound) : t.Safe c r where
  inRange := by
    intro f hf
    exact (hs.frames f hf).inRange
  fitsIn := by
    intro f rest i s m hframes ha hstep
    exact ⟨Interpreter.fitsIn_of_step ha hstep,
      Interpreter.inRange_of_step (hs.head hframes) hstep⟩
  advances := by
    intro failure t' ha
    have hfollows := advance_follows c r hs
    rw [ha] at hfollows
    cases hfollows
  halts := by
    intro f rest hframes he
    have hclean := Interpreter.runToHalt_clean c t.world t.journal (hs.head hframes) he
    cases hrun : (Interpreter.ofRules c).runToHalt ⟨f, t.world, t.journal⟩ with
    | outOfSteps m =>
      rw [hrun] at hclean
      cases hclean
    | ended result m =>
      rw [hrun] at hclean
      have hfatal : ∀ failure, result ≠ .error (.fatal failure) := by
        intro failure hfailure
        rw [hfailure] at hclean
        cases hclean
      obtain ⟨k, hk⟩ := (within_of_ended (x := ⟨.ofRules c, r⟩) Interpreter.stepBound hframes he
        hrun hfatal).run
      exact ⟨result, m, k, rfl, hclean, hk⟩

/-- Processing a new frame ends in an outcome, and it is safe wherever it stands before that. -/
theorem process_safe (c r : Rules) (message : Message) (limits : Limits) (world : World)
    (codes : CodeCache) (journal : Journal) :
    (∃ outcome t, process ⟨.ofRules c, r⟩ (Frame.start message limits) world codes journal =
      .finished outcome t) ∧
    ∀ n t, run ⟨.ofRules c, r⟩ n (begin (Frame.start message limits) world codes journal) =
      .running t → t.Safe c r := by
  obtain ⟨outcome, t, hp, -⟩ := process_finished message limits world codes journal c r
  refine ⟨⟨outcome, t, hp⟩, ?_⟩
  intro n t h
  obtain ⟨hs, -, -⟩ := run_running c r n (begin_sound message limits world codes journal) h
  exact safe_of_sound hs

end Executor

end MeteredVm
