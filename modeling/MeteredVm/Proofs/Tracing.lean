import MeteredVm.Journal.Trace
import MeteredVm.Proofs.Soundness

/-!
# MeteredVm.Proofs.Tracing

The trace of a run, step by step.

The trace is read off the journal from its beginning to its end, and a halt is noted in the entry
before it. Read from its end, the journal grows by the events of one step at a time, and what these
add is one entry: what the checks saw, and what they decided.

* `Journal.entries`: the trace, latest entry first.
* `Interpreter.entry`: the entry of a step, computed from the frame before it.
* `Interpreter.step_recorded`: a step adds its entry. `Interpreter.run_recorded`: a run only adds
  entries. `Interpreter.run_first`: the first of them is that of the frame it starts with.
* `Interpreter.run_ends`: the run of any frame ends.
-/

namespace MeteredVm

namespace Journal

def entries (j : Journal) : List TraceEntry := j.foldr (fun e earlier => extendTrace earlier e) []

theorem trace_eq (j : Journal) : j.trace = j.entries.reverse := by
  rw [trace, List.foldl_reverse, entries]

theorem entries_stepped {s : Step} (h : ∀ reason, s ≠ .halt reason) (j : Journal) :
    entries (.stepped s :: j) = entries j := by
  cases s with
  | halt reason => exact absurd rfl (h reason)
  | _ => rfl

end Journal

/-- What a run that ends with the step returns; `none` if the run goes on. -/
def Step.result? : Step → Option (Except ExitError Unit)
  | proceed => none
  | halt reason => some (.error (.exception reason))
  | terminal _ => some (.ok ())

theorem Frame.executing_of_stepResult {f : Frame} (h : f.stepResult.result? = none) :
    f.status = .executing := by
  unfold stepResult at h
  cases hs : f.status with
  | executing => rfl
  | halted =>
    rw [hs] at h
    cases hr : f.haltReason <;> rw [hr] at h <;> cases h
  | _ =>
    rw [hs] at h
    cases h

theorem Frame.Steps.executing {fees : FeeSchedule} {f f' : Frame} {w w' : World} {s : Step}
    (h : f.Steps fees w s f' w') (hs : s.result? = none) : f'.status = .executing := by
  cases h with
  | refused sig reason => cases hs
  | performed i p sig cost hsig hp found => exact Frame.executing_of_stepResult hs

theorem Instruction.entries_eventsAfter (fees : FeeSchedule) (f : Frame) (w : World)
    (i : Instruction) (j : Journal) :
    Journal.entries (i.eventsAfter fees f w ++ j) = Journal.entries j := by
  cases i <;> rfl

theorem Frame.stepResult_ne_halt {f : Frame} (h : f.status ≠ .halted) (reason : HaltReason) :
    f.stepResult ≠ .halt reason := by
  unfold stepResult
  cases hs : f.status with
  | halted => exact absurd hs h
  | _ => simp

theorem Frame.performed_ne_halted {f : Frame} (fees : FeeSchedule) (w : World) (i : Instruction)
    (cost : Gas) (s : Signature) (he : f.status = .executing) :
    (f.performed fees w i cost s).status ≠ .halted := by
  rw [status_performed he]
  rcases i.statusAfter_cases with ⟨h, -⟩ | h | h | h <;> rw [h] <;> decide

namespace Interpreter

def entry (vm : Interpreter) (f : Frame) (w : World) : TraceEntry :=
  let op := vm.operationAt f.code f.pc
  let f := f.facing op.toSignature
  let verdict := op.check f w
  { snapshot := f.snapshot op.toSignature verdict.cost, haltReason := verdict.halt }

theorem entry_eq {vm : Interpreter} {f : Frame} {op : Operation}
    (hop : vm.operationAt f.code f.pc = op) (w : World) :
    vm.entry f w =
      { snapshot := (f.facing op.toSignature).snapshot op.toSignature
          (op.check (f.facing op.toSignature) w).cost
        haltReason := (op.check (f.facing op.toSignature) w).halt } := by
  subst hop
  rfl

section

variable {c : Rules} {f : Frame} {w : World}

theorem step_refused {reason : HaltReason} (journal : Journal) (he : f.status = .executing)
    (h : ((ofRules c).entry f w).haltReason = some reason) :
    ∃ s journal', (ofRules c).step ⟨f, w, journal⟩ =
        .ok (.halt reason) ⟨(f.facing s).halt reason, w, journal'⟩ ∧
      Journal.entries journal' = (ofRules c).entry f w :: Journal.entries journal := by
  unfold entry at h ⊢
  dsimp only at h ⊢
  rw [step_eq journal he rfl, h]
  exact ⟨_, _, rfl, rfl⟩

theorem step_performed (journal : Journal) (he : f.status = .executing)
    (h : ((ofRules c).entry f w).haltReason = none) :
    ∃ i p s cost journal', (ofRules c).operationAt f.code f.pc = i.operation c.tariff.fees p ∧
      s = (i.operation c.tariff.fees p).toSignature ∧ i.Passes c.tariff.fees (f.facing s) w cost ∧
      (ofRules c).step ⟨f, w, journal⟩ =
        .ok ((f.facing s).performed c.tariff.fees w i cost s).stepResult
          ⟨(f.facing s).performed c.tariff.fees w i cost s, i.worldAfter (f.facing s) w,
            journal'⟩ ∧
      Journal.entries journal' = (ofRules c).entry f w :: Journal.entries journal := by
  unfold entry at h ⊢
  rcases operationAt_ofRules c f.code f.pc with hop | ⟨i, p, hop, -⟩
  · rw [hop] at h
    exact absurd h (Operation.check_invalid _ w)
  · rw [hop] at h ⊢
    dsimp only at h ⊢
    obtain ⟨s, hs⟩ : ∃ s, (i.operation c.tariff.fees p).toSignature = s := ⟨_, rfl⟩
    rw [hs] at h ⊢
    obtain ⟨cost, hpasses, hcost⟩ := Operation.passes_of_check h
    have hstep : (ofRules c).step ⟨f, w, journal⟩ =
        .ok ((f.facing s).performed c.tariff.fees w i cost s).stepResult
          ⟨(f.facing s).performed c.tariff.fees w i cost s, i.worldAfter (f.facing s) w,
            .stepped ((f.facing s).performed c.tariff.fees w i cost s).stepResult ::
              (i.eventsAfter c.tariff.fees ((f.facing s).paid cost) w ++
                .checked ((f.facing s).snapshot s (some cost)) :: journal)⟩ := by
      rw [step_eq journal he hop, hs, h, checked, hs, hcost]
      dsimp only
      rw [Operation.apply_operation p _ hpasses he, hs]
      rfl
    refine ⟨i, p, s, cost, _, rfl, hs.symm, hpasses, hstep, ?_⟩
    have hnot := Frame.performed_ne_halted c.tariff.fees w i cost s (f := f.facing s) he
    rw [Journal.entries_stepped (Frame.stepResult_ne_halt hnot), Instruction.entries_eventsAfter,
      h, hcost]
    rfl

end

section

variable {c : Rules} {m m' : Machine}

theorem step_recorded {s : Step} (h : (ofRules c).step m = .ok s m') :
    Journal.entries m'.journal =
      (ofRules c).entry m.frame m.world :: Journal.entries m.journal := by
  have he := executing_of_step h
  cases hhalt : ((ofRules c).entry m.frame m.world).haltReason with
  | some reason =>
    obtain ⟨s, journal', hstep, hentries⟩ := step_refused m.journal he hhalt
    cases h.symm.trans hstep
    exact hentries
  | none =>
    obtain ⟨i, p, s, cost, journal', -, -, -, hstep, hentries⟩ := step_performed m.journal he hhalt
    cases h.symm.trans hstep
    exact hentries

section

variable {vm : Interpreter}

theorem run_of_step {s : Step} (n : Nat) (h : vm.step m = .ok s m') :
    vm.run (n + 1) m = match s.result? with
      | none => vm.run n m'
      | some result => .ended result m' := by
  rw [run, h]
  cases s <;> rfl

theorem run_of_ne_executing (n : Nat) (h : m.frame.status ≠ .executing) :
    vm.run (n + 1) m = .ended (.error (.fatal .notExecuting)) m := by
  have hstep : vm.step m = .error .notExecuting m := by simp [step, h]
  rw [run, hstep]

end

variable {result : Except ExitError Unit}

theorem run_recorded (n : Nat) : ∀ {m : Machine}, (ofRules c).run n m = .ended result m' →
    Journal.entries m.journal <:+ Journal.entries m'.journal := by
  induction n with
  | zero =>
    intro m h
    cases h
  | succ n ih =>
    intro m h
    by_cases he : m.frame.status = .executing
    · obtain ⟨s, f₁, w₁, journal₁, hstep, -⟩ := step_ofRules c m.world m.journal he
      rw [run_of_step n hstep] at h
      have hadded := step_recorded hstep
      have hsuffix : Journal.entries m.journal <:+ Journal.entries journal₁ :=
        hadded ▸ List.suffix_cons _ _
      cases hresult : s.result? with
      | none =>
        rw [hresult] at h
        exact hsuffix.trans (ih h)
      | some result =>
        rw [hresult] at h
        cases h
        exact hsuffix
    · rw [run_of_ne_executing n he] at h
      cases h
      exact List.suffix_refl _

/-- The first operation of a run is in its trace, and if it was refused the run ended with it. -/
theorem run_first (n : Nat) (he : m.frame.status = .executing)
    (h : (ofRules c).run n m = .ended result m') :
    (ofRules c).entry m.frame m.world ∈ Journal.entries m'.journal ∧
      ∀ reason, ((ofRules c).entry m.frame m.world).haltReason = some reason →
        result = .error (.exception reason) := by
  cases n with
  | zero => cases h
  | succ n =>
    obtain ⟨s, f₁, w₁, journal₁, hstep, -⟩ := step_ofRules c m.world m.journal he
    have hadded : Journal.entries journal₁ = _ := step_recorded hstep
    rw [run_of_step n hstep] at h
    constructor
    · have hlatest : (ofRules c).entry m.frame m.world ∈ Journal.entries journal₁ :=
        hadded ▸ List.mem_cons_self
      cases hresult : s.result? with
      | none =>
        rw [hresult] at h
        exact (run_recorded n h).subset hlatest
      | some result =>
        rw [hresult] at h
        cases h
        exact hlatest
    · intro reason hreason
      obtain ⟨s', journal', hstep', -⟩ := step_refused m.journal he hreason
      cases hstep.symm.trans hstep'
      cases h
      rfl

end

/-- Any run ends before its gas does, whatever frame it starts with. -/
theorem run_ends (c : Rules) (n : Nat) : ∀ {f : Frame} {w : World} {journal : Journal},
    f.gas.toNat < n → ∃ result m, (ofRules c).run n ⟨f, w, journal⟩ = .ended result m := by
  induction n with
  | zero =>
    intro f w journal hlt
    exact absurd hlt (Nat.not_lt_zero _)
  | succ n ih =>
    intro f w journal hlt
    by_cases he : f.status = .executing
    · obtain ⟨s, f₁, w₁, journal₁, hstep, hsteps⟩ := step_ofRules c w journal he
      rw [run_of_step n hstep]
      cases hresult : s.result? with
      | none =>
        have he₁ := hsteps.executing hresult
        rcases hsteps.account he with ⟨-, hgas⟩ | ⟨hs, -⟩ | ⟨hs, -⟩
        · exact ih (by omega)
        · rw [he₁] at hs
          cases hs
        · rw [he₁] at hs
          cases hs
      | some result => exact ⟨result, _, rfl⟩
    · exact ⟨_, _, run_of_ne_executing n he⟩

end Interpreter

end MeteredVm
