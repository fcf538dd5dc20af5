import MeteredVm.Proofs.Tracing

/-!
# MeteredVm.Proofs.FaithfulTrace

The trace of a run is a faithful account of it.

An entry is written in two parts: what the checks saw before the charge, and the reason for a halt
when the step is over. Nothing else connects it to the step, or one entry to the next. So the run
is laid out as the machines that it visits: each of them is seen by one entry, and what the entries
say of gas, stack and memory follows from what the step between two machines does.

* `Interpreter.Executes`: the machines at which a run takes its steps, in order.
* `Interpreter.Executes.of_run`: every run that is let go on to its end has them.
* `TraceEntry.LeadsTo` and `TraceEntry.Closes`: what an entry says of the one behind it, and what
  the last one says of the frame in the end. `Interpreter.step_leads` and `Interpreter.step_closes`
  derive them from one step.
* `Interpreter.trace_faithful`: the whole trace of a new frame.
-/

namespace MeteredVm

namespace TraceEntry

/-- The entry of an operation that is performed, and the entry of the step behind it. -/
structure LeadsTo (e : TraceEntry) (s : Signature) (next : TraceEntry) : Prop where
  unhalted : e.haltReason = none
  gas : ∃ cost, e.snapshot.cost = some cost ∧ e.snapshot.gas.sub? cost = some next.snapshot.gas
  height : next.snapshot.stack.length + s.consumed = e.snapshot.stack.length + s.produced
  memory : e.snapshot.memorySize ≤ next.snapshot.memorySize

/-- The frame is where the entry saw it, and so are its gas, its stack and its memory. -/
structure Sees (e : TraceEntry) (f : Frame) : Prop where
  pc : f.pc = e.snapshot.pc
  gas : f.gas = e.snapshot.gas
  stack : f.stack.items = e.snapshot.stack
  memory : f.memory.size = e.snapshot.memorySize

/-- What the last entry says of a run with this result, which leaves the frame `f`. -/
def Closes (e : TraceEntry) (f : Frame) : Except ExitError Unit → Prop
  | .ok () => e.haltReason = none ∧
      ∃ cost, e.snapshot.cost = some cost ∧ e.snapshot.gas.sub? cost = some f.gas
  | .error (.exception reason) => e.haltReason = some reason ∧ e.Sees f
  | .error (.fatal _) => False

end TraceEntry

theorem Instruction.pushed_of_executing {i : Instruction}
    (h : i.statusAfter .executing = .executing) : i.pushed = i.signature.produced := by
  cases i with
  | call kind => cases h
  | _ => rfl

namespace Interpreter

/-- The run from a machine takes its steps at the machines listed, and ends in `final`. -/
inductive Executes (vm : Interpreter) (result : Except ExitError Unit) (final : Machine) :
    Machine → List Machine → Prop
  | last {m : Machine} {s : Step} (step : vm.step m = .ok s final)
      (ends : s.result? = some result) : Executes vm result final m [m]
  | next {m m' : Machine} {visited : List Machine} (step : vm.step m = .ok .proceed m')
      (rest : Executes vm result final m' visited) : Executes vm result final m (m :: visited)

theorem eq_proceed_of_result {s : Step} (h : s.result? = none) : s = .proceed := by
  cases s with
  | proceed => rfl
  | halt | terminal => cases h

namespace Executes

section

variable {vm : Interpreter} {result : Except ExitError Unit} {m final : Machine}
  {visited : List Machine}

theorem head (h : vm.Executes result final m visited) : visited.head? = some m := by
  cases h <;> rfl

theorem consecutive (h : vm.Executes result final m visited) :
    ∀ {i : Nat} {m₁ m₂ : Machine}, visited[i]? = some m₁ → visited[i + 1]? = some m₂ →
      vm.step m₁ = .ok .proceed m₂ := by
  induction h with
  | last step ends =>
    intro i m₁ m₂ _ h₂
    simp at h₂
  | next step rest ih =>
    intro i m₁ m₂ h₁ h₂
    cases i with
    | zero =>
      rw [List.getElem?_cons_succ, ← List.head?_eq_getElem?, rest.head] at h₂
      cases h₁
      cases h₂
      exact step
    | succ i => exact ih h₁ h₂

theorem ending (h : vm.Executes result final m visited) :
    ∃ m₁ s, visited.getLast? = some m₁ ∧ vm.step m₁ = .ok s final ∧ s.result? = some result := by
  induction h with
  | last step ends => exact ⟨_, _, rfl, step, ends⟩
  | @next m m' visited step rest ih =>
    obtain ⟨m₁, s, hlast, hstep, hresult⟩ := ih
    refine ⟨m₁, s, ?_, hstep, hresult⟩
    rw [List.getLast?_cons, hlast, Option.getD_some]

end

section

variable {c : Rules} {result : Except ExitError Unit} {m final : Machine} {visited : List Machine}

theorem of_run (n : Nat) : ∀ {m : Machine}, m.frame.status = .executing →
    (ofRules c).run n m = .ended result final →
      ∃ visited, (ofRules c).Executes result final m visited := by
  induction n with
  | zero =>
    intro m _ h
    cases h
  | succ n ih =>
    intro m he h
    obtain ⟨s, f₁, w₁, journal₁, hstep, hs⟩ := step_ofRules c m.world m.journal he
    rw [run_of_step n hstep] at h
    cases hresult : s.result? with
    | none =>
      rw [hresult] at h
      obtain ⟨visited, hrest⟩ := ih (hs.executing hresult) h
      obtain rfl := eq_proceed_of_result hresult
      exact ⟨m :: visited, .next hstep hrest⟩
    | some result' =>
      rw [hresult] at h
      cases h
      exact ⟨[m], .last hstep hresult⟩

theorem entries (h : (ofRules c).Executes result final m visited) :
    Journal.entries final.journal =
      (visited.map fun m => (ofRules c).entry m.frame m.world).reverse ++
        Journal.entries m.journal := by
  induction h with
  | last step ends => exact step_recorded step
  | next step rest ih =>
    rw [ih, step_recorded step, List.map_cons, List.reverse_cons, List.append_assoc,
      List.singleton_append]

theorem code (h : (ofRules c).Executes result final m visited) :
    ∀ m₁ ∈ visited, m₁.frame.code = m.frame.code := by
  induction h with
  | last step ends =>
    intro m₁ hm
    rw [List.mem_singleton.mp hm]
  | next step rest ih =>
    intro m₁ hm
    rcases List.mem_cons.mp hm with rfl | hm
    · rfl
    · rw [ih m₁ hm]
      exact congrArg Message.code (steps_of_step step).2.message_eq

end

end Executes

section

variable {c : Rules} {m m' : Machine}

theorem charged_of_passes {f : Frame} {w : World} {i : Instruction} {p : Provenance} {cost : Gas}
    {s : Signature} (hop : (ofRules c).operationAt f.code f.pc = i.operation c.tariff.fees p)
    (hs : s = (i.operation c.tariff.fees p).toSignature)
    (hp : i.Passes c.tariff.fees (f.facing s) w cost)
    (h : ((ofRules c).entry f w).haltReason = none) :
    ((ofRules c).entry f w).snapshot.cost = some cost ∧
      ((ofRules c).entry f w).snapshot.gas.sub? cost =
        some ((f.facing s).performed c.tariff.fees w i cost s).gas := by
  subst hs
  rw [entry_eq hop] at h ⊢
  obtain ⟨cost', hp', hcost⟩ := Operation.passes_of_check h
  obtain rfl : cost' = cost := Option.some.inj (hp'.price.symm.trans hp.price)
  refine ⟨hcost, ?_⟩
  rw [Frame.gas_performed]
  exact Gas.sub?_eq_some.mpr (Nat.sub_add_cancel hp.paid)

/-- The entry of a step that lets the run go on leads to the entry of the next one. -/
theorem step_leads (h : (ofRules c).step m = .ok .proceed m') :
    ((ofRules c).entry m.frame m.world).LeadsTo
      ((ofRules c).operationAt m.frame.code m.frame.pc).toSignature
      ((ofRules c).entry m'.frame m'.world) := by
  have he := executing_of_step h
  cases hhalt : ((ofRules c).entry m.frame m.world).haltReason with
  | some reason =>
    obtain ⟨s, journal', hstep, -⟩ := step_refused m.journal he hhalt
    cases h.symm.trans hstep
  | none =>
    obtain ⟨i, p, s, cost, journal', hop, hs, hp, hstep, -⟩ :=
      step_performed m.journal he hhalt
    obtain ⟨hproceed, rfl⟩ := EStateM.Result.ok.inj (hstep.symm.trans h)
    have hexecuting := Frame.executing_of_stepResult (congrArg Step.result? hproceed)
    rw [Frame.status_performed (f := m.frame.facing s) he] at hexecuting
    have hoperands : i.signature.consumed ≤ m.frame.stack.height := hp.operands
    have hheight : ((m.frame.facing s).performed c.tariff.fees m.world i cost s).stack.height =
        m.frame.stack.height - i.signature.consumed + i.signature.produced := by
      rw [Frame.height_performed hp, Instruction.pushed_of_executing hexecuting]
      rfl
    have hsize : m.frame.memory.size ≤
        ((m.frame.facing s).performed c.tariff.fees m.world i cost s).memory.size := by
      rw [Frame.size_performed]
      exact Nat.le_max_left ..
    refine ⟨hhalt, ⟨cost, charged_of_passes hop hs hp hhalt⟩, ?_, hsize⟩
    rw [hop]
    show ((m.frame.facing s).performed c.tariff.fees m.world i cost s).stack.height +
      i.signature.consumed = m.frame.stack.height + i.signature.produced
    omega

/-- The entry of the step that ends a run accounts for how it ended. -/
theorem step_closes {s : Step} {result : Except ExitError Unit}
    (h : (ofRules c).step m = .ok s m') (hr : s.result? = some result) :
    ((ofRules c).entry m.frame m.world).Closes m'.frame result := by
  have he := executing_of_step h
  cases hhalt : ((ofRules c).entry m.frame m.world).haltReason with
  | some reason =>
    obtain ⟨s, journal', hstep, -⟩ := step_refused m.journal he hhalt
    cases h.symm.trans hstep
    cases hr
    exact ⟨hhalt, rfl, rfl, rfl, rfl⟩
  | none =>
    obtain ⟨i, p, s, cost, journal', hop, hs, hp, hstep, -⟩ :=
      step_performed m.journal he hhalt
    obtain ⟨rfl, rfl⟩ := EStateM.Result.ok.inj (hstep.symm.trans h)
    have hcharged := charged_of_passes hop hs hp hhalt
    have hnot := Frame.stepResult_ne_halt
      (Frame.performed_ne_halted c.tariff.fees m.world i cost s (f := m.frame.facing s) he)
    cases hresult : ((m.frame.facing s).performed c.tariff.fees m.world i cost s).stepResult with
    | proceed =>
      rw [hresult] at hr
      cases hr
    | halt reason => exact absurd hresult (hnot reason)
    | terminal status =>
      rw [hresult] at hr
      cases hr
      exact ⟨hhalt, cost, hcharged⟩

end

/--
The run of any new frame ends, and not in an internal failure. Its trace has one entry for each
step, in order, which is what the checks of that step saw and decided. The first entry has the
initial gas. An entry that is not the last has a cost and no reason for a halt, and the next one
has the gas without that cost, a stack changed by what the operation consumes and produces, and no
less memory. The last entry has the reason if the run halted, and then the frame still is as the
entry saw it; otherwise the gas left is the gas in the entry without the cost.
-/
theorem trace_faithful (c : Rules) (message : Message) (limits : Limits) (world : World) :
    let m : Machine := ⟨Frame.start message limits, world, []⟩
    ∃ result final visited, (ofRules c).runToHalt m = .ended result final ∧
      (ofRules c).Executes result final m visited ∧
      final.journal.trace = visited.map (fun m => (ofRules c).entry m.frame m.world) ∧
      (∃ e, final.journal.trace.head? = some e ∧ e.snapshot.gas = message.initialGas) ∧
      (∀ i e next, final.journal.trace[i]? = some e → final.journal.trace[i + 1]? = some next →
        e.LeadsTo ((ofRules c).operationAt message.code e.snapshot.pc).toSignature next) ∧
      ∃ e, final.journal.trace.getLast? = some e ∧ e.Closes final.frame result := by
  intro m
  obtain ⟨result, final, hrun⟩ : ∃ result final, (ofRules c).runToHalt m = .ended result final :=
    run_ends c stepBound message.initialGas.isLt
  obtain ⟨visited, hvisited⟩ := Executes.of_run stepBound (m := m) rfl hrun
  have htrace : final.journal.trace =
      visited.map (fun m => (ofRules c).entry m.frame m.world) := by
    rw [Journal.trace_eq, hvisited.entries, List.reverse_append, List.reverse_reverse]
    rfl
  refine ⟨result, final, visited, hrun, hvisited, htrace, ?_, ?_, ?_⟩
  · refine ⟨(ofRules c).entry m.frame m.world, ?_, rfl⟩
    rw [htrace, List.head?_map, hvisited.head, Option.map_some]
  · intro i e next he hnext
    rw [htrace, List.getElem?_map, Option.map_eq_some_iff] at he hnext
    obtain ⟨m₁, hm₁, rfl⟩ := he
    obtain ⟨m₂, hm₂, rfl⟩ := hnext
    have hcode : m₁.frame.code = message.code :=
      hvisited.code m₁ (List.mem_of_getElem? hm₁)
    have hleads := step_leads (hvisited.consecutive hm₁ hm₂)
    rw [hcode] at hleads
    exact hleads
  · obtain ⟨m₁, s, hlast, hstep, hresult⟩ := hvisited.ending
    refine ⟨(ofRules c).entry m₁.frame m₁.world, ?_, step_closes hstep hresult⟩
    rw [htrace, List.getLast?_map, hlast, Option.map_some]

/-- Stores a word, and then pops an item that is not there. -/
def overpopping : Message where
  code := Code.ofBytes #[0x60, 7, 0x60, 0, 0x52, 0x50] 0
  initialGas := 20

example : (match (ofRules .istanbul).run 5 ⟨Frame.start overpopping {}, { base := {} }, []⟩ with
    | .outOfSteps _ => []
    | .ended _ m => m.journal.trace.map fun e => (e.snapshot.pc, e.snapshot.gas.toNat,
        e.snapshot.cost.map (·.toNat), e.snapshot.stack.length, e.snapshot.memorySize)) =
    [(0, 20, some 3, 0, 0), (2, 17, some 3, 1, 0), (4, 14, some 6, 2, 0), (5, 8, none, 0, 32)] := by
  decide +kernel

end Interpreter

end MeteredVm
