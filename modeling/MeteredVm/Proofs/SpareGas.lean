import Mathlib.Data.List.Forall2
import MeteredVm.Proofs.Decoding
import MeteredVm.Proofs.Tracing

/-!
# MeteredVm.Proofs.SpareGas

Gas that is left over cannot be seen.

Gas is looked at in three places: each check compares it with a price, a storage write is refused
when little is left, and a few instructions read it. The first two only ask whether there is enough.
So a run that does not end for want of gas, and performs none of the few, is the same run with more
gas, step by step.

* `Instruction.readsGas`: the instructions whose effect depends on the gas left.
* `Interpreter.check_withGas`: whatever is refused for another reason than want of gas is refused
  for that reason with more gas, and whatever passes still does.
* `Frame.performed_withGas`: the other instructions leave the additional gas alone.
* `Interpreter.step_spare`, `Interpreter.run_spare`: a step, and a run.
* `Interpreter.spare_gas`: the whole run of a frame with its trace.
-/

namespace MeteredVm

namespace Frame

def withGas (f : Frame) (g : Gas) : Frame := { f with gas := g }

theorem credit_eq_some {f f' : Frame} {k : Gas} : f.credit k = some f' ↔
    ∃ g : Gas, g.toNat = f.gas.toNat + k.toNat ∧ f' = f.withGas g := by
  unfold credit
  rw [Option.map_eq_some_iff]
  constructor
  · rintro ⟨g, hg, rfl⟩
    exact ⟨g, Gas.add?_eq_some.mp hg, rfl⟩
  · rintro ⟨g, hg, rfl⟩
    exact ⟨g, Gas.add?_eq_some.mpr hg, rfl⟩

end Frame

namespace Operation

theorem gasHalt_of_le {cost : Option Gas} {a b : Gas} (hab : a ≤ b)
    (h : gasHalt cost a ≠ some .outOfGas) : gasHalt cost b = gasHalt cost a := by
  cases cost with
  | none => rfl
  | some cost =>
    unfold gasHalt at h ⊢
    dsimp only at h ⊢
    by_cases ha : a < cost
    · rw [if_pos ha] at h
      exact absurd rfl h
    · have hb : ¬ b < cost := by
        rw [Gas.lt_iff] at ha ⊢
        rw [Gas.le_iff] at hab
        omega
      rw [if_neg ha, if_neg hb]

end Operation

namespace FeeSchedule

theorem exists_childGas_le {fees : FeeSchedule} (h : fees.allButOne64th = true) (remaining : Gas)
    (requested : Word) :
    ∃ child, fees.childGas remaining requested = some child ∧
      child.toNat ≤ remaining.toNat := by
  unfold childGas
  rw [if_pos h]
  dsimp only
  have hcap : remaining.allButOne64th.toNat ≤ remaining.toNat := Nat.sub_le ..
  by_cases hr : remaining.allButOne64th.toNat < requested.toNat
  · rw [if_pos hr]
    exact ⟨_, rfl, hcap⟩
  · rw [if_neg hr]
    have hlt := remaining.allButOne64th.isLt
    have hle : requested.toNat ≤ remaining.toNat := by omega
    exact ⟨⟨requested.toNat, by omega⟩, Gas.ofNat?_eq_some.mpr rfl, hle⟩

end FeeSchedule

namespace Call

variable {fees : FeeSchedule} {kind : CallKind} {f : Frame} {w : World} {g : Gas}

/-- Under the 64th rule a call is affordable if its own price is. -/
theorem gasHalt_cost {base : Gas} (ha : fees.allButOne64th = true)
    (hb : baseCost fees kind f w = some base) :
    Operation.gasHalt (cost fees kind f w) f.gas =
      if f.gas < base then some .outOfGas else none := by
  obtain ⟨child, hchild, hle⟩ :=
    FeeSchedule.exists_childGas_le ha (f.gas.saturatingSub base) (f.operand 0)
  have hle : child.toNat ≤ f.gas.toNat - base.toNat := hle
  have hgas := f.gas.isLt
  have hprice := base.isLt
  have hfits : base.toNat + child.toNat < 0x1_0000_0000_0000_0000 := by omega
  have hcost : cost fees kind f w = some ⟨base.toNat + child.toNat, hfits⟩ := by
    rw [cost, hb]
    show (fees.childGas (f.gas.saturatingSub base) (f.operand 0)).bind _ = _
    rw [hchild]
    exact Gas.add?_eq_some.mpr rfl
  rw [hcost]
  show (if f.gas.toNat < base.toNat + child.toNat then _ else _) = _
  by_cases hlt : f.gas.toNat < base.toNat
  · rw [if_pos (by omega), if_pos (Gas.lt_iff.mpr hlt)]
  · rw [if_neg (by omega), if_neg (mt Gas.lt_iff.mp hlt)]

theorem gasHalt_withGas (hg : f.gas ≤ g)
    (h : Operation.gasHalt (cost fees kind f w) f.gas ≠ some .outOfGas) :
    Operation.gasHalt (cost fees kind (f.withGas g) w) g =
      Operation.gasHalt (cost fees kind f w) f.gas := by
  have hbase : baseCost fees kind (f.withGas g) w = baseCost fees kind f w := rfl
  cases hb : baseCost fees kind f w with
  | none =>
    rw [cost, cost, hbase, hb]
    rfl
  | some base =>
    by_cases ha : fees.allButOne64th = true
    · rw [gasHalt_cost ha hb] at h ⊢
      have hle : ¬ f.gas < base := fun hlt => h (if_pos hlt)
      refine (gasHalt_cost ha (hbase.trans hb)).trans ?_
      rw [if_neg hle, if_neg]
      rw [Gas.lt_iff] at hle ⊢
      exact fun hlt => hle (Nat.lt_of_le_of_lt hg hlt)
    · -- without the rule the child's share does not depend on the gas left
      have hcost : cost fees kind (f.withGas g) w = cost fees kind f w := by
        have hshare : ∀ remaining, fees.childGas remaining (f.operand 0) =
            Gas.ofWord? (f.operand 0) := fun _ => if_neg ha
        rw [cost, cost, hbase, hb]
        simp only [Option.bind_eq_bind, Option.bind_some]
        rw [hshare]
        exact congrArg (Option.bind · base.add?) (hshare _)
      rw [hcost]
      exact Operation.gasHalt_of_le hg h

end Call

namespace Instruction

/-- Whether what the instruction does depends on the gas left. -/
def readsGas : Instruction → Bool
  | read .gas | call _ => true
  | _ => false

section

variable {fees : FeeSchedule} {f : Frame} {w : World} {g : Gas} {i : Instruction}

theorem cost_withGas (h : i.readsGas = false) :
    i.cost fees (f.withGas g) w = i.cost fees f w := by
  cases i with
  | call kind => cases h
  | read what => cases what <;> rfl
  | _ => rfl

theorem gasHalt_withGas (hg : f.gas ≤ g)
    (h : Operation.gasHalt (i.cost fees f w) f.gas ≠ some .outOfGas) :
    Operation.gasHalt (i.cost fees (f.withGas g) w) g =
      Operation.gasHalt (i.cost fees f w) f.gas := by
  cases i with
  | call kind => exact Call.gasHalt_withGas hg h
  | read what => cases what <;> exact Operation.gasHalt_of_le hg h
  | _ => exact Operation.gasHalt_of_le hg h

theorem storeHalt_withGas (hg : f.gas ≤ g) (h : storeHalt fees f ≠ some .outOfGas) :
    storeHalt fees (f.withGas g) = storeHalt fees f := by
  have hf : fees.storeSentry?.any (f.gas ≤ ·) = false :=
    Bool.eq_false_iff.mpr fun hlow => h (if_pos hlow)
  have hmore : fees.storeSentry?.any (g ≤ ·) = false := by
    cases hs : fees.storeSentry? with
    | none => rfl
    | some sentry =>
      rw [hs] at hf
      simp only [Option.any_some, decide_eq_false_iff_not, Gas.le_iff] at hf ⊢
      rw [Gas.le_iff] at hg
      omega
  unfold storeHalt
  rw [hf, show (f.withGas g).gas = g from rfl, hmore]
  rfl

theorem haltCondition_withGas (hg : f.gas ≤ g)
    (h : i.haltCondition fees f ≠ some .outOfGas) :
    i.haltCondition fees (f.withGas g) = i.haltCondition fees f := by
  cases i with
  | storageStore => exact storeHalt_withGas hg h
  | copy source => cases source <;> rfl
  | _ => rfl

theorem frameAfter_withGas (h : i.readsGas = false) :
    i.frameAfter fees (f.withGas g) w = (i.frameAfter fees f w).withGas g := by
  cases i with
  | call kind => cases h
  | read what =>
    cases what with
    | gas => cases h
    | _ => rfl
  | _ => rfl

theorem worldAfter_withGas : i.worldAfter (f.withGas g) w = i.worldAfter f w := by
  cases i <;> rfl

end

end Instruction

namespace Operation

variable {op : Operation} {f : Frame} {w : World} {g : Gas}

theorem cost_check : (op.check f w).cost =
    if stackHalt op.toSignature f.stack = some .stackUnderflow then none else op.cost f w := by
  unfold check
  cases hs : stackHalt op.toSignature f.stack with
  | none =>
    rw [if_neg (by simp)]
    dsimp only
    cases gasHalt (op.cost f w) f.gas <;> rfl
  | some reason => cases reason <;> rfl

theorem halt_check_withGas
    (hprice : gasHalt (op.cost f w) f.gas ≠ some .outOfGas →
      gasHalt (op.cost (f.withGas g) w) g = gasHalt (op.cost f w) f.gas)
    (hclear : op.haltCondition f w ≠ some .outOfGas →
      op.haltCondition (f.withGas g) w = op.haltCondition f w)
    (h : (op.check f w).halt ≠ some .outOfGas) :
    (op.check (f.withGas g) w).halt = (op.check f w).halt := by
  rw [halt_check_eq] at h ⊢
  rw [halt_check_eq, show (f.withGas g).stack = f.stack from rfl,
    show (f.withGas g).gas = g from rfl]
  cases hs : stackHalt op.toSignature f.stack with
  | some reason => rfl
  | none =>
    rw [hs, Option.none_or] at h
    have hpaid : gasHalt (op.cost f w) f.gas ≠ some .outOfGas := fun hout => h (by rw [hout]; rfl)
    rw [hprice hpaid]
    cases hgas : gasHalt (op.cost f w) f.gas with
    | some reason => rfl
    | none =>
      rw [hgas, Option.none_or] at h
      rw [hclear h]

end Operation

namespace Frame

variable {fees : FeeSchedule} {f : Frame} {w : World} {g cost : Gas} {i : Instruction}
  {s : Signature}

theorem facing_withGas : (f.withGas g).facing s = (f.facing s).withGas g := rfl

theorem advance_withGas : (f.withGas g).advance s = (f.advance s).withGas g := by
  unfold advance
  by_cases h : f.status = .executing ∧ s.jumps = false
  · rw [if_pos h]
    exact if_pos h
  · rw [if_neg h]
    exact if_neg h

theorem performed_withGas (h : i.readsGas = false) :
    (f.withGas g).performed fees w i cost s =
      (f.performed fees w i cost s).withGas (g.saturatingSub cost) := by
  have hpaid : (f.withGas g).paid cost = (f.paid cost).withGas (g.saturatingSub cost) := rfl
  rw [performed, hpaid, Instruction.frameAfter_withGas h, advance_withGas, performed]

end Frame

def Snapshot.readsGas (s : Snapshot) : Bool :=
  (Instruction.ofOpcode? s.opcode).any (·.readsGas)

/--
The entry `e'` is `e` with `k` more gas. The cost of a call that is refused may differ, because its
share for the child is a part of the gas left.
-/
structure TraceEntry.RicherBy (k : Gas) (e e' : TraceEntry) : Prop where
  same : e'.snapshot = { e.snapshot with gas := e'.snapshot.gas, cost := e'.snapshot.cost }
  gas : e'.snapshot.gas.toNat = e.snapshot.gas.toNat + k.toNat
  cost : e.snapshot.readsGas = false → e'.snapshot.cost = e.snapshot.cost
  haltReason : e'.haltReason = e.haltReason

namespace Interpreter

section

variable {c : Rules} {f : Frame} {w : World} {g k : Gas}

theorem check_withGas (code : Code) (pc : Nat) (hg : f.gas ≤ g)
    (h : (((ofRules c).operationAt code pc).check f w).halt ≠ some .outOfGas) :
    (((ofRules c).operationAt code pc).check (f.withGas g) w).halt =
      (((ofRules c).operationAt code pc).check f w).halt := by
  rcases operationAt_ofRules c code pc with hop | ⟨i, p, hop, -⟩
  · rw [hop] at h ⊢
    exact Operation.halt_check_withGas (Operation.gasHalt_of_le hg) (fun _ => rfl) h
  · rw [hop] at h ⊢
    exact Operation.halt_check_withGas (Instruction.gasHalt_withGas hg)
      (Instruction.haltCondition_withGas hg) h

theorem readsGas_snapshot (p : Provenance) (i : Instruction) (s : Signature) (cost : Option Gas)
    (hs : s = (i.operation c.tariff.fees p).toSignature) :
    (f.snapshot s cost).readsGas = i.readsGas := by
  subst hs
  show (Instruction.ofOpcode? i.signature.opcode).any (·.readsGas) = _
  rw [i.ofOpcode?_opcode, Option.any_some]

theorem cost_withGas (code : Code) (pc : Nat) {cost : Option Gas}
    (h : (f.snapshot ((ofRules c).operationAt code pc).toSignature cost).readsGas = false) :
    (((ofRules c).operationAt code pc).check (f.withGas g) w).cost =
      (((ofRules c).operationAt code pc).check f w).cost := by
  rw [Operation.cost_check, Operation.cost_check]
  rcases operationAt_ofRules c code pc with hop | ⟨i, p, hop, -⟩
  · rw [hop]
    rfl
  · rw [hop] at h ⊢
    rw [readsGas_snapshot p i _ _ rfl] at h
    have hcost : (i.operation c.tariff.fees p).cost (f.withGas g) w =
        (i.operation c.tariff.fees p).cost f w := Instruction.cost_withGas h
    rw [hcost]
    rfl

theorem halt_entry_withGas (hg : f.gas ≤ g)
    (h : ((ofRules c).entry f w).haltReason ≠ some .outOfGas) :
    ((ofRules c).entry (f.withGas g) w).haltReason = ((ofRules c).entry f w).haltReason :=
  check_withGas (f := f.facing ((ofRules c).operationAt f.code f.pc).toSignature) f.code f.pc hg h

theorem entry_withGas (hg : g.toNat = f.gas.toNat + k.toNat)
    (h : ((ofRules c).entry f w).haltReason ≠ some .outOfGas) :
    ((ofRules c).entry f w).RicherBy k ((ofRules c).entry (f.withGas g) w) where
  same := rfl
  gas := hg
  cost := cost_withGas (f := f.facing ((ofRules c).operationAt f.code f.pc).toSignature) _ _
  haltReason := halt_entry_withGas (Gas.le_iff.mpr (by omega)) h

/-- The step of `f` and that of `f` with gas `g` end alike, and they take the same gas. -/
def StepsAlike (c : Rules) (f : Frame) (g : Gas) (w : World) (journal journal' : Journal) : Prop :=
  ∃ s f₁ g₁ w₁ journal₁ journal₁', (ofRules c).step ⟨f, w, journal⟩ = .ok s ⟨f₁, w₁, journal₁⟩ ∧
    (ofRules c).step ⟨f.withGas g, w, journal'⟩ = .ok s ⟨f₁.withGas g₁, w₁, journal₁'⟩ ∧
    g₁.toNat + f.gas.toNat = f₁.gas.toNat + g.toNat

theorem step_spare_performed {op : Operation} {i : Instruction} {p : Provenance}
    (he : f.status = .executing) (hop : (ofRules c).operationAt f.code f.pc = op)
    (hi : op = i.operation c.tariff.fees p) (hquiet : i.readsGas = false) (hg : f.gas ≤ g)
    (hhalt : (op.check (f.facing op.toSignature) w).halt = none)
    (hhalt' : (op.check ((f.facing op.toSignature).withGas g) w).halt = none)
    (journal journal' : Journal) : StepsAlike c f g w journal journal' := by
  obtain ⟨cost, hpasses, hcost⟩ := Operation.passes_of_check (hi ▸ hhalt)
  obtain ⟨cost', hpasses', hcost'⟩ := Operation.passes_of_check (hi ▸ hhalt')
  rw [← hi] at hpasses hpasses' hcost hcost'
  -- the same price, because the instruction is not a call
  obtain rfl : cost' = cost := Option.some.inj
    (hpasses'.price.symm.trans ((Instruction.cost_withGas hquiet).trans hpasses.price))
  obtain ⟨journal₁, hstep⟩ := step_of_passes journal he hop hi hhalt hcost hpasses
  obtain ⟨journal₁', hstep'⟩ :=
    step_of_passes journal' (f := f.withGas g) he hop hi hhalt' hcost' hpasses'
  rw [Frame.facing_withGas, Frame.performed_withGas hquiet,
    Instruction.worldAfter_withGas] at hstep'
  refine ⟨_, _, g.saturatingSub cost', _, journal₁, journal₁', hstep, hstep', ?_⟩
  have hpaid : cost'.toNat ≤ f.gas.toNat := hpasses.paid
  rw [Gas.le_iff] at hg
  rw [Frame.gas_performed]
  show g.toNat - cost'.toNat + f.gas.toNat = f.gas.toNat - cost'.toNat + g.toNat
  omega

/-- One step with spare gas: the same step, which leaves the spare gas. -/
theorem step_spare (he : f.status = .executing) (hg : f.gas ≤ g)
    (hquiet : ((ofRules c).entry f w).haltReason = none →
      ((ofRules c).entry f w).snapshot.readsGas = false)
    (h : ((ofRules c).entry f w).haltReason ≠ some .outOfGas) (journal journal' : Journal) :
    StepsAlike c f g w journal journal' := by
  have hverdict := halt_entry_withGas (w := w) hg h
  cases hhalt : ((ofRules c).entry f w).haltReason with
  | some reason =>
    obtain ⟨journal₁, hstep⟩ := step_of_refused journal he rfl hhalt
    obtain ⟨journal₁', hstep'⟩ := step_of_refused journal' (f := f.withGas g) he rfl
      (hverdict.trans hhalt)
    exact ⟨_, _, g, w, journal₁, journal₁', hstep, hstep', Nat.add_comm _ _⟩
  | none =>
    have hhalt' := hverdict.trans hhalt
    have hquiet := hquiet hhalt
    rcases operationAt_ofRules c f.code f.pc with hop | ⟨i, p, hop, -⟩
    · rw [entry_eq hop] at hhalt
      exact absurd hhalt (Operation.check_invalid _ w)
    · rw [entry_eq hop] at hhalt hquiet
      rw [entry_eq (f := f.withGas g) hop] at hhalt'
      rw [readsGas_snapshot p i _ _ rfl] at hquiet
      exact step_spare_performed he hop rfl hquiet hg hhalt hhalt' journal journal'

theorem run_spare (n : Nat) : ∀ {f : Frame} {w : World} {g : Gas} {journal journal' : Journal}
    {result : Except ExitError Unit} {m : Machine}, g.toNat = f.gas.toNat + k.toNat →
      (ofRules c).run n ⟨f, w, journal⟩ = .ended result m →
      (∀ e ∈ Journal.entries m.journal, e.haltReason = none → e.snapshot.readsGas = false) →
      result ≠ .error (.exception .outOfGas) →
      List.Forall₂ (TraceEntry.RicherBy k) (Journal.entries journal) (Journal.entries journal') →
      ∃ g' m', (ofRules c).run n ⟨f.withGas g, w, journal'⟩ = .ended result m' ∧
        g'.toNat = m.frame.gas.toNat + k.toNat ∧ m'.frame = m.frame.withGas g' ∧
        m'.world = m.world ∧ List.Forall₂ (TraceEntry.RicherBy k) (Journal.entries m.journal)
          (Journal.entries m'.journal) := by
  -- what the step before has left is richer by k, so the spare gas is passed on
  induction n with
  | zero =>
    intro f w g journal journal' result m _ hrun
    cases hrun
  | succ n ih =>
    intro f w g journal journal' result m hg hrun hquiet hpaid hentries
    by_cases he : f.status = .executing
    · obtain ⟨hmem, hrefused⟩ := run_first (n + 1) he hrun
      -- want of gas would have ended the run
      have hne : ((ofRules c).entry f w).haltReason ≠ some .outOfGas :=
        fun hout => hpaid (hrefused _ hout)
      have hle : f.gas ≤ g := Gas.le_iff.mpr (by omega)
      obtain ⟨s, f₁, g₁, w₁, journal₁, journal₁', hstep, hstep', hgas⟩ :=
        step_spare he hle (hquiet _ hmem) hne journal journal'
      have hg₁ : g₁.toNat = f₁.gas.toNat + k.toNat := by omega
      have hentries₁ : List.Forall₂ (TraceEntry.RicherBy k) (Journal.entries journal₁)
          (Journal.entries journal₁') := by
        rw [show Journal.entries journal₁ = _ from step_recorded hstep,
          show Journal.entries journal₁' = _ from step_recorded hstep']
        exact .cons (entry_withGas hg hne) hentries
      rw [run_of_step n hstep] at hrun
      rw [run_of_step n hstep']
      cases hresult : s.result? with
      | none =>
        rw [hresult] at hrun
        exact ih hg₁ hrun hquiet hpaid hentries₁
      | some result =>
        rw [hresult] at hrun
        cases hrun
        exact ⟨g₁, _, rfl, hg₁, rfl, rfl, hentries₁⟩
    · rw [run_of_ne_executing n he] at hrun
      cases hrun
      exact ⟨g, _, run_of_ne_executing (m := ⟨f.withGas g, w, journal'⟩) n he, hg, rfl, rfl,
        hentries⟩

end

/--
The run of any frame ends. If it performs no instruction that looks at the gas left, and does not
end for want of gas, then with `k` more gas it checks the same operations at the same prices, has
the same result, and leaves the same frame with `k` more gas and the same world.
-/
theorem spare_gas (c : Rules) {f f' : Frame} {k : Gas} (w : World) (h : f.credit k = some f') :
    ∃ result m, (ofRules c).runToHalt ⟨f, w, []⟩ = .ended result m ∧
      ((∀ e ∈ m.journal.trace, e.haltReason = none → e.snapshot.readsGas = false) →
        result ≠ .error (.exception .outOfGas) →
          ∃ m', (ofRules c).runToHalt ⟨f', w, []⟩ = .ended result m' ∧
            m.frame.credit k = some m'.frame ∧ m'.world = m.world ∧
            List.Forall₂ (TraceEntry.RicherBy k) m.journal.trace m'.journal.trace) := by
  obtain ⟨g, hg, rfl⟩ := Frame.credit_eq_some.mp h
  obtain ⟨result, m, hrun⟩ : ∃ result m, (ofRules c).run stepBound ⟨f, w, []⟩ = .ended result m :=
    run_ends c stepBound f.gas.isLt
  refine ⟨result, m, hrun, fun hquiet hpaid => ?_⟩
  have hquiet : ∀ e ∈ Journal.entries m.journal, e.haltReason = none →
      e.snapshot.readsGas = false := by
    intro e he
    refine hquiet e ?_
    rw [Journal.trace_eq]
    exact List.mem_reverse.mpr he
  obtain ⟨g', m', hrun', hg', hframe, hworld, htrace⟩ :=
    run_spare stepBound hg hrun hquiet hpaid
      (show List.Forall₂ _ (Journal.entries []) (Journal.entries []) from .nil)
  refine ⟨m', hrun', Frame.credit_eq_some.mpr ⟨g', hg', hframe⟩, hworld, ?_⟩
  rw [Journal.trace_eq, Journal.trace_eq]
  exact List.rel_reverse htrace

/-- Counts down from 3 and stores the result, where the sentry looks at the gas left. -/
def counting : Frame :=
  Frame.start
    { code := Code.ofBytes
        #[0x60, 3, 0x5b, 0x60, 1, 0x90, 0x03, 0x80, 0x60, 2, 0x57, 0x60, 5, 0x55, 0x00] 0
      initialGas := 5000 }
    {}

/-- A run that succeeded in a number of operations, none of which looked at the gas left. -/
def quietFor (steps : Nat) : Run → Bool
  | .ended result m => result.isOk && m.journal.trace.length == steps &&
    m.journal.trace.all fun e => e.haltReason.isSome || !e.snapshot.readsGas
  | .outOfSteps _ => false

set_option maxRecDepth 8000 in
theorem counting_quiet :
    quietFor 25 ((ofRules .london).runToHalt ⟨counting, { base := {} }, []⟩) = true := by
  decide +kernel

/-- 1000 more do not change the 25 operations. -/
theorem spare_gas_counting :
    counting.credit 1000 = some (counting.withGas 6000) ∧
      ∃ result m, (ofRules .london).runToHalt ⟨counting, { base := {} }, []⟩ = .ended result m ∧
        (∀ e ∈ m.journal.trace, e.haltReason = none → e.snapshot.readsGas = false) ∧
        result ≠ .error (.exception .outOfGas) ∧
        ∃ m', (ofRules .london).runToHalt ⟨counting.withGas 6000, { base := {} }, []⟩ =
            .ended result m' ∧
          m.frame.credit 1000 = some m'.frame ∧ m'.world = m.world ∧
          List.Forall₂ (TraceEntry.RicherBy 1000) m.journal.trace m'.journal.trace := by
  have hcredit : counting.credit 1000 = some (counting.withGas 6000) :=
    Frame.credit_eq_some.mpr ⟨6000, by decide, rfl⟩
  obtain ⟨result, m, hrun, hspare⟩ := spare_gas .london { base := {} } hcredit
  have hcounted := counting_quiet
  rw [hrun] at hcounted
  simp only [quietFor, Bool.and_eq_true, List.all_eq_true, Bool.or_eq_true,
    Bool.not_eq_true'] at hcounted
  obtain ⟨⟨hok, -⟩, hall⟩ := hcounted
  have hquiet : ∀ e ∈ m.journal.trace, e.haltReason = none → e.snapshot.readsGas = false := by
    intro e he hnone
    have hread := hall e he
    rw [hnone] at hread
    exact hread.resolve_left (by decide)
  have hpaid : result ≠ .error (.exception .outOfGas) := by
    rintro rfl
    cases hok
  exact ⟨hcredit, result, m, hrun, hquiet, hpaid, hspare hquiet hpaid⟩

end Interpreter

end MeteredVm
