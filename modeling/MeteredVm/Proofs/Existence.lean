import MeteredVm.Proofs.Settling

/-!
# MeteredVm.Proofs.Existence

Which accounts there are once the pending changes are written down.

A pending balance counts as its account before it is written down, a pending storage value does
not. Writing either down brings about an account that is missing, and so does a storage value of
zero, of which nothing is stored. So settling may add accounts: those whose storage was written to
and that nobody has paid. All other answers stay, as `Session.settle_answers` says.

* `Ledger.exists?_apply`: the accounts of a ledger after changes.
* `Writers`: the accounts whose storage was written to, followed through the substates that open
  and close, from the edits alone.
* `Session.performAll_writers`: these are the accounts that the pending storage values name.
* `Session.settle_brings_about`: settling adds exactly these, and their new-account charge ends.
-/

namespace MeteredVm

namespace Ledger

theorem foldl_any {K V S : Type} [Ord K] [Std.TransOrd K] (put : S → K → V → S) (read : S → Bool)
    (brings : K → Bool) (hput : ∀ s k v, read (put s k v) = (brings k || read s))
    (m : Std.ExtTreeMap K V) (s : S) : read (m.foldl put s) = (m.keys.any brings || read s) := by
  rw [Std.ExtTreeMap.foldl_eq_foldl_toList, ← Std.ExtTreeMap.map_fst_toList_eq_keys]
  generalize m.toList = entries
  induction entries generalizing s with
  | nil => rfl
  | cons e entries ih =>
    rw [List.foldl_cons, ih, hput, List.map_cons, List.any_cons, Bool.or_left_comm, Bool.or_assoc]

theorem exists?_insert (l : Ledger) (a b : Address) (account : Account) :
    (l.insert b account).exists? a = (b == a || l.exists? a) := by
  unfold exists? insert
  rw [Std.ExtTreeMap.contains_insert]
  congr 1
  exact Bool.eq_iff_iff.mpr (by simp)

end Ledger

namespace Changes

variable (c inner outer : Changes) (a : Address)

/-- Whether a cell of the account is written to, be it a zero. -/
def writesTo : Bool := c.storages.keys.any (·.1 == a)

theorem writesTo_iff : c.writesTo a = true ↔ ∃ key : Word, ((a, key) : Cell) ∈ c.storages := by
  simp only [writesTo, List.any_eq_true, beq_iff_eq, Std.ExtTreeMap.mem_keys]
  constructor
  · rintro ⟨⟨b, key⟩, hmem, rfl⟩
    exact ⟨key, hmem⟩
  · rintro ⟨key, hmem⟩
    exact ⟨(a, key), hmem, rfl⟩

theorem writesTo_empty : ({} : Changes).writesTo a = false := by
  rw [← Bool.not_eq_true, writesTo_iff]
  rintro ⟨key, hmem⟩
  exact Std.ExtTreeMap.not_mem_empty hmem

theorem writesTo_insert (b : Address) (key value : Word) :
    writesTo { c with storages := c.storages.insert ((b, key) : Cell) value } a =
      (b == a || c.writesTo a) := by
  rw [Bool.eq_iff_iff, Bool.or_eq_true, writesTo_iff, writesTo_iff, beq_iff_eq]
  simp only [Std.ExtTreeMap.mem_insert]
  constructor
  · rintro ⟨k, hk | hk⟩
    · exact .inl (congrArg Prod.fst (Std.LawfulEqCmp.eq_of_compare hk))
    · exact .inr ⟨k, hk⟩
  · rintro (rfl | ⟨k, hk⟩)
    · exact ⟨key, .inl Std.ReflCmp.compare_self⟩
    · exact ⟨k, .inr hk⟩

theorem writesTo_over : (inner.over outer).writesTo a = (inner.writesTo a || outer.writesTo a) := by
  rw [Bool.eq_iff_iff, Bool.or_eq_true, writesTo_iff, writesTo_iff, writesTo_iff]
  simp only [Changes.over, Std.ExtTreeMap.mem_union_iff]
  constructor
  · rintro ⟨k, hk | hk⟩
    · exact .inr ⟨k, hk⟩
    · exact .inl ⟨k, hk⟩
  · rintro (⟨k, hk⟩ | ⟨k, hk⟩)
    · exact ⟨k, .inr hk⟩
    · exact ⟨k, .inl hk⟩

end Changes

theorem Ledger.exists?_apply (l : Ledger) (changes : Changes) (a : Address) :
    (l.apply changes).exists? a =
      (changes.writesTo a || (changes.balances.contains a || l.exists? a)) := by
  have hbalances : (changes.balances.foldl setBalance l).exists? a =
      (changes.balances.keys.any (· == a) || l.exists? a) :=
    foldl_any setBalance (·.exists? a) (· == a) (fun l b _ => l.exists?_insert a b _) _ l
  have hnamed : changes.balances.keys.any (· == a) = changes.balances.contains a := by
    rw [Bool.eq_iff_iff, Std.ExtTreeMap.contains_iff_mem, ← Std.ExtTreeMap.mem_keys]
    simp
  rw [← hnamed, ← hbalances]
  exact foldl_any setStorage (·.exists? a) (·.1 == a) (fun l cell _ => l.exists?_insert a cell.1 _)
    _ _

theorem World.exists?_settle {w : World} (h : w.depth = 0) (a : Address) :
    w.settle.exists? a = (w.exists? a || w.changes.writesTo a) := by
  have houter : w.outer = [] := List.eq_nil_of_length_eq_zero h
  have hledger : w.settle.exists? a = (w.base.apply w.changes).exists? a := by
    simp [settle, World.exists?, substates]
  rw [hledger, w.base.exists?_apply, World.exists?, substates, houter, List.any_cons, List.any_nil,
    Bool.or_false, Bool.or_comm]

/--
The accounts whose storage each open substate wrote to, the innermost on top. A substate begins
with none; a commit hands its own to the next one, and otherwise they are forgotten.
-/
structure Writers where
  top : List Address := []
  below : List (List Address) := []

namespace Writers

def perform (s : Writers) : World.Edit → Writers
  | .setStorage a _ _ => { s with top := a :: s.top }
  | .transfer _ _ _ => s
  | .enter => ⟨[], s.top :: s.below⟩
  | .leave merge =>
    match s.below with
    | [] => s
    | next :: rest => ⟨if merge = .commit then s.top ++ next else next, rest⟩

def performAll (s : Writers) (edits : List World.Edit) : Writers := edits.foldl perform s

end Writers

namespace World

structure HasWriters (w : World) (s : Writers) : Prop where
  top : w.changes.writesTo = s.top.contains
  below : w.outer.map Changes.writesTo = s.below.map List.contains

theorem transfer_storages {w w' : World} {source target : Address} {value : Word}
    (h : w.transfer source target value = some w') : w'.changes.storages = w.changes.storages := by
  rcases transfer_cases h with ⟨-, rfl⟩ | ⟨-, -, rfl⟩
  · rfl
  · rfl

namespace HasWriters

variable {w : World} {s : Writers}

theorem setStorage (h : w.HasWriters s) (a : Address) (key value : Word) :
    (w.setStorage a key value).HasWriters { s with top := a :: s.top } where
  top := by
    funext b
    show Changes.writesTo { w.changes with storages := _ } b = _
    rw [Changes.writesTo_insert, h.top, List.contains_cons, BEq.comm]
  below := h.below

theorem transfer (h : w.HasWriters s) {w' : World} {source target : Address} {value : Word}
    (ht : w.transfer source target value = some w') : w'.HasWriters s where
  top := by
    rw [← h.top]
    funext b
    rw [Changes.writesTo, transfer_storages ht, Changes.writesTo]
  below := by rw [(transfer_sameBelow ht).outer, h.below]

theorem enter (h : w.HasWriters s) : w.enter.HasWriters ⟨[], s.top :: s.below⟩ where
  top := funext Changes.writesTo_empty
  below := by
    show (w.changes :: w.outer).map Changes.writesTo = _
    rw [List.map_cons, List.map_cons, h.top, h.below]

/-- Only a commit lets the next substate have what the closed one wrote to. -/
theorem leave (h : w.HasWriters s) {w' : World} {merge : Merge} (hl : w.leave merge = .ok w') :
    w'.HasWriters (s.perform (.leave merge)) := by
  unfold World.leave at hl
  split at hl
  · cases hl
  · rename_i parent rest ho
    cases hl
    have hbelow := h.below
    rw [ho, List.map_cons] at hbelow
    obtain ⟨next, below, hs, hnext, hrest⟩ := List.map_eq_cons_iff.mp hbelow.symm
    have hperform : s.perform (.leave merge) =
        ⟨if merge = .commit then s.top ++ next else next, below⟩ := by
      simp only [Writers.perform, hs]
    rw [hperform]
    refine ⟨?_, hrest.symm⟩
    by_cases hm : merge = .commit
    · simp only [if_pos hm]
      funext a
      rw [Changes.writesTo_over, h.top, ← hnext]
      simp
    · simp only [if_neg hm]
      exact hnext.symm

theorem leave_refused (h : w.HasWriters s) {merge : Merge} {failure : Fatal}
    (hl : w.leave merge = .error failure) : s.perform (.leave merge) = s := by
  unfold World.leave at hl
  split at hl
  · rename_i ho
    have hbelow := h.below
    rw [ho, List.map_nil] at hbelow
    simp only [Writers.perform, List.map_eq_nil_iff.mp hbelow.symm]
  · cases hl

end HasWriters

end World

namespace Session

variable (x : Executor)

theorem perform_writers {s : Session} {written : Writers} (h : s.world.HasWriters written)
    (e : World.Edit) : (s.perform x e.change).2.world.HasWriters (written.perform e) := by
  cases e with
  | setStorage a key value => exact h.setStorage a key value
  | enter => exact h.enter
  | transfer source target value =>
    simp only [World.Edit.change, perform, Writers.perform]
    split
    · rename_i ht
      exact h.transfer ht
    · exact h
  | leave merge =>
    simp only [World.Edit.change, perform]
    split
    · rename_i hl
      exact h.leave hl
    · rename_i hl
      rw [h.leave_refused hl]
      exact h

theorem performAll_writers (edits : List World.Edit) : ∀ {s : Session} {written : Writers},
    s.world.HasWriters written →
      (s.performAll x (edits.map (·.change))).2.world.HasWriters (written.performAll edits) := by
  induction edits with
  | nil => exact fun h => h
  | cons e edits ih => exact fun h => ih (perform_writers x h e)

/--
After edits that leave no substate open, writing the changes down brings about the accounts whose
storage was written to, be it with a zero, by an edit that no later one undid, and no others. Where
an empty account counts as existing, a call to one of these is charged for a new account before
that and not afterwards; no other charge for a new account changes.
-/
theorem settle_brings_about (ledger : Ledger) (codes : CodeCache) (journal : Journal)
    (edits : List World.Edit) :
    let done := (performAll x { world := { base := ledger }, codes, journal }
      (edits.map (·.change))).2
    let settled := (done.perform x .settle).2.world
    let written := (Writers.performAll {} edits).top
    done.world.depth = 0 →
      (∀ a, settled.exists? a = (done.world.exists? a || written.contains a)) ∧
      ∀ fees kind f, Call.recipientIsNew fees kind f settled =
        (Call.recipientIsNew fees kind f done.world &&
          !(fees.emptyExists && written.contains (Word.toAddress (f.operand 1)))) := by
  intro done settled written hdepth
  have hwritten : done.world.HasWriters (Writers.performAll {} edits) :=
    performAll_writers x edits ⟨funext Changes.writesTo_empty, rfl⟩
  have hexists : ∀ a, settled.exists? a = (done.world.exists? a || written.contains a) := by
    intro a
    rw [← congrFun hwritten.top a]
    exact World.exists?_settle hdepth a
  have hempty : ∀ a, settled.isEmpty a = done.world.isEmpty a :=
    (World.settled_of_depth hdepth).isEmpty
  refine ⟨hexists, fun fees kind f => ?_⟩
  unfold Call.recipientIsNew
  cases fees.emptyExists with
  | false => simp [hempty]
  | true => simp [hexists, Bool.and_assoc]

/-- The only account is 1. In a substate that is kept, accounts 3 and 1 are written to; in one
that is dropped, account 4 is; account 2 is paid. -/
def visiting : List World.Edit :=
  [.enter, .setStorage 3 0 7, .setStorage 1 0 7, .leave .commit, .enter, .setStorage 4 0 7,
    .leave .revert, .transfer 1 2 5]

theorem settle_brings_about_visiting :
    let x : Executor := ⟨.ofRules .frontier, .frontier⟩
    let done := (performAll x { world := { base := holding } } (visiting.map (·.change))).2
    let settled := (done.perform x .settle).2.world
    done.world.depth = 0 ∧
      (∀ a, settled.exists? a = (done.world.exists? a || [(1 : Address), 3].contains a)) ∧
      done.world.exists? 3 = false ∧ settled.exists? 3 = true ∧ settled.exists? 4 = false := by
  intro x done settled
  have hdepth : done.world.depth = 0 := by decide +kernel
  refine ⟨hdepth, (settle_brings_about x holding {} [] visiting hdepth).1, ?_⟩
  decide +kernel

/--
A value is written to an account that is not there. The account is missing until the write is
settled and there afterwards, so a call to it costs 25000 less.
-/
theorem settle_adds_account :
    let x : Executor := ⟨.ofRules .frontier, .frontier⟩
    let done := (performAll x { world := { base := {} } }
      ([World.Edit.setStorage 1 0 7].map (·.change))).2
    let settled := (done.perform x .settle).2.world
    let caller : Frame := { Frame.start {} {} with stack := ⟨[0, 1, 0, 0, 0, 0, 0], 1024⟩ }
    done.world.depth = 0 ∧ done.world.exists? 1 = false ∧ settled.exists? 1 = true ∧
      Call.baseCost FeeSchedule.frontier .call caller done.world = some 25040 ∧
      Call.baseCost FeeSchedule.frontier .call caller settled = some 40 := by
  decide +kernel

end Session

end MeteredVm
