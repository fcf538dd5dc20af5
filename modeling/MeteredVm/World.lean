import MeteredVm.World.Ledger
import MeteredVm.Exit

/-!
# MeteredVm.World

The world state that running code sees: a ledger under a stack of substates.

A write goes to the innermost substate, and a read takes the innermost value there is, the
ledger's if there is none. `World.enter` opens a substate; `World.leave` closes it and keeps
its changes or drops them.

`World.balance_setBalance` and `World.storage_setStorage` say what a write does to the reads, and
`World.transfer_cases` what a transfer that succeeds is.
-/

namespace MeteredVm

/-- What becomes of the changes of a substate that is closed. -/
inductive Merge where
  | commit
  /-- They are dropped, because the call reverted. -/
  | revert
  /-- They are dropped, because the call halted. -/
  | discard
  deriving DecidableEq, Repr

namespace Merge

def all : List Merge := [commit, revert, discard]

def name : Merge → String
  | commit => "Commit"
  | revert => "Revert"
  | discard => "Discard"

def ofName? (s : String) : Option Merge := all.find? (·.name == s)

end Merge

def Changes.over (inner outer : Changes) : Changes :=
  { balances := outer.balances ∪ inner.balances
    storages := outer.storages ∪ inner.storages }

structure World where
  base : Ledger
  /-- The changes of the innermost substate. -/
  changes : Changes := {}
  /-- The changes of the substates around it, from the inside out. -/
  outer : List Changes := []

namespace World

def substates (w : World) : List Changes := w.changes :: w.outer

/-- The number of substates opened and not yet closed. -/
def depth (w : World) : Nat := w.outer.length

def balance (w : World) (a : Address) : Word :=
  (w.substates.findSome? (·.balances[a]?)).getD (w.base.balance a)

def storage (w : World) (a : Address) (key : Word) : Word :=
  (w.substates.findSome? (·.storages[((a, key) : Cell)]?)).getD (w.base.storage a key)

/-- The storage value in the ledger, which is the one from before the transaction. -/
def settledStorage (w : World) (a : Address) (key : Word) : Word := w.base.storage a key

/-- Whether the ledger has the account or a pending balance names it. -/
def exists? (w : World) (a : Address) : Bool :=
  w.substates.any (·.balances.contains a) || w.base.exists? a

def code (w : World) (a : Address) : Bytes := w.base.code a

def version (w : World) (a : Address) : Nat := w.base.version a

def isEmpty (w : World) (a : Address) : Bool := w.balance a == 0 && (w.code a).isEmpty

def blockHash (w : World) (number : Word) : Word := w.base.blockHash number

def setBalance (w : World) (a : Address) (balance : Word) : World :=
  { w with changes := { w.changes with balances := w.changes.balances.insert a balance } }

def setStorage (w : World) (a : Address) (key value : Word) : World :=
  { w with
    changes := { w.changes with storages := w.changes.storages.insert ((a, key) : Cell) value } }

theorem balance_setBalance (w : World) (a b : Address) (balance : Word) :
    (w.setBalance a balance).balance b = if b = a then balance else w.balance b := by
  unfold World.balance substates setBalance
  rw [List.findSome?_cons, List.findSome?_cons, Std.ExtTreeMap.getElem?_insert]
  by_cases h : b = a
  · simp [h]
  · simp [h, Ne.symm h]

theorem storage_setStorage (w : World) (a b : Address) (key k value : Word) :
    (w.setStorage a key value).storage b k =
      if (b, k) = (a, key) then value else w.storage b k := by
  unfold World.storage substates setStorage
  rw [List.findSome?_cons, List.findSome?_cons, Std.ExtTreeMap.getElem?_insert]
  by_cases h : (b, k) = (a, key)
  · simp [h]
  · simp [h, Ne.symm h]

theorem storage_setBalance (w : World) (a b : Address) (k balance : Word) :
    (w.setBalance a balance).storage b k = w.storage b k := rfl

theorem balance_setStorage (w : World) (a b : Address) (key value : Word) :
    (w.setStorage a key value).balance b = w.balance b := rfl

/--
Moves `value` from `source` to `target`; `none` when the source cannot afford it. The source is
debited before the target is credited, and a balance stops at the greatest word. Moving nothing
changes nothing.
-/
def transfer (w : World) (source target : Address) (value : Word) : Option World :=
  if value = 0 then some w
  else if w.balance source < value then none
  else
    let debited := w.setBalance source (w.balance source - value)
    some (debited.setBalance target (Word.saturatingAdd (debited.balance target) value))

/-- A transfer that succeeds moves nothing, or what its source can afford. -/
theorem transfer_cases {w u : World} {source target : Address} {value : Word}
    (h : w.transfer source target value = some u) :
    value = 0 ∧ u = w ∨ value ≠ 0 ∧ value ≤ w.balance source ∧
      let debited := w.setBalance source (w.balance source - value)
      u = debited.setBalance target (Word.saturatingAdd (debited.balance target) value) := by
  unfold transfer at h
  split at h
  · rename_i hzero
    exact .inl ⟨hzero, (Option.some.inj h).symm⟩
  · rename_i hvalue
    split at h
    · cases h
    · rename_i hpaid
      exact .inr ⟨hvalue, BitVec.not_lt.mp hpaid, (Option.some.inj h).symm⟩

/-- It fails only for want of balance. -/
theorem transfer_eq_none {w : World} {source target : Address} {value : Word} :
    w.transfer source target value = none ↔ w.balance source < value := by
  unfold transfer
  split
  · rename_i hzero
    rw [hzero]
    exact iff_of_false nofun BitVec.not_lt_zero
  · split
    · rename_i hpaid
      exact iff_of_true rfl hpaid
    · rename_i hpaid
      exact iff_of_false nofun hpaid

def enter (w : World) : World := { w with changes := {}, outer := w.changes :: w.outer }

theorem balance_enter (w : World) (a : Address) : w.enter.balance a = w.balance a := by
  simp [World.balance, substates, enter]

/-- Closes the innermost substate. -/
def leave (w : World) (merge : Merge) : Except Fatal World :=
  match w.outer with
  | [] => .error .unevenSubstate
  | parent :: rest =>
    let changes := if merge = .commit then w.changes.over parent else parent
    .ok { w with changes := changes, outer := rest }

/-- Closes up to `n` substates and drops their changes. -/
def abandon : Nat → World → World
  | 0, w => w
  | n + 1, w =>
    match w.leave .discard with
    | .ok w => abandon n w
    | .error _ => w

/-- Writes the changes of the innermost substate to the ledger and starts over on it. -/
def settle (w : World) : World := { base := w.base.apply w.changes }

end World

end MeteredVm
