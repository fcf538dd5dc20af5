import Std.Data.ExtTreeMap
import MeteredVm.Bytes

/-!
# MeteredVm.World.Ledger

The accounts as they stand between transactions, and the changes that a transaction makes.

* `Ledger` — accounts and block hashes; what is missing reads as zero or empty.
* `Changes` — new balances and new storage values.
* `Ledger.apply` — writes changes down; a storage value of zero is removed, not stored.
-/

namespace MeteredVm

/-- A cell of storage: an account and a key. Cells are ordered by account first. -/
abbrev Cell := Address × Word

instance : Ord Cell := lexOrd

instance : Std.TransOrd Address := BitVec.instTransOrd

instance : Std.TransOrd Cell := Std.instTransOrdProd

structure Account where
  balance : Word := 0
  storage : Std.ExtTreeMap Word Word := {}
  code : Bytes := #[]
  version : Nat := 0

structure Changes where
  balances : Std.ExtTreeMap Address Word := {}
  storages : Std.ExtTreeMap Cell Word := {}

structure Ledger where
  accounts : Std.ExtTreeMap Address Account := {}
  blockHashes : Std.ExtTreeMap Word Word := {}

namespace Ledger

/-- The account of an address, an empty one if there is none. -/
def account (l : Ledger) (a : Address) : Account := l.accounts[a]?.getD {}

def balance (l : Ledger) (a : Address) : Word := (l.account a).balance

def code (l : Ledger) (a : Address) : Bytes := (l.account a).code

def version (l : Ledger) (a : Address) : Nat := (l.account a).version

def exists? (l : Ledger) (a : Address) : Bool := l.accounts.contains a

def storage (l : Ledger) (a : Address) (key : Word) : Word :=
  (l.account a).storage[key]?.getD 0

def blockHash (l : Ledger) (number : Word) : Word := l.blockHashes[number]?.getD 0

def insert (l : Ledger) (a : Address) (account : Account) : Ledger :=
  { l with accounts := l.accounts.insert a account }

def insertBlockHash (l : Ledger) (number hash : Word) : Ledger :=
  { l with blockHashes := l.blockHashes.insert number hash }

/-- Sets a balance; the account comes into being if there is none. -/
def setBalance (l : Ledger) (a : Address) (balance : Word) : Ledger :=
  l.insert a { l.account a with balance := balance }

/-- Sets a storage value, or removes the entry when the value is zero. -/
def setStorage (l : Ledger) (cell : Cell) (value : Word) : Ledger :=
  let account := l.account cell.1
  let storage :=
    if value = 0 then account.storage.erase cell.2 else account.storage.insert cell.2 value
  l.insert cell.1 { account with storage := storage }

def apply (l : Ledger) (changes : Changes) : Ledger :=
  changes.storages.foldl setStorage (changes.balances.foldl setBalance l)

end Ledger

end MeteredVm
