import MeteredVm.Instruction.Effect

/-!
# MeteredVm.InstructionSet

Which operation each byte stands for, in a table of 256 entries for each code version.

* `InstructionSet.get?` and `InstructionSet.put` — look up and replace an entry.
* `InstructionSet.register` — the instructions that a set of rules has, under a version.
-/

namespace MeteredVm

/-- The operations of one code version by their opcode. -/
abbrev Table := Vector (Option Operation) 256

namespace Table

def empty : Table := Vector.replicate 256 none

def entries (t : Table) : List (Nat × Operation) :=
  t.toList.zipIdx.filterMap fun (entry, i) => entry.map fun op => (i, op)

end Table

structure InstructionSet where
  tables : Std.ExtTreeMap Nat Table := {}

namespace InstructionSet

def empty : InstructionSet := {}

def get? (r : InstructionSet) (opcode : Opcode) (version : Nat) : Option Operation :=
  r.tables[version]?.bind fun t => t.get opcode.toFin

/-- Puts an operation under its own opcode, in place of what was there. -/
def put (r : InstructionSet) (version : Nat) (op : Operation) : InstructionSet :=
  let table := r.tables[version]?.getD Table.empty
  let table := table.set op.opcode.toNat (some op) op.opcode.toNat_lt
  { r with tables := r.tables.insert version table }

/-- The instructions that the rules have, priced by their tariff, and the invalid operation. -/
def operations (c : Rules) : List Operation :=
  (Instruction.all.filter (·.enabled c)).map (·.toOperation c.tariff.fees) ++ [Operation.invalid]

/-- Puts the instructions that the rules have under a version. -/
def register (r : InstructionSet) (version : Nat) (c : Rules) : InstructionSet :=
  (operations c).foldl (·.put version ·) r

/-- The instructions that the rules have, under version 0. -/
def ofRules (c : Rules) : InstructionSet := empty.register 0 c

def versions (r : InstructionSet) : List Nat := r.tables.keys

/-- The bytes with an operation under a version, in ascending order. -/
def entries (r : InstructionSet) (version : Nat) : List (Nat × Operation) :=
  (r.tables[version]?.map Table.entries).getD []

def describe (r : InstructionSet) : String :=
  Text.table (r.tables.toList.map fun (v, t) => (toString v, toString t.entries.length))

end InstructionSet

end MeteredVm
