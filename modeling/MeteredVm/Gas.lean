import MeteredVm.Word

/-!
# MeteredVm.Gas

Gas, the unit in which execution is paid for.

An amount is below `2 ^ 64`. The checked operations answer `none` when the exact result is not
an amount, so no amount ever wraps; `none` is the only failure and reads as "gas overflow".
`Gas.add?_eq_some`, `Gas.sub?_eq_some` and `Gas.mul?_eq_some` state them in exact arithmetic.
-/

namespace MeteredVm

structure Gas where
  toNat : Nat
  isLt : toNat < 0x1_0000_0000_0000_0000
  deriving DecidableEq

namespace Gas

/-- A numeral is taken modulo `2 ^ 64`; every numeral in use is smaller. -/
instance (n : Nat) : OfNat Gas n := ⟨⟨n % 0x1_0000_0000_0000_0000, Nat.mod_lt _ (by decide)⟩⟩

instance : Inhabited Gas := ⟨0⟩

instance : LT Gas := ⟨fun a b => a.toNat < b.toNat⟩

instance : LE Gas := ⟨fun a b => a.toNat ≤ b.toNat⟩

instance (a b : Gas) : Decidable (a < b) := inferInstanceAs (Decidable (a.toNat < b.toNat))

instance (a b : Gas) : Decidable (a ≤ b) := inferInstanceAs (Decidable (a.toNat ≤ b.toNat))

instance : Ord Gas := ⟨fun a b => compare a.toNat b.toNat⟩

@[ext] theorem ext {a b : Gas} (h : a.toNat = b.toNat) : a = b := by
  cases a; cases b; cases h; rfl

theorem lt_iff {a b : Gas} : a < b ↔ a.toNat < b.toNat := Iff.rfl

theorem le_iff {a b : Gas} : a ≤ b ↔ a.toNat ≤ b.toNat := Iff.rfl

/-- The amount `n`, if it is one. -/
def ofNat? (n : Nat) : Option Gas :=
  if h : n < 0x1_0000_0000_0000_0000 then some ⟨n, h⟩ else none

theorem ofNat?_eq_some {n : Nat} {g : Gas} : ofNat? n = some g ↔ g.toNat = n := by
  unfold ofNat?
  split
  · constructor
    · rintro ⟨⟩
      rfl
    · intro e
      exact congrArg some (Gas.ext e.symm)
  · rename_i h
    constructor
    · rintro ⟨⟩
    · intro e
      exact absurd (e ▸ g.isLt) h

theorem ofNat?_eq_none {n : Nat} : ofNat? n = none ↔ 0x1_0000_0000_0000_0000 ≤ n := by
  unfold ofNat?
  split
  · rename_i h
    constructor
    · rintro ⟨⟩
    · intro hle
      exact absurd h (Nat.not_lt.mpr hle)
  · rename_i h
    exact ⟨fun _ => Nat.not_lt.mp h, fun _ => rfl⟩

/-- The amount a word asks for, if it is one. -/
def ofWord? (w : Word) : Option Gas := ofNat? w.toNat

def toWord (g : Gas) : Word := Word.ofNat g.toNat

def add? (a b : Gas) : Option Gas := ofNat? (a.toNat + b.toNat)

def sub? (a b : Gas) : Option Gas :=
  if b ≤ a then ofNat? (a.toNat - b.toNat) else none

def mul? (a b : Gas) : Option Gas := ofNat? (a.toNat * b.toNat)

theorem add?_eq_some {a b g : Gas} : a.add? b = some g ↔ g.toNat = a.toNat + b.toNat :=
  ofNat?_eq_some

theorem add?_eq_none {a b : Gas} :
    a.add? b = none ↔ 0x1_0000_0000_0000_0000 ≤ a.toNat + b.toNat :=
  ofNat?_eq_none

theorem mul?_eq_some {a b g : Gas} : a.mul? b = some g ↔ g.toNat = a.toNat * b.toNat :=
  ofNat?_eq_some

theorem sub?_eq_some {a b g : Gas} : a.sub? b = some g ↔ g.toNat + b.toNat = a.toNat := by
  unfold sub?
  split
  · rename_i h
    have hle := le_iff.mp h
    rw [ofNat?_eq_some]
    omega
  · rename_i h
    have hlt := mt le_iff.mpr h
    constructor
    · rintro ⟨⟩
    · intro e
      omega

theorem sub?_eq_none {a b : Gas} : a.sub? b = none ↔ a < b := by
  unfold sub?
  split
  · rename_i h
    have hle := le_iff.mp h
    have ha := a.isLt
    rw [ofNat?_eq_none, lt_iff]
    omega
  · rename_i h
    exact ⟨fun _ => Nat.not_le.mp (mt le_iff.mpr h), fun _ => rfl⟩

/-- The difference, or nothing left. -/
def saturatingSub (a b : Gas) : Gas :=
  ⟨a.toNat - b.toNat, Nat.lt_of_le_of_lt (Nat.sub_le ..) a.isLt⟩

/-- All but one 64th, rounding the part held back down. -/
def allButOne64th (g : Gas) : Gas :=
  ⟨g.toNat - g.toNat / 64, Nat.lt_of_le_of_lt (Nat.sub_le ..) g.isLt⟩

def min (a b : Gas) : Gas := if a ≤ b then a else b

def max (a b : Gas) : Gas := if a ≤ b then b else a

def isZero (g : Gas) : Bool := g.toNat == 0

end Gas

end MeteredVm
