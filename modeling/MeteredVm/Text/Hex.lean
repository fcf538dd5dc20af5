/-!
# MeteredVm.Text.Hex

Lowercase hexadecimal numerals.

* `Hex.digits` — no leading zeros, zero is `0`.
* `Hex.padded` — at least a given number of digits.
* `Hex.ofBytes` — two digits for each byte.
-/

namespace MeteredVm.Hex

def digits (n : Nat) : String := String.ofList (Nat.toDigits 16 n)

/-- The digits of `n`, with zeros in front up to `width` digits. -/
def padded (width n : Nat) : String :=
  let ds := Nat.toDigits 16 n
  String.ofList (List.replicate (width - ds.length) '0' ++ ds)

def number (n : Nat) : String := "0x" ++ digits n

/-- The digit of a number below sixteen. -/
def digitChar (n : Nat) : Char := Nat.digitChar n

/-- Two digits for each byte, with the marker in front. -/
def ofBytes (b : Array UInt8) : String :=
  b.foldl (fun s x => (s.push (digitChar (x.toNat / 16))).push (digitChar (x.toNat % 16))) "0x"

/-- The value of a digit of either case. -/
def digit? (c : Char) : Option Nat :=
  if '0' ≤ c ∧ c ≤ '9' then some (c.toNat - '0'.toNat)
  else if 'a' ≤ c ∧ c ≤ 'f' then some (c.toNat - 'a'.toNat + 10)
  else if 'A' ≤ c ∧ c ≤ 'F' then some (c.toNat - 'A'.toNat + 10)
  else none

/-- The digits behind the marker, if all of them are digits. -/
def readDigits? (s : String) : Option (List Nat) :=
  match s.toList with
  | '0' :: 'x' :: ds => ds.mapM digit?
  | _ => none

/-- Reads a numeral with its marker. -/
def readNat? (s : String) : Option Nat :=
  (readDigits? s).map fun ds => ds.foldl (fun n d => n * 16 + d) 0

/-- Pairs digits into bytes; the number of digits must be even. -/
def pairs? : List Nat → Option (List UInt8)
  | [] => some []
  | [_] => none
  | hi :: lo :: rest => (pairs? rest).map (UInt8.ofNat (hi * 16 + lo) :: ·)

/-- Reads a byte string with its marker. -/
def readBytes? (s : String) : Option (Array UInt8) :=
  ((readDigits? s).bind pairs?).map List.toArray

end MeteredVm.Hex
