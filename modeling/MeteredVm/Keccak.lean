import MeteredVm.Bytes

/-!
# MeteredVm.Keccak

The Keccak hash with 256 bits of output and a rate of 136 bytes, padded with a single one bit
behind the message and one at the end of the last block.

* `Keccak.permute` — 24 rounds on five rows of five lanes of 64 bits.
* `Keccak.absorb` — takes in the blocks of the padded message.
* `Keccak.hash` — the first four lanes, each with its least significant byte first.
-/

namespace MeteredVm.Keccak

/-- Five lanes, one for each column. -/
structure Row where
  x0 : UInt64 := 0
  x1 : UInt64 := 0
  x2 : UInt64 := 0
  x3 : UInt64 := 0
  x4 : UInt64 := 0
  deriving DecidableEq, Repr

structure Rows where
  y0 : Row := {}
  y1 : Row := {}
  y2 : Row := {}
  y3 : Row := {}
  y4 : Row := {}
  deriving DecidableEq, Repr

/-- Rotates to the left by `n`, which is below 64 and not zero. -/
def rotate (x n : UInt64) : UInt64 := (x <<< n) ||| (x >>> (64 - n))

namespace Row

def xor (a b : Row) : Row :=
  ⟨a.x0 ^^^ b.x0, a.x1 ^^^ b.x1, a.x2 ^^^ b.x2, a.x3 ^^^ b.x3, a.x4 ^^^ b.x4⟩

/-- Each column's neighbours on both sides, the right one rotated, from the column parities. -/
def spread (p : Row) : Row :=
  ⟨p.x4 ^^^ rotate p.x1 1, p.x0 ^^^ rotate p.x2 1, p.x1 ^^^ rotate p.x3 1,
    p.x2 ^^^ rotate p.x4 1, p.x3 ^^^ rotate p.x0 1⟩

/-- Combines each lane with the next two of its row. -/
def chi (r : Row) : Row :=
  ⟨r.x0 ^^^ (~~~r.x1 &&& r.x2), r.x1 ^^^ (~~~r.x2 &&& r.x3), r.x2 ^^^ (~~~r.x3 &&& r.x4),
    r.x3 ^^^ (~~~r.x4 &&& r.x0), r.x4 ^^^ (~~~r.x0 &&& r.x1)⟩

end Row

def roundConstants : List UInt64 :=
  [0x0000000000000001, 0x0000000000008082, 0x800000000000808a, 0x8000000080008000,
    0x000000000000808b, 0x0000000080000001, 0x8000000080008081, 0x8000000000008009,
    0x000000000000008a, 0x0000000000000088, 0x0000000080008009, 0x000000008000000a,
    0x000000008000808b, 0x800000000000008b, 0x8000000000008089, 0x8000000000008003,
    0x8000000000008002, 0x8000000000000080, 0x000000000000800a, 0x800000008000000a,
    0x8000000080008081, 0x8000000000008080, 0x0000000080000001, 0x8000000080008008]

/-- Mixes into each lane the parities of the columns beside it. -/
def theta (a : Rows) : Rows :=
  let mix := (a.y0.xor (a.y1.xor (a.y2.xor (a.y3.xor a.y4)))).spread
  ⟨a.y0.xor mix, a.y1.xor mix, a.y2.xor mix, a.y3.xor mix, a.y4.xor mix⟩

/-- Rotates each lane by its own amount and moves it from column `x`, row `y` to column `y`. -/
def rhoPi (a : Rows) : Rows :=
  ⟨⟨a.y0.x0, rotate a.y1.x1 44, rotate a.y2.x2 43, rotate a.y3.x3 21, rotate a.y4.x4 14⟩,
    ⟨rotate a.y0.x3 28, rotate a.y1.x4 20, rotate a.y2.x0 3, rotate a.y3.x1 45, rotate a.y4.x2 61⟩,
    ⟨rotate a.y0.x1 1, rotate a.y1.x2 6, rotate a.y2.x3 25, rotate a.y3.x4 8, rotate a.y4.x0 18⟩,
    ⟨rotate a.y0.x4 27, rotate a.y1.x0 36, rotate a.y2.x1 10, rotate a.y3.x2 15, rotate a.y4.x3 56⟩,
    ⟨rotate a.y0.x2 62, rotate a.y1.x3 55, rotate a.y2.x4 39, rotate a.y3.x0 41, rotate a.y4.x1 2⟩⟩

def chi (a : Rows) : Rows := ⟨a.y0.chi, a.y1.chi, a.y2.chi, a.y3.chi, a.y4.chi⟩

def round (a : Rows) (constant : UInt64) : Rows :=
  let a := chi (rhoPi (theta a))
  { a with y0 := { a.y0 with x0 := a.y0.x0 ^^^ constant } }

def permute (a : Rows) : Rows := roundConstants.foldl round a

def rate : Nat := 136

/-- The lane whose bytes start at `i`, least significant first. -/
def laneAt (message : Bytes) (i : Nat) : UInt64 :=
  let byte (k : Nat) : UInt64 := (message.byteAt (i + k)).toUInt64
  byte 0 ||| (byte 1 <<< 8) ||| (byte 2 <<< 16) ||| (byte 3 <<< 24)
    ||| (byte 4 <<< 32) ||| (byte 5 <<< 40) ||| (byte 6 <<< 48) ||| (byte 7 <<< 56)

def rowAt (message : Bytes) (i : Nat) : Row :=
  ⟨laneAt message i, laneAt message (i + 8), laneAt message (i + 16), laneAt message (i + 24),
    laneAt message (i + 32)⟩

/-- The 17 lanes of the block whose bytes start at `i`, and zeros. -/
def blockAt (message : Bytes) (i : Nat) : Rows :=
  { y0 := rowAt message i
    y1 := rowAt message (i + 40)
    y2 := rowAt message (i + 80)
    y3 := { x0 := laneAt message (i + 120), x1 := laneAt message (i + 128) } }

/-- Fills the last block: a one bit behind the message, a one bit at the end. -/
def pad (message : Bytes) : Bytes :=
  let filled := message.push 0x01
  let padded := filled ++ Array.replicate ((rate - filled.size % rate) % rate) 0
  padded.modify (padded.size - 1) (· ||| 0x80)

def absorbBlock (padded : Bytes) (a : Rows) (n : Nat) : Rows :=
  let block := blockAt padded (rate * n)
  permute ⟨a.y0.xor block.y0, a.y1.xor block.y1, a.y2.xor block.y2, a.y3.xor block.y3, a.y4⟩

def absorb (padded : Bytes) : Rows :=
  (List.range (padded.size / rate)).foldl (absorbBlock padded) {}

/-- The bytes of a lane, least significant first. -/
def laneBytes (x : UInt64) : Bytes :=
  #[x.toUInt8, (x >>> 8).toUInt8, (x >>> 16).toUInt8, (x >>> 24).toUInt8, (x >>> 32).toUInt8,
    (x >>> 40).toUInt8, (x >>> 48).toUInt8, (x >>> 56).toUInt8]

/-- The hash of a byte string, 32 bytes long. -/
def hash (message : Bytes) : Bytes :=
  let first := (absorb (pad message)).y0
  laneBytes first.x0 ++ laneBytes first.x1 ++ laneBytes first.x2 ++ laneBytes first.x3

end MeteredVm.Keccak
