import SglangMlx.Lib.MiniFloat

/- The FP8 formats (`metal/float8.metal`): decoding of E4M3 and E5M2, and the encoder
   `detail::fp32_to_fp8` for both.

   A `uint` is a natural number below `2 ^ 32`; only a shift to the left could pass it. A
   shift has a meaning for counts from 0 to 31 only, so a function with another count
   has no result here. The arithmetic of the decoders is exact in `float`. -/
namespace SglangMlx

open MiniFloat

def shiftRight (a : Nat) (count : Int) : Option Nat :=
  if 0 ≤ count ∧ count ≤ 31 then some (a >>> count.toNat) else none

def shiftLeft (a : Nat) (count : Int) : Option Nat :=
  if 0 ≤ count ∧ count ≤ 31 then some ((a <<< count.toNat) % 2 ^ 32) else none

def ldexp (m : ℚ) (n : Int) : ℚ := m * 2 ^ n

/-- The body of the decoders. -/
def fp8ToFloat (expBits manBits bias : Nat) (v : BitVec 8) : FloatValue :=
  let s := v.toNat >>> 7
  let exp := (v.toNat >>> manBits) &&& (2 ^ expBits - 1)
  let man := v.toNat &&& (2 ^ manBits - 1)
  if exp = 0 then
    if man = 0 then .finite (s != 0) 0
    else
      let m : ℚ := man / 2 ^ manBits
      .finite (s != 0) (ldexp m (1 - bias))
  else if exp = 2 ^ expBits - 1 then
    if man ≠ 0 then .nan else .inf (s != 0)
  else
    let m : ℚ := 1 + man / 2 ^ manBits
    .finite (s != 0) (ldexp m (exp - bias))

def fp8E4m3ToFloat : BitVec 8 → FloatValue := fp8ToFloat 4 3 7

def fp8E5m2ToFloat : BitVec 8 → FloatValue := fp8ToFloat 5 2 15

/-- What the bits of a `float` stand for. -/
def floatValue (bits : BitVec 32) : FloatValue := decode 8 23 127 bits.toNat

/-- `uchar(x)`. -/
def uchar (x : Nat) : BitVec 8 := BitVec.ofNat 8 x

/-- The normal path of `fp32_to_fp8`, with `s << 7` and the bits of infinity. -/
def normalPath (manBits sign infinity : Nat) (expMax eFp8 : Int) (m : Nat) : Option (BitVec 8) := do
  let shift : Int := 23 - manBits
  let mant ← shiftRight m shift
  let lsb := mant &&& 1
  let round := (← shiftRight m (shift - 1)) &&& 1
  let sticky := if m &&& ((← shiftLeft 1 (shift - 1)) - 1) ≠ 0 then 1 else 0
  let mant := mant + (round &&& (sticky ||| lsb))
  let mask := (← shiftLeft 1 manBits) - 1
  if (← shiftRight mant manBits) ≠ 0 then
    -- mantissa overflow
    if eFp8 + 1 > expMax then pure (uchar (sign ||| infinity))
    else pure (uchar (sign ||| (← shiftLeft (eFp8 + 1).toNat manBits) ||| (0 &&& mask)))
  else pure (uchar (sign ||| (← shiftLeft eFp8.toNat manBits) ||| (mant &&& mask)))

/-- What follows the normal path. -/
def subnormalPath (manBits sign : Nat) (eFp8 : Int) (m : Nat) : Option (BitVec 8) :=
  if eFp8 < 1 - manBits then some (uchar sign)
  else do
    let rshift : Int := (1 - eFp8) + (23 - manBits)
    let mant := 0x800000 ||| m
    let rounded ← shiftRight (mant + (← shiftLeft 1 (rshift - 1))) rshift
    if rounded = 0 then pure (uchar sign)
    else pure (uchar (sign ||| (rounded &&& ((← shiftLeft 1 manBits) - 1))))

/-- `detail::fp32_to_fp8`. -/
def fp32ToFp8 (expBits manBits bias : Nat) (f : BitVec 32) : Option (BitVec 8) := do
  let bits := f.toNat
  let s ← shiftRight bits 31
  let abs := bits &&& 0x7FFFFFFF
  let sign ← shiftLeft s 7
  let infinity ← shiftLeft ((← shiftLeft 1 expBits) - 1) manBits
  if abs ≥ 0x7F800000 then pure (uchar (sign ||| infinity ||| if abs ≠ 0x7F800000 then 1 else 0))
  else
    let e : Int := ((← shiftRight abs 23) &&& 0xFF : Nat) - 127
    let m := abs &&& 0x7FFFFF
    let expMax : Int := (← shiftLeft 1 expBits) - 2
    let eFp8 := e + bias
    if 1 ≤ eFp8 ∧ eFp8 ≤ expMax then normalPath manBits sign infinity expMax eFp8 m
    else subnormalPath manBits sign eFp8 m

def floatToFp8E4m3 : BitVec 32 → Option (BitVec 8) := fp32ToFp8 4 3 7

def floatToFp8E5m2 : BitVec 32 → Option (BitVec 8) := fp32ToFp8 5 2 15

end SglangMlx
