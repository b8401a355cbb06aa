/-
SHA-256.

The function itself (FIPS 180-4): a message is padded to blocks of sixteen words,
each block is stretched to sixty-four words, and the rounds fold them into the state.

* `sha256` — the digest as bytes;
* `length_sha256` — it has thirty-two of them.
-/
import Mathlib.Tactic

namespace Sha256

/-- The words `a` to `h`. -/
structure State where
  a : UInt32
  b : UInt32
  c : UInt32
  d : UInt32
  e : UInt32
  f : UInt32
  g : UInt32
  h : UInt32

def initial : State :=
  ⟨0x6a09e667, 0xbb67ae85, 0x3c6ef372, 0xa54ff53a, 0x510e527f, 0x9b05688c, 0x1f83d9ab, 0x5be0cd19⟩

/-- The constants of the sixty-four rounds. -/
def constants : List UInt32 :=
  [0x428a2f98, 0x71374491, 0xb5c0fbcf, 0xe9b5dba5, 0x3956c25b, 0x59f111f1, 0x923f82a4, 0xab1c5ed5,
    0xd807aa98, 0x12835b01, 0x243185be, 0x550c7dc3, 0x72be5d74, 0x80deb1fe, 0x9bdc06a7, 0xc19bf174,
    0xe49b69c1, 0xefbe4786, 0x0fc19dc6, 0x240ca1cc, 0x2de92c6f, 0x4a7484aa, 0x5cb0a9dc, 0x76f988da,
    0x983e5152, 0xa831c66d, 0xb00327c8, 0xbf597fc7, 0xc6e00bf3, 0xd5a79147, 0x06ca6351, 0x14292967,
    0x27b70a85, 0x2e1b2138, 0x4d2c6dfc, 0x53380d13, 0x650a7354, 0x766a0abb, 0x81c2c92e, 0x92722c85,
    0xa2bfe8a1, 0xa81a664b, 0xc24b8b70, 0xc76c51a3, 0xd192e819, 0xd6990624, 0xf40e3585, 0x106aa070,
    0x19a4c116, 0x1e376c08, 0x2748774c, 0x34b0bcb5, 0x391c0cb3, 0x4ed8aa4a, 0x5b9cca4f, 0x682e6ff3,
    0x748f82ee, 0x78a5636f, 0x84c87814, 0x8cc70208, 0x90befffa, 0xa4506ceb, 0xbef9a3f7, 0xc67178f2]

def rotr (n : UInt32) (x : UInt32) : UInt32 := (x >>> n) ||| (x <<< (32 - n))

/-! ### Blocks -/

/-- `n` in `width` bytes, the most significant first. -/
def bigEndian : ℕ → ℕ → List UInt8
  | 0, _ => []
  | width + 1, n => UInt8.ofNat (n / 256 ^ width % 256) :: bigEndian width n

/-- A one bit, zeros up to a block, and the length in bits. -/
def padded (message : List UInt8) : List UInt8 :=
  message ++ 0x80 :: (List.replicate ((119 - message.length % 64) % 64) 0 ++
    bigEndian 8 (8 * message.length))

def words : List UInt8 → List UInt32
  | a :: b :: c :: d :: rest =>
    UInt32.ofNat (((a.toNat * 256 + b.toNat) * 256 + c.toNat) * 256 + d.toNat) :: words rest
  | _ => []

/-! ### The rounds -/

/-- The next word of the schedule, from the words so far, the last one first. -/
def scheduled : List UInt32 → UInt32
  | _ :: w₂ :: _ :: _ :: _ :: _ :: w₇ :: _ :: _ :: _ :: _ :: _ :: _ :: _ :: w₁₅ :: w₁₆ :: _ =>
    (rotr 17 w₂ ^^^ rotr 19 w₂ ^^^ (w₂ >>> 10)) + w₇ +
      (rotr 7 w₁₅ ^^^ rotr 18 w₁₅ ^^^ (w₁₅ >>> 3)) + w₁₆
  | _ => 0

def extend : ℕ → List UInt32 → List UInt32
  | 0, ws => ws
  | n + 1, ws => extend n (scheduled ws :: ws)

def round (st : State) (constant word : UInt32) : State :=
  let t₁ := st.h + (rotr 6 st.e ^^^ rotr 11 st.e ^^^ rotr 25 st.e) +
    ((st.e &&& st.f) ^^^ (~~~ st.e &&& st.g)) + constant + word
  let t₂ := (rotr 2 st.a ^^^ rotr 13 st.a ^^^ rotr 22 st.a) +
    ((st.a &&& st.b) ^^^ (st.a &&& st.c) ^^^ (st.b &&& st.c))
  ⟨t₁ + t₂, st.a, st.b, st.c, st.d + t₁, st.e, st.f, st.g⟩

def compress (st : State) (block : List UInt32) : State :=
  let last := (constants.zip (extend 48 block.reverse).reverse).foldl
    (fun st p => round st p.1 p.2) st
  ⟨st.a + last.a, st.b + last.b, st.c + last.c, st.d + last.d, st.e + last.e, st.f + last.f,
    st.g + last.g, st.h + last.h⟩

def blocks : ℕ → State → List UInt32 → State
  | 0, st, _ => st
  | n + 1, st, ws => blocks n (compress st (ws.take 16)) (ws.drop 16)

end Sha256

open Sha256

def sha256 (message : List UInt8) : List UInt8 :=
  let st := blocks ((padded message).length / 64) initial (words (padded message))
  [st.a, st.b, st.c, st.d, st.e, st.f, st.g, st.h].flatMap fun word => bigEndian 4 word.toNat

theorem Sha256.length_bigEndian (width n : ℕ) : (bigEndian width n).length = width := by
  induction width with
  | zero => rfl
  | succ width ih => rw [bigEndian, List.length_cons, ih]

theorem length_sha256 (message : List UInt8) : (sha256 message).length = 32 := by
  simp [sha256, length_bigEndian]

-- the digest of "abc"
example : sha256 [97, 98, 99] =
    [0xba, 0x78, 0x16, 0xbf, 0x8f, 0x01, 0xcf, 0xea, 0x41, 0x41, 0x40, 0xde, 0x5d, 0xae, 0x22, 0x23,
      0xb0, 0x03, 0x61, 0xa3, 0x96, 0x17, 0x7a, 0x9c, 0xb4, 0x10, 0xff, 0x61, 0xf2, 0x00, 0x15,
      0xad] := by
  decide +kernel
