import Mathlib.Algebra.Order.Ring.Int
import Mathlib.Init

/-!
# SHA-256

The hash of FIPS 180-4 over bytes as numbers, written so that the kernel can
evaluate it.
-/

namespace PacificDb.Lib.Sha256

def roundConstants : List Nat :=
  [0x428a2f98, 0x71374491, 0xb5c0fbcf, 0xe9b5dba5, 0x3956c25b, 0x59f111f1, 0x923f82a4, 0xab1c5ed5,
   0xd807aa98, 0x12835b01, 0x243185be, 0x550c7dc3, 0x72be5d74, 0x80deb1fe, 0x9bdc06a7, 0xc19bf174,
   0xe49b69c1, 0xefbe4786, 0x0fc19dc6, 0x240ca1cc, 0x2de92c6f, 0x4a7484aa, 0x5cb0a9dc, 0x76f988da,
   0x983e5152, 0xa831c66d, 0xb00327c8, 0xbf597fc7, 0xc6e00bf3, 0xd5a79147, 0x06ca6351, 0x14292967,
   0x27b70a85, 0x2e1b2138, 0x4d2c6dfc, 0x53380d13, 0x650a7354, 0x766a0abb, 0x81c2c92e, 0x92722c85,
   0xa2bfe8a1, 0xa81a664b, 0xc24b8b70, 0xc76c51a3, 0xd192e819, 0xd6990624, 0xf40e3585, 0x106aa070,
   0x19a4c116, 0x1e376c08, 0x2748774c, 0x34b0bcb5, 0x391c0cb3, 0x4ed8aa4a, 0x5b9cca4f, 0x682e6ff3,
   0x748f82ee, 0x78a5636f, 0x84c87814, 0x8cc70208, 0x90befffa, 0xa4506ceb, 0xbef9a3f7, 0xc67178f2]

/-- The eight working words. -/
structure Words where
  a : Nat
  b : Nat
  c : Nat
  d : Nat
  e : Nat
  f : Nat
  g : Nat
  h : Nat

def initialWords : Words :=
  ⟨0x6a09e667, 0xbb67ae85, 0x3c6ef372, 0xa54ff53a, 0x510e527f, 0x9b05688c, 0x1f83d9ab, 0x5be0cd19⟩

def add (x y : Nat) : Nat := (x + y) % 2 ^ 32

def rotr (n x : Nat) : Nat := (x >>> n) ||| ((x <<< (32 - n)) % 2 ^ 32)

def bigSigma0 (x : Nat) : Nat := rotr 2 x ^^^ rotr 13 x ^^^ rotr 22 x

def bigSigma1 (x : Nat) : Nat := rotr 6 x ^^^ rotr 11 x ^^^ rotr 25 x

def smallSigma0 (x : Nat) : Nat := rotr 7 x ^^^ rotr 18 x ^^^ (x >>> 3)

def smallSigma1 (x : Nat) : Nat := rotr 17 x ^^^ rotr 19 x ^^^ (x >>> 10)

def choose (x y z : Nat) : Nat := (x &&& y) ^^^ ((2 ^ 32 - 1 - x) &&& z)

def majority (x y z : Nat) : Nat := (x &&& y) ^^^ (x &&& z) ^^^ (y &&& z)

/-- The next word of the schedule from the sixteen before it, oldest first. -/
def nextWord (window : List Nat) : Nat :=
  add (add (smallSigma1 (window.getD 14 0)) (window.getD 9 0))
    (add (smallSigma0 (window.getD 1 0)) (window.getD 0 0))

def round (words : Words) (constant word : Nat) : Words :=
  let t1 := add (add words.h (bigSigma1 words.e))
    (add (choose words.e words.f words.g) (add constant word))
  let t2 := add (bigSigma0 words.a) (majority words.a words.b words.c)
  ⟨add t1 t2, words.a, words.b, words.c, add words.d t1, words.e, words.f, words.g⟩

/-- The rounds of a block; the window slides over the schedule. -/
def rounds : List Nat → List Nat → Words → Words
  | [], _, words => words
  | constant :: constants, window, words =>
      rounds constants (window.tail ++ [nextWord window]) (round words constant (window.headD 0))

def compress (words : Words) (block : List Nat) : Words :=
  let last := rounds roundConstants block words
  ⟨add words.a last.a, add words.b last.b, add words.c last.c, add words.d last.d,
   add words.e last.e, add words.f last.f, add words.g last.g, add words.h last.h⟩

/-- Big-endian bytes of a fixed width. -/
def beBytes : Nat → Nat → List Nat
  | 0, _ => []
  | width + 1, value => (value / 256 ^ width) % 256 :: beBytes width value

/-- Big-endian words of four bytes. -/
def beWords : List Nat → List Nat
  | b0 :: b1 :: b2 :: b3 :: rest => (((b0 * 256 + b1) * 256 + b2) * 256 + b3) :: beWords rest
  | _ => []

def pad (message : List Nat) : List Nat :=
  message ++ 0x80 :: List.replicate ((119 - message.length % 64) % 64) 0 ++
    beBytes 8 (8 * message.length)

/-- Fold the blocks of sixteen words; `blocks` counts them. -/
def absorb : Nat → List Nat → Words → Words
  | 0, _, words => words
  | blocks + 1, schedule, words => absorb blocks (schedule.drop 16) (compress words (schedule.take 16))

def hash (message : List Nat) : List Nat :=
  let schedule := beWords (pad message)
  let words := absorb (schedule.length / 16) schedule initialWords
  [words.a, words.b, words.c, words.d, words.e, words.f, words.g, words.h].flatMap (beBytes 4)

end PacificDb.Lib.Sha256
