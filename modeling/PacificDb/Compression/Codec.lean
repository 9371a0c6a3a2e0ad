import PacificDb.Lib.Bytes
import PacificDb.Lib.Lz77
import Mathlib.Logic.Function.Basic

/-!
# The block compressor

The engine has a compressor of its own in the manner of LZ4: a table of the last place of
every hash finds matches, and a block is a sequence of tokens, each with a run of literals
and a match. The lengths of both go on in extra bytes from fifteen on.

This module has the encoder and the decoder. The decoder's reads are checked, so that a read
outside its input would show.
-/

namespace PacificDb.Compression

open Lib

abbrev Bytes := List UInt8

inductive CompressionType where
  | none
  | lz4
  | snappy
  | zstd
  deriving DecidableEq

structure CompressionResult where
  data : Bytes
  type : CompressionType
  originalSize : Nat
  compressedSize : Nat
  deriving DecidableEq

/-! ## The encoder -/

/-- The hash of the four bytes at a place, for a table of 4096 places. -/
def hashAt (src : Bytes) (pos : Nat) : Nat :=
  readLe ((src.drop pos).take 4) * 2654435761 % 2 ^ 32 / 2 ^ 20 % 4096

/-- The place that the table has for the four bytes at `pos`, when it is one of the same
bytes and not too far back. -/
def findMatch (src : Bytes) (hashTable : Nat → UInt16) (pos : Nat) : Option Nat :=
  let matchPos := (hashTable (hashAt src pos)).toNat
  if matchPos < pos ∧ pos - matchPos < 65535 ∧ pos + 4 ≤ src.length ∧ matchPos + 4 ≤ src.length ∧
      (src.drop pos).take 4 = (src.drop matchPos).take 4 then some matchPos
  else none

/-- The length of a match, from four on, with the passes that are left to its limit. -/
def extendMatch (src : Bytes) (pos matchPos : Nat) : Nat → Nat → Nat
  | 0, matchLen => matchLen
  | passes + 1, matchLen =>
      if pos + matchLen < src.length ∧ src[pos + matchLen]? = src[matchPos + matchLen]? then
        extendMatch src pos matchPos passes (matchLen + 1)
      else matchLen

/-- The longest match: `255 + 15` bytes. -/
def matchLength (src : Bytes) (pos matchPos : Nat) : Nat :=
  extendMatch src pos matchPos (255 + 15 - 4) 4

/-- The bytes of a length that does not fit into its half of the token. -/
def pushLength (remaining : Nat) : Bytes :=
  if 255 ≤ remaining then 255 :: pushLength (remaining - 255) else [UInt8.ofNat remaining]
termination_by remaining
decreasing_by omega

def extension (length : Nat) : Bytes :=
  if 15 ≤ length then pushLength (length - 15) else []

/-- A token, from the length of the literals and what the match has above four bytes. -/
def tokenOf (literalLen matchExtra : Nat) : UInt8 :=
  UInt8.ofNat ((min literalLen 15 <<< 4) ||| min matchExtra 15)

/-- The token of a match, with the literals before it. -/
def encodeMatch (src : Bytes) (literalStart pos matchPos matchLen : Nat) : Bytes :=
  let literalLen := pos - literalStart
  tokenOf literalLen (matchLen - 4) :: (extension literalLen ++
    (src.drop literalStart).take literalLen ++ leBytes 2 (pos - matchPos) ++ extension (matchLen - 4))

/-- The token of the literals at the end. -/
def encodeLast (src : Bytes) (literalStart : Nat) : Bytes :=
  let literalLen := src.length - literalStart
  if 0 < literalLen then tokenOf literalLen 0 :: (extension literalLen ++ src.drop literalStart) else []

/-- What the encoder puts out from `pos` on, with the literals from `literalStart` still to be
put out and the passes of the loop that are left. -/
def encodeFrom (src : Bytes) : Nat → Nat → Nat → (Nat → UInt16) → Bytes
  | 0, _, literalStart, _ => encodeLast src literalStart
  | passes + 1, pos, literalStart, hashTable =>
      if pos + 4 ≤ src.length then
        let updated := Function.update hashTable (hashAt src pos) (UInt16.ofNat pos)
        match findMatch src hashTable pos with
        | some matchPos =>
            let matchLen := matchLength src pos matchPos
            encodeMatch src literalStart pos matchPos matchLen ++
              encodeFrom src passes (pos + matchLen) (pos + matchLen) updated
        | none => encodeFrom src passes (pos + 1) literalStart updated
      else encodeLast src literalStart

/-- `lz4Compress`: a pass moves on by at least one byte. -/
def lz4Compress (src : Bytes) : Bytes := encodeFrom src src.length 0 0 fun _ => 0

/-! ## The decoder -/

/-- The bytes of a length from `srcPos` on: the length, and the place behind them. None is a
read outside the input. -/
def readLength (src : Bytes) : Nat → Nat → Nat → Option (Nat × Nat)
  | 0, _, _ => none
  | passes + 1, srcPos, length =>
      if srcPos < src.length then
        match src[srcPos]? with
        | some b =>
            if b < 255 then some (length + b.toNat, srcPos + 1)
            else readLength src passes (srcPos + 1) (length + b.toNat)
        | none => none
      else some (length, srcPos)

/-- A length that a token begins with `start`. -/
def extended (src : Bytes) (full : Bool) (start srcPos : Nat) : Option (Nat × Nat) :=
  if full then readLength src (src.length + 1 - srcPos) srcPos start else some (start, srcPos)

/-- `memcpy` from the input. None is a read outside it. -/
def readBytes (src : Bytes) (srcPos count : Nat) : Option Bytes :=
  if srcPos + count ≤ src.length then some ((src.drop srcPos).take count) else none

/-- The state behind a token: the loop ends with what it has, or goes on. -/
inductive Decoded where
  | stopped (output : Bytes)
  | next (srcPos : Nat) (output : Bytes)
  deriving DecidableEq

/-- The match of a token: its offset, its length and the copy. An offset that goes behind the
beginning is passed over. -/
def decodeMatch (src : Bytes) (originalLength : Nat) (token : UInt8) (srcPos : Nat) (output : Bytes) :
    Option Decoded := do
  let low ← src[srcPos]?
  let high ← src[srcPos + 1]?
  let offset := low.toNat + 256 * high.toNat
  let length ← extended src (token &&& 15 == 15) ((token &&& 15).toNat + 4) (srcPos + 2)
  if 0 < offset ∧ offset ≤ output.length then
    let copied ← copyFrom originalLength length.1 (output.length - offset) output
    some (.next length.2 copied)
  else some (.next length.2 output)

/-- A pass of the loop, with the output up to `dstPos`. A run of literals that does not fit,
and one without literals, ends the loop: what is copied then is cut off at `dstPos`. -/
def decodeToken (src : Bytes) (originalLength srcPos : Nat) (output : Bytes) : Option Decoded := do
  let token ← src[srcPos]?
  let length ← extended src ((token >>> 4) &&& 15 == 15) ((token >>> 4) &&& 15).toNat (srcPos + 1)
  if 0 < length.1 ∧ length.2 + length.1 ≤ src.length ∧ output.length + length.1 ≤ originalLength then
    let literals ← readBytes src length.2 length.1
    if src.length < length.2 + length.1 + 2 then some (.stopped (output ++ literals))
    else decodeMatch src originalLength token (length.2 + length.1) (output ++ literals)
  else
    let toCopy := min length.1 (min (src.length - length.2) (originalLength - output.length))
    let _ ← readBytes src length.2 toCopy
    some (.stopped output)

/-- The loop, with the passes that are left. -/
def decodeLoop (src : Bytes) (originalLength : Nat) : Nat → Nat → Bytes → Option Bytes
  | 0, _, _ => none
  | passes + 1, srcPos, output =>
      if srcPos < src.length ∧ output.length < originalLength then
        match decodeToken src originalLength srcPos output with
        | some (.next after longer) => decodeLoop src originalLength passes after longer
        | some (.stopped result) => some result
        | none => none
      else some output

/-- `lz4Decompress`. None is a read outside the input, or a loop that does not end. -/
def lz4Decompress (src : Bytes) (originalLength : Nat) : Option Bytes :=
  decodeLoop src originalLength (src.length + 1) 0 []

/-! ## The engine -/

/-- The bytes as they are. -/
def uncompressed (data : Bytes) : CompressionResult where
  data := data
  type := .none
  originalSize := data.length
  compressedSize := data.length

def compress (minCompressSize : Nat) (data : Bytes) (type : CompressionType) : CompressionResult :=
  if type = .none ∨ data.length < minCompressSize then uncompressed data
  else if data.length ≤ (lz4Compress data).length then uncompressed data
  else {
    data := lz4Compress data
    type := type
    originalSize := data.length
    compressedSize := (lz4Compress data).length }

def decompress (data : Bytes) (originalLength : Nat) (type : CompressionType) : Option Bytes :=
  if type = .none then some data else lz4Decompress data originalLength

end PacificDb.Compression
