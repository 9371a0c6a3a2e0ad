import PacificDb.Sst.Value

/-!
# Strings of JSON texts

How the JSON library writes the bytes of a string between quotes, and how its lexer reads them.
Both refuse bytes that are not UTF-8. What is written is read back (`scanString_escape`).
-/

namespace PacificDb.JsonText

open Sst (Bytes)

/-- The ranges of the bytes behind a lead byte of UTF-8. -/
def followers (lead : UInt8) : Option (List (UInt8 × UInt8)) :=
  let any : UInt8 × UInt8 := (0x80, 0xbf)
  if lead ≤ 0x7f then some []
  else if lead < 0xc2 then none
  else if lead ≤ 0xdf then some [any]
  else if lead = 0xe0 then some [(0xa0, 0xbf), any]
  else if lead = 0xed then some [(0x80, 0x9f), any]
  else if lead ≤ 0xef then some [any, any]
  else if lead = 0xf0 then some [(0x90, 0xbf), any, any]
  else if lead ≤ 0xf3 then some [any, any, any]
  else if lead = 0xf4 then some [(0x80, 0x8f), any, any]
  else none

/-! ## Writing -/

/-- A digit of `%04x`. -/
def hexDigit (value : UInt8) : UInt8 := if value < 10 then 0x30 + value else 0x57 + value

/-- A code point below `0x80` in `dump_escaped`. -/
def escapeByte (byte : UInt8) : Bytes :=
  match byte with
  | 0x08 => [0x5c, 0x62]
  | 0x09 => [0x5c, 0x74]
  | 0x0a => [0x5c, 0x6e]
  | 0x0c => [0x5c, 0x66]
  | 0x0d => [0x5c, 0x72]
  | 0x22 => [0x5c, 0x22]
  | 0x5c => [0x5c, 0x5c]
  | _ =>
      if byte ≤ 0x1f then [0x5c, 0x75, 0x30, 0x30, hexDigit (byte / 16), hexDigit (byte % 16)]
      else [byte]

/-- `dump_escaped`, with the ranges of the bytes that the last code point still needs. It throws on
what is not UTF-8. -/
def escape : List (UInt8 × UInt8) → Bytes → Option Bytes
  | [], [] => some []
  | _ :: _, [] => none
  | [], byte :: rest =>
      match followers byte with
      | some [] => (escape [] rest).map (escapeByte byte ++ ·)
      | some ranges => (escape ranges rest).map (byte :: ·)
      | none => none
  | range :: ranges, byte :: rest =>
      if range.1 ≤ byte ∧ byte ≤ range.2 then (escape ranges rest).map (byte :: ·) else none

/-! ## Reading -/

/-- Where `scan_string` stands: inside a code point, or inside an escape. `high` is the first of two
surrogates. -/
inductive Scan where
  | follow (ranges : List (UInt8 × UInt8))
  | escape
  | hex (left value : Nat) (high : Option Nat)
  | wantBackslash (high : Nat)
  | wantU (high : Nat)
  deriving DecidableEq

inductive Scanned where
  | fail
  | close
  | next (out : Bytes) (state : Scan)
  deriving DecidableEq

/-- `get_codepoint`, one digit. -/
def hexValue? (byte : UInt8) : Option Nat :=
  if 0x30 ≤ byte ∧ byte ≤ 0x39 then some (byte.toNat - 0x30)
  else if 0x41 ≤ byte ∧ byte ≤ 0x46 then some (byte.toNat - 0x37)
  else if 0x61 ≤ byte ∧ byte ≤ 0x66 then some (byte.toNat - 0x57)
  else none

/-- A code point as bytes. -/
def encode (codepoint : Nat) : Bytes :=
  if codepoint < 0x80 then [.ofNat codepoint]
  else if codepoint ≤ 0x7ff then
    [.ofNat (0xc0 + codepoint / 64), .ofNat (0x80 + codepoint % 64)]
  else if codepoint ≤ 0xffff then
    [.ofNat (0xe0 + codepoint / 4096), .ofNat (0x80 + codepoint / 64 % 64),
      .ofNat (0x80 + codepoint % 64)]
  else
    [.ofNat (0xf0 + codepoint / 262144), .ofNat (0x80 + codepoint / 4096 % 64),
      .ofNat (0x80 + codepoint / 64 % 64), .ofNat (0x80 + codepoint % 64)]

/-- Four hexadecimal digits are read. -/
def codepointRead (value : Nat) : Option Nat → Scanned
  | none =>
      if 0xd800 ≤ value ∧ value ≤ 0xdbff then .next [] (.wantBackslash value)
      else if 0xdc00 ≤ value ∧ value ≤ 0xdfff then .fail
      else .next (encode value) (.follow [])
  | some high =>
      if 0xdc00 ≤ value ∧ value ≤ 0xdfff then
        .next (encode (high * 1024 + value - 0x35fdc00)) (.follow [])
      else .fail

/-- One byte of `scan_string`. -/
def scanByte : Scan → UInt8 → Scanned
  | .follow [], byte =>
      if byte = 0x22 then .close
      else if byte = 0x5c then .next [] .escape
      else if byte < 0x20 then .fail
      else
        match followers byte with
        | some ranges => .next [byte] (.follow ranges)
        | none => .fail
  | .follow (range :: ranges), byte =>
      if range.1 ≤ byte ∧ byte ≤ range.2 then .next [byte] (.follow ranges) else .fail
  | .escape, byte =>
      match byte with
      | 0x22 | 0x5c | 0x2f => .next [byte] (.follow [])
      | 0x62 => .next [0x08] (.follow [])
      | 0x66 => .next [0x0c] (.follow [])
      | 0x6e => .next [0x0a] (.follow [])
      | 0x72 => .next [0x0d] (.follow [])
      | 0x74 => .next [0x09] (.follow [])
      | 0x75 => .next [] (.hex 3 0 none)
      | _ => .fail
  | .hex left value high, byte =>
      match hexValue? byte, left with
      | none, _ => .fail
      | some digit, 0 => codepointRead (value * 16 + digit) high
      | some digit, left + 1 => .next [] (.hex left (value * 16 + digit) high)
  | .wantBackslash high, byte => if byte = 0x5c then .next [] (.wantU high) else .fail
  | .wantU high, byte => if byte = 0x75 then .next [] (.hex 3 0 (some high)) else .fail

/-- `scan_string` behind the opening quote: the string, and what follows the closing one. -/
def scanString : Scan → Bytes → Option (Bytes × Bytes)
  | _, [] => none
  | state, byte :: rest =>
      match scanByte state byte with
      | .fail => none
      | .close => some ([], rest)
      | .next out state => (scanString state rest).map fun read => (out ++ read.1, read.2)

/-- Several bytes, none of them the closing quote. -/
def scanBytes : Scan → Bytes → Option (Bytes × Scan)
  | state, [] => some ([], state)
  | state, byte :: rest =>
      match scanByte state byte with
      | .next out state => (scanBytes state rest).map fun read => (out ++ read.1, read.2)
      | _ => none

theorem scanString_append {state behind : Scan} {front out rest : Bytes}
    (scanned : scanBytes state front = some (out, behind)) :
    scanString state (front ++ rest) =
      (scanString behind rest).map fun read => (out ++ read.1, read.2) := by
  induction front generalizing state out with
  | nil =>
    cases scanned
    simp
  | cons byte front ih =>
    rw [scanBytes] at scanned
    rw [List.cons_append, scanString]
    split at scanned
    next here next taken =>
      obtain ⟨⟨more, last⟩, later, same⟩ := Option.map_eq_some_iff.mp scanned
      cases same
      rw [taken]
      dsimp only
      rw [ih later, Option.map_map]
      congr 1
      funext read
      simp
    · cases scanned

theorem scanBytes_escapeByte {byte : UInt8} (ascii : followers byte = some []) :
    scanBytes (.follow []) (escapeByte byte) = some ([byte], .follow []) := by
  have all : ∀ n : Fin 256, followers (UInt8.ofNat n) = some [] →
      scanBytes (.follow []) (escapeByte (UInt8.ofNat n)) = some ([UInt8.ofNat n], .follow []) := by
    decide +kernel
  have result := all ⟨byte.toNat, byte.toNat_lt⟩
  rw [UInt8.ofNat_toNat] at result
  exact result ascii

/-- A lead byte of several is none of the special ones. -/
theorem scanByte_lead {byte : UInt8} {ranges : List (UInt8 × UInt8)}
    (lead : followers byte = some ranges) (long : ranges ≠ []) :
    scanByte (.follow []) byte = .next [byte] (.follow ranges) := by
  have high : 0x7f < byte := by
    by_contra low
    rw [followers, if_pos (UInt8.not_lt.mp low)] at lead
    exact long (Option.some.inj lead).symm
  rw [UInt8.lt_iff_toNat_lt] at high
  have value : (0x7f : UInt8).toNat = 127 := rfl
  rw [value] at high
  have notQuote : byte ≠ 0x22 := by
    rintro rfl
    exact absurd high (by decide)
  have notBackslash : byte ≠ 0x5c := by
    rintro rfl
    exact absurd high (by decide)
  have notControl : ¬byte < 0x20 := by
    rw [UInt8.lt_iff_toNat_lt]
    have value : (0x20 : UInt8).toNat = 32 := rfl
    omega
  rw [scanByte, if_neg notQuote, if_neg notBackslash, if_neg notControl, lead]

/-- What is written between quotes is read back. -/
theorem scanString_escape {ranges : List (UInt8 × UInt8)} {string text : Bytes}
    (written : escape ranges string = some text) (rest : Bytes) :
    scanString (.follow ranges) (text ++ 0x22 :: rest) = some (string, rest) := by
  induction string generalizing ranges text with
  | nil =>
    cases ranges with
    | nil =>
      cases written
      rfl
    | cons range ranges => cases written
  | cons byte string ih =>
    cases ranges with
    | nil =>
      rw [escape] at written
      split at written
      next ascii =>
        obtain ⟨later, isLater, rfl⟩ := Option.map_eq_some_iff.mp written
        rw [List.append_assoc, scanString_append (scanBytes_escapeByte ascii), ih isLater]
        rfl
      next ranges long lead =>
        obtain ⟨later, isLater, rfl⟩ := Option.map_eq_some_iff.mp written
        rw [List.cons_append, scanString, scanByte_lead lead long]
        dsimp only
        rw [ih isLater]
        rfl
      · cases written
    | cons range ranges =>
      rw [escape] at written
      split at written
      next inRange =>
        obtain ⟨later, isLater, rfl⟩ := Option.map_eq_some_iff.mp written
        rw [List.cons_append, scanString, scanByte, if_pos inRange]
        dsimp only
        rw [ih isLater]
        rfl
      · cases written

end PacificDb.JsonText
