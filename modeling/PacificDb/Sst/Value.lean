import PacificDb.Lib.SortedMap
import PacificDb.Sst.RowBytes

/-!
# Values of the JSON library

The values of rows as the library has them: with 64-bit numbers, strings of any bytes,
binary values, and objects in the order of their keys. `to_msgpack` writes them and
`from_msgpack` reads them, tag by tag; both stand beside the engine in the source.

`Json` is the view of the rest of this development, which has no binary values. The
conversions between `float` and `double` are the ones of `JsonLibrary`.
-/

namespace PacificDb.Sst

open Lib
open Lsm hiding MsgpackRowView

inductive Value where
  | null
  | boolean (value : Bool)
  | integer (value : Int64)
  | unsigned (value : UInt64)
  | float (bits : UInt64)
  | string (text : Bytes)
  | binary (bytes : Bytes) (subtype : Option UInt64)
  | array (items : List Value)
  | object (members : List (Bytes × Value))

namespace Value

/-! ## Writing -/

/-- The control byte and the length of a binary value. -/
def binaryHeader (size : Nat) (ext : Bool) : Bytes :=
  if size < 2 ^ 8 then
    if ext then
      match size with
      | 1 => [0xd4]
      | 2 => [0xd5]
      | 4 => [0xd6]
      | 8 => [0xd7]
      | 16 => [0xd8]
      | _ => 0xc7 :: beBytes 1 size
    else 0xc4 :: beBytes 1 size
  else if size < 2 ^ 16 then (if ext then 0xc8 else 0xc5) :: beBytes 2 size
  else if size < 2 ^ 32 then (if ext then 0xc9 else 0xc6) :: beBytes 4 size
  else []

/-- The byte of a subtype, if it has one. -/
def subtypeByte : Option UInt64 → Bytes
  | some subtype => [subtype.toUInt8]
  | none => []

def writeText (text : Bytes) : Bytes := stringHeader text.length ++ text

mutual

/-- `write_msgpack`. -/
def toMsgpack (lib : JsonLibrary) : Value → Bytes
  | .null => [0xc0]
  | .boolean value => [if value then 0xc3 else 0xc2]
  | .integer value => writeInteger value.toInt
  | .unsigned value => writeUnsigned value.toNat
  | .float bits => writeCompactFloat lib bits.toNat
  | .string text => writeText text
  | .binary bytes subtype => binaryHeader bytes.length subtype.isSome ++ (subtypeByte subtype ++ bytes)
  | .array items => arrayHeader items.length ++ itemsToMsgpack lib items
  | .object members => objectHeader members.length ++ membersToMsgpack lib members

def itemsToMsgpack (lib : JsonLibrary) : List Value → Bytes
  | [] => []
  | item :: items => toMsgpack lib item ++ itemsToMsgpack lib items

def membersToMsgpack (lib : JsonLibrary) : List (Bytes × Value) → Bytes
  | [] => []
  | (name, value) :: members => writeText name ++ (toMsgpack lib value ++ membersToMsgpack lib members)

end

/-! ## Reading -/

/-- What `parse_msgpack_internal` does behind a tag. -/
inductive ParseRule where
  | positive
  | negative
  | null
  | boolean (value : Bool)
  | unsigned (width : Nat)
  | signed (width : Nat)
  | single
  | double
  | string
  | binary (width : Nat)
  | ext (width : Nat)
  | fixext (size : Nat)
  | array (count : Nat)
  | object (count : Nat)
  | sizedArray (width : Nat)
  | sizedObject (width : Nat)
  | invalid
  deriving DecidableEq

def parseRule (tag : UInt8) : ParseRule :=
  if tag ≤ 0x7f then .positive
  else if tag ≤ 0x8f then .object (tag &&& 0x0f).toNat
  else if tag ≤ 0x9f then .array (tag &&& 0x0f).toNat
  else if tag ≤ 0xbf then .string
  else if 0xe0 ≤ tag then .negative
  else
    match tag with
    | 0xc0 => .null
    | 0xc2 => .boolean false
    | 0xc3 => .boolean true
    | 0xc4 => .binary 1
    | 0xc5 => .binary 2
    | 0xc6 => .binary 4
    | 0xc7 => .ext 1
    | 0xc8 => .ext 2
    | 0xc9 => .ext 4
    | 0xca => .single
    | 0xcb => .double
    | 0xcc => .unsigned 1
    | 0xcd => .unsigned 2
    | 0xce => .unsigned 4
    | 0xcf => .unsigned 8
    | 0xd0 => .signed 1
    | 0xd1 => .signed 2
    | 0xd2 => .signed 4
    | 0xd3 => .signed 8
    | 0xd4 => .fixext 1
    | 0xd5 => .fixext 2
    | 0xd6 => .fixext 4
    | 0xd7 => .fixext 8
    | 0xd8 => .fixext 16
    | 0xd9 | 0xda | 0xdb => .string
    | 0xdc => .sizedArray 2
    | 0xdd => .sizedArray 4
    | 0xde => .sizedObject 2
    | 0xdf => .sizedObject 4
    | _ => .invalid

/-- `get_msgpack_string`, from its tag on. -/
def getMsgpackString : Bytes → Option (Bytes × Bytes)
  | [] => none
  | tag :: rest =>
      if 0xa0 ≤ tag ∧ tag ≤ 0xbf then readFixed (tag &&& 0x1f).toNat rest
      else
        match tag with
        | 0xd9 => (readBigWord 1 rest).bind fun read => readFixed read.1 read.2
        | 0xda => (readBigWord 2 rest).bind fun read => readFixed read.1 read.2
        | 0xdb => (readBigWord 4 rest).bind fun read => readFixed read.1 read.2
        | _ => none

/-- `get_binary` of so many bytes, behind the subtype. -/
def getExt (size : Nat) (bytes : Bytes) : Option (Value × Bytes) := do
  let (subtype, rest) ← readBigWord 1 bytes
  let (content, rest) ← readFixed size rest
  return (.binary content (some (UInt64.ofNat subtype)), rest)

/-- One after the other, so many times. -/
def readMany {α : Type} (read : Bytes → Option (α × Bytes)) : Nat → Bytes → Option (List α × Bytes)
  | 0, bytes => some ([], bytes)
  | count + 1, bytes => do
      let (item, rest) ← read bytes
      let (items, rest) ← readMany read count rest
      return (item :: items, rest)

/-- The object that the members make: a later one replaces an earlier one of its name. -/
def ofMembers (members : List (Bytes × Value)) : Value :=
  .object (members.foldl (fun entries member => SortedMap.put entries member.1 member.2) [])

/-- A number of so many bytes in two's complement. -/
def signedWord (width bits : Nat) : Int64 := Int64.ofInt (signed width bits)

/-- `parse_msgpack_internal`, with the levels that are left. -/
def parseValue (lib : JsonLibrary) : Nat → Bytes → Option (Value × Bytes)
  | 0, _ => none
  | _ + 1, [] => none
  | levels + 1, tag :: rest =>
      let parseArray (count : Nat) (bytes : Bytes) : Option (Value × Bytes) := do
        let (items, rest) ← readMany (parseValue lib levels) count bytes
        return (.array items, rest)
      let parseMember (bytes : Bytes) : Option ((Bytes × Value) × Bytes) := do
        let (name, rest) ← getMsgpackString bytes
        let (value, rest) ← parseValue lib levels rest
        return ((name, value), rest)
      let parseObject (count : Nat) (bytes : Bytes) : Option (Value × Bytes) := do
        let (members, rest) ← readMany parseMember count bytes
        return (ofMembers members, rest)
      match parseRule tag with
      | .positive => some (.unsigned tag.toUInt64, rest)
      | .negative => some (.integer (signedWord 1 tag.toNat), rest)
      | .null => some (.null, rest)
      | .boolean value => some (.boolean value, rest)
      | .unsigned width => (readBigWord width rest).map fun read =>
          (.unsigned (UInt64.ofNat read.1), read.2)
      | .signed width => (readBigWord width rest).map fun read =>
          (.integer (signedWord width read.1), read.2)
      | .single => (readBigWord 4 rest).map fun read =>
          (.float (UInt64.ofNat (lib.widen read.1)), read.2)
      | .double => (readBigWord 8 rest).map fun read => (.float (UInt64.ofNat read.1), read.2)
      | .string => (getMsgpackString (tag :: rest)).map fun read => (.string read.1, read.2)
      | .binary width => do
          let (size, rest) ← readBigWord width rest
          let (content, rest) ← readFixed size rest
          return (.binary content none, rest)
      | .ext width => (readBigWord width rest).bind fun read => getExt read.1 read.2
      | .fixext size => getExt size rest
      | .array count => parseArray count rest
      | .object count => parseObject count rest
      | .sizedArray width => (readBigWord width rest).bind fun read => parseArray read.1 read.2
      | .sizedObject width => (readBigWord width rest).bind fun read => parseObject read.1 read.2
      | .invalid => none

/-- `from_msgpack` in its strict form; none is an exception. There are no more levels
than bytes. -/
def fromMsgpack (lib : JsonLibrary) (bytes : Bytes) : Option Value :=
  match parseValue lib (bytes.length + 1) bytes with
  | some (value, []) => some value
  | _ => none

end Value

end PacificDb.Sst
