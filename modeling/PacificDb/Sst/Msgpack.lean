import PacificDb.Lib.Reader
import PacificDb.Lsm.RowView
import Mathlib.Tactic.IntervalCases

/-!
# Rows as MessagePack

`json::to_msgpack` writes the rows of an SST, and the engine reads them back in two
ways: `from_msgpack` decodes a row, and `MsgpackRowView` walks over its bytes. The
walk skips values with `skipMsgpack`, which gives up below 64 levels.

A view finds in the bytes of a row what `Lsm.MsgpackRowView` finds in the row
(`field_writeMsgpack`). Decoding, the text of `dump` and the conversions between
`float` and `double` are the library's and parameters here.
-/

namespace PacificDb.Sst

open Lib Lsm

abbrev Bytes := List UInt8

/-- What the SST code takes from the JSON library and the compiler. `narrow` has the
bits of the `float` that `write_compact_float` writes for a `double`, if it does. -/
structure JsonLibrary where
  fromMsgpack : Bytes → Option Json
  dump : Json → String
  narrow : Nat → Option Nat
  widen : Nat → Nat

variable {lib : JsonLibrary}

def utf8 (text : String) : Bytes := text.toUTF8.data.toList

theorem utf8_inj {text other : String} : utf8 text = utf8 other ↔ text = other := by
  unfold utf8
  rw [Array.toList_inj, ← ByteArray.ext_iff]
  exact String.toByteArray_inj

theorem fromUTF8_utf8 (text : String) : String.fromUTF8? ⟨(utf8 text).toArray⟩ = some text := by
  have whole : (⟨(utf8 text).toArray⟩ : ByteArray) = text.toByteArray := by
    unfold utf8
    rw [Array.toArray_toList]
    rfl
  rw [whole, String.fromUTF8?, dif_pos text.isValidUTF8]
  rfl

/-- The characters of a text take a byte each, or more. -/
theorem length_le_utf8ByteSize (text : List Char) :
    text.length ≤ (String.ofList text).utf8ByteSize := by
  induction text with
  | nil => exact Nat.zero_le _
  | cons c rest ih =>
    have size := c.utf8Size_pos
    rw [String.ofList_cons, String.utf8ByteSize_append, String.utf8ByteSize_singleton,
      List.length_cons]
    omega

theorem utf8ByteSize_le (text : List Char) :
    (String.ofList text).utf8ByteSize ≤ 4 * text.length := by
  induction text with
  | nil => exact le_rfl
  | cons c rest ih =>
    have size := c.utf8Size_le_four
    rw [String.ofList_cons, String.utf8ByteSize_append, String.utf8ByteSize_singleton,
      List.length_cons]
    omega

/-! ## Writing -/

/-- The control byte and the length of a string. -/
def stringHeader (size : Nat) : Bytes :=
  if size ≤ 31 then [UInt8.ofNat (0xa0 ||| size)]
  else if size < 2 ^ 8 then 0xd9 :: beBytes 1 size
  else if size < 2 ^ 16 then 0xda :: beBytes 2 size
  else if size < 2 ^ 32 then 0xdb :: beBytes 4 size
  else []

/-- The control byte and the length of an array or an object. -/
def containerHeader (short : Nat) (tag16 tag32 : UInt8) (size : Nat) : Bytes :=
  if size ≤ 15 then [UInt8.ofNat (short ||| size)]
  else if size < 2 ^ 16 then tag16 :: beBytes 2 size
  else if size < 2 ^ 32 then tag32 :: beBytes 4 size
  else []

def arrayHeader : Nat → Bytes := containerHeader 0x90 0xdc 0xdd

def objectHeader : Nat → Bytes := containerHeader 0x80 0xde 0xdf

def writeUnsigned (value : Nat) : Bytes :=
  if value < 128 then [UInt8.ofNat value]
  else if value < 2 ^ 8 then 0xcc :: beBytes 1 value
  else if value < 2 ^ 16 then 0xcd :: beBytes 2 value
  else if value < 2 ^ 32 then 0xce :: beBytes 4 value
  else 0xcf :: beBytes 8 value

/-- A negative number, in two's complement. -/
def writeNegative (value : Int) : Bytes :=
  if -32 ≤ value then beBytes 1 (value % 2 ^ 8).toNat
  else if -2 ^ 7 ≤ value then 0xd0 :: beBytes 1 (value % 2 ^ 8).toNat
  else if -2 ^ 15 ≤ value then 0xd1 :: beBytes 2 (value % 2 ^ 16).toNat
  else if -2 ^ 31 ≤ value then 0xd2 :: beBytes 4 (value % 2 ^ 32).toNat
  else 0xd3 :: beBytes 8 (value % 2 ^ 64).toNat

def writeInteger (value : Int) : Bytes :=
  if 0 ≤ value then writeUnsigned value.toNat else writeNegative value

/-- `write_compact_float`. -/
def writeCompactFloat (lib : JsonLibrary) (bits : Nat) : Bytes :=
  match lib.narrow bits with
  | some single => 0xca :: beBytes 4 single
  | none => 0xcb :: beBytes 8 bits

def writeString (text : String) : Bytes := stringHeader (utf8 text).length ++ utf8 text

mutual

/-- `write_msgpack`. Objects are written in the order of their keys. -/
def writeMsgpack (lib : JsonLibrary) : Json → Bytes
  | .null => [0xc0]
  | .bool value => [if value then 0xc3 else 0xc2]
  | .integer value => writeInteger (Json.wrapInt64 value)
  | .unsigned value => writeUnsigned (Json.wrapUInt64 value)
  | .float bits => writeCompactFloat lib bits
  | .string text => writeString text
  | .array items => arrayHeader items.length ++ writeItems lib items
  | .object members => objectHeader members.length ++
      ((writeMembers lib members).insertionSort fun member next => member.1 ≤ next.1).flatMap
        fun member => writeString member.1 ++ member.2

def writeItems (lib : JsonLibrary) : List Json → Bytes
  | [] => []
  | item :: items => writeMsgpack lib item ++ writeItems lib items

def writeMembers (lib : JsonLibrary) : List (String × Json) → List (String × Bytes)
  | [] => []
  | (name, value) :: members => (name, writeMsgpack lib value) :: writeMembers lib members

end

/-! ## Skipping -/

/-- What `skipMsgpack` does behind a tag. -/
inductive SkipRule where
  | done
  | bytes (count : Nat)
  | values (count : Nat)
  | pairs (count : Nat)
  | sized (width extra : Nat)
  | sizedValues (width : Nat)
  | sizedPairs (width : Nat)
  | invalid
  deriving DecidableEq

def skipRule (tag : UInt8) : SkipRule :=
  if tag ≤ 0x7f || tag ≥ 0xe0 || tag == 0xc0 || tag == 0xc2 || tag == 0xc3 then .done
  else if tag &&& 0xe0 == 0xa0 then .bytes (tag &&& 0x1f).toNat
  else if tag &&& 0xf0 == 0x90 then .values (tag &&& 0x0f).toNat
  else if tag &&& 0xf0 == 0x80 then .pairs (tag &&& 0x0f).toNat
  else
    match tag with
    | 0xc4 | 0xd9 => .sized 1 0
    | 0xc5 | 0xda => .sized 2 0
    | 0xc6 | 0xdb => .sized 4 0
    | 0xc7 => .sized 1 1
    | 0xc8 => .sized 2 1
    | 0xc9 => .sized 4 1
    | 0xca | 0xce | 0xd2 => .bytes 4
    | 0xcb | 0xcf | 0xd3 => .bytes 8
    | 0xcc | 0xd0 => .bytes 1
    | 0xcd | 0xd1 => .bytes 2
    | 0xd4 => .bytes 2
    | 0xd5 => .bytes 3
    | 0xd6 => .bytes 5
    | 0xd7 => .bytes 9
    | 0xd8 => .bytes 17
    | 0xdc => .sizedValues 2
    | 0xdd => .sizedValues 4
    | 0xde => .sizedPairs 2
    | 0xdf => .sizedPairs 4
    | _ => .invalid

def skipBytes (count : Nat) (bytes : Bytes) : Option Bytes := (readFixed count bytes).map Prod.snd

/-- `skipMsgpack`, with the levels that are left. -/
def skipMsgpack : Nat → Bytes → Option Bytes
  | 0, _ => none
  | _ + 1, [] => none
  | levels + 1, tag :: rest =>
      match skipRule tag with
      | .done => some rest
      | .bytes count => skipBytes count rest
      | .values count => passMany (skipMsgpack levels) count rest
      | .pairs count => passMany (fun bytes => (skipMsgpack levels bytes).bind (skipMsgpack levels)) count rest
      | .sized width extra => (readBigWord width rest).bind fun read => skipBytes (read.1 + extra) read.2
      | .sizedValues width => (readBigWord width rest).bind fun read =>
          passMany (skipMsgpack levels) read.1 read.2
      | .sizedPairs width => (readBigWord width rest).bind fun read =>
          passMany (fun bytes => (skipMsgpack levels bytes).bind (skipMsgpack levels)) read.1 read.2
      | .invalid => none

/-- The levels from depth 0 to depth 64. -/
def kLevels : Nat := kMaxDepth + 1

def readMsgpackString : Bytes → Option (Bytes × Bytes)
  | [] => none
  | tag :: rest =>
      if tag &&& 0xe0 == 0xa0 then readFixed (tag &&& 0x1f).toNat rest
      else if tag == 0xd9 then (readBigWord 1 rest).bind fun read => readFixed read.1 read.2
      else if tag == 0xda then (readBigWord 2 rest).bind fun read => readFixed read.1 read.2
      else if tag == 0xdb then (readBigWord 4 rest).bind fun read => readFixed read.1 read.2
      else none

/-! ## What is written is skipped -/

/-- A string header with a length of its own, and what follows it. -/
theorem stringHeader_cases {size : Nat} (short : size < 2 ^ 32) :
    (size ≤ 31 ∧ stringHeader size = [UInt8.ofNat (0xa0 ||| size)]) ∨
      ∃ tag width, size < 256 ^ width ∧ stringHeader size = tag :: beBytes width size ∧
        ((tag = 0xd9 ∧ width = 1) ∨ (tag = 0xda ∧ width = 2) ∨ (tag = 0xdb ∧ width = 4)) := by
  unfold stringHeader
  split
  next fix => exact .inl ⟨fix, rfl⟩
  next =>
    split
    next byte => exact .inr ⟨0xd9, 1, byte, rfl, .inl ⟨rfl, rfl⟩⟩
    next =>
      split
      next word => exact .inr ⟨0xda, 2, word, rfl, .inr (.inl ⟨rfl, rfl⟩)⟩
      next => exact .inr ⟨0xdb, 4, short, rfl, .inr (.inr ⟨rfl, rfl⟩)⟩

/-- A string behind its header is read whole. -/
theorem readMsgpackString_text {text : Bytes} (short : text.length < 2 ^ 32) (rest : Bytes) :
    readMsgpackString (stringHeader text.length ++ (text ++ rest)) = some (text, rest) := by
  rcases stringHeader_cases short with ⟨fix, header⟩ | ⟨tag, width, fits, header, tags⟩
  · have tags : ∀ size ≤ 31, (UInt8.ofNat (0xa0 ||| size) &&& 0xe0 == 0xa0) = true ∧
        (UInt8.ofNat (0xa0 ||| size) &&& 0x1f).toNat = size := by decide
    rw [header, List.singleton_append, readMsgpackString, if_pos (tags _ fix).1, (tags _ fix).2,
      readFixed_append]
  · have sized : ((readBigWord width (beBytes width text.length ++ (text ++ rest))).bind
        fun read => readFixed read.1 read.2) = some (text, rest) := by
      rw [readBigWord_beBytes_of_lt _ fits]
      exact readFixed_append _ _
    rw [header, List.cons_append]
    rcases tags with ⟨rfl, rfl⟩ | ⟨rfl, rfl⟩ | ⟨rfl, rfl⟩ <;> exact sized

theorem readMsgpackString_writeString {text : String} (short : (utf8 text).length < 2 ^ 32)
    (rest : Bytes) : readMsgpackString (writeString text ++ rest) = some (utf8 text, rest) := by
  rw [writeString, List.append_assoc]
  exact readMsgpackString_text short rest

section Skip

variable {tag : UInt8} {levels : Nat}

theorem skip_done (rule : skipRule tag = .done) (rest : Bytes) :
    skipMsgpack (levels + 1) (tag :: rest) = some rest := by
  rw [skipMsgpack, rule]

theorem skip_bytes {count : Nat} {first : Bytes} (rule : skipRule tag = .bytes count)
    (size : first.length = count) (rest : Bytes) :
    skipMsgpack (levels + 1) (tag :: (first ++ rest)) = some rest := by
  rw [skipMsgpack, rule]
  dsimp only
  rw [skipBytes, readFixed_append' rest size]
  rfl

theorem skip_sized {width : Nat} {first : Bytes} (rule : skipRule tag = .sized width 0)
    (fits : first.length < 256 ^ width) (rest : Bytes) :
    skipMsgpack (levels + 1) (tag :: (beBytes width first.length ++ (first ++ rest))) = some rest := by
  rw [skipMsgpack, rule]
  dsimp only
  rw [readBigWord_beBytes_of_lt _ fits, Option.bind_some, Nat.add_zero, skipBytes, readFixed_append]
  rfl

theorem skip_text {text : Bytes} (short : text.length < 2 ^ 32) (rest : Bytes) :
    skipMsgpack (levels + 1) (stringHeader text.length ++ (text ++ rest)) = some rest := by
  rcases stringHeader_cases short with ⟨fix, header⟩ | ⟨tag, width, fits, header, tags⟩
  · have tags : ∀ size ≤ 31, skipRule (UInt8.ofNat (0xa0 ||| size)) = .bytes size := by decide
    rw [header, List.singleton_append]
    exact skip_bytes (tags _ fix) rfl rest
  · rw [header, List.cons_append]
    rcases tags with ⟨rfl, rfl⟩ | ⟨rfl, rfl⟩ | ⟨rfl, rfl⟩ <;> exact skip_sized rfl fits rest

theorem skip_string {text : String} (short : (utf8 text).length < 2 ^ 32) (rest : Bytes) :
    skipMsgpack (levels + 1) (writeString text ++ rest) = some rest := by
  rw [writeString, List.append_assoc]
  exact skip_text short rest

theorem skip_unsigned (value : Nat) (rest : Bytes) :
    skipMsgpack (levels + 1) (writeUnsigned value ++ rest) = some rest := by
  unfold writeUnsigned
  split
  next fix =>
    have tags : ∀ value < 128, skipRule (UInt8.ofNat value) = .done := by decide
    exact skip_done (tags _ fix) rest
  next => split_ifs <;> exact skip_bytes rfl (length_beBytes _ _) rest

theorem skip_negative {value : Int} (negative : value < 0) (rest : Bytes) :
    skipMsgpack (levels + 1) (writeNegative value ++ rest) = some rest := by
  unfold writeNegative
  split
  next fix =>
    have tags : ∀ value < 256, 224 ≤ value → skipRule (UInt8.ofNat value) = .done := by
      decide +kernel
    exact skip_done (tags _ (by omega) (by omega)) rest
  next => split_ifs <;> exact skip_bytes rfl (length_beBytes _ _) rest

theorem skip_float (bits : Nat) (rest : Bytes) :
    skipMsgpack (levels + 1) (writeCompactFloat lib bits ++ rest) = some rest := by
  unfold writeCompactFloat
  split <;> exact skip_bytes rfl (length_beBytes _ _) rest

/-- The values behind the header of an array, and the pairs behind that of an object. -/
theorem skip_array {count : Nat} (short : count < 2 ^ 32) (rest : Bytes) :
    skipMsgpack (levels + 1) (arrayHeader count ++ rest) = passMany (skipMsgpack levels) count rest := by
  unfold arrayHeader containerHeader
  split
  next fix =>
    have tags : ∀ size ≤ 15, skipRule (UInt8.ofNat (0x90 ||| size)) = .values size := by decide
    rw [List.singleton_append, skipMsgpack, tags _ fix]
  next =>
    have sized : ∀ {tag width}, skipRule tag = .sizedValues width → count < 256 ^ width →
        skipMsgpack (levels + 1) (tag :: beBytes width count ++ rest) =
          passMany (skipMsgpack levels) count rest := by
      intro tag width rule fits
      rw [List.cons_append, skipMsgpack, rule]
      dsimp only
      rw [readBigWord_beBytes_of_lt _ fits]
      rfl
    split
    next word => exact sized rfl word
    next => exact sized rfl short

theorem skip_object {count : Nat} (short : count < 2 ^ 32) (rest : Bytes) :
    skipMsgpack (levels + 1) (objectHeader count ++ rest) =
      passMany (fun bytes => (skipMsgpack levels bytes).bind (skipMsgpack levels)) count rest := by
  unfold objectHeader containerHeader
  split
  next fix =>
    have tags : ∀ size ≤ 15, skipRule (UInt8.ofNat (0x80 ||| size)) = .pairs size := by decide
    rw [List.singleton_append, skipMsgpack, tags _ fix]
  next =>
    have sized : ∀ {tag width}, skipRule tag = .sizedPairs width → count < 256 ^ width →
        skipMsgpack (levels + 1) (tag :: beBytes width count ++ rest) =
          passMany (fun bytes => (skipMsgpack levels bytes).bind (skipMsgpack levels)) count rest := by
      intro tag width rule fits
      rw [List.cons_append, skipMsgpack, rule]
      dsimp only
      rw [readBigWord_beBytes_of_lt _ fits]
      rfl
    split
    next word => exact sized rfl word
    next => exact sized rfl short

end Skip

/-! ## Containers -/

theorem writeItems_eq (items : List Json) : writeItems lib items = items.flatMap (writeMsgpack lib) := by
  induction items with
  | nil => rfl
  | cons item items ih => rw [writeItems, List.flatMap_cons, ih]

theorem writeMembers_eq (members : List (String × Json)) :
    writeMembers lib members = members.map fun member => (member.1, writeMsgpack lib member.2) := by
  induction members with
  | nil => rfl
  | cons member members ih =>
    obtain ⟨name, value⟩ := member
    rw [writeMembers, List.map_cons, ih]

/-- One member, key and value. -/
def writeMember (lib : JsonLibrary) (member : String × Json) : Bytes :=
  writeString member.1 ++ writeMsgpack lib member.2

/-- The bytes of an object are those of its members in the order of the keys. -/
theorem writeMsgpack_object (members : List (String × Json)) :
    writeMsgpack lib (.object members) = objectHeader (sortMembers members).length ++
      (sortMembers members).flatMap (writeMember lib) := by
  have sorted : (writeMembers lib members).insertionSort (fun member next => member.1 ≤ next.1) =
      (sortMembers members).map fun member => (member.1, writeMsgpack lib member.2) := by
    rw [writeMembers_eq, sortMembers]
    exact (List.map_insertionSort (fun member next : String × Json => member.1 ≤ next.1)
      (fun member next : String × Bytes => member.1 ≤ next.1) _ _ fun _ _ _ _ => Iff.rfl).symm
  rw [writeMsgpack, sorted, List.flatMap_map, sortMembers, List.length_insertionSort]
  rfl

theorem mem_sortMembers {members : List (String × Json)} {member : String × Json} :
    member ∈ sortMembers members ↔ member ∈ members :=
  List.mem_insertionSort fun member next : String × Json => member.1 ≤ next.1

/-- Induction over the values inside a value. -/
theorem Json.inside {P : Json → Prop} (array : ∀ items, (∀ item ∈ items, P item) → P (.array items))
    (object : ∀ members, (∀ member ∈ members, P member.2) → P (.object members))
    (scalar : ∀ value, (∀ items, value ≠ .array items) → (∀ members, value ≠ .object members) → P value)
    (value : Json) : P value := by
  cases value with
  | array items =>
    apply array
    intro item member
    have smaller := List.sizeOf_lt_of_mem member
    exact Json.inside array object scalar item
  | object members =>
    apply object
    intro member isMember
    have smaller := List.sizeOf_lt_of_mem isMember
    have inner : sizeOf member.2 < sizeOf member := by
      obtain ⟨name, value⟩ := member
      simp
    exact Json.inside array object scalar member.2
  | _ => exact scalar _ nofun nofun
termination_by sizeOf value
decreasing_by
  · simp; omega
  · simp; omega

theorem nesting_array_lt {items : List Json} {levels : Nat} :
    nesting (.array items) < levels + 1 ↔ ∀ item ∈ items, nesting item < levels := by
  rw [nesting]
  induction items with
  | nil => simp [nestingItems]
  | cons item items ih =>
    rw [nestingItems, max_lt_iff, ih, List.forall_mem_cons]
    exact and_congr_left' Nat.add_lt_add_iff_right

theorem nesting_object_lt {members : List (String × Json)} {levels : Nat} :
    nesting (.object members) < levels + 1 ↔ ∀ member ∈ members, nesting member.2 < levels := by
  rw [nesting]
  induction members with
  | nil => simp [nestingMembers]
  | cons member members ih =>
    obtain ⟨name, value⟩ := member
    rw [nestingMembers, max_lt_iff, ih, List.forall_mem_cons]
    exact and_congr_left' Nat.add_lt_add_iff_right

theorem containerHeader_ne_nil {short size : Nat} {tag16 tag32 : UInt8} (fits : size < 2 ^ 32) :
    containerHeader short tag16 tag32 size ≠ [] := by
  unfold containerHeader
  split_ifs <;> exact List.cons_ne_nil _ _

/-- The bytes of a container, whose header is missing when it is too long. -/
theorem container_ne_nil {α : Type} {short : Nat} {tag16 tag32 : UInt8} {write : α → Bytes}
    {items : List α} (nonempty : ∀ item ∈ items, write item ≠ []) :
    containerHeader short tag16 tag32 items.length ++ items.flatMap write ≠ [] := by
  intro empty
  obtain ⟨noHeader, noItems⟩ := List.append_eq_nil_iff.mp empty
  cases items with
  | nil => exact containerHeader_ne_nil (Nat.two_pow_pos 32) noHeader
  | cons item items =>
    rw [List.flatMap_cons] at noItems
    exact nonempty item (.head _) (List.append_eq_nil_iff.mp noItems).1

theorem writeString_ne_nil (text : String) : writeString text ≠ [] := by
  intro empty
  obtain ⟨noHeader, noText⟩ := List.append_eq_nil_iff.mp empty
  rw [noText] at noHeader
  cases noHeader

theorem writeMember_ne_nil (member : String × Json) : writeMember lib member ≠ [] := by
  intro empty
  exact writeString_ne_nil _ (List.append_eq_nil_iff.mp empty).1

theorem writeMsgpack_ne_nil (value : Json) : writeMsgpack lib value ≠ [] := by
  induction value using Json.inside with
  | array items ih =>
    rw [writeMsgpack, writeItems_eq]
    exact container_ne_nil ih
  | object members ih =>
    rw [writeMsgpack_object]
    exact container_ne_nil fun member _ => writeMember_ne_nil member
  | scalar value noArray noObject =>
    cases value with
    | null => exact List.cons_ne_nil _ _
    | bool value => exact List.cons_ne_nil _ _
    | integer value =>
      rw [writeMsgpack, writeInteger]
      split
      · unfold writeUnsigned
        split_ifs <;> exact List.cons_ne_nil _ _
      · unfold writeNegative
        split_ifs <;> exact List.cons_ne_nil _ _
    | unsigned value =>
      rw [writeMsgpack, writeUnsigned]
      split_ifs <;> exact List.cons_ne_nil _ _
    | float bits =>
      rw [writeMsgpack, writeCompactFloat]
      split <;> exact List.cons_ne_nil _ _
    | string text =>
      rw [writeMsgpack]
      exact writeString_ne_nil text
    | array items => exact absurd rfl (noArray items)
    | object members => exact absurd rfl (noObject members)

theorem length_flatMap_le {α : Type} {write : α → Bytes} {items : List α} {item : α}
    (member : item ∈ items) : (write item).length ≤ (items.flatMap write).length := by
  obtain ⟨before, after, rfl⟩ := List.append_of_mem member
  simp only [List.flatMap_append, List.flatMap_cons, List.length_append]
  omega

theorem length_le_flatMap {α : Type} {write : α → Bytes} {items : List α}
    (nonempty : ∀ item ∈ items, write item ≠ []) : items.length ≤ (items.flatMap write).length := by
  induction items with
  | nil => exact Nat.zero_le _
  | cons item items ih =>
    obtain ⟨first, later⟩ := List.forall_mem_cons.mp nonempty
    have some : 0 < (write item).length := List.length_pos_iff.mpr first
    have rest := ih later
    rw [List.flatMap_cons, List.length_append, List.length_cons]
    omega

/-- `skipMsgpack` passes a value unless it nests too deep. -/
theorem skip_writeMsgpack (value : Json) : ∀ levels rest,
    (writeMsgpack lib value).length < 2 ^ 32 →
      skipMsgpack levels (writeMsgpack lib value ++ rest) =
        if nesting value < levels then some rest else none := by
  induction value using Json.inside with
  | array items ih =>
    intro levels rest short
    rw [writeMsgpack, writeItems_eq] at short ⊢
    rw [List.length_append] at short
    have count : items.length < 2 ^ 32 := by
      have atLeast := length_le_flatMap fun item (_ : item ∈ items) => @writeMsgpack_ne_nil lib item
      omega
    cases levels with
    | zero => rfl
    | succ levels =>
      have each : ∀ item ∈ items, ∀ rest, skipMsgpack levels (writeMsgpack lib item ++ rest) =
          if decide (nesting item < levels) then some rest else none := by
        intro item member rest
        have part := @length_flatMap_le _ (writeMsgpack lib) items item member
        rw [ih item member levels rest (by omega)]
        simp only [decide_eq_true_eq]
      rw [List.append_assoc, skip_array count, passMany_flatMap each]
      simp only [List.all_eq_true, decide_eq_true_eq, nesting_array_lt]
  | object members ih =>
    intro levels rest short
    rw [writeMsgpack_object] at short ⊢
    rw [List.length_append] at short
    have count : (sortMembers members).length < 2 ^ 32 := by
      have atLeast := length_le_flatMap fun member (_ : member ∈ sortMembers members) =>
        @writeMember_ne_nil lib member
      omega
    cases levels with
    | zero => rfl
    | succ levels =>
      have each : ∀ member ∈ sortMembers members, ∀ rest,
          ((skipMsgpack levels (writeMember lib member ++ rest)).bind (skipMsgpack levels)) =
            if decide (nesting member.2 < levels) then some rest else none := by
        intro member isMember rest
        have part := @length_flatMap_le _ (writeMember lib) (sortMembers members) member isMember
        rw [writeMember, List.length_append] at part
        have key : (writeString member.1).length < 2 ^ 32 := by omega
        rw [writeString, List.length_append] at key
        cases levels with
        | zero => rfl
        | succ levels =>
          rw [writeMember, List.append_assoc, skip_string (by omega), Option.bind_some,
            ih member (mem_sortMembers.mp isMember) (levels + 1) rest (by omega)]
          simp only [decide_eq_true_eq]
      rw [List.append_assoc, skip_object count, passMany_flatMap each]
      simp only [List.all_eq_true, decide_eq_true_eq, nesting_object_lt, mem_sortMembers]
  | scalar value noArray noObject =>
    intro levels rest short
    cases levels with
    | zero => rfl
    | succ levels =>
      cases value with
      | array items => exact absurd rfl (noArray items)
      | object members => exact absurd rfl (noObject members)
      | null => exact skip_done rfl rest
      | bool value => cases value <;> exact skip_done rfl rest
      | integer value =>
        rw [writeMsgpack, writeInteger]
        split
        · exact skip_unsigned _ rest
        next negative => exact skip_negative (by omega) rest
      | unsigned value =>
        rw [writeMsgpack]
        exact skip_unsigned _ rest
      | float bits =>
        rw [writeMsgpack]
        exact skip_float bits rest
      | string text =>
        rw [writeMsgpack, writeString, List.length_append] at short
        rw [writeMsgpack]
        exact skip_string (by omega) rest

end PacificDb.Sst
