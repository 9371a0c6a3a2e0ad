import PacificDb.Sst.Msgpack

/-!
# Views of the bytes of a row

`MsgpackRowView` looks members up in the bytes of a row, with or without a field
index, and decodes the one it finds. On the bytes of a row it finds what
`Lsm.MsgpackRowView` finds in the row itself (`fieldBytes_writeMsgpack`), so what
the storage engine does with views of values is what it does with views of bytes.
-/

namespace PacificDb.Sst

open Lib
open Lsm hiding MsgpackRowView

variable {lib : JsonLibrary}

/-! ## One member decoded -/

/-- The two's complement of a number of so many bytes. -/
def signed (width bits : Nat) : Int := Int.bmod bits (2 ^ (8 * width))

/-- The bytes are a number of so many bytes and nothing else. -/
def wholeWord? (width : Nat) (bytes : Bytes) : Option Nat :=
  match readBigWord width bytes with
  | some (bits, []) => some bits
  | _ => none

/-- The scalars `decodeMsgpackField` decodes itself; none is left to the library. -/
def decodeScalar (lib : JsonLibrary) : Bytes → Option Json
  | [] => none
  | tag :: rest =>
      if rest.isEmpty && tag ≤ 0x7f then some (.unsigned tag.toNat)
      else if rest.isEmpty && tag ≥ 0xe0 then some (.integer (tag.toNat - 256))
      else if rest.isEmpty && tag == 0xc0 then some .null
      else if rest.isEmpty && (tag == 0xc2 || tag == 0xc3) then some (.bool (tag == 0xc3))
      else if 0xcc ≤ tag && tag ≤ 0xcf then
        (wholeWord? (2 ^ (tag.toNat - 0xcc)) rest).map Json.unsigned
      else if 0xd0 ≤ tag && tag ≤ 0xd3 then
        let width := 2 ^ (tag.toNat - 0xd0)
        (wholeWord? width rest).map fun bits => .integer (signed width bits)
      else if tag == 0xca then (wholeWord? 4 rest).map fun bits => .float (lib.widen bits)
      else if tag == 0xcb then (wholeWord? 8 rest).map Json.float
      else if tag &&& 0xe0 == 0xa0 || tag == 0xd9 || tag == 0xda || tag == 0xdb then
        match readMsgpackString (tag :: rest) with
        | some (text, []) => (String.fromUTF8? ⟨text.toArray⟩).map Json.string
        | _ => none
      else none

/-- `decodeMsgpackField`; none is an exception. -/
def decodeMsgpackField (lib : JsonLibrary) (bytes : Bytes) : Option Json :=
  match decodeScalar lib bytes with
  | some value => some value
  | none => lib.fromMsgpack bytes

/-- A value as it comes back: a number in the storage class its bytes have. -/
def stored (lib : JsonLibrary) : Json → Json
  | .integer value =>
      let value := Json.wrapInt64 value
      if 0 ≤ value then .unsigned value.toNat else .integer value
  | .unsigned value => .unsigned (Json.wrapUInt64 value)
  | .float bits =>
      match lib.narrow bits with
      | some single => .float (lib.widen (single % 2 ^ 32))
      | none => .float (bits % 2 ^ 64)
  | other => other

def isContainer : Json → Bool
  | .array _ => true
  | .object _ => true
  | _ => false

/-! ## Views -/

structure MsgpackRowView where
  data : Bytes
  indexed : Bool

/-- The number of members of the row. -/
def readMapHeader : Bytes → Option (Nat × Bytes)
  | [] => none
  | tag :: rest =>
      if tag &&& 0xf0 == 0x80 then some ((tag &&& 0x0f).toNat, rest)
      else if tag == 0xde then readBigWord 2 rest
      else if tag == 0xdf then readBigWord 4 rest
      else none

/-- The name of a member and the bytes of its value. -/
def readMember (bytes : Bytes) : Option ((Bytes × Bytes) × Bytes) :=
  match readMsgpackString bytes with
  | none => none
  | some (name, value) =>
      match skipMsgpack kLevels value with
      | none => none
      | some rest => some ((name, value.take (value.length - rest.length)), rest)

def readMembers : Nat → Bytes → Option (List (Bytes × Bytes) × Bytes)
  | 0, bytes => some ([], bytes)
  | count + 1, bytes =>
      match readMember bytes with
      | none => none
      | some (member, rest) => (readMembers count rest).map fun read => (member :: read.1, read.2)

/-- The walk over the members up to the one that is asked for. -/
def walkMembers (name : Bytes) : Nat → Bytes → Option Bytes
  | 0, _ => none
  | count + 1, bytes =>
      match readMember bytes with
      | none => none
      | some ((key, value), rest) => if key = name then some value else walkMembers name count rest

namespace MsgpackRowView

/-- `buildFieldIndex`: the indexed fields, if it reached the end of the row. -/
def fieldIndex (view : MsgpackRowView) : Option (List (Bytes × Bytes)) :=
  match readMapHeader view.data with
  | none => none
  | some (count, rest) =>
      match readMembers count rest with
      | some (fields, []) => some (fields.take kIndexedFields)
      | _ => none

/-- The bytes of the member that `field` finds. -/
def fieldBytes (view : MsgpackRowView) (name : Bytes) : Option Bytes :=
  let walk := match readMapHeader view.data with
    | none => none
    | some (count, rest) => walkMembers name count rest
  if view.indexed then
    match view.fieldIndex with
    | none => none
    | some fields =>
        match fields.lookup name with
        | some value => some value
        | none => if fields.length < kIndexedFields then none else walk
  else walk

def field (lib : JsonLibrary) (view : MsgpackRowView) (name : String) : Option Json :=
  (view.fieldBytes (utf8 name)).bind (decodeMsgpackField lib)

end MsgpackRowView

/-! ## What comes back -/

theorem wholeWord?_beBytes (width value : Nat) :
    wholeWord? width (beBytes width value) = some (value % 256 ^ width) := by
  have read := readBigWord_beBytes width value []
  rw [List.append_nil] at read
  rw [wholeWord?, read]

theorem decodeScalar_unsigned {value : Nat} (fits : value < 2 ^ 64) :
    decodeScalar lib (writeUnsigned value) = some (.unsigned value) := by
  have wide : ∀ rest, decodeScalar lib (0xcc :: rest) = (wholeWord? 1 rest).map Json.unsigned ∧
      decodeScalar lib (0xcd :: rest) = (wholeWord? 2 rest).map Json.unsigned ∧
      decodeScalar lib (0xce :: rest) = (wholeWord? 4 rest).map Json.unsigned ∧
      decodeScalar lib (0xcf :: rest) = (wholeWord? 8 rest).map Json.unsigned := by
    intro rest
    cases rest <;> exact ⟨rfl, rfl, rfl, rfl⟩
  have whole : ∀ {width}, value < 256 ^ width →
      (wholeWord? width (beBytes width value)).map Json.unsigned = some (.unsigned value) := by
    intro width fits
    rw [wholeWord?_beBytes, Nat.mod_eq_of_lt fits]
    rfl
  unfold writeUnsigned
  split
  next fix =>
    have tags : ∀ value < 128, (UInt8.ofNat value ≤ 0x7f) ∧ (UInt8.ofNat value).toNat = value := by
      decide
    obtain ⟨small, same⟩ := tags value fix
    rw [decodeScalar, if_pos (by simp [small]), same]
  next =>
    split
    next byte => exact (wide _).1.trans (whole byte)
    next =>
      split
      next word => exact (wide _).2.1.trans (whole word)
      next =>
        split
        next double => exact (wide _).2.2.1.trans (whole double)
        next => exact (wide _).2.2.2.trans (whole fits)

/-- Two's complement keeps a negative number in range. -/
theorem signed_of_negative {value : Int} {width : Nat} (low : -2 ^ (8 * width - 1) ≤ value)
    (negative : value < 0) (wide : 0 < width) :
    signed width ((value % 2 ^ (8 * width)).toNat % 256 ^ width) = value := by
  have pow : (256 : Nat) ^ width = 2 ^ (8 * width) := (pow_mul 2 8 width).symm
  have cast : (2 : Int) ^ (8 * width) = ((2 ^ (8 * width) : Nat) : Int) := by rw [Nat.cast_pow]; rfl
  have half : (2 : Int) ^ (8 * width) = 2 * 2 ^ (8 * width - 1) := by
    rw [← pow_succ']
    congr 1
    omega
  have positive : ((2 ^ (8 * width) : Nat) : Int) ≠ 0 := by
    exact_mod_cast (Nat.two_pow_pos (8 * width)).ne'
  have lower := Int.emod_nonneg value positive
  have upper := Int.emod_lt_of_pos value (lt_of_le_of_ne (Int.natCast_nonneg _) positive.symm)
  rw [cast] at half ⊢
  have below : (value % ((2 ^ (8 * width) : Nat) : Int)).toNat < 2 ^ (8 * width) :=
    (Int.toNat_lt lower).mpr upper
  rw [pow, Nat.mod_eq_of_lt below, signed, Int.toNat_of_nonneg lower, Int.emod_bmod]
  apply Int.bmod_eq_of_le_mul_two
  · omega
  · omega

theorem decodeScalar_negative {value : Int} (low : -2 ^ 63 ≤ value) (negative : value < 0) :
    decodeScalar lib (writeNegative value) = some (.integer value) := by
  have wide : ∀ rest,
      decodeScalar lib (0xd0 :: rest) = (wholeWord? 1 rest).map (fun bits => .integer (signed 1 bits)) ∧
      decodeScalar lib (0xd1 :: rest) = (wholeWord? 2 rest).map (fun bits => .integer (signed 2 bits)) ∧
      decodeScalar lib (0xd2 :: rest) = (wholeWord? 4 rest).map (fun bits => .integer (signed 4 bits)) ∧
      decodeScalar lib (0xd3 :: rest) = (wholeWord? 8 rest).map (fun bits => .integer (signed 8 bits)) := by
    intro rest
    cases rest <;> exact ⟨rfl, rfl, rfl, rfl⟩
  have whole : ∀ {width}, 0 < width → -2 ^ (8 * width - 1) ≤ value →
      (wholeWord? width (beBytes width (value % 2 ^ (8 * width)).toNat)).map
        (fun bits => Json.integer (signed width bits)) = some (.integer value) := by
    intro width some low
    rw [wholeWord?_beBytes, Option.map_some, signed_of_negative low negative some]
  unfold writeNegative
  split
  next fix =>
    have tags : ∀ value < 256, 224 ≤ value → ¬UInt8.ofNat value ≤ 0x7f ∧ UInt8.ofNat value ≥ 0xe0 ∧
        (UInt8.ofNat value).toNat = value := by decide +kernel
    obtain ⟨notSmall, large, same⟩ := tags (value % 2 ^ 8).toNat (by omega) (by omega)
    have single : beBytes 1 (value % 2 ^ 8).toNat = [UInt8.ofNat (value % 2 ^ 8).toNat] := rfl
    rw [single, decodeScalar, if_neg (by simpa using notSmall), if_pos (by simpa using large), same]
    congr 2
    omega
  next =>
    split
    next byte => exact (wide _).1.trans (whole (by decide) byte)
    next =>
      split
      next word => exact (wide _).2.1.trans (whole (by decide) word)
      next =>
        split
        next double => exact (wide _).2.2.1.trans (whole (by decide) double)
        next => exact (wide _).2.2.2.trans (whole (by decide) low)

theorem decodeScalar_float (bits : Nat) :
    decodeScalar lib (writeCompactFloat lib bits) = some (stored lib (.float bits)) := by
  have wide : ∀ rest,
      decodeScalar lib (0xca :: rest) = (wholeWord? 4 rest).map (fun bits => .float (lib.widen bits)) ∧
      decodeScalar lib (0xcb :: rest) = (wholeWord? 8 rest).map Json.float := by
    intro rest
    cases rest <;> exact ⟨rfl, rfl⟩
  rw [writeCompactFloat, stored]
  cases lib.narrow bits with
  | some single =>
    dsimp only
    rw [(wide _).1, wholeWord?_beBytes]
    rfl
  | none =>
    dsimp only
    rw [(wide _).2, wholeWord?_beBytes]
    rfl

/-- The tags of strings. -/
def isTextTag (tag : UInt8) : Bool := tag &&& 0xe0 == 0xa0 || tag == 0xd9 || tag == 0xda || tag == 0xdb

theorem decodeScalar_text {tag : UInt8} (isText : isTextTag tag = true) (rest : Bytes) :
    decodeScalar lib (tag :: rest) = match readMsgpackString (tag :: rest) with
      | some (text, []) => (String.fromUTF8? ⟨text.toArray⟩).map Json.string
      | _ => none := by
  have tags : ∀ tag < 256, isTextTag (UInt8.ofNat tag) = true →
      ¬UInt8.ofNat tag ≤ 0x7f ∧ ¬UInt8.ofNat tag ≥ 0xe0 ∧ UInt8.ofNat tag ≠ 0xc0 ∧
        UInt8.ofNat tag ≠ 0xc2 ∧ UInt8.ofNat tag ≠ 0xc3 ∧
        ¬(0xcc ≤ UInt8.ofNat tag ∧ UInt8.ofNat tag ≤ 0xcf) ∧
        ¬(0xd0 ≤ UInt8.ofNat tag ∧ UInt8.ofNat tag ≤ 0xd3) ∧ UInt8.ofNat tag ≠ 0xca ∧
        UInt8.ofNat tag ≠ 0xcb := by decide +kernel
  have facts := tags tag.toNat tag.toNat_lt
  rw [UInt8.ofNat_toNat] at facts
  obtain ⟨small, large, null, no, yes, unsigned, signed, single, double⟩ := facts isText
  rw [isTextTag] at isText
  rw [decodeScalar, if_neg (by simp [small]), if_neg (by simp [large]), if_neg (by simp [null]),
    if_neg (by simp [no, yes]), if_neg (by simpa using unsigned), if_neg (by simpa using signed),
    if_neg (by simp [single]), if_neg (by simp [double]), if_pos isText]

theorem decodeScalar_string {text : String} (short : (utf8 text).length < 2 ^ 32) :
    decodeScalar lib (writeString text) = some (.string text) := by
  have read := readMsgpackString_writeString short []
  rw [List.append_nil] at read
  have isText : ∃ tag rest, writeString text = tag :: rest ∧ isTextTag tag = true := by
    rw [writeString]
    rcases stringHeader_cases short with ⟨fix, header⟩ | ⟨tag, width, -, header, tags⟩
    · have tags : ∀ size ≤ 31, isTextTag (UInt8.ofNat (0xa0 ||| size)) = true := by decide
      exact ⟨_, _, by rw [header]; rfl, tags _ fix⟩
    · refine ⟨tag, _, by rw [header]; rfl, ?_⟩
      rcases tags with ⟨rfl, -⟩ | ⟨rfl, -⟩ | ⟨rfl, -⟩ <;> rfl
  obtain ⟨tag, rest, split, isText⟩ := isText
  rw [split] at read ⊢
  rw [decodeScalar_text isText, read]
  dsimp only
  rw [fromUTF8_utf8]
  rfl

/-- The tags of arrays and objects. -/
def isContainerTag (tag : UInt8) : Bool := tag &&& 0xe0 == 0x80 || (0xdc ≤ tag && tag ≤ 0xdf)

theorem decodeScalar_container {tag : UInt8} (container : isContainerTag tag = true) (rest : Bytes) :
    decodeScalar lib (tag :: rest) = none := by
  have tags : ∀ tag < 256, isContainerTag (UInt8.ofNat tag) = true →
      ¬UInt8.ofNat tag ≤ 0x7f ∧ ¬UInt8.ofNat tag ≥ 0xe0 ∧ UInt8.ofNat tag ≠ 0xc0 ∧
        UInt8.ofNat tag ≠ 0xc2 ∧ UInt8.ofNat tag ≠ 0xc3 ∧
        ¬(0xcc ≤ UInt8.ofNat tag ∧ UInt8.ofNat tag ≤ 0xcf) ∧
        ¬(0xd0 ≤ UInt8.ofNat tag ∧ UInt8.ofNat tag ≤ 0xd3) ∧ UInt8.ofNat tag ≠ 0xca ∧
        UInt8.ofNat tag ≠ 0xcb := by decide +kernel
  have noText : ∀ tag < 256, isContainerTag (UInt8.ofNat tag) = true →
      isTextTag (UInt8.ofNat tag) = false := by decide +kernel
  have facts := tags tag.toNat tag.toNat_lt
  have text := noText tag.toNat tag.toNat_lt
  rw [UInt8.ofNat_toNat] at facts text
  obtain ⟨small, large, null, no, yes, unsigned, signed, single, double⟩ := facts container
  have text := text container
  rw [isTextTag] at text
  rw [decodeScalar, if_neg (by simp [small]), if_neg (by simp [large]), if_neg (by simp [null]),
    if_neg (by simp [no, yes]), if_neg (by simpa using unsigned), if_neg (by simpa using signed),
    if_neg (by simp [single]), if_neg (by simp [double]), if_neg (by simp [text])]

theorem containerTag {short : Nat} {tag16 tag32 : UInt8} {count : Nat} (fits : count < 2 ^ 32)
    (fix : ∀ size ≤ 15, isContainerTag (UInt8.ofNat (short ||| size)) = true)
    (word : isContainerTag tag16 = true) (double : isContainerTag tag32 = true) :
    ∃ tag rest, containerHeader short tag16 tag32 count = tag :: rest ∧ isContainerTag tag = true := by
  unfold containerHeader
  split
  next few => exact ⟨_, _, rfl, fix _ few⟩
  next =>
    split
    · exact ⟨_, _, rfl, word⟩
    · exact ⟨_, _, rfl, double⟩

/-- What `decodeMsgpackField` makes of the bytes of a value. -/
theorem decodeMsgpackField_writeMsgpack {value : Json}
    (short : (writeMsgpack lib value).length < 2 ^ 32) :
    decodeMsgpackField lib (writeMsgpack lib value) =
      if isContainer value then lib.fromMsgpack (writeMsgpack lib value) else some (stored lib value) := by
  have scalar : ∀ {bytes back}, decodeScalar lib bytes = some back →
      decodeMsgpackField lib bytes = some back := by
    intro bytes back decoded
    rw [decodeMsgpackField, decoded]
  have library : ∀ {tag rest}, isContainerTag tag = true →
      decodeMsgpackField lib (tag :: rest) = lib.fromMsgpack (tag :: rest) := by
    intro tag rest container
    rw [decodeMsgpackField, decodeScalar_container container]
  cases value with
  | null => exact scalar rfl
  | bool value => cases value <;> exact scalar rfl
  | integer value =>
    have low : -2 ^ 63 ≤ Json.wrapInt64 value := Int.le_bmod (by decide)
    have high : Json.wrapInt64 value < 2 ^ 63 := Int.bmod_lt (by decide)
    rw [show isContainer (.integer value) = false from rfl, if_neg Bool.false_ne_true, writeMsgpack,
      writeInteger, stored]
    apply scalar
    split
    next positive => exact decodeScalar_unsigned (by omega)
    next negative => exact decodeScalar_negative low (by omega)
  | unsigned value =>
    have fits : Json.wrapUInt64 value < 2 ^ 64 := by
      rw [Json.wrapUInt64]
      omega
    rw [show isContainer (.unsigned value) = false from rfl, if_neg Bool.false_ne_true, writeMsgpack,
      stored]
    exact scalar (decodeScalar_unsigned fits)
  | float bits =>
    rw [show isContainer (.float bits) = false from rfl, if_neg Bool.false_ne_true, writeMsgpack]
    exact scalar (decodeScalar_float bits)
  | string text =>
    rw [writeMsgpack, writeString, List.length_append] at short
    rw [show isContainer (.string text) = false from rfl, if_neg Bool.false_ne_true, writeMsgpack]
    exact scalar (decodeScalar_string (by omega))
  | array items =>
    rw [writeMsgpack, writeItems_eq, List.length_append] at short
    have count := length_le_flatMap fun item (_ : item ∈ items) => @writeMsgpack_ne_nil lib item
    obtain ⟨tag, rest, header, container⟩ := @containerTag 0x90 0xdc 0xdd items.length (by omega)
      (by decide) (by decide) (by decide)
    rw [isContainer, if_pos rfl, writeMsgpack, arrayHeader, header, List.cons_append]
    exact library container
  | object members =>
    rw [writeMsgpack_object, List.length_append] at short
    have count := length_le_flatMap fun member (_ : member ∈ sortMembers members) =>
      @writeMember_ne_nil lib member
    obtain ⟨tag, rest, header, container⟩ := @containerTag 0x80 0xde 0xdf
      (sortMembers members).length (by omega) (by decide) (by decide) (by decide)
    rw [isContainer, if_pos rfl, writeMsgpack_object, objectHeader, header, List.cons_append]
    exact library container

/-! ## What a view finds -/

theorem readMapHeader_objectHeader {count : Nat} (fits : count < 2 ^ 32) (rest : Bytes) :
    readMapHeader (objectHeader count ++ rest) = some (count, rest) := by
  unfold objectHeader containerHeader
  split
  next few =>
    have tags : ∀ size ≤ 15, (UInt8.ofNat (0x80 ||| size) &&& 0xf0 == 0x80) = true ∧
        (UInt8.ofNat (0x80 ||| size) &&& 0x0f).toNat = size := by decide
    rw [List.singleton_append, readMapHeader, if_pos (tags _ few).1, (tags _ few).2]
  next =>
    split
    next word => exact @readBigWord_beBytes_of_lt 2 count rest word
    next => exact @readBigWord_beBytes_of_lt 4 count rest fits

theorem readMember_writeMember {member : String × Json}
    (short : (writeMember lib member).length < 2 ^ 32) (rest : Bytes) :
    readMember (writeMember lib member ++ rest) = if skippable member.2 then
      some ((utf8 member.1, writeMsgpack lib member.2), rest) else none := by
  rw [writeMember, List.length_append] at short
  have key : (writeString member.1).length < 2 ^ 32 := by omega
  rw [writeString, List.length_append] at key
  rw [writeMember, List.append_assoc, readMember, readMsgpackString_writeString (by omega)]
  dsimp only
  rw [skip_writeMsgpack member.2 kLevels rest (by omega), skippable]
  have same : nesting member.2 < kLevels ↔ nesting member.2 ≤ kMaxDepth := Nat.lt_succ_iff
  by_cases flat : nesting member.2 ≤ kMaxDepth
  · rw [if_pos (same.mpr flat), if_pos (decide_eq_true flat)]
    dsimp only
    rw [List.length_append, Nat.add_sub_cancel, List.take_left']
    rfl
  · rw [if_neg fun less => flat (same.mp less), if_neg (by simpa using flat)]

theorem readMembers_writeMember {members : List (String × Json)} (rest : Bytes)
    (short : (members.flatMap (writeMember lib)).length < 2 ^ 32) :
    readMembers members.length (members.flatMap (writeMember lib) ++ rest) =
      if members.all fun member => skippable member.2 then
        some (members.map fun member => (utf8 member.1, writeMsgpack lib member.2), rest) else none := by
  induction members with
  | nil => rfl
  | cons member members ih =>
    rw [List.flatMap_cons, List.length_append] at short
    rw [List.length_cons, readMembers, List.flatMap_cons, List.append_assoc,
      readMember_writeMember (by omega), List.all_cons]
    cases skippable member.2 with
    | false => rfl
    | true =>
      rw [if_pos rfl, Bool.true_and]
      dsimp only
      rw [ih (by omega)]
      split <;> rfl

theorem walkMembers_writeMember {name : String} {members : List (String × Json)} (rest : Bytes)
    (short : (members.flatMap (writeMember lib)).length < 2 ^ 32) :
    walkMembers (utf8 name) members.length (members.flatMap (writeMember lib) ++ rest) =
      (walkFields name members).map (writeMsgpack lib) := by
  induction members with
  | nil => rfl
  | cons member members ih =>
    obtain ⟨key, value⟩ := member
    rw [List.flatMap_cons, List.length_append] at short
    rw [List.length_cons, walkMembers, List.flatMap_cons, List.append_assoc,
      readMember_writeMember (by omega), walkFields]
    cases skippable value with
    | false => rfl
    | true =>
      simp only [if_true, Bool.not_true, Bool.false_eq_true, if_false, utf8_inj]
      by_cases own : key = name
      · rw [if_pos own, if_pos own, Option.map_some]
      · rw [if_neg own, if_neg own, ih (by omega)]

theorem lookup_written (name : String) (members : List (String × Json)) :
    (members.map fun member => (utf8 member.1, writeMsgpack lib member.2)).lookup (utf8 name) =
      (members.lookup name).map (writeMsgpack lib) := by
  induction members with
  | nil => rfl
  | cons member members ih =>
    rw [List.map_cons, List.lookup_cons, List.lookup_cons, ih]
    by_cases own : name = member.1
    · rw [own, beq_self_eq_true, beq_self_eq_true]
      rfl
    · rw [beq_eq_false_iff_ne.mpr own, beq_eq_false_iff_ne.mpr fun same => own (utf8_inj.mp same)]

/-- A view of the bytes of a row finds the bytes of what a view of the row finds. -/
theorem fieldBytes_writeMsgpack {members : List (String × Json)} {name : String} (indexed : Bool)
    (short : (writeMsgpack lib (.object members)).length < 2 ^ 32) :
    (MsgpackRowView.mk (writeMsgpack lib (.object members)) indexed).fieldBytes (utf8 name) =
      ((Lsm.MsgpackRowView.mk (.object members) indexed).field name).map (writeMsgpack lib) := by
  rw [writeMsgpack_object] at short ⊢
  rw [List.length_append] at short
  have count := length_le_flatMap fun member (_ : member ∈ sortMembers members) =>
    @writeMember_ne_nil lib member
  have header := readMapHeader_objectHeader (show (sortMembers members).length < 2 ^ 32 by omega)
    ((sortMembers members).flatMap (writeMember lib))
  have read := @readMembers_writeMember lib (sortMembers members) [] (by omega)
  have walked := @walkMembers_writeMember lib name (sortMembers members) [] (by omega)
  rw [List.append_nil] at read walked
  unfold MsgpackRowView.fieldBytes MsgpackRowView.fieldIndex Lsm.MsgpackRowView.field
    Lsm.MsgpackRowView.indexValid
  dsimp only
  rw [header]
  dsimp only
  rw [read, walked]
  cases indexed with
  | false => rfl
  | true =>
    rw [if_pos rfl, if_pos rfl]
    by_cases flat : ((sortMembers members).all fun member => skippable member.2) = true
    case neg =>
        rw [Bool.not_eq_true] at flat
        simp only [flat, Bool.false_eq_true, if_false, Bool.not_false, if_true, Option.map_none]
    case pos =>
        simp only [flat, if_true, Bool.not_true, Bool.false_eq_true, if_false]
        rw [← List.map_take, lookup_written, List.length_map, List.length_take]
        cases ((sortMembers members).take kIndexedFields).lookup name with
        | some value => rfl
        | none =>
          rw [Option.map_none]
          dsimp only
          have same : min kIndexedFields (sortMembers members).length < kIndexedFields ↔
              (sortMembers members).length < kIndexedFields := by omega
          by_cases few : (sortMembers members).length < kIndexedFields
          · rw [if_pos (same.mpr few), if_pos few, Option.map_none]
          · rw [if_neg fun less => few (same.mp less), if_neg few]

end PacificDb.Sst
