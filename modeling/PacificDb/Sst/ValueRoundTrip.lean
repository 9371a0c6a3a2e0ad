import PacificDb.Sst.Decode

/-!
# Values that come back

What `to_msgpack` writes for a value, `from_msgpack` reads back from the front of any
bytes, and `skipMsgpack` passes over, as long as the value does not nest too deep and
MessagePack has a header for each of its lengths. A value comes back in the storage
class its bytes have: a number that is not negative as an unsigned one.
-/

namespace PacificDb.Sst.Value

open Lib
open Lsm hiding MsgpackRowView nesting

variable {lib : JsonLibrary}

/-! ## Values that can be written -/

mutual

/-- The levels below a value, as `skipMsgpack` counts them. -/
def nesting : Value → Nat
  | .array items => itemsNesting items
  | .object members => membersNesting members
  | _ => 0

def itemsNesting : List Value → Nat
  | [] => 0
  | item :: items => max (nesting item + 1) (itemsNesting items)

def membersNesting : List (Bytes × Value) → Nat
  | [] => 0
  | (_, value) :: members => max (nesting value + 1) (membersNesting members)

end

mutual

/-- MessagePack has a header for each length in the value. -/
def representable : Value → Bool
  | .string text => decide (text.length < 2 ^ 32)
  | .binary bytes _ => decide (bytes.length < 2 ^ 32)
  | .array items => decide (items.length < 2 ^ 32) && itemsRepresentable items
  | .object members => decide (members.length < 2 ^ 32) && membersRepresentable members
  | _ => true

def itemsRepresentable : List Value → Bool
  | [] => true
  | item :: items => representable item && itemsRepresentable items

def membersRepresentable : List (Bytes × Value) → Bool
  | [] => true
  | (name, value) :: members =>
      decide (name.length < 2 ^ 32) && representable value && membersRepresentable members

end

mutual

/-- A value as it comes back. -/
def restored (lib : JsonLibrary) : Value → Value
  | .integer value => if 0 ≤ value.toInt then .unsigned (UInt64.ofNat value.toInt.toNat) else .integer value
  | .float bits =>
      match lib.narrow bits.toNat with
      | some single => .float (UInt64.ofNat (lib.widen (single % 2 ^ 32)))
      | none => .float bits
  | .binary bytes subtype => .binary bytes (subtype.map fun subtype => subtype.toUInt8.toUInt64)
  | .array items => .array (itemsRestored lib items)
  | .object members => ofMembers (membersRestored lib members)
  | other => other

def itemsRestored (lib : JsonLibrary) : List Value → List Value
  | [] => []
  | item :: items => restored lib item :: itemsRestored lib items

def membersRestored (lib : JsonLibrary) : List (Bytes × Value) → List (Bytes × Value)
  | [] => []
  | (name, value) :: members => (name, restored lib value) :: membersRestored lib members

end

/-! ## Containers member by member -/

/-- One member, key and value. -/
def memberToMsgpack (lib : JsonLibrary) (member : Bytes × Value) : Bytes :=
  writeText member.1 ++ toMsgpack lib member.2

theorem itemsToMsgpack_eq (items : List Value) :
    itemsToMsgpack lib items = items.flatMap (toMsgpack lib) := by
  induction items with
  | nil => rfl
  | cons item items ih => rw [itemsToMsgpack, List.flatMap_cons, ih]

theorem membersToMsgpack_eq (members : List (Bytes × Value)) :
    membersToMsgpack lib members = members.flatMap (memberToMsgpack lib) := by
  induction members with
  | nil => rfl
  | cons member members ih =>
    obtain ⟨name, value⟩ := member
    rw [membersToMsgpack, List.flatMap_cons, ih, memberToMsgpack, List.append_assoc]

theorem itemsRestored_eq (items : List Value) :
    itemsRestored lib items = items.map (restored lib) := by
  induction items with
  | nil => rfl
  | cons item items ih => rw [itemsRestored, List.map_cons, ih]

theorem membersRestored_eq (members : List (Bytes × Value)) :
    membersRestored lib members = members.map fun member => (member.1, restored lib member.2) := by
  induction members with
  | nil => rfl
  | cons member members ih =>
    obtain ⟨name, value⟩ := member
    rw [membersRestored, List.map_cons, ih]

theorem nesting_array {items : List Value} {levels : Nat} :
    nesting (.array items) < levels + 1 ↔ ∀ item ∈ items, nesting item < levels := by
  rw [nesting]
  induction items with
  | nil => simp [itemsNesting]
  | cons item items ih =>
    rw [itemsNesting, max_lt_iff, ih, List.forall_mem_cons]
    exact and_congr_left' Nat.add_lt_add_iff_right

theorem nesting_object {members : List (Bytes × Value)} {levels : Nat} :
    nesting (.object members) < levels + 1 ↔ ∀ member ∈ members, nesting member.2 < levels := by
  rw [nesting]
  induction members with
  | nil => simp [membersNesting]
  | cons member members ih =>
    obtain ⟨name, value⟩ := member
    rw [membersNesting, max_lt_iff, ih, List.forall_mem_cons]
    exact and_congr_left' Nat.add_lt_add_iff_right

theorem representable_array {items : List Value} : representable (.array items) = true ↔
    items.length < 2 ^ 32 ∧ ∀ item ∈ items, representable item = true := by
  rw [representable, Bool.and_eq_true, decide_eq_true_eq]
  apply and_congr_right'
  induction items with
  | nil => simp [itemsRepresentable]
  | cons item items ih => rw [itemsRepresentable, Bool.and_eq_true, ih, List.forall_mem_cons]

theorem representable_object {members : List (Bytes × Value)} :
    representable (.object members) = true ↔ members.length < 2 ^ 32 ∧
      ∀ member ∈ members, member.1.length < 2 ^ 32 ∧ representable member.2 = true := by
  rw [representable, Bool.and_eq_true, decide_eq_true_eq]
  apply and_congr_right'
  induction members with
  | nil => simp [membersRepresentable]
  | cons member members ih =>
    obtain ⟨name, value⟩ := member
    rw [membersRepresentable, Bool.and_eq_true, Bool.and_eq_true, decide_eq_true_eq, ih,
      List.forall_mem_cons]

/-- Induction over the values inside a value. -/
theorem inside {P : Value → Prop} (array : ∀ items, (∀ item ∈ items, P item) → P (.array items))
    (object : ∀ members, (∀ member ∈ members, P member.2) → P (.object members))
    (scalar : ∀ value, (∀ items, value ≠ .array items) → (∀ members, value ≠ .object members) → P value)
    (value : Value) : P value := by
  cases value with
  | array items =>
    apply array
    intro item member
    have smaller := List.sizeOf_lt_of_mem member
    exact inside array object scalar item
  | object members =>
    apply object
    intro member isMember
    have smaller := List.sizeOf_lt_of_mem isMember
    have inner : sizeOf member.2 < sizeOf member := by
      obtain ⟨name, value⟩ := member
      simp
    exact inside array object scalar member.2
  | _ => exact scalar _ nofun nofun
termination_by sizeOf value
decreasing_by
  · simp; omega
  · simp; omega

/-! ## What is written is read -/

theorem readText (text : Bytes) (short : text.length < 2 ^ 32) (rest : Bytes) :
    getMsgpackString (writeText text ++ rest) = some (text, rest) := by
  rw [getMsgpackString_eq, writeText, List.append_assoc]
  exact readMsgpackString_text short rest

/-- Items that are read back one by one are read back one after the other. -/
theorem readMany_flatMap {α β : Type} {read : Bytes → Option (β × Bytes)} {write : α → Bytes}
    {back : α → β} {items : List α}
    (each : ∀ item ∈ items, ∀ rest, read (write item ++ rest) = some (back item, rest)) (rest : Bytes) :
    readMany read items.length (items.flatMap write ++ rest) = some (items.map back, rest) := by
  induction items with
  | nil => rfl
  | cons item items ih =>
    obtain ⟨first, later⟩ := List.forall_mem_cons.mp each
    rw [List.length_cons, readMany, List.flatMap_cons, List.append_assoc, first]
    dsimp only [bind, Option.bind_some]
    rw [ih later]
    rfl

section Parse

variable {levels : Nat} {tag : UInt8}

theorem parse_unsigned {value : Nat} (fits : value < 2 ^ 64) (rest : Bytes) :
    parseValue lib (levels + 1) (writeUnsigned value ++ rest) =
      some (.unsigned (UInt64.ofNat value), rest) := by
  have wide : ∀ {tag width}, parseRule tag = .unsigned width → value < 256 ^ width →
      parseValue lib (levels + 1) (tag :: (beBytes width value ++ rest)) =
        some (.unsigned (UInt64.ofNat value), rest) := by
    intro tag width rule fits
    rw [parseValue, rule]
    dsimp only
    rw [readBigWord_beBytes_of_lt _ fits]
    rfl
  unfold writeUnsigned
  split
  next fix =>
    have tags : ∀ value < 128, parseRule (UInt8.ofNat value) = .positive ∧
        (UInt8.ofNat value).toUInt64 = UInt64.ofNat value := by decide
    obtain ⟨rule, same⟩ := tags value fix
    rw [List.singleton_append, parseValue, rule]
    dsimp only
    rw [same]
  next =>
    split
    next byte => exact wide rfl byte
    next =>
      split
      next word => exact wide rfl word
      next =>
        split
        next double => exact wide rfl double
        next => exact wide rfl fits

theorem parse_negative {value : Int} (low : -2 ^ 63 ≤ value) (negative : value < 0) (rest : Bytes) :
    parseValue lib (levels + 1) (writeNegative value ++ rest) = some (.integer (Int64.ofInt value), rest) := by
  have wide : ∀ {tag width}, parseRule tag = .signed width → 0 < width → -2 ^ (8 * width - 1) ≤ value →
      parseValue lib (levels + 1) (tag :: (beBytes width (value % 2 ^ (8 * width)).toNat ++ rest)) =
        some (.integer (Int64.ofInt value), rest) := by
    intro tag width rule some low
    rw [parseValue, rule]
    dsimp only
    rw [readBigWord_beBytes, Option.map_some, signedWord, signed_of_negative low negative some]
  unfold writeNegative
  split
  next fix =>
    have tags : ∀ value < 256, 224 ≤ value → parseRule (UInt8.ofNat value) = .negative ∧
        (UInt8.ofNat value).toNat = value % 256 ^ 1 := by decide +kernel
    obtain ⟨rule, same⟩ := tags (value % 2 ^ 8).toNat (by omega) (by omega)
    have single : beBytes 1 (value % 2 ^ 8).toNat = [UInt8.ofNat (value % 2 ^ 8).toNat] := rfl
    have back : signed 1 ((value % 2 ^ (8 * 1)).toNat % 256 ^ 1) = value :=
      signed_of_negative (by omega) negative Nat.one_pos
    rw [single, List.singleton_append, parseValue, rule]
    dsimp only
    rw [same, signedWord, back]
  next =>
    split
    next byte => exact wide rfl (by decide) byte
    next =>
      split
      next word => exact wide rfl (by decide) word
      next =>
        split
        next double => exact wide rfl (by decide) double
        next => exact wide rfl (by decide) low

theorem parse_float (bits : UInt64) (rest : Bytes) :
    parseValue lib (levels + 1) (writeCompactFloat lib bits.toNat ++ rest) =
      some (restored lib (.float bits), rest) := by
  rw [writeCompactFloat, restored]
  cases lib.narrow bits.toNat with
  | some single =>
    dsimp only
    rw [List.cons_append, parseValue, show parseRule 0xca = .single from rfl]
    dsimp only
    rw [readBigWord_beBytes]
    rfl
  | none =>
    dsimp only
    rw [List.cons_append, parseValue, show parseRule 0xcb = .double from rfl]
    dsimp only
    rw [readBigWord_beBytes_of_lt _ bits.toNat_lt, Option.map_some, UInt64.ofNat_toNat]

theorem parse_text {text : Bytes} (short : text.length < 2 ^ 32) (rest : Bytes) :
    parseValue lib (levels + 1) (writeText text ++ rest) = some (.string text, rest) := by
  have read := readText text short rest
  have isText : ∃ tag after, writeText text = tag :: after ∧ parseRule tag = .string := by
    rw [writeText]
    rcases stringHeader_cases short with ⟨fix, header⟩ | ⟨tag, width, -, header, tags⟩
    · have tags : ∀ size ≤ 31, parseRule (UInt8.ofNat (0xa0 ||| size)) = .string := by decide
      exact ⟨_, _, by rw [header]; rfl, tags _ fix⟩
    · refine ⟨tag, _, by rw [header]; rfl, ?_⟩
      rcases tags with ⟨rfl, -⟩ | ⟨rfl, -⟩ | ⟨rfl, -⟩ <;> rfl
  obtain ⟨tag, after, split, rule⟩ := isText
  rw [split, List.cons_append] at read ⊢
  rw [parseValue, rule]
  dsimp only
  rw [read]
  rfl

/-- The header of a binary value: one of a fixed size, or one with the size behind its tag. -/
theorem binaryHeader_cases {size : Nat} (ext : Bool) (short : size < 2 ^ 32) :
    (∃ tag, ext = true ∧ binaryHeader size ext = [tag] ∧ parseRule tag = .fixext size ∧
      skipRule tag = .bytes (size + 1)) ∨
    ∃ tag width, size < 256 ^ width ∧ binaryHeader size ext = tag :: beBytes width size ∧
      parseRule tag = (if ext then .ext width else .binary width) ∧
      skipRule tag = .sized width (if ext then 1 else 0) := by
  unfold binaryHeader
  split
  next byte =>
    cases ext with
    | false => exact .inr ⟨0xc4, 1, byte, rfl, rfl, rfl⟩
    | true =>
      rw [if_pos rfl]
      split
      · exact .inl ⟨0xd4, rfl, rfl, rfl, rfl⟩
      · exact .inl ⟨0xd5, rfl, rfl, rfl, rfl⟩
      · exact .inl ⟨0xd6, rfl, rfl, rfl, rfl⟩
      · exact .inl ⟨0xd7, rfl, rfl, rfl, rfl⟩
      · exact .inl ⟨0xd8, rfl, rfl, rfl, rfl⟩
      · exact .inr ⟨0xc7, 1, byte, rfl, rfl, rfl⟩
  next =>
    right
    split
    next word =>
      cases ext with
      | false => exact ⟨0xc5, 2, word, rfl, rfl, rfl⟩
      | true => exact ⟨0xc8, 2, word, rfl, rfl, rfl⟩
    next =>
      cases ext with
      | false => exact ⟨0xc6, 4, short, rfl, rfl, rfl⟩
      | true => exact ⟨0xc9, 4, short, rfl, rfl, rfl⟩

theorem getExt_append (subtype : UInt64) (bytes rest : Bytes) :
    getExt bytes.length (subtype.toUInt8 :: (bytes ++ rest)) =
      some (.binary bytes (some subtype.toUInt8.toUInt64), rest) := by
  have one : readBigWord 1 (subtype.toUInt8 :: (bytes ++ rest)) =
      some (subtype.toUInt8.toNat, bytes ++ rest) := by
    rw [readBigWord, show subtype.toUInt8 :: (bytes ++ rest) = [subtype.toUInt8] ++ (bytes ++ rest)
      from rfl, @readFixed_append' 1 [subtype.toUInt8] _ rfl]
    exact congrArg some (Prod.ext (Nat.add_zero _) rfl)
  have same : UInt64.ofNat subtype.toUInt8.toNat = subtype.toUInt8.toUInt64 := by
    rw [← UInt8.toNat_toUInt64, UInt64.ofNat_toNat]
  rw [getExt, one]
  dsimp only [bind, Option.bind_some]
  rw [readFixed_append, same]
  rfl

theorem parse_binary {bytes : Bytes} (subtype : Option UInt64) (short : bytes.length < 2 ^ 32)
    (rest : Bytes) : parseValue lib (levels + 1) (toMsgpack lib (.binary bytes subtype) ++ rest) =
      some (restored lib (.binary bytes subtype), rest) := by
  rw [toMsgpack, restored, List.append_assoc, List.append_assoc]
  rcases binaryHeader_cases subtype.isSome short with
    ⟨tag, ext, header, rule, -⟩ | ⟨tag, width, fits, header, rule, -⟩
  · obtain ⟨kind, rfl⟩ := Option.isSome_iff_exists.mp ext
    rw [header, List.singleton_append, parseValue, rule]
    exact getExt_append kind bytes rest
  · rw [header, List.cons_append, parseValue, rule]
    cases subtype with
    | none =>
      have read := @readBigWord_beBytes_of_lt width bytes.length (bytes ++ rest) fits
      simp only [Option.isSome_none, Bool.false_eq_true, if_false, subtypeByte, List.nil_append, read,
        bind, Option.bind_some, readFixed_append]
      rfl
    | some kind =>
      have read := @readBigWord_beBytes_of_lt width bytes.length
        (subtypeByte (some kind) ++ (bytes ++ rest)) fits
      simp only [Option.isSome_some, if_true, read, Option.bind_some]
      exact getExt_append kind bytes rest

/-- The items behind the header of an array. -/
theorem parse_array {count : Nat} (short : count < 2 ^ 32) (rest : Bytes) :
    parseValue lib (levels + 1) (arrayHeader count ++ rest) =
      (readMany (parseValue lib levels) count rest).map fun read => (.array read.1, read.2) := by
  unfold arrayHeader containerHeader
  split
  next fix =>
    have tags : ∀ size ≤ 15, parseRule (UInt8.ofNat (0x90 ||| size)) = .array size := by decide
    rw [List.singleton_append, parseValue, tags _ fix]
    dsimp only
    cases readMany (parseValue lib levels) count rest <;> rfl
  next =>
    have sized : ∀ {tag width}, parseRule tag = .sizedArray width → count < 256 ^ width →
        parseValue lib (levels + 1) (tag :: beBytes width count ++ rest) =
          (readMany (parseValue lib levels) count rest).map fun read => (.array read.1, read.2) := by
      intro tag width rule fits
      rw [List.cons_append, parseValue, rule]
      dsimp only
      rw [readBigWord_beBytes_of_lt _ fits]
      change (readMany (parseValue lib levels) count rest).bind _ = _
      cases readMany (parseValue lib levels) count rest <;> rfl
    split
    next word => exact sized rfl word
    next => exact sized rfl short

/-- One member, as `parse_msgpack_internal` reads it. -/
def parseMember (lib : JsonLibrary) (levels : Nat) (bytes : Bytes) : Option ((Bytes × Value) × Bytes) := do
  let (name, rest) ← getMsgpackString bytes
  let (value, rest) ← parseValue lib levels rest
  return ((name, value), rest)

/-- The members behind the header of an object. -/
theorem parse_object {count : Nat} (short : count < 2 ^ 32) (rest : Bytes) :
    parseValue lib (levels + 1) (objectHeader count ++ rest) =
      (readMany (parseMember lib levels) count rest).map fun read => (ofMembers read.1, read.2) := by
  unfold objectHeader containerHeader
  split
  next fix =>
    have tags : ∀ size ≤ 15, parseRule (UInt8.ofNat (0x80 ||| size)) = .object size := by decide
    rw [List.singleton_append, parseValue, tags _ fix]
    change (readMany (parseMember lib levels) count rest).bind _ = _
    cases readMany (parseMember lib levels) count rest <;> rfl
  next =>
    have sized : ∀ {tag width}, parseRule tag = .sizedObject width → count < 256 ^ width →
        parseValue lib (levels + 1) (tag :: beBytes width count ++ rest) =
          (readMany (parseMember lib levels) count rest).map fun read => (ofMembers read.1, read.2) := by
      intro tag width rule fits
      rw [List.cons_append, parseValue, rule]
      dsimp only
      rw [readBigWord_beBytes_of_lt _ fits]
      change (readMany (parseMember lib levels) count rest).bind _ = _
      cases readMany (parseMember lib levels) count rest <;> rfl
    split
    next word => exact sized rfl word
    next => exact sized rfl short

end Parse

/-- What `to_msgpack` writes, `from_msgpack` reads, whatever follows. -/
theorem parse_toMsgpack (value : Value) : ∀ levels rest, nesting value < levels →
    representable value = true →
      parseValue lib levels (toMsgpack lib value ++ rest) = some (restored lib value, rest) := by
  induction value using inside with
  | array items ih =>
    intro levels rest deep fits
    obtain ⟨count, fits⟩ := representable_array.mp fits
    obtain ⟨levels, rfl⟩ : ∃ below, levels = below + 1 := ⟨levels - 1, by omega⟩
    have inner := nesting_array.mp deep
    rw [toMsgpack, itemsToMsgpack_eq, List.append_assoc, parse_array count,
      readMany_flatMap fun item member rest => ih item member levels rest (inner item member)
        (fits item member), restored, itemsRestored_eq]
    rfl
  | object members ih =>
    intro levels rest deep fits
    obtain ⟨count, fits⟩ := representable_object.mp fits
    obtain ⟨levels, rfl⟩ : ∃ below, levels = below + 1 := ⟨levels - 1, by omega⟩
    have inner := nesting_object.mp deep
    have each : ∀ member ∈ members, ∀ rest, parseMember lib levels (memberToMsgpack lib member ++ rest) =
        some ((member.1, restored lib member.2), rest) := by
      intro member isMember rest
      rw [parseMember, memberToMsgpack, List.append_assoc, readText _ (fits member isMember).1]
      dsimp only [bind, Option.bind_some]
      rw [ih member isMember levels rest (inner member isMember) (fits member isMember).2]
      rfl
    rw [toMsgpack, membersToMsgpack_eq, List.append_assoc, parse_object count,
      readMany_flatMap each, restored, membersRestored_eq]
    rfl
  | scalar value noArray noObject =>
    intro levels rest deep fits
    obtain ⟨levels, rfl⟩ : ∃ below, levels = below + 1 := ⟨levels - 1, by omega⟩
    cases value with
    | array items => exact absurd rfl (noArray items)
    | object members => exact absurd rfl (noObject members)
    | null => rfl
    | boolean value => cases value <;> rfl
    | integer value =>
      have low := Int64.minValue_le_toInt value
      have high := Int64.toInt_lt value
      rw [toMsgpack, writeInteger, restored]
      split
      · exact parse_unsigned (by omega) rest
      next negative =>
        rw [parse_negative low (by omega), Int64.ofInt_toInt]
    | unsigned value =>
      rw [toMsgpack, parse_unsigned value.toNat_lt, UInt64.ofNat_toNat]
      rfl
    | float bits => exact parse_float bits rest
    | string text =>
      rw [representable, decide_eq_true_eq] at fits
      exact parse_text fits rest
    | binary bytes subtype =>
      rw [representable, decide_eq_true_eq] at fits
      exact parse_binary subtype fits rest

/-! ## What is written is skipped -/

theorem skip_binary {levels : Nat} {bytes : Bytes} (subtype : Option UInt64)
    (short : bytes.length < 2 ^ 32) (rest : Bytes) :
    skipMsgpack (levels + 1) (toMsgpack lib (.binary bytes subtype) ++ rest) = some rest := by
  have size : (subtypeByte subtype ++ bytes).length = bytes.length + if subtype.isSome then 1 else 0 := by
    cases subtype with
    | none => rfl
    | some kind => rfl
  rw [toMsgpack, List.append_assoc]
  rcases binaryHeader_cases subtype.isSome short with
    ⟨tag, ext, header, -, rule⟩ | ⟨tag, width, fits, header, -, rule⟩
  · rw [header, List.singleton_append]
    apply skip_bytes rule
    rw [size, if_pos ext]
  · rw [header, List.cons_append, skipMsgpack, rule]
    dsimp only
    rw [readBigWord_beBytes_of_lt _ fits, Option.bind_some, skipBytes, readFixed_append' _ size]
    rfl

/-- `skipMsgpack` passes over a value and nothing else. -/
theorem skip_toMsgpack (value : Value) : ∀ levels rest, nesting value < levels →
    representable value = true → skipMsgpack levels (toMsgpack lib value ++ rest) = some rest := by
  induction value using inside with
  | array items ih =>
    intro levels rest deep fits
    obtain ⟨count, fits⟩ := representable_array.mp fits
    obtain ⟨levels, rfl⟩ : ∃ below, levels = below + 1 := ⟨levels - 1, by omega⟩
    have inner := nesting_array.mp deep
    rw [toMsgpack, itemsToMsgpack_eq, List.append_assoc, skip_array count,
      @passMany_flatMap _ _ (fun _ => true) _ _ fun item member rest =>
        ih item member levels rest (inner item member) (fits item member)]
    simp
  | object members ih =>
    intro levels rest deep fits
    obtain ⟨count, fits⟩ := representable_object.mp fits
    obtain ⟨levels, rfl⟩ : ∃ below, levels = below + 1 := ⟨levels - 1, by omega⟩
    have inner := nesting_object.mp deep
    have each : ∀ member ∈ members, ∀ rest,
        ((skipMsgpack levels (memberToMsgpack lib member ++ rest)).bind (skipMsgpack levels)) =
          some rest := by
      intro member isMember rest
      have deeper := inner member isMember
      obtain ⟨below, rfl⟩ : ∃ below, levels = below + 1 := ⟨levels - 1, by omega⟩
      rw [memberToMsgpack, writeText, List.append_assoc, List.append_assoc,
        skip_text (fits member isMember).1, Option.bind_some]
      exact ih member isMember _ rest deeper (fits member isMember).2
    rw [toMsgpack, membersToMsgpack_eq, List.append_assoc, skip_object count,
      @passMany_flatMap _ _ (fun _ => true) _ _ each]
    simp
  | scalar value noArray noObject =>
    intro levels rest deep fits
    obtain ⟨levels, rfl⟩ : ∃ below, levels = below + 1 := ⟨levels - 1, by omega⟩
    cases value with
    | array items => exact absurd rfl (noArray items)
    | object members => exact absurd rfl (noObject members)
    | null => exact skip_done rfl rest
    | boolean value => cases value <;> exact skip_done rfl rest
    | integer value =>
      rw [toMsgpack, writeInteger]
      split
      · exact skip_unsigned _ rest
      next negative => exact skip_negative (by omega) rest
    | unsigned value => exact skip_unsigned _ rest
    | float bits => exact skip_float _ rest
    | string text =>
      rw [representable, decide_eq_true_eq] at fits
      rw [toMsgpack, writeText, List.append_assoc]
      exact skip_text fits rest
    | binary bytes subtype =>
      rw [representable, decide_eq_true_eq] at fits
      exact skip_binary subtype fits rest

end PacificDb.Sst.Value
