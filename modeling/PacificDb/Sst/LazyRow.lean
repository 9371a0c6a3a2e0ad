import PacificDb.Sst.ValueRoundTrip

/-!
# Lazy access to a row

A view finds a member of a row without decoding the rest, and `project` decodes the
members it is asked for. Both find what `materialize` has under the name, in the same
storage class, with or without the field index (`lazy_access`), for rows whose members
nest at most `kMaxDepth` levels.
-/

namespace PacificDb.Sst.Value

open Lib
open Lsm hiding MsgpackRowView nesting

variable {lib : JsonLibrary}

/-! ## Views -/

/-- `materialize`; none is an exception. -/
def materialize (lib : JsonLibrary) (view : MsgpackRowView) : Option Value :=
  if view.data.isEmpty then none else fromMsgpack lib view.data

/-- `field`. -/
def field (lib : JsonLibrary) (view : MsgpackRowView) (name : Bytes) : Option Value :=
  (view.fieldBytes name).bind (decodeMsgpackField lib)

/-- The walk of `project` over the members; a name is taken where it first stands. -/
def projectMembers (lib : JsonLibrary) (names : List Bytes) :
    Nat → Bytes → List (Bytes × Value) → Option Value
  | 0, [], selected => some (.object selected)
  | 0, _ :: _, _ => none
  | count + 1, bytes, selected =>
      match readMember bytes with
      | none => none
      | some ((key, value), rest) =>
          if key ∈ names ∧ selected.lookup key = none then
            (decodeMsgpackField lib value).bind fun decoded =>
              projectMembers lib names count rest (SortedMap.put selected key decoded)
          else projectMembers lib names count rest selected

/-- `project`; none is an exception. -/
def project (lib : JsonLibrary) (view : MsgpackRowView) (names : List Bytes) : Option Value :=
  if view.indexed then
    view.fieldIndex.map fun _ => .object (names.foldl (fun selected name =>
      match field lib view name with
      | some value => SortedMap.put selected name value
      | none => selected) [])
  else
    match readMapHeader view.data with
    | none => none
    | some (count, rest) => projectMembers lib names count rest []

/-! ## Decoding a written value -/

theorem header_length {short count : Nat} {tag16 tag32 : UInt8} (fits : count < 2 ^ 32) :
    0 < (containerHeader short tag16 tag32 count).length :=
  List.length_pos_iff.mpr (containerHeader_ne_nil fits)

/-- A value has at least as many bytes as levels. -/
theorem nesting_le_length (value : Value) (fits : representable value = true) :
    nesting value ≤ (toMsgpack lib value).length := by
  induction value using inside with
  | array items ih =>
    obtain ⟨count, fits⟩ := representable_array.mp fits
    have header := @header_length 0x90 _ 0xdc 0xdd count
    rw [← Nat.lt_succ_iff, nesting_array]
    intro item member
    have inner := ih item member (fits item member)
    have part := @length_flatMap_le _ (toMsgpack lib) items item member
    rw [toMsgpack, itemsToMsgpack_eq, List.length_append, arrayHeader]
    omega
  | object members ih =>
    obtain ⟨count, fits⟩ := representable_object.mp fits
    have header := @header_length 0x80 _ 0xde 0xdf count
    rw [← Nat.lt_succ_iff, nesting_object]
    intro member isMember
    have inner := ih member isMember (fits member isMember).2
    have part := @length_flatMap_le _ (memberToMsgpack lib) members member isMember
    rw [memberToMsgpack, List.length_append] at part
    rw [toMsgpack, membersToMsgpack_eq, List.length_append, objectHeader]
    omega
  | scalar value noArray noObject =>
    cases value with
    | array items => exact absurd rfl (noArray items)
    | object members => exact absurd rfl (noObject members)
    | _ => exact Nat.zero_le _

theorem fromMsgpack_toMsgpack {value : Value} (fits : representable value = true) :
    fromMsgpack lib (toMsgpack lib value) = some (restored lib value) := by
  have parsed := @parse_toMsgpack lib value ((toMsgpack lib value).length + 1) []
    (Nat.lt_succ_of_le (nesting_le_length value fits)) fits
  rw [List.append_nil] at parsed
  rw [fromMsgpack, parsed]

theorem decodeMsgpackField_toMsgpack {value : Value} (fits : representable value = true) :
    decodeMsgpackField lib (toMsgpack lib value) = some (restored lib value) := by
  rw [decodeMsgpackField_eq, fromMsgpack_toMsgpack fits]

/-! ## The members of a written row -/

/-- A row whose members a view can pass over. -/
structure Viewable (members : List (Bytes × Value)) : Prop where
  ordered : members.Pairwise fun member next => member.1 < next.1
  fits : representable (.object members) = true
  shallow : ∀ member ∈ members, nesting member.2 ≤ kMaxDepth

/-- The name of a member and the bytes of its value. -/
def written (lib : JsonLibrary) (member : Bytes × Value) : Bytes × Bytes :=
  (member.1, toMsgpack lib member.2)

/-- A member as it comes back. -/
def restoredMember (lib : JsonLibrary) (member : Bytes × Value) : Bytes × Value :=
  (member.1, restored lib member.2)

section Members

variable {members : List (Bytes × Value)} {name : Bytes}

theorem lookup_map {α β γ : Type} [BEq α] [LawfulBEq α] (change : β → γ) (name : α)
    (entries : List (α × β)) :
    (entries.map fun entry => (entry.1, change entry.2)).lookup name =
      (entries.lookup name).map change := by
  induction entries with
  | nil => rfl
  | cons entry rest ih =>
    rw [List.map_cons, List.lookup_cons, List.lookup_cons, ih]
    cases name == entry.1 <;> rfl

theorem readMember_written {member : Bytes × Value} (short : member.1.length < 2 ^ 32)
    (fits : representable member.2 = true) (shallow : nesting member.2 ≤ kMaxDepth) (rest : Bytes) :
    readMember (memberToMsgpack lib member ++ rest) = some (written lib member, rest) := by
  rw [memberToMsgpack, writeText, List.append_assoc, List.append_assoc, readMember,
    readMsgpackString_text short]
  dsimp only
  rw [skip_toMsgpack member.2 kLevels rest (Nat.lt_succ_of_le shallow) fits]
  dsimp only
  rw [List.length_append, Nat.add_sub_cancel, List.take_left', written]
  rfl

/-- Every member of the row is read back, whatever follows. -/
theorem Viewable.each (viewable : Viewable members) :
    ∀ member ∈ members, ∀ rest, readMember (memberToMsgpack lib member ++ rest) =
      some (written lib member, rest) := by
  intro member isMember rest
  obtain ⟨short, fits⟩ := (representable_object.mp viewable.fits).2 member isMember
  exact readMember_written short fits (viewable.shallow member isMember) rest

variable (each : ∀ member ∈ members, ∀ rest, readMember (memberToMsgpack lib member ++ rest) =
  some (written lib member, rest))

include each

theorem readMembers_written (rest : Bytes) :
    readMembers members.length (members.flatMap (memberToMsgpack lib) ++ rest) =
      some (members.map (written lib), rest) := by
  induction members with
  | nil => rfl
  | cons member members ih =>
    obtain ⟨first, later⟩ := List.forall_mem_cons.mp each
    rw [List.length_cons, readMembers, List.flatMap_cons, List.append_assoc, first]
    dsimp only
    rw [ih later]
    rfl

theorem walkMembers_written (rest : Bytes) :
    walkMembers name members.length (members.flatMap (memberToMsgpack lib) ++ rest) =
      (members.map (written lib)).lookup name := by
  induction members with
  | nil => rfl
  | cons member members ih =>
    obtain ⟨first, later⟩ := List.forall_mem_cons.mp each
    rw [List.length_cons, walkMembers, List.flatMap_cons, List.append_assoc, first, List.map_cons,
      List.lookup_cons, written]
    dsimp only
    by_cases own : member.1 = name
    · rw [if_pos own, beq_iff_eq.mpr own.symm]
    · rw [if_neg own, beq_eq_false_iff_ne.mpr (Ne.symm own), ih later]

end Members

/-! ## What a view finds -/

section Views

variable {members : List (Bytes × Value)}

/-- The bytes of the row, behind the header. -/
theorem header_toMsgpack (viewable : Viewable members) :
    readMapHeader (toMsgpack lib (.object members)) =
      some (members.length, members.flatMap (memberToMsgpack lib)) := by
  rw [toMsgpack, membersToMsgpack_eq]
  exact readMapHeader_objectHeader (representable_object.mp viewable.fits).1 _

theorem fieldIndex_toMsgpack (viewable : Viewable members) (indexed : Bool) :
    (MsgpackRowView.mk (toMsgpack lib (.object members)) indexed).fieldIndex =
      some ((members.map (written lib)).take kIndexedFields) := by
  have read := readMembers_written (@Viewable.each lib _ viewable) []
  rw [List.append_nil] at read
  unfold MsgpackRowView.fieldIndex
  dsimp only
  rw [header_toMsgpack viewable]
  dsimp only
  rw [read]

/-- With and without its index a view finds the bytes of the member. -/
theorem fieldBytes_toMsgpack (viewable : Viewable members) (indexed : Bool) (name : Bytes) :
    (MsgpackRowView.mk (toMsgpack lib (.object members)) indexed).fieldBytes name =
      (members.map (written lib)).lookup name := by
  have walked := @walkMembers_written lib members name (@Viewable.each lib _ viewable) []
  rw [List.append_nil] at walked
  unfold MsgpackRowView.fieldBytes
  rw [fieldIndex_toMsgpack viewable]
  dsimp only
  rw [header_toMsgpack viewable]
  dsimp only
  rw [walked]
  cases indexed with
  | false => rfl
  | true =>
    rw [if_pos rfl]
    cases found : ((members.map (written lib)).take kIndexedFields).lookup name with
    | some value => exact (lookup_of_lookup_take found).symm
    | none =>
      dsimp only
      split
      next few =>
        rw [List.length_take] at few
        rw [List.take_of_length_le (by omega)] at found
        exact found.symm
      next => rfl

theorem field_toMsgpack (viewable : Viewable members) (indexed : Bool) (name : Bytes) :
    field lib ⟨toMsgpack lib (.object members), indexed⟩ name =
      (members.map (restoredMember lib)).lookup name := by
  have decoded : ∀ value, members.lookup name = some value →
      decodeMsgpackField lib (toMsgpack lib value) = some (restored lib value) := by
    intro value found
    obtain ⟨before, after, split, -⟩ := List.lookup_eq_some_iff.mp found
    have member : (name, value) ∈ members := by rw [split]; simp
    exact decodeMsgpackField_toMsgpack ((representable_object.mp viewable.fits).2 _ member).2
  rw [field, fieldBytes_toMsgpack viewable]
  unfold written restoredMember
  rw [lookup_map (toMsgpack lib), lookup_map (restored lib)]
  cases found : members.lookup name with
  | none => rfl
  | some value => exact decoded value found

/-! ## What a projection has -/

theorem lookup_foldl_put {found : Bytes → Option Value} (name : Bytes) (names : List Bytes)
    (selected : List (Bytes × Value)) :
    (names.foldl (fun selected name =>
        match found name with
        | some value => SortedMap.put selected name value
        | none => selected) selected).lookup name =
      if name ∈ names then (found name).or (selected.lookup name) else selected.lookup name := by
  induction names generalizing selected with
  | nil => rfl
  | cons first names ih =>
    rw [List.foldl_cons, ih]
    by_cases own : name = first
    · subst own
      rw [if_pos List.mem_cons_self]
      cases held : found name with
      | none => split <;> rfl
      | some value =>
        dsimp only
        rw [SortedMap.lookup_put, if_pos rfl]
        split <;> rfl
    · have apart : name ∈ first :: names ↔ name ∈ names := by simp [own]
      have same : (match found first with
          | some value => SortedMap.put selected first value
          | none => selected).lookup name = selected.lookup name := by
        cases found first with
        | none => rfl
        | some value =>
          dsimp only
          rw [SortedMap.lookup_put, if_neg own]
      simp only [apart, same]

/-- The walk takes the members that are asked for and keeps what it has taken. -/
theorem projectMembers_written (names : List Bytes)
    (each : ∀ member ∈ members, ∀ rest, readMember (memberToMsgpack lib member ++ rest) =
      some (written lib member, rest))
    (decoded : ∀ member ∈ members, decodeMsgpackField lib (toMsgpack lib member.2) =
      some (restored lib member.2)) (selected : List (Bytes × Value)) :
    ∃ final, projectMembers lib names members.length (members.flatMap (memberToMsgpack lib)) selected =
        some (.object final) ∧
      ∀ name, final.lookup name = (selected.lookup name).or
        (if name ∈ names then (members.map (restoredMember lib)).lookup name else none) := by
  induction members generalizing selected with
  | nil =>
    refine ⟨selected, rfl, fun name => ?_⟩
    rw [List.map_nil, List.lookup_nil, ite_self, Option.or_none]
  | cons member members ih =>
    obtain ⟨first, later⟩ := List.forall_mem_cons.mp each
    obtain ⟨decodedFirst, decodedLater⟩ := List.forall_mem_cons.mp decoded
    have step : ∀ name, ((member :: members).map (restoredMember lib)).lookup name =
        if name = member.1 then some (restored lib member.2)
        else (members.map (restoredMember lib)).lookup name := by
      intro name
      rw [List.map_cons, List.lookup_cons, restoredMember]
      by_cases own : name = member.1
      · rw [if_pos own, beq_iff_eq.mpr own]
      · rw [if_neg own, beq_eq_false_iff_ne.mpr own]
    rw [List.length_cons, projectMembers, List.flatMap_cons, first, written]
    dsimp only
    by_cases taken : member.1 ∈ names ∧ selected.lookup member.1 = none
    · obtain ⟨final, projected, finds⟩ := ih later decodedLater
        (SortedMap.put selected member.1 (restored lib member.2))
      rw [if_pos taken, decodedFirst, Option.bind_some]
      refine ⟨final, projected, fun name => ?_⟩
      rw [finds, SortedMap.lookup_put, step]
      by_cases own : name = member.1
      · rw [if_pos own, if_pos own, own, taken.2, if_pos taken.1, if_pos taken.1]
        rfl
      · rw [if_neg own, if_neg own]
    · obtain ⟨final, projected, finds⟩ := ih later decodedLater selected
      rw [if_neg taken]
      refine ⟨final, projected, fun name => ?_⟩
      rw [finds, step]
      by_cases own : name = member.1
      · cases held : selected.lookup name with
        | some value => rfl
        | none =>
          have unasked : name ∉ names := fun asked => taken ⟨own ▸ asked, own ▸ held⟩
          rw [if_neg unasked, if_neg unasked]
      · rw [if_neg own]

/-- With and without the index a projection has the members that are asked for. -/
theorem project_toMsgpack (viewable : Viewable members) (indexed : Bool) (names : List Bytes) :
    ∃ selected,
      project lib ⟨toMsgpack lib (.object members), indexed⟩ names = some (.object selected) ∧
      ∀ name, selected.lookup name =
        if name ∈ names then (members.map (restoredMember lib)).lookup name else none := by
  unfold project
  dsimp only
  cases indexed with
  | false =>
    have decoded : ∀ member ∈ members, decodeMsgpackField lib (toMsgpack lib member.2) =
        some (restored lib member.2) := fun member isMember =>
      decodeMsgpackField_toMsgpack ((representable_object.mp viewable.fits).2 member isMember).2
    obtain ⟨final, projected, finds⟩ := projectMembers_written names viewable.each decoded []
    rw [header_toMsgpack viewable]
    exact ⟨final, projected, finds⟩
  | true =>
    rw [if_pos rfl, fieldIndex_toMsgpack viewable]
    refine ⟨_, rfl, fun name => ?_⟩
    rw [lookup_foldl_put, List.lookup_nil, Option.or_none, field_toMsgpack viewable]

end Views

/-! ## Any bytes -/

theorem passMany_suffix {pass : Bytes → Option Bytes}
    (each : ∀ {bytes rest}, pass bytes = some rest → rest <:+ bytes) {count : Nat} {bytes rest : Bytes}
    (passed : passMany pass count bytes = some rest) : rest <:+ bytes := by
  induction count generalizing bytes with
  | zero =>
    cases passed
    exact List.suffix_refl _
  | succ count ih =>
    obtain ⟨next, first, later⟩ := Option.bind_eq_some_iff.mp passed
    exact (ih later).trans (each first)

theorem skipBytes_suffix {count : Nat} {bytes rest : Bytes} (passed : skipBytes count bytes = some rest) :
    rest <:+ bytes := by
  obtain ⟨⟨first, after⟩, taken, rfl⟩ := Option.map_eq_some_iff.mp passed
  exact ⟨first, (readFixed_some taken).1.symm⟩

theorem readBigWord_suffix {width value : Nat} {bytes rest : Bytes}
    (read : readBigWord width bytes = some (value, rest)) : rest <:+ bytes := by
  obtain ⟨⟨first, after⟩, taken, same⟩ := Option.map_eq_some_iff.mp read
  cases same
  exact ⟨first, (readFixed_some taken).1.symm⟩

/-- On any bytes the skipper takes at least one byte and stays inside. -/
theorem skipMsgpack_inside {levels : Nat} : ∀ {bytes rest : Bytes},
    skipMsgpack levels bytes = some rest → ∃ tag after, bytes = tag :: after ∧ rest <:+ after := by
  induction levels with
  | zero => exact fun passed => by cases passed
  | succ levels ih =>
    intro bytes rest passed
    have within : ∀ {bytes rest : Bytes}, skipMsgpack levels bytes = some rest → rest <:+ bytes := by
      intro bytes rest passed
      obtain ⟨tag, after, rfl, suffix⟩ := ih passed
      exact suffix.trans (List.suffix_cons tag after)
    have pairs : ∀ {bytes rest : Bytes},
        ((skipMsgpack levels bytes).bind (skipMsgpack levels)) = some rest → rest <:+ bytes := by
      intro bytes rest passed
      obtain ⟨next, key, value⟩ := Option.bind_eq_some_iff.mp passed
      exact (within value).trans (within key)
    cases bytes with
    | nil => cases passed
    | cons tag after =>
      refine ⟨tag, after, rfl, ?_⟩
      rw [skipMsgpack] at passed
      cases rule : skipRule tag with
      | done =>
        rw [rule] at passed
        cases passed
        exact List.suffix_refl _
      | bytes count =>
        rw [rule] at passed
        exact skipBytes_suffix passed
      | values count =>
        rw [rule] at passed
        exact passMany_suffix within passed
      | pairs count =>
        rw [rule] at passed
        exact passMany_suffix pairs passed
      | sized width extra =>
        rw [rule] at passed
        obtain ⟨read, header, skipped⟩ := Option.bind_eq_some_iff.mp passed
        exact (skipBytes_suffix skipped).trans (readBigWord_suffix header)
      | sizedValues width =>
        rw [rule] at passed
        obtain ⟨read, header, skipped⟩ := Option.bind_eq_some_iff.mp passed
        exact (passMany_suffix within skipped).trans (readBigWord_suffix header)
      | sizedPairs width =>
        rw [rule] at passed
        obtain ⟨read, header, skipped⟩ := Option.bind_eq_some_iff.mp passed
        exact (passMany_suffix pairs skipped).trans (readBigWord_suffix header)
      | invalid =>
        rw [rule] at passed
        cases passed

/-! ## Lazy access -/

theorem materialize_toMsgpack {members : List (Bytes × Value)} (viewable : Viewable members)
    (indexed : Bool) : materialize lib ⟨toMsgpack lib (.object members), indexed⟩ =
      some (.object (members.map (restoredMember lib))) := by
  have some : (toMsgpack lib (.object members)).isEmpty = false := by
    have header := @header_length 0x80 _ 0xde 0xdf (representable_object.mp viewable.fits).1
    rw [List.isEmpty_eq_false_iff, ← List.length_pos_iff, toMsgpack, List.length_append, objectHeader]
    omega
  have sorted : (members.map (restoredMember lib)).Pairwise fun member next => member.1 < next.1 :=
    List.pairwise_map.mpr viewable.ordered
  rw [materialize, some, if_neg Bool.false_ne_true, fromMsgpack_toMsgpack viewable.fits, restored,
    membersRestored_eq, ofMembers]
  exact congrArg (fun entries => Option.some (Value.object entries)) (SortedMap.foldl_put [] sorted)

/-- Lazy access to a row is decoding it: a view finds under a name what `materialize` has
there, and nothing where it has nothing, and so does a projection. The skipper passes
over each value exactly, and over no more than there is. -/
theorem lazy_access {members : List (Bytes × Value)} (viewable : Viewable members) :
    (∃ decoded, decoded.map Prod.fst = members.map Prod.fst ∧ ∀ indexed,
      materialize lib ⟨toMsgpack lib (.object members), indexed⟩ = some (.object decoded) ∧
      (∀ name, field lib ⟨toMsgpack lib (.object members), indexed⟩ name = decoded.lookup name) ∧
      ∀ names, ∃ selected,
        project lib ⟨toMsgpack lib (.object members), indexed⟩ names = some (.object selected) ∧
        ∀ name, selected.lookup name = if name ∈ names then decoded.lookup name else none) ∧
    (∀ member ∈ members, ∀ rest,
      skipMsgpack kLevels (toMsgpack lib member.2 ++ rest) = some rest) ∧
    ∀ levels bytes rest, skipMsgpack levels bytes = some rest →
      ∃ used, used ≠ [] ∧ bytes = used ++ rest := by
  refine ⟨⟨members.map (restoredMember lib), ?_, fun indexed => ⟨materialize_toMsgpack viewable indexed,
    field_toMsgpack viewable indexed, project_toMsgpack viewable indexed⟩⟩, ?_, ?_⟩
  · rw [List.map_map]
    rfl
  · intro member isMember rest
    exact skip_toMsgpack member.2 kLevels rest (Nat.lt_succ_of_le (viewable.shallow member isMember))
      ((representable_object.mp viewable.fits).2 member isMember).2
  · intro levels bytes rest passed
    obtain ⟨tag, after, rfl, used, rfl⟩ := skipMsgpack_inside passed
    exact ⟨tag :: used, List.cons_ne_nil _ _, rfl⟩

/-- A library for rows without `float` values. -/
def noFloats : JsonLibrary := ⟨fun _ => none, fun _ => "", fun _ => none, id⟩

/-- A row with a number, a nested value and a binary one. -/
def sampleRow : List (Bytes × Value) :=
  [([97], .integer (-5)), ([98], .array [.object [([99], .string [100])]]), ([99], .binary [1, 2] (some 7))]

theorem lazy_access_sampleRow :
    (∃ decoded, decoded.map Prod.fst = sampleRow.map Prod.fst ∧ ∀ indexed,
      materialize noFloats ⟨toMsgpack noFloats (.object sampleRow), indexed⟩ = some (.object decoded) ∧
      (∀ name, field noFloats ⟨toMsgpack noFloats (.object sampleRow), indexed⟩ name =
        decoded.lookup name) ∧
      ∀ names, ∃ selected,
        project noFloats ⟨toMsgpack noFloats (.object sampleRow), indexed⟩ names =
          some (.object selected) ∧
        ∀ name, selected.lookup name = if name ∈ names then decoded.lookup name else none) ∧
    (∀ member ∈ sampleRow, ∀ rest,
      skipMsgpack kLevels (toMsgpack noFloats member.2 ++ rest) = some rest) ∧
    ∀ levels bytes rest, skipMsgpack levels bytes = some rest →
      ∃ used, used ≠ [] ∧ bytes = used ++ rest :=
  lazy_access ⟨by decide, by decide, by decide⟩

end PacificDb.Sst.Value
