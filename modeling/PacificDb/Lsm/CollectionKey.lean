import PacificDb.JsonText.Number

/-!
# The keys of collections

The memory tables are filed under one string for each collection, made of the name of the
user, the database and the collection with the size of each before it. The string is read
back by its offsets, in the arithmetic of `size_t`.
-/

namespace PacificDb.Lsm

open JsonText Lib.JsonGrammar

/-- A `std::string`: its size is a `size_t`. -/
@[ext] structure StdString where
  bytes : List UInt8
  size_lt : bytes.length < 2 ^ 64

/-- An access past the end of a string. -/
inductive Fault where
  | outOfRange
  deriving Repr, DecidableEq

namespace StdString

def size (text : StdString) : Nat := text.bytes.length

/-- `key[i]`. -/
def read (key : StdString) (i : Nat) : Except Fault UInt8 :=
  match key.bytes[i]? with
  | some byte => .ok byte
  | none => .error .outOfRange

/-- `key.find(':', offset)`. -/
def findColon (key : StdString) (offset : Nat) : Option Nat :=
  ((key.bytes.drop offset).findIdx? (· == 0x3a)).map (offset + ·)

/-- `output.assign(key, offset, length)`. -/
def assign (key : StdString) (offset length : Nat) : Except Fault (List UInt8) :=
  if key.size < offset + length then .error .outOfRange
  else .ok ((key.bytes.drop offset).take length)

end StdString

def addSize (first second : Nat) : Nat := (first + second) % 2 ^ 64

def subSize (first second : Nat) : Nat := (first + (2 ^ 64 - second)) % 2 ^ 64

/-- One part of a key: the size, a colon and the name. -/
def keyPart (name : List UInt8) : List UInt8 := digits name.length ++ 0x3a :: name

/-- `colKey`; none where the string would be too long, and the concatenation throws. -/
def colKey (userId db coll : StdString) : Option StdString :=
  let key := keyPart userId.bytes ++ (keyPart db.bytes ++ keyPart coll.bytes)
  if fits : key.length < 2 ^ 64 then some ⟨key, fits⟩ else none

/-- The loop over so many digits from `i` on; none where `readComponent` returns false. -/
def readLength (key : StdString) : (left i length : Nat) → Except Fault (Option Nat)
  | 0, _, length => .ok (some length)
  | left + 1, i, length => do
      let c ← key.read i
      if c < 0x30 ∨ 0x39 < c then return none
      else
        let digit := c.toNat - 0x30
        if (2 ^ 64 - 1 - digit) / 10 < length then return none
        else readLength key left (i + 1) (addSize (length * 10 % 2 ^ 64) digit)

/-- What is read, and the offset behind it. -/
def readComponent (key : StdString) (offset : Nat) : Except Fault (Option (List UInt8 × Nat)) :=
  match key.findColon offset with
  | none => .ok none
  | some colon =>
      if colon = offset then .ok none
      else do
        match ← readLength key (colon - offset) offset 0 with
        | none => return none
        | some length =>
            let offset := addSize colon 1
            if subSize key.size offset < length then return none
            else
              let output ← key.assign offset length
              return some (output, addSize offset length)

/-- `parseColKey`; none where it returns false. -/
def parseColKey (key : StdString) : Except Fault (Option (List UInt8 × List UInt8 × List UInt8)) := do
  match ← readComponent key 0 with
  | none => return none
  | some (userId, offset) =>
      match ← readComponent key offset with
      | none => return none
      | some (db, offset) =>
          match ← readComponent key offset with
          | none => return none
          | some (coll, offset) =>
              return if offset = key.size then some (userId, db, coll) else none

/-! ## Offsets -/

variable {key : StdString} {offset : Nat}

theorem addSize_of_lt {first second : Nat} (fits : first + second < 2 ^ 64) :
    addSize first second = first + second := Nat.mod_eq_of_lt fits

theorem subSize_of_le {first second : Nat} (small : first < 2 ^ 64) (below : second ≤ first) :
    subSize first second = first - second := by
  have wrapped : first + (2 ^ 64 - second) = first - second + 2 ^ 64 := by omega
  rw [subSize, wrapped, Nat.add_mod_right]
  exact Nat.mod_eq_of_lt (by omega)

theorem findColon_lt {colon : Nat} (found : key.findColon offset = some colon) :
    offset ≤ colon ∧ colon < key.size := by
  obtain ⟨i, isColon, rfl⟩ := Option.map_eq_some_iff.mp found
  obtain ⟨inside, -⟩ := List.findIdx?_eq_some_iff_getElem.mp isColon
  rw [List.length_drop] at inside
  rw [StdString.size]
  omega

/-! ## Keys that were not made by `colKey` -/

theorem readLength_reads {left i length : Nat} (inside : i + left ≤ key.size) :
    ∃ result, readLength key left i length = .ok result := by
  induction left generalizing i length with
  | zero => exact ⟨_, rfl⟩
  | succ left ih =>
    have isByte : i < key.bytes.length := by
      rw [StdString.size] at inside
      omega
    rw [readLength, StdString.read, List.getElem?_eq_getElem isByte]
    dsimp only [bind, Except.bind]
    split
    · exact ⟨_, rfl⟩
    · split
      · exact ⟨_, rfl⟩
      · apply ih
        omega

/-- Nothing past the key is read, and the offset stays in it. -/
theorem readComponent_reads (key : StdString) (offset : Nat) :
    ∃ result, readComponent key offset = .ok result ∧ ∀ part ∈ result, part.2 ≤ key.size := by
  rw [readComponent]
  cases found : key.findColon offset with
  | none => exact ⟨none, rfl, nofun⟩
  | some colon =>
    obtain ⟨low, high⟩ := findColon_lt found
    have small : key.size < 2 ^ 64 := key.size_lt
    dsimp only
    split
    · exact ⟨none, rfl, nofun⟩
    · have inside : offset + (colon - offset) ≤ key.size := by omega
      obtain ⟨length, read⟩ := @readLength_reads key (colon - offset) offset 0 inside
      rw [read]
      dsimp only [bind, Except.bind]
      cases length with
      | none => exact ⟨none, rfl, nofun⟩
      | some length =>
        have behind : addSize colon 1 = colon + 1 := addSize_of_lt (by omega)
        dsimp only
        rw [behind, subSize_of_le small high]
        split
        · exact ⟨none, rfl, nofun⟩
        · have fits : ¬key.size < colon + 1 + length := by omega
          rw [StdString.assign, if_neg fits, addSize_of_lt (by omega)]
          refine ⟨_, rfl, fun part isPart => ?_⟩
          cases isPart
          exact not_lt.mp fits

theorem parseColKey_reads (key : StdString) : ∃ result, parseColKey key = .ok result := by
  obtain ⟨first, read, -⟩ := readComponent_reads key 0
  rw [parseColKey, read]
  dsimp only [bind, Except.bind]
  cases first with
  | none => exact ⟨_, rfl⟩
  | some first =>
    obtain ⟨second, read, -⟩ := readComponent_reads key first.2
    dsimp only
    rw [read]
    dsimp only
    cases second with
    | none => exact ⟨_, rfl⟩
    | some second =>
      obtain ⟨third, read, -⟩ := readComponent_reads key second.2
      dsimp only
      rw [read]
      cases third <;> exact ⟨_, rfl⟩

/-! ## Keys that were made by `colKey` -/

def readFrom (start : Nat) (text : List UInt8) : Nat :=
  text.foldl (fun value byte => 10 * value + (byte.toNat - 0x30)) start

theorem le_readFrom (start : Nat) (text : List UInt8) : start ≤ readFrom start text := by
  induction text generalizing start with
  | nil => exact le_rfl
  | cons byte text ih =>
    rw [readFrom, List.foldl_cons]
    apply le_trans _ (ih _)
    omega

/-- The digits are read to the number they stand for, which never passes a `size_t`. -/
theorem readLength_digits {before text after : List UInt8} {start : Nat}
    (split : key.bytes = before ++ (text ++ after)) (digits : ∀ byte ∈ text, IsDigit byte)
    (small : readFrom start text < 2 ^ 64) :
    readLength key text.length before.length start = .ok (some (readFrom start text)) := by
  induction text generalizing before start with
  | nil => rfl
  | cons byte text ih =>
    obtain ⟨digit, later⟩ := List.forall_mem_cons.mp digits
    have isByte : key.bytes[before.length]? = some byte := by
      rw [split, List.cons_append, List.getElem?_append_right le_rfl, Nat.sub_self]
      rfl
    have low := UInt8.le_iff_toNat_le.mp digit.1
    have high := UInt8.le_iff_toNat_le.mp digit.2
    have inRange : ¬(byte < 0x30 ∨ 0x39 < byte) := by
      rintro (below | above)
      · exact absurd digit.1 (not_le_of_gt below)
      · exact absurd digit.2 (not_le_of_gt above)
    -- the value so far is at most the whole number
    have step : 10 * start + (byte.toNat - 0x30) < 2 ^ 64 :=
      (le_readFrom (10 * start + (byte.toNat - 0x30)) text).trans_lt small
    have noOverflow : ¬(2 ^ 64 - 1 - (byte.toNat - 0x30)) / 10 < start := by omega
    have next : addSize (start * 10 % 2 ^ 64) (byte.toNat - 0x30) =
        10 * start + (byte.toNat - 0x30) := by
      rw [addSize]
      omega
    have split : key.bytes = (before ++ [byte]) ++ (text ++ after) := by
      rw [split, List.cons_append, List.append_assoc]
      rfl
    have rest := ih split later small
    rw [List.length_append, List.length_singleton] at rest
    rw [List.length_cons, readLength, StdString.read, isByte]
    dsimp only [bind, Except.bind]
    rw [if_neg inRange, if_neg noOverflow, next]
    exact rest

theorem findColon_digits {before text after : List UInt8}
    (split : key.bytes = before ++ (text ++ 0x3a :: after)) (digits : ∀ byte ∈ text, IsDigit byte) :
    key.findColon before.length = some (before.length + text.length) := by
  have noColon : ∀ byte ∈ text, (byte == 0x3a) = false := by
    intro byte member
    rw [beq_eq_false_iff_ne]
    intro isColon
    have high := (digits byte member).2
    rw [isColon] at high
    exact absurd high (by decide)
  have first : (text ++ 0x3a :: after).findIdx? (· == 0x3a) = some text.length := by
    rw [List.findIdx?_append, List.findIdx?_eq_none_iff.mpr noColon, List.findIdx?_cons]
    simp
  rw [StdString.findColon, split, List.drop_left, first]
  rfl

/-- A part is read back, whatever is before it and behind it. -/
theorem readComponent_keyPart {before name after : List UInt8}
    (split : key.bytes = before ++ (keyPart name ++ after)) :
    readComponent key before.length =
      .ok (some (name, (before ++ keyPart name).length)) := by
  obtain ⟨some, isDigits⟩ := isDigits_digits name.length
  have total : key.bytes.length < 2 ^ 64 := key.size_lt
  have split' : key.bytes = before ++ (digits name.length ++ 0x3a :: (name ++ after)) := by
    rw [split, keyPart, List.append_assoc, List.cons_append]
  have number : readFrom 0 (digits name.length) = name.length := readDigits_digits _
  have size := congrArg List.length split'
  simp only [List.length_append, List.length_cons] at size
  have read := @readLength_digits key before _ _ 0 split' isDigits (by rw [number]; omega)
  have apart : before.length + (digits name.length).length ≠ before.length := by
    have := List.length_pos_iff.mpr some
    omega
  have count : before.length + (digits name.length).length - before.length =
      (digits name.length).length := Nat.add_sub_cancel_left _ _
  have behind : addSize (before.length + (digits name.length).length) 1 =
      (before ++ (digits name.length ++ [0x3a])).length := by
    rw [addSize_of_lt (by omega), List.length_append, List.length_append, List.length_singleton,
      Nat.add_assoc]
  have skipped : key.bytes = (before ++ (digits name.length ++ [0x3a])) ++ (name ++ after) := by
    rw [split', List.append_assoc, List.append_assoc]
    rfl
  have bound : (before ++ (digits name.length ++ [0x3a])).length + name.length ≤ key.size := by
    have sizes := congrArg List.length skipped
    rw [List.length_append, @List.length_append _ name] at sizes
    rw [StdString.size]
    omega
  have enough : ¬subSize key.size (before ++ (digits name.length ++ [0x3a])).length < name.length := by
    rw [subSize_of_le (show key.size < 2 ^ 64 from total) (by omega)]
    omega
  have assigned : key.assign (before ++ (digits name.length ++ [0x3a])).length name.length =
      .ok name := by
    rw [StdString.assign, if_neg (not_lt.mpr bound), skipped, List.drop_left, List.take_left]
  have last : addSize (before ++ (digits name.length ++ [0x3a])).length name.length =
      (before ++ keyPart name).length := by
    rw [addSize_of_lt (bound.trans_lt key.size_lt), keyPart]
    simp only [List.length_append, List.length_cons, List.length_nil]
    omega
  rw [readComponent, findColon_digits split' isDigits]
  dsimp only
  rw [if_neg apart, count, read, number]
  dsimp only [bind, Except.bind]
  rw [behind, if_neg enough, assigned]
  dsimp only
  rw [last]
  rfl

theorem parseColKey_colKey {userId db coll : StdString} (made : colKey userId db coll = some key) :
    parseColKey key = .ok (some (userId.bytes, db.bytes, coll.bytes)) := by
  rw [colKey] at made
  split at made
  · cases made
    generalize isKey : StdString.mk _ _ = key
    have bytes : key.bytes =
        keyPart userId.bytes ++ (keyPart db.bytes ++ keyPart coll.bytes) := by
      rw [← isKey]
    have first := @readComponent_keyPart key [] _ _ bytes
    have second := @readComponent_keyPart key (keyPart userId.bytes) db.bytes
      (keyPart coll.bytes) bytes
    have third := @readComponent_keyPart key (keyPart userId.bytes ++ keyPart db.bytes) coll.bytes []
      (by rw [bytes, List.append_assoc, List.append_nil])
    have whole : (keyPart userId.bytes ++ keyPart db.bytes ++ keyPart coll.bytes).length =
        key.size := by
      rw [StdString.size, bytes, List.append_assoc]
    rw [List.nil_append, List.length_nil] at first
    rw [parseColKey, first]
    dsimp only [bind, Except.bind]
    rw [second]
    dsimp only
    rw [third]
    dsimp only
    rw [if_pos whole]
    rfl
  · cases made

/-- Every triple whose key fits a string has a key and is read back from it; a key stands for one
collection; and reading any string never leaves it. -/
theorem colKey_unambiguous :
    (∀ userId db coll : StdString,
      (keyPart userId.bytes ++ (keyPart db.bytes ++ keyPart coll.bytes)).length < 2 ^ 64 →
      ∃ key, colKey userId db coll = some key ∧
        parseColKey key = .ok (some (userId.bytes, db.bytes, coll.bytes))) ∧
    (∀ userId db coll userId' db' coll' key : StdString, colKey userId db coll = some key →
      colKey userId' db' coll' = some key → userId = userId' ∧ db = db' ∧ coll = coll') ∧
    ∀ key : StdString, parseColKey key ≠ .error .outOfRange := by
  refine ⟨fun userId db coll fits => ?_, ?_, ?_⟩
  · have made : colKey userId db coll = some ⟨_, fits⟩ := dif_pos fits
    exact ⟨_, made, parseColKey_colKey made⟩
  · intro userId db coll userId' db' coll' key made made'
    have read := parseColKey_colKey made
    rw [parseColKey_colKey made'] at read
    have same := Option.some.inj (Except.ok.inj read)
    rw [Prod.mk.injEq, Prod.mk.injEq] at same
    exact ⟨StdString.ext same.1.symm, StdString.ext same.2.1.symm, StdString.ext same.2.2.symm⟩
  · intro key fault
    obtain ⟨result, read⟩ := parseColKey_reads key
    rw [read] at fault
    cases fault

/-- Names of digits and colons, one of them empty. -/
theorem colKey_unambiguous_colons :
    ∃ key, colKey ⟨[0x31, 0x3a, 0x61], by decide⟩ ⟨[], by decide⟩ ⟨[0x3a, 0x32], by decide⟩ = some key ∧
      parseColKey key = .ok (some ([0x31, 0x3a, 0x61], [], [0x3a, 0x32])) :=
  colKey_unambiguous.1 _ _ _ (by decide)

end PacificDb.Lsm
