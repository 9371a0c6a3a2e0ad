import PacificDb.Lsm.Manifest

/-!
# The text of a manifest

`publish` writes `persisted.dump()`: the four keys in alphabetical order,
without blanks. This is that text, with a reader for texts of this shape, as
the concrete `ManifestCodec` on which the publication results are evaluated.
-/

namespace PacificDb.Lsm

/-- A character of a quoted name. -/
def escape (c : Char) : List Char :=
  if c = '"' ∨ c = '\\' then ['\\', c] else [c]

def quoted (name : String) : List Char := '"' :: (name.toList.flatMap escape ++ ['"'])

/-- The names of a list and its closing bracket. -/
def namesText : List String → List Char
  | [] => [']']
  | [name] => quoted name ++ [']']
  | name :: names => quoted name ++ ',' :: namesText names

/-- A key, a number and the comma after it. -/
def fieldText (key : String) (number : Nat) : List Char :=
  key.toList ++ Nat.toDigits 10 number ++ [',']

def manifestText (manifest : LsmManifest) : List Char :=
  fieldText "\x7b\"coveredWalLsn\":" manifest.coveredWalLsn ++
    (fieldText "\"formatVersion\":" manifest.formatVersion ++
      (fieldText "\"generation\":" manifest.generation ++
        ("\"sstFiles\":[".toList ++ (namesText manifest.sstFiles ++ ['\x7d']))))

/-- Where the reader of a name list stands; the characters read so far are in
reverse. -/
inductive NameCursor where
  | outside
  | inside (read : List Char)
  | escaped (read : List Char)

def readNames : List Char → NameCursor → List String → Option (List String)
  | [], _, _ => none
  | c :: rest, .outside, names =>
      if c = ']' then some names.reverse
      else readNames rest (if c = '"' then .inside [] else .outside) names
  | c :: rest, .inside read, names =>
      if c = '"' then readNames rest .outside (String.ofList read.reverse :: names)
      else readNames rest (if c = '\\' then .escaped read else .inside (c :: read)) names
  | c :: rest, .escaped read, names => readNames rest (.inside (c :: read)) names

/-- The rest of a text after a literal. -/
def expect : List Char → List Char → Option (List Char)
  | [], text => some text
  | c :: literal, d :: text => if c = d then expect literal text else none
  | _ :: _, [] => none

def readField (key : String) (text : List Char) : Option (Nat × List Char) := do
  let rest ← expect key.toList text
  let text ← expect [','] (rest.dropWhile Char.isDigit)
  return (Nat.ofDigitChars 10 (rest.takeWhile Char.isDigit) 0, text)

def readManifest (text : List Char) : Option LsmManifest := do
  let (coveredWalLsn, text) ← readField "\x7b\"coveredWalLsn\":" text
  let (formatVersion, text) ← readField "\"formatVersion\":" text
  let (generation, text) ← readField "\"generation\":" text
  let text ← expect "\"sstFiles\":[".toList text
  let sstFiles ← readNames text .outside []
  return { formatVersion, generation, coveredWalLsn, sstFiles }

theorem expect_append (literal text : List Char) : expect literal (literal ++ text) = some text := by
  induction literal with
  | nil => rfl
  | cons c literal ih => simpa [expect] using ih

theorem readField_fieldText (key : String) (number : Nat) (rest : List Char) :
    readField key (fieldText key number ++ rest) = some (number, rest) := by
  have digits : ∀ c ∈ Nat.toDigits 10 number, c.isDigit = true := fun c member =>
    Nat.isDigit_of_mem_toDigits (by decide) (by decide) member
  have comma : Char.isDigit ',' = false := by decide
  simp [readField, fieldText, expect_append, List.takeWhile_append_of_pos digits,
    List.dropWhile_append_of_pos digits, comma, Nat.ofDigitChars_toDigits, expect]

theorem readNames_escaped (chars rest read : List Char) (names : List String) :
    readNames (chars.flatMap escape ++ rest) (.inside read) names =
      readNames rest (.inside (chars.reverse ++ read)) names := by
  induction chars generalizing read with
  | nil => rfl
  | cons c chars ih =>
    rw [List.flatMap_cons, List.append_assoc]
    by_cases special : c = '"' ∨ c = '\\'
    · simp [escape, special, readNames, ih]
    · rw [not_or] at special
      simp [escape, special, readNames, ih]

theorem readNames_namesText (names read : List String) (rest : List Char) :
    readNames (namesText names ++ rest) .outside read = some (read.reverse ++ names) := by
  induction names generalizing read with
  | nil => simp [namesText, readNames]
  | cons name names ih =>
    cases names with
    | nil => simp [namesText, quoted, readNames, readNames_escaped]
    | cons second names => simp [namesText, quoted, readNames, readNames_escaped, ih]

theorem readManifest_manifestText (manifest : LsmManifest) :
    readManifest (manifestText manifest) = some manifest := by
  simp only [readManifest, manifestText, readField_fieldText, expect_append, readNames_namesText,
    Option.bind_eq_bind, Option.bind_some, Option.pure_def, List.reverse_nil, List.nil_append]

theorem manifestText_ne_nil (manifest : LsmManifest) : manifestText manifest ≠ [] := by
  intro empty
  have read := readManifest_manifestText manifest
  rw [empty] at read
  cases read

/-- The UTF-8 bytes of the text, and the reader over them. -/
def jsonCodec : ManifestCodec where
  dump manifest := (manifestText manifest).flatMap String.utf8EncodeChar
  parse bytes :=
    match bytes.toByteArray.utf8Decode?.bind fun text => readManifest text.toList with
    | some manifest => .ok manifest
    | none => .error "missing LSM manifest fields"
  parse_dump manifest := by
    have decoded : ((manifestText manifest).flatMap String.utf8EncodeChar).toByteArray.utf8Decode? =
        some (manifestText manifest).toArray := List.utf8Decode?_utf8Encode
    rw [decoded, Option.bind_some, List.toList_toArray, readManifest_manifestText]
  dump_ne_nil manifest := by
    obtain ⟨c, rest, text⟩ := List.exists_cons_of_ne_nil (manifestText_ne_nil manifest)
    rw [text, List.flatMap_cons]
    intro empty
    have size : (String.utf8EncodeChar c).length = 0 := by
      rw [(List.append_eq_nil_iff.mp empty).1, List.length_nil]
    rw [String.length_utf8EncodeChar] at size
    exact absurd size c.utf8Size_pos.ne'

end PacificDb.Lsm
