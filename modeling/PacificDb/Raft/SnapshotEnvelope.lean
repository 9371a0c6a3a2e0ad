import PacificDb.JsonText.Prefix
import PacificDb.Raft.LogFile

/-!
# The envelope of a snapshot

`readSnapshotEnvelope` reads the members of a snapshot text without its payload: it cuts out
the text of every key and value, and parses the pieces one by one. On a JSON text it agrees
with the parser. But the parser skips a byte order mark in front of a text and takes a zero
byte for its end, so that a piece may parse that is no part of a JSON text; `envelope_iff`
says that nothing else goes wrong.
-/

namespace PacificDb.Raft.Envelope

open Lib JsonGrammar JsonText
open Sst (Value)
open Sst.Value (ofMembers)

def kMetadataBytes : Nat := 64 * 1024

/-! ## The scanner -/

/-- The variables of `value`; the last bracket to close is in front. -/
structure Mode where
  closing : Bytes
  quoted : Bool
  escaped : Bool
  deriving DecidableEq

def start : Mode := ⟨[], false, false⟩

/-- The bytes that a value without brackets ends before. -/
def delimiters : Bytes := [0x2c, 0x7d, 0x3a, 0x20, 0x0a, 0x0d, 0x09]

/-- One byte of a value, none if it is invalid. -/
def Mode.step (mode : Mode) (c : UInt8) : Option Mode :=
  if mode.quoted then
    if c < 0x20 then none
    else if mode.escaped then some { mode with escaped := false }
    else if c = 0x5c then some { mode with escaped := true }
    else if c = 0x22 then some { mode with quoted := false }
    else some mode
  else if c = 0x22 then some { mode with quoted := true }
  else if c = 0x7b ∨ c = 0x5b then
    if 128 ≤ mode.closing.length then none
    else some { mode with closing := (if c = 0x7b then 0x7d else 0x5d) :: mode.closing }
  else if c = 0x7d ∨ c = 0x5d then
    match mode.closing with
    | [] => none
    | last :: closing => if last = c then some { mode with closing } else none
  else some mode

/-- `value(keep)` behind the blanks: the text it goes over, and what is retained. -/
def scanValue (keep : Bool) : Mode → Nat → Bytes → Option (Bytes × Bytes × Nat)
  | _, _, [] => none
  | mode, retained, next :: rest =>
      if mode.quoted = false ∧ mode.closing = [] ∧ next ∈ delimiters then
        some ([], next :: rest, retained)
      else
        let retained := if keep then retained + 1 else retained
        if keep = true ∧ kMetadataBytes < retained then none
        else
          (mode.step next).bind fun after =>
            if mode.quoted = false ∧ (next = 0x7d ∨ next = 0x5d) ∧ after.closing = [] then
              some ([next], rest, retained)
            else (scanValue keep after retained rest).map fun taken => (next :: taken.1, taken.2)

/-- A member that was read, with the text of its value. -/
structure Member where
  name : Bytes
  text : Bytes
  value : Value

/-- `lsm_payload` -/
def payloadName : Bytes := [108, 115, 109, 95, 112, 97, 121, 108, 111, 97, 100]

/-- A member from its value on. -/
def readValue (lib : FloatText) (name : Bytes) (retained : Nat) (text : Bytes) :
    Option (Member × Bytes × Nat) :=
  if name = payloadName then
    if text.head? ≠ some 0x7b then none
    else
      (scanValue false start retained text).map fun (text, rest, retained) =>
        (⟨name, text, .object []⟩, rest, retained)
  else
    (scanValue true start retained text).bind fun (text, rest, retained) =>
      (JsonText.parse lib text).map fun value => (⟨name, text, value⟩, rest, retained)

/-- One round of the loop up to the separator. -/
def readMember (lib : FloatText) (names : List Bytes) (retained : Nat) (text : Bytes) :
    Option (Member × Bytes × Nat) :=
  if text.head? ≠ some 0x22 then none
  else
    (scanValue true start retained text).bind fun (key, rest, retained) =>
      match JsonText.parse lib key with
      | some (.string name) =>
          if name ∈ names ∨ (skipBlank rest).head? ≠ some 0x3a then none
          else readValue lib name retained (skipBlank (skipBlank rest).tail)
      | _ => none

/-- The loop. Every round takes some bytes. -/
def readMembers (lib : FloatText) : Nat → List Bytes → Nat → Bytes → Option (List Member × Bytes)
  | 0, _, _, _ => none
  | count + 1, names, retained, text =>
      (readMember lib names retained (skipBlank text)).bind fun (member, rest, retained) =>
        match skipBlank rest with
        | [] => none
        | byte :: rest =>
            if byte = 0x7d then some ([member], rest)
            else if byte = 0x2c then
              (readMembers lib count (member.name :: names) retained rest).map fun read =>
                (member :: read.1, read.2)
            else none

/-- The members that `readSnapshotEnvelope` reads. -/
def scanEnvelope (lib : FloatText) (text : Bytes) : Option (List Member) :=
  if (skipBlank text).head? ≠ some 0x7b then none
  else
    (readMembers lib text.length [] 0 (skipBlank text).tail).bind fun (members, rest) =>
      if skipBlank rest = [] then some members else none

def readSnapshotEnvelope (lib : FloatText) (text : Bytes) : Option Value :=
  (scanEnvelope lib text).map fun members =>
    ofMembers (members.map fun member => (member.name, member.value))

/-! ## What the scanner goes over -/

section Scan

variable {keep : Bool} {mode after last : Mode} {text more : Bytes}

def cost (keep : Bool) (text : Bytes) : Nat := if keep then text.length else 0

/-- The scanner goes over a text from one mode to another. -/
def Leads (keep : Bool) (mode : Mode) (text : Bytes) (after : Mode) : Prop :=
  ∀ retained rest, retained + cost keep text ≤ kMetadataBytes →
    scanValue keep mode retained (text ++ rest) =
      (scanValue keep after (retained + cost keep text) rest).map fun taken =>
        (text ++ taken.1, taken.2)

theorem leads_nil (keep : Bool) (mode : Mode) : Leads keep mode [] mode := by
  intro retained rest _
  have free : cost keep [] = 0 := by cases keep <;> rfl
  rw [free, List.nil_append, Nat.add_zero]
  exact Option.map_id'.symm ▸ rfl

theorem cost_append (keep : Bool) (text more : Bytes) :
    cost keep (text ++ more) = cost keep text + cost keep more := by
  cases keep with
  | true => exact List.length_append
  | false => rfl

theorem Leads.append (leads : Leads keep mode text after) (leads' : Leads keep after more last) :
    Leads keep mode (text ++ more) last := by
  intro retained rest fits
  rw [cost_append] at fits ⊢
  rw [List.append_assoc, leads retained _ (by omega), leads' _ rest (by omega), Option.map_map,
    Nat.add_assoc]
  refine Option.map_congr fun taken _ => ?_
  rw [Function.comp_apply, List.append_assoc]

/-- A byte that does not end the value. -/
theorem leads_byte {byte : UInt8} (step : mode.step byte = some after)
    (inside : mode.quoted = true ∨ (mode.closing ≠ [] ∨ byte ∉ delimiters) ∧
      (¬(byte = 0x7d ∨ byte = 0x5d) ∨ after.closing ≠ [])) : Leads keep mode [byte] after := by
  intro retained rest fits
  have counted : (if keep then retained + 1 else retained) = retained + cost keep [byte] := by
    cases keep <;> rfl
  have free : ¬(keep = true ∧ kMetadataBytes < retained + cost keep [byte]) := by omega
  rw [List.singleton_append, scanValue, if_neg, counted]
  · dsimp only
    rw [if_neg free, step, Option.bind_some, if_neg]
    · rfl
    · rintro ⟨unquoted, closes, ended⟩
      rcases inside with quoted | ⟨_, other | deeper⟩
      · rw [unquoted] at quoted
        cases quoted
      · exact other closes
      · exact deeper ended
  · rintro ⟨unquoted, none_, delimits⟩
    rcases inside with quoted | ⟨outside, _⟩
    · rw [unquoted] at quoted
      cases quoted
    · rcases outside with deep | other
      · exact deep none_
      · exact other delimits

theorem leads_plain {closing : Bytes} {byte : UInt8} (plain : IsPlain byte)
    (inside : closing ≠ [] ∨ byte ∉ delimiters) :
    Leads keep ⟨closing, false, false⟩ [byte] ⟨closing, false, false⟩ := by
  simp only [IsPlain, List.mem_cons, List.not_mem_nil, or_false, not_or] at plain
  obtain ⟨quote, openBracket, closeBracket, openBrace, closeBrace⟩ := plain
  apply leads_byte
  · simp [Mode.step, quote, openBracket, closeBracket, openBrace, closeBrace]
  · exact .inr ⟨inside, .inl (not_or.mpr ⟨closeBrace, closeBracket⟩)⟩

theorem leads_open {closing : Bytes} {opening last : UInt8} (room : closing.length < 128)
    (pair : opening = 0x7b ∧ last = 0x7d ∨ opening = 0x5b ∧ last = 0x5d) :
    Leads keep ⟨closing, false, false⟩ [opening] ⟨last :: closing, false, false⟩ := by
  have shallow : ¬128 ≤ closing.length := Nat.not_le_of_lt room
  rcases pair with ⟨rfl, rfl⟩ | ⟨rfl, rfl⟩
  · apply leads_byte
    · simp [Mode.step, shallow]
    · exact .inr ⟨.inr (by decide), .inl (by decide)⟩
  · apply leads_byte
    · simp [Mode.step, shallow]
    · exact .inr ⟨.inr (by decide), .inl (by decide)⟩

theorem step_close {closing : Bytes} {last : UInt8} (isClosing : last = 0x7d ∨ last = 0x5d) :
    Mode.step ⟨last :: closing, false, false⟩ last = some ⟨closing, false, false⟩ := by
  rcases isClosing with rfl | rfl <;> simp [Mode.step]

theorem leads_char {closing : Bytes} {byte : UInt8} (control : 0x20 ≤ byte) (quote : byte ≠ 0x22)
    (backslash : byte ≠ 0x5c) :
    Leads keep ⟨closing, true, false⟩ [byte] ⟨closing, true, false⟩ := by
  apply leads_byte _ (.inl rfl)
  simp [Mode.step, UInt8.not_lt.mpr control, quote, backslash]

theorem leads_escape {closing : Bytes} {byte : UInt8} (control : 0x20 ≤ byte) :
    Leads keep ⟨closing, true, false⟩ [0x5c, byte] ⟨closing, true, false⟩ := by
  have first : Leads keep ⟨closing, true, false⟩ [0x5c] ⟨closing, true, true⟩ :=
    leads_byte (by simp [Mode.step]) (.inl rfl)
  have second : Leads keep ⟨closing, true, true⟩ [byte] ⟨closing, true, false⟩ := by
    apply leads_byte _ (.inl rfl)
    simp [Mode.step, UInt8.not_lt.mpr control]
  exact first.append second

theorem leads_quotes {closing chars : Bytes}
    (leads : Leads keep ⟨closing, true, false⟩ chars ⟨closing, true, false⟩) :
    Leads keep ⟨closing, false, false⟩ (0x22 :: (chars ++ [0x22])) ⟨closing, false, false⟩ := by
  have opens : Leads keep ⟨closing, false, false⟩ [0x22] ⟨closing, true, false⟩ :=
    leads_byte (by simp [Mode.step]) (.inr ⟨.inr (by decide), .inl (by decide)⟩)
  have closes : Leads keep ⟨closing, true, false⟩ [0x22] ⟨closing, false, false⟩ :=
    leads_byte (by simp [Mode.step]) (.inl rfl)
  exact opens.append (leads.append closes)

/-- Within brackets the scanner goes over all texts that do not nest too deep. -/
theorem scan_passes (keep : Bool) : Passes
    (fun closing text => closing ≠ [] →
      Leads keep ⟨closing, false, false⟩ text ⟨closing, false, false⟩)
    (fun closing text => Leads keep ⟨closing, true, false⟩ text ⟨closing, true, false⟩)
    (fun last closing => last :: closing) (fun closing levels => closing.length + levels ≤ 128) where
  nil _ _ := leads_nil _ _
  append leads leads' inside := (leads inside).append (leads' inside)
  plain own inside := leads_plain own (.inl inside)
  withinNil _ := leads_nil _ _
  withinAppend leads leads' := leads.append leads'
  char := leads_char
  escape := leads_escape
  quotes leads _ := leads_quotes leads
  brackets := by
    intro closing levels opening last inside pair room leads deep
    have opens := @leads_open keep closing opening last (by omega) pair
    have closes : Leads keep ⟨last :: closing, false, false⟩ [last] ⟨closing, false, false⟩ :=
      leads_byte (step_close (pair.imp And.right And.right))
        (.inr ⟨.inl (List.cons_ne_nil _ _), .inr deep⟩)
    exact opens.append ((leads (List.cons_ne_nil _ _)).append closes)
  room_deeper _ room := by
    rw [List.length_cons]
    omega
  room_mono room fewer := by omega

/-! ## The text of a value -/

/-- A value between brackets ends with the bracket. -/
theorem scanValue_brackets {opening closing : UInt8} {inside rest : Bytes} {retained : Nat}
    (pair : opening = 0x7b ∧ closing = 0x7d ∨ opening = 0x5b ∧ closing = 0x5d)
    (leads : Leads keep ⟨[closing], false, false⟩ inside ⟨[closing], false, false⟩)
    (fits : retained + cost keep (opening :: (inside ++ [closing])) ≤ kMetadataBytes) :
    scanValue keep start retained (opening :: (inside ++ [closing]) ++ rest) =
      some (opening :: (inside ++ [closing]), rest,
        retained + cost keep (opening :: (inside ++ [closing]))) := by
  have opens : Leads keep start [opening] ⟨[closing], false, false⟩ :=
    leads_open (by decide) pair
  have whole := cost_append keep (opening :: inside) [closing]
  rw [List.cons_append] at whole
  rw [whole] at fits ⊢
  have front := (opens.append leads) retained (closing :: rest) (by rw [List.singleton_append]; omega)
  have split : opening :: (inside ++ [closing]) ++ rest = [opening] ++ inside ++ closing :: rest := by
    simp
  rw [split, front, scanValue, if_neg (fun ends => by cases ends.2.1),
    step_close (pair.imp And.right And.right)]
  have last : (if keep = true then retained + cost keep ([opening] ++ inside) + 1
      else retained + cost keep ([opening] ++ inside)) =
        retained + (cost keep (opening :: inside) + cost keep [closing]) := by
    cases keep <;> rfl
  dsimp only
  rw [last, if_neg (by omega), Option.bind_some, if_pos ⟨rfl, (pair.imp And.right And.right), rfl⟩]
  simp

/-- A value without brackets ends before a delimiter. -/
theorem scanValue_delimited {byte : UInt8} {rest : Bytes} {retained : Nat} (delimits : byte ∈ delimiters)
    (leads : Leads keep start text start) (fits : retained + cost keep text ≤ kMetadataBytes) :
    scanValue keep start retained (text ++ byte :: rest) =
      some (text, byte :: rest, retained + cost keep text) := by
  rw [leads retained _ fits, scanValue, if_pos ⟨rfl, rfl, delimits⟩, Option.map_some, List.append_nil]

/-- The scanner cuts out the text of a value, up to the delimiter behind it. -/
theorem scanValue_text {levels retained : Nat} {byte : UInt8} {rest : Bytes}
    (derives : Derives .value levels text) (shallow : levels ≤ 128) (delimits : byte ∈ delimiters)
    (fits : retained + cost keep text ≤ kMetadataBytes) :
    scanValue keep start retained (text ++ byte :: rest) =
      some (text, byte :: rest, retained + cost keep text) := by
  have tokens : (∀ c ∈ text, IsPlain c ∧ c ∉ delimiters) → Leads keep start text start := by
    intro plain
    clear derives fits
    induction text with
    | nil => exact leads_nil _ _
    | cons c text ih =>
      obtain ⟨own, later⟩ := List.forall_mem_cons.mp plain
      exact (leads_plain own.1 (.inr own.2)).append (ih later)
  cases derives with
  | literal known =>
    have all : ∀ text ∈ JsonGrammar.literals, ∀ c ∈ text, IsPlain c ∧ c ∉ delimiters := by decide +kernel
    exact scanValue_delimited delimits (tokens (all text known)) fits
  | number number =>
    refine scanValue_delimited delimits (tokens (forall_mem_number (fun c digit => ?_) ?_ number)) fits
    · have apart : ∀ c ∈ delimiters, ¬(0x30 ≤ c ∧ c ≤ 0x39) := by decide +kernel
      exact ⟨isPlain_of_digit digit, fun member => apart c member digit⟩
    · decide +kernel
  | string string =>
    obtain ⟨chars, isChars, rfl⟩ := string
    exact scanValue_delimited delimits (leads_quotes ((scan_passes keep).chars isChars)) fits
  | emptyArray blank =>
    exact scanValue_brackets (.inr ⟨rfl, rfl⟩) ((scan_passes keep).blank blank (List.cons_ne_nil _ _)) fits
  | array elements =>
    refine scanValue_brackets (.inr ⟨rfl, rfl⟩) ?_ fits
    exact (scan_passes keep).derived elements [0x5d] (by rw [List.length_singleton]; omega) (List.cons_ne_nil _ _)
  | object object =>
    cases object with
    | emptyObject blank =>
      exact scanValue_brackets (.inl ⟨rfl, rfl⟩) ((scan_passes keep).blank blank (List.cons_ne_nil _ _)) fits
    | members members =>
      refine scanValue_brackets (.inl ⟨rfl, rfl⟩) ?_ fits
      exact (scan_passes keep).derived members [0x7d] (by rw [List.length_singleton]; omega) (List.cons_ne_nil _ _)

end Scan

/-! ## Pieces that are JSON texts -/

section Pieces

variable {lib : FloatText} {levels : Nat} {text more left : Bytes} {value : Value}

/-- The parser takes a text; only blanks are left. -/
def IsJson (lib : FloatText) (text : Bytes) (value : Value) : Prop :=
  ∃ left, parseValue lib (text.length + 1) text = some (value, left) ∧ IsBlank left

/-- The parser takes the front of a text, and a zero byte is behind it. -/
def ZeroBehind (lib : FloatText) (text : Bytes) : Prop :=
  ∃ value left, parseValue lib (text.length + 1) text = some (value, left) ∧ (skipBlank left).head? = some 0

def bom : Bytes := [0xef, 0xbb, 0xbf]

theorem skipBlank_split (text : Bytes) : ∃ blank, IsBlank blank ∧ text = blank ++ skipBlank text := by
  refine ⟨text.takeWhile fun byte => decide (byte ∈ blanks), fun byte member => ?_, ?_⟩
  · exact of_decide_eq_true (List.all_eq_true.mp List.all_takeWhile byte member)
  · exact List.takeWhile_append_dropWhile.symm

theorem skipBlank_eq_nil : skipBlank text = [] ↔ IsBlank text := by
  constructor
  · intro none_
    obtain ⟨blank, isBlank, split⟩ := skipBlank_split text
    rw [none_, List.append_nil] at split
    exact split ▸ isBlank
  · intro blank
    have all := @skipBlank_append text [] blank
    rwa [List.append_nil] at all

theorem skipBlank_idem (text : Bytes) : skipBlank (skipBlank text) = skipBlank text := by
  obtain ⟨blank, isBlank, split⟩ := skipBlank_split text
  have again := @skipBlank_append blank (skipBlank text) isBlank
  rw [← split] at again
  exact again.symm

theorem parseValue_bom (rest : Bytes) : parseValue lib levels (bom ++ rest) = none := by
  cases levels with
  | zero => rfl
  | succ levels =>
    rw [parseValue, bom, List.cons_append, skipBlank_cons (by decide)]
    rfl

theorem skipBom_eq (other : text.head? ≠ some 0xef) : skipBom text = some text := by
  unfold skipBom
  split
  · exact absurd rfl other
  · rfl

/-- What `json::parse` takes is a JSON text but for the byte order mark and a zero byte. -/
theorem isJson_of_parse (parsed : JsonText.parse lib text = some value) (noBom : ¬bom <+: text)
    (noZero : ¬ZeroBehind lib text) : IsJson lib text value := by
  have whole : skipBom text = some text ∨ skipBom text = none := by
    unfold skipBom
    split
    next rest =>
      rw [scanLiteral, if_neg fun isPrefix => noBom (List.cons_prefix_cons.mpr ⟨rfl, isPrefix⟩)]
      exact .inr rfl
    · exact .inl rfl
  rw [JsonText.parse] at parsed
  rcases whole with whole | refused
  · rw [whole, Option.bind_some] at parsed
    obtain ⟨⟨found, left⟩, read, last⟩ := Option.bind_eq_some_iff.mp parsed
    dsimp only at last
    split at last
    next none_ =>
      cases last
      exact ⟨left, read, skipBlank_eq_nil.mp none_⟩
    next byte _ isLeft =>
      split at last
      next zero => exact absurd ⟨found, left, read, by rw [isLeft, zero]; rfl⟩ noZero
      · cases last
  · rw [refused] at parsed
    cases parsed

theorem parse_of_isJson (json : IsJson lib text value) : JsonText.parse lib text = some value := by
  obtain ⟨left, read, blank⟩ := json
  have noBom : skipBom text = some text := by
    refine skipBom_eq fun isBom => ?_
    obtain ⟨rest, rfl⟩ := List.head?_eq_some_iff.mp isBom
    rw [parseValue, skipBlank_cons (by decide)] at read
    cases read
  rw [JsonText.parse, noBom, Option.bind_some, read, Option.bind_some, skipBlank_eq_nil.mpr blank]

theorem IsJson.noBom (json : IsJson lib text value) : ¬bom <+: text := by
  obtain ⟨left, read, _⟩ := json
  rintro ⟨rest, rfl⟩
  rw [parseValue_bom] at read
  cases read

theorem IsJson.noZero (json : IsJson lib text value) : ¬ZeroBehind lib text := by
  obtain ⟨left, read, blank⟩ := json
  rintro ⟨value', left', read', zero⟩
  rw [read] at read'
  cases read'
  rw [skipBlank_eq_nil.mpr blank] at zero
  cases zero

/-- The text of a string is scanned as such. -/
theorem scanString_of_parseValue (quote : text.head? = some 0x22)
    (read : parseValue lib (levels + 1) text = some (value, left)) :
    ∃ chars name, text = 0x22 :: chars ∧ value = .string name ∧
      scanString (.follow []) chars = some (name, left) := by
  obtain ⟨chars, rfl⟩ := List.head?_eq_some_iff.mp quote
  rw [parseValue, skipBlank_cons (by decide)] at read
  dsimp only at read
  rw [if_neg (by decide), if_neg (by decide), if_pos rfl] at read
  obtain ⟨scanned, isScanned, same⟩ := Option.map_eq_some_iff.mp read
  cases same
  exact ⟨chars, _, rfl, rfl, isScanned⟩

end Pieces

/-! ## Members between their separators -/

/-- A member as it stands in a text, with the blanks around its tokens. -/
structure Written where
  before : Bytes
  key : Bytes
  between : Bytes
  gap : Bytes
  text : Bytes
  behind : Bytes
  name : Bytes
  value : Value

namespace Written

/-- The text up to the value. -/
def front (w : Written) : Bytes := w.before ++ (w.key ++ (w.between ++ 0x3a :: (w.gap ++ w.text)))

/-- The members with commas between them, up to the closing brace. -/
def join : List Written → Bytes → Bytes
  | [], rest => rest
  | [w], rest => w.front ++ (w.behind ++ 0x7d :: rest)
  | w :: ws, rest => w.front ++ (w.behind ++ 0x2c :: join ws rest)

structure Spaced (w : Written) : Prop where
  before : IsBlank w.before
  between : IsBlank w.between
  gap : IsBlank w.gap
  behind : IsBlank w.behind

/-- `json::parse` takes both pieces. -/
structure Taken (lib : FloatText) (w : Written) : Prop extends Spaced w where
  quote : w.key.head? = some 0x22
  key : JsonText.parse lib w.key = some (.string w.name)
  text : JsonText.parse lib w.text = some w.value

/-- Nothing is in a piece but a JSON text. -/
structure Clean (lib : FloatText) (w : Written) : Prop where
  noBom : ¬bom <+: w.text
  key : ¬ZeroBehind lib w.key
  text : ¬ZeroBehind lib w.text

def member (w : Written) : Bytes × Value := (w.name, w.value)

variable {lib : FloatText} {levels count : Nat} {w : Written} {ws : List Written} {more rest left : Bytes}
variable {value : Value} {byte : UInt8} {retained : Nat}

theorem Taken.noBom (taken : Taken lib w) : ¬bom <+: w.key := by
  rintro ⟨rest, isBom⟩
  have quote := taken.quote
  rw [← isBom] at quote
  cases quote

theorem length_join (nonempty : ws ≠ []) (rest : Bytes) :
    ws.length ≤ (join ws rest).length ∧ ∀ w ∈ ws, w.text.length < (join ws rest).length := by
  induction ws with
  | nil => exact absurd rfl nonempty
  | cons w ws ih =>
    cases ws with
    | nil =>
      rw [List.forall_mem_singleton]
      simp only [join, front, List.length_append, List.length_cons, List.length_nil]
      omega
    | cons next ws =>
      obtain ⟨shorter, each⟩ := ih (List.cons_ne_nil _ _)
      rw [List.forall_mem_cons]
      simp only [join, front, List.length_append, List.length_cons] at shorter each ⊢
      exact ⟨by omega, by omega, fun w member => by have := each w member; omega⟩

theorem ends_blank {blank : Bytes} (isBlank : IsBlank blank) (delimits : byte ∈ ([0x2c, 0x7d] : Bytes))
    (rest : Bytes) : Ends (blank ++ byte :: rest) := by
  have all : ∀ byte ∈ blanks ++ [0x2c, 0x7d], isDigit byte = false ∧
      byte ∉ ([0x2e, 0x65, 0x45] : Bytes) := by decide +kernel
  cases blank with
  | nil => exact ends_cons (all byte (List.mem_append_right _ delimits))
  | cons c blank => exact ends_cons (all c (List.mem_append_left _ (isBlank c (.head _))))

/-- The parser reads the key, then goes on behind it. -/
theorem parseMember_key {name : Bytes} {read : Bytes → Option (Value × Bytes)} (taken : Taken lib w)
    (isKey : parseValue lib (levels + 1) w.key = some (.string name, left)) :
    (IsBlank left → parseMember read (w.front ++ more) =
      (read (w.gap ++ (w.text ++ more))).map fun read => ((name, read.1), read.2)) ∧
    ((skipBlank left).head? = some 0 → parseMember read (w.front ++ more) = none) := by
  obtain ⟨chars, _, isChars, same, scanned⟩ := scanString_of_parseValue taken.quote isKey
  cases same
  have whole : w.front ++ more = w.before ++ 0x22 :: (chars ++ (w.between ++
      0x3a :: (w.gap ++ (w.text ++ more)))) := by
    simp [front, isChars]
  rw [whole, parseMember, skipBlank_append taken.before, skipBlank_cons (by decide)]
  dsimp only
  rw [if_pos rfl, scanString_closes _ _ _ _ _ scanned]
  dsimp only
  constructor
  · intro blank
    rw [skipBlank_append blank, skipBlank_append taken.between, skipBlank_cons (by decide)]
    rfl
  · intro zero
    obtain ⟨junk, isLeft⟩ := List.head?_eq_some_iff.mp zero
    rw [skipBlank_extend isLeft]
    rfl

/-- One round of the parser on pieces that are JSON texts. -/
theorem separated_clean (taken : Taken lib w) (clean : Clean lib w) (enough : w.text.length < levels)
    (delimits : byte ∈ ([0x2c, 0x7d] : Bytes)) :
    separated (parseMember (parseValue lib levels)) 0x7d (count + 1)
      (w.front ++ (w.behind ++ byte :: rest)) =
        if byte = 0x2c then
          (separated (parseMember (parseValue lib levels)) 0x7d count rest).map fun read =>
            (w.member :: read.1, read.2)
        else some ([w.member], rest) := by
  obtain ⟨behindKey, isKey, blank⟩ := isJson_of_parse taken.key taken.noBom clean.key
  obtain ⟨left, isText, blank'⟩ := isJson_of_parse taken.text clean.noBom clean.text
  have read := parseValue_continues _ levels enough _ _ _ (w.behind ++ byte :: rest) isText
    (.inr (ends_blank taken.behind delimits rest))
  rw [separated, (parseMember_key taken isKey).1 blank, parseValue_blank taken.gap, read]
  dsimp only [Option.map_some]
  have all : ∀ byte ∈ ([0x2c, 0x7d] : Bytes), byte ∉ blanks ∧ (byte ≠ 0x2c → byte = 0x7d) := by
    decide +kernel
  rw [skipBlank_append blank', skipBlank_append taken.behind, skipBlank_cons (all byte delimits).1]
  dsimp only
  split
  · rfl
  next notComma => rw [if_pos ((all byte delimits).2 notComma)]; rfl

/-- The parser does not get behind any other piece. -/
theorem separated_unclean (taken : Taken lib w) (unclean : ¬Clean lib w)
    (enough : w.text.length < levels) :
    separated (parseMember (parseValue lib levels)) 0x7d count (w.front ++ more) = none := by
  cases count with
  | zero => rfl
  | succ count =>
    by_cases zeroKey : ZeroBehind lib w.key
    · obtain ⟨value, left, read, zero⟩ := zeroKey
      obtain ⟨_, _, _, rfl, _⟩ := scanString_of_parseValue taken.quote read
      rw [separated, (parseMember_key taken read).2 zero]
    obtain ⟨behindKey, isKey, blank⟩ := isJson_of_parse taken.key taken.noBom zeroKey
    rw [separated, (parseMember_key taken isKey).1 blank, parseValue_blank taken.gap]
    by_cases isBom : bom <+: w.text
    · obtain ⟨text, isText⟩ := isBom
      rw [← isText, List.append_assoc, parseValue_bom]
      rfl
    · have zeroText : ZeroBehind lib w.text := by
        by_contra noZero
        exact unclean ⟨isBom, zeroKey, noZero⟩
      obtain ⟨value, left, read, zero⟩ := zeroText
      obtain ⟨junk, isLeft⟩ := List.head?_eq_some_iff.mp zero
      rw [parseValue_continues _ levels enough _ _ _ more read (.inl (ne_nil_of_skipBlank isLeft))]
      dsimp only [Option.map_some]
      rw [skipBlank_extend isLeft]
      rfl

theorem join_cons (w : Written) (ws : List Written) (rest : Bytes) :
    ∃ more, join (w :: ws) rest = w.front ++ more := by
  cases ws with
  | nil => exact ⟨_, rfl⟩
  | cons next ws => exact ⟨_, rfl⟩

open scoped Classical in
theorem separated_join (nonempty : ws ≠ []) : ∀ count, ws.length ≤ count → (∀ w ∈ ws, Taken lib w) →
    (∀ w ∈ ws, w.text.length < levels) →
    separated (parseMember (parseValue lib levels)) 0x7d count (join ws rest) =
      if ∀ w ∈ ws, Clean lib w then some (ws.map member, rest) else none := by
  induction ws with
  | nil => exact absurd rfl nonempty
  | cons w ws ih =>
    intro count enough allTaken allFit
    obtain ⟨count, rfl⟩ : ∃ less, count = less + 1 := ⟨count - 1, by rw [List.length_cons] at enough; omega⟩
    obtain ⟨taken, taken'⟩ := List.forall_mem_cons.mp allTaken
    obtain ⟨fits, fits'⟩ := List.forall_mem_cons.mp allFit
    by_cases clean : Clean lib w
    · cases ws with
      | nil =>
        rw [join, separated_clean taken clean fits (by decide), if_pos (List.forall_mem_singleton.mpr clean)]
        rfl
      | cons next ws =>
        have others := ih (List.cons_ne_nil _ _) count (Nat.le_of_succ_le_succ enough) taken' fits'
        rw [join, separated_clean taken clean fits (by decide), if_pos rfl, others]
        · simp only [List.forall_mem_cons (a := w), clean, true_and]
          split <;> rfl
        · exact List.cons_ne_nil _ _
    · obtain ⟨more, isJoin⟩ := join_cons w ws rest
      rw [isJoin, separated_unclean taken clean fits, if_neg fun all => clean (all w (.head _))]

theorem front_append (taken : Taken lib w) (more : Bytes) : ∃ chars, w.key = 0x22 :: chars ∧
    skipBlank (w.front ++ more) = w.key ++ (w.between ++ 0x3a :: (w.gap ++ (w.text ++ more))) := by
  obtain ⟨chars, isKey⟩ := List.head?_eq_some_iff.mp taken.quote
  refine ⟨chars, isKey, ?_⟩
  rw [front, List.append_assoc, skipBlank_append taken.before, isKey, List.cons_append, List.cons_append,
    skipBlank_cons (by decide)]
  simp

theorem separated_skip (read : Bytes → Option (Value × Bytes)) (text : Bytes) :
    separated (parseMember read) 0x7d count (skipBlank text) = separated (parseMember read) 0x7d count text := by
  cases count with
  | zero => rfl
  | succ count => rw [separated, separated, parseMember, parseMember, skipBlank_idem]

open scoped Classical in
/-- The parser takes the whole text if nothing but JSON texts is in the pieces. -/
theorem parseValue_join {lead : Bytes} (nonempty : ws ≠ []) (taken : ∀ w ∈ ws, Taken lib w)
    (blank : IsBlank lead) (trail : Bytes) :
    parseValue lib ((lead ++ 0x7b :: join ws trail).length + 1) (lead ++ 0x7b :: join ws trail) =
      if ∀ w ∈ ws, Clean lib w then some (ofMembers (ws.map member), trail) else none := by
  obtain ⟨enough, each⟩ := length_join nonempty trail
  have fits : ∀ w ∈ ws, w.text.length < (lead ++ 0x7b :: join ws trail).length := by
    intro w known
    have shorter := each w known
    simp only [List.length_append, List.length_cons]
    omega
  rw [parseValue, skipBlank_append blank, skipBlank_cons (by decide)]
  dsimp only
  have members : bracketed (parseMember (parseValue lib (lead ++ 0x7b :: join ws trail).length)) 0x7d
      (join ws trail) = if ∀ w ∈ ws, Clean lib w then some (ws.map member, trail) else none := by
    rw [← separated_join nonempty _ enough taken fits, bracketed, ← separated_skip]
    cases ws with
    | nil => exact absurd rfl nonempty
    | cons w ws =>
      obtain ⟨more, isJoin⟩ := join_cons w ws trail
      obtain ⟨chars, isKey, skipped⟩ := front_append (taken w (.head _)) more
      rw [isJoin, skipped, isKey]
      rfl
  rw [if_pos rfl, members]
  split <;> rfl

/-! ## Texts within the limits -/

/-- A member that the scanner gets through. -/
structure Fits (lib : FloatText) (w : Written) : Prop extends Spaced w where
  string : IsString w.key
  key : IsJson lib w.key (.string w.name)
  json : IsJson lib w.text w.value
  nested : ∃ levels ≤ 128, Derives .value levels w.text
  payload : w.name = payloadName → w.text.head? = some 0x7b

/-- The bytes that are retained. -/
def kept (w : Written) : Nat := w.key.length + if w.name = payloadName then 0 else w.text.length

/-- What is read of the member. -/
def read (w : Written) : Member := ⟨w.name, w.text, if w.name = payloadName then .object [] else w.value⟩

theorem Fits.taken (fits : Fits lib w) : Taken lib w := by
  obtain ⟨chars, _, isKey⟩ := fits.string
  exact ⟨fits.toSpaced, by rw [isKey]; rfl, parse_of_isJson fits.key, parse_of_isJson fits.json⟩

theorem Fits.clean (fits : Fits lib w) : Clean lib w where
  noBom := fits.json.noBom
  key := fits.key.noZero
  text := fits.json.noZero

theorem delimited {blank : Bytes} (isBlank : IsBlank blank) (delimits : byte ∈ ([0x2c, 0x7d, 0x3a] : Bytes)) :
    ∃ c tail, blank ++ byte :: rest = c :: tail ∧ c ∈ delimiters := by
  have all : ∀ byte ∈ blanks ++ [0x2c, 0x7d, 0x3a], byte ∈ delimiters := by decide +kernel
  cases blank with
  | nil => exact ⟨byte, rest, rfl, all byte (List.mem_append_right _ delimits)⟩
  | cons c blank => exact ⟨c, _, rfl, all c (List.mem_append_left _ (isBlank c (.head _)))⟩

theorem head_value {text : Bytes} (derives : Derives .value levels text) : ∀ c ∈ text.head?, c ∉ blanks := by
  have bytes : ∀ c ∈ ([0x22, 0x5b, 0x7b] : Bytes), c ∉ blanks := by decide +kernel
  have opens : ∀ {byte : UInt8} {text : Bytes}, byte ∈ ([0x22, 0x5b, 0x7b] : Bytes) →
      ∀ c ∈ (byte :: text).head?, c ∉ blanks := fun known c isHead => bytes c (Option.some.inj isHead ▸ known)
  cases derives with
  | literal known =>
    have all : ∀ text ∈ JsonGrammar.literals, ∀ c ∈ text.head?, c ∉ blanks := by decide +kernel
    exact all _ known
  | number number =>
    have all : ∀ c ∈ blanks, ¬(0x30 ≤ c ∧ c ≤ 0x39) := by decide +kernel
    have others : ∀ c ∈ ([0x2d, 0x2e, 0x65, 0x45, 0x2b] : Bytes), c ∉ blanks := by decide +kernel
    exact fun c isHead => forall_mem_number (fun c digit isBlank => all c isBlank digit) others number c
      (List.mem_of_mem_head? isHead)
  | string string =>
    obtain ⟨chars, _, rfl⟩ := string
    exact opens (by decide)
  | emptyArray => exact opens (by decide)
  | array => exact opens (by decide)
  | object object => cases object <;> exact opens (by decide)

theorem skipBlank_text (fits : Fits lib w) : skipBlank (w.text ++ more) = w.text ++ more := by
  obtain ⟨levels, _, derives⟩ := fits.nested
  obtain ⟨left, read, _⟩ := fits.json
  have apart := head_value derives
  cases isText : w.text with
  | nil =>
    rw [isText] at read
    cases read
  | cons c text =>
    rw [isText] at apart
    exact skipBlank_cons (apart c rfl)

theorem readValue_fits (fits : Fits lib w)
    (room : retained + (if w.name = payloadName then 0 else w.text.length) ≤ kMetadataBytes)
    (delimits : byte ∈ ([0x2c, 0x7d, 0x3a] : Bytes)) :
    readValue lib w.name retained (w.text ++ (w.behind ++ byte :: rest)) =
      some (w.read, w.behind ++ byte :: rest,
        retained + if w.name = payloadName then 0 else w.text.length) := by
  obtain ⟨c, tail, isTail, delimitsText⟩ := @delimited rest _ _ fits.behind delimits
  obtain ⟨levels, shallow, derives⟩ := fits.nested
  rw [isTail, readValue, read]
  by_cases isPayload : w.name = payloadName
  · have opens : (w.text ++ c :: tail).head? = some 0x7b := by
      rw [List.head?_append, fits.payload isPayload]
      rfl
    rw [if_pos isPayload] at room
    rw [if_pos isPayload, if_neg (not_not.mpr opens), if_pos isPayload, if_pos isPayload,
      scanValue_text derives shallow delimitsText room]
    rfl
  · rw [if_neg isPayload] at room
    rw [if_neg isPayload, if_neg isPayload, if_neg isPayload,
      scanValue_text derives shallow delimitsText room, Option.bind_some]
    dsimp only
    rw [parse_of_isJson fits.json]
    rfl

/-- One round of the loop on a member within the limits. -/
theorem readMember_fits {names : List Bytes} (fits : Fits lib w) (fresh : w.name ∉ names)
    (room : retained + w.kept ≤ kMetadataBytes) (delimits : byte ∈ ([0x2c, 0x7d, 0x3a] : Bytes)) :
    readMember lib names retained (skipBlank (w.front ++ (w.behind ++ byte :: rest))) =
      some (w.read, w.behind ++ byte :: rest, retained + w.kept) := by
  obtain ⟨chars, isKey, skipped⟩ := front_append fits.taken (w.behind ++ byte :: rest)
  obtain ⟨c, tail, behindKey, delimitsKey⟩ := @delimited (w.gap ++ (w.text ++ (w.behind ++ byte :: rest)))
    0x3a _ fits.between (by decide)
  rw [kept] at room ⊢
  have quoted : (w.key ++ c :: tail).head? = some 0x22 := by
    rw [isKey]
    rfl
  rw [skipped, behindKey, readMember, if_neg (not_not.mpr quoted),
    scanValue_text (.string fits.string) (Nat.zero_le _) delimitsKey (by rw [cost, if_pos rfl]; omega),
    Option.bind_some]
  dsimp only
  rw [parse_of_isJson fits.key, ← behindKey, skipBlank_append fits.between, skipBlank_cons (by decide)]
  dsimp only
  rw [if_neg (not_or.mpr ⟨fresh, not_not.mpr List.head?_cons⟩), List.tail_cons, skipBlank_append fits.gap,
    skipBlank_text fits, readValue_fits fits (by rw [cost, if_pos rfl]; omega) delimits, cost, if_pos rfl,
    Nat.add_assoc]

theorem readMembers_join (nonempty : ws ≠ []) : ∀ count names retained, ws.length ≤ count →
    (∀ w ∈ ws, Fits lib w) → (∀ w ∈ ws, w.name ∉ names) → (ws.map name).Nodup →
    retained + (ws.map kept).sum ≤ kMetadataBytes →
    readMembers lib count names retained (join ws rest) = some (ws.map read, rest) := by
  induction ws with
  | nil => exact absurd rfl nonempty
  | cons w ws ih =>
    intro count names retained enough allFit allFresh distinct room
    obtain ⟨count, rfl⟩ : ∃ less, count = less + 1 := ⟨count - 1, by rw [List.length_cons] at enough; omega⟩
    obtain ⟨fits, fits'⟩ := List.forall_mem_cons.mp allFit
    obtain ⟨fresh, fresh'⟩ := List.forall_mem_cons.mp allFresh
    obtain ⟨other, distinct'⟩ := List.nodup_cons.mp distinct
    rw [List.map_cons, List.sum_cons] at room
    cases ws with
    | nil =>
      rw [join, readMembers, readMember_fits fits fresh (by omega) (by decide), Option.bind_some]
      dsimp only
      rw [skipBlank_append fits.behind, skipBlank_cons (by decide)]
      rfl
    | cons next ws =>
      rw [join, readMembers, readMember_fits fits fresh (by omega) (by decide), Option.bind_some]
      · dsimp only
        rw [skipBlank_append fits.behind, skipBlank_cons (by decide)]
        dsimp only
        rw [if_neg (by decide), if_pos rfl, ih (List.cons_ne_nil _ _) count _ _
          (Nat.le_of_succ_le_succ enough) fits' ?_ distinct' (by omega)]
        · rfl
        · intro v member known
          rcases List.mem_cons.mp known with same | known
          · exact other (List.mem_map.mpr ⟨v, member, same⟩)
          · exact fresh' v member known
      · exact List.cons_ne_nil _ _

/-! ## Texts that the scanner goes over -/

/-- The member that a written one was read as. -/
structure Scanned (lib : FloatText) (w : Written) (member : Member) : Prop extends Spaced w where
  quote : w.key.head? = some 0x22
  key : JsonText.parse lib w.key = some (.string w.name)
  name : w.name = member.name
  text : w.text = member.text
  value : w.value = (JsonText.parse lib w.text).getD .null
  parsed : w.name ≠ payloadName → JsonText.parse lib w.text ≠ none

end Written

open Written

variable {lib : FloatText} {text rest : Bytes} {retained retained' : Nat}

theorem scanValue_split {keep : Bool} {mode : Mode} {taken : Bytes}
    (scanned : scanValue keep mode retained text = some (taken, rest, retained')) : text = taken ++ rest := by
  induction text generalizing mode retained taken with
  | nil => cases scanned
  | cons next text ih =>
    rw [scanValue] at scanned
    split at scanned
    · cases scanned
      rfl
    dsimp only at scanned
    generalize (if keep = true then retained + 1 else retained) = counted at scanned
    split at scanned
    · cases scanned
    obtain ⟨after, _, scanned⟩ := Option.bind_eq_some_iff.mp scanned
    split at scanned
    · cases scanned
      rfl
    · obtain ⟨⟨later, behind, _⟩, isLater, same⟩ := Option.map_eq_some_iff.mp scanned
      cases same
      rw [List.cons_append, ← ih isLater]

theorem readValue_split {name : Bytes} {member : Member}
    (isRead : readValue lib name retained text = some (member, rest, retained')) :
    member.name = name ∧ text = member.text ++ rest ∧
      (name ≠ payloadName → JsonText.parse lib member.text ≠ none) := by
  rw [readValue] at isRead
  split at isRead
  next isPayload =>
    split at isRead
    · cases isRead
    obtain ⟨⟨valueText, behind, _⟩, isValue, same⟩ := Option.map_eq_some_iff.mp isRead
    cases same
    exact ⟨rfl, scanValue_split isValue, fun other => absurd isPayload other⟩
  next =>
    obtain ⟨⟨valueText, behind, _⟩, isValue, isRead⟩ := Option.bind_eq_some_iff.mp isRead
    obtain ⟨value, isParsed, same⟩ := Option.map_eq_some_iff.mp isRead
    cases same
    exact ⟨rfl, scanValue_split isValue, fun _ none_ => by rw [isParsed] at none_; cases none_⟩

theorem readMember_split {names : List Bytes} {member : Member} {before behind : Bytes}
    (blank : IsBlank before) (blank' : IsBlank behind)
    (isRead : readMember lib names retained text = some (member, rest, retained')) :
    ∃ w : Written, w.behind = behind ∧ before ++ text = w.front ++ rest ∧ w.Scanned lib member := by
  rw [readMember] at isRead
  split at isRead
  · cases isRead
  next quote =>
  obtain ⟨⟨key, behindKey, _⟩, isKey, isRead⟩ := Option.bind_eq_some_iff.mp isRead
  dsimp only at isRead
  split at isRead
  next name isName =>
    split at isRead
    · cases isRead
    next known =>
    obtain ⟨tail, isTail⟩ := List.head?_eq_some_iff.mp (not_not.mp (not_or.mp known).2)
    obtain ⟨between, blankBetween, isBetween⟩ := skipBlank_split behindKey
    obtain ⟨gap, blankGap, isGap⟩ := skipBlank_split tail
    have isText := scanValue_split isKey
    rw [isTail, List.tail_cons] at isRead
    obtain ⟨rfl, isValue, parsed⟩ := readValue_split isRead
    have quoteKey : key.head? = some 0x22 := by
      cases key with
      | nil => cases isName
      | cons c key =>
        rw [isText] at quote
        exact not_not.mp quote
    refine ⟨⟨before, key, between, gap, member.text, behind, member.name,
      (JsonText.parse lib member.text).getD .null⟩, rfl, ?_,
      ⟨blank, blankBetween, blankGap, blank'⟩, quoteKey, isName, rfl, rfl, rfl, parsed⟩
    rw [isText, isBetween, isTail, isGap, isValue]
    simp [front]
  · cases isRead

theorem readMembers_split {members : List Member} : ∀ {count names retained text},
    readMembers lib count names retained text = some (members, rest) →
    ∃ ws, ws ≠ [] ∧ text = join ws rest ∧ ∀ w ∈ ws, ∃ member ∈ members, w.Scanned lib member := by
  intro count
  induction count generalizing members with
  | zero => exact fun isRead => by cases isRead
  | succ count ih =>
    intro names retained text isRead
    rw [readMembers] at isRead
    obtain ⟨⟨member, behind, retained'⟩, first, isRead⟩ := Option.bind_eq_some_iff.mp isRead
    obtain ⟨before, blank, isBefore⟩ := skipBlank_split text
    obtain ⟨after, blank', split⟩ := skipBlank_split behind
    obtain ⟨w, rfl, whole, scanned⟩ := readMember_split blank blank' first
    rw [← isBefore] at whole
    dsimp only at isRead
    split at isRead
    · cases isRead
    next byte tail isTail =>
    rw [isTail] at split
    rw [split] at whole
    split at isRead
    next closing =>
      cases isRead
      rw [closing] at whole
      exact ⟨[w], List.cons_ne_nil _ _, whole,
        List.forall_mem_singleton.mpr ⟨member, .head _, scanned⟩⟩
    split at isRead
    next comma =>
      obtain ⟨⟨others, rest'⟩, isOthers, same⟩ := Option.map_eq_some_iff.mp isRead
      cases same
      obtain ⟨ws, nonempty, isJoin, each⟩ := ih isOthers
      refine ⟨w :: ws, List.cons_ne_nil _ _, ?_, List.forall_mem_cons.mpr ⟨⟨member, .head _, scanned⟩,
        fun v known => ?_⟩⟩
      · obtain ⟨next, ws, rfl⟩ := List.exists_cons_of_ne_nil nonempty
        rw [whole, comma, isJoin]
        rfl
      · obtain ⟨other, isOther, scanned⟩ := each v known
        exact ⟨other, .tail _ isOther, scanned⟩
    · cases isRead

/-! ## The whole text -/

/-- A member with the payload emptied. -/
def emptied (member : Bytes × Value) : Bytes × Value :=
  (member.1, if member.1 = payloadName then .object [] else member.2)

def withoutPayload : Value → Value
  | .object members => .object (members.map emptied)
  | other => other

theorem put_emptied (entries : List (Bytes × Value)) (name : Bytes) (value : Value) :
    SortedMap.put (entries.map emptied) name (emptied (name, value)).2 =
      (SortedMap.put entries name value).map emptied := by
  induction entries with
  | nil => rfl
  | cons entry entries ih =>
    rw [List.map_cons, SortedMap.put, SortedMap.put, show (emptied entry).1 = entry.1 from rfl, ih]
    split
    · rfl
    split <;> rfl

theorem ofMembers_read (ws : List Written) : ofMembers ((ws.map Written.read).map fun member =>
    (member.name, member.value)) = withoutPayload (ofMembers (ws.map member)) := by
  rw [ofMembers, ofMembers, withoutPayload, List.map_map, List.foldl_map, List.foldl_map]
  exact congrArg Value.object (@List.foldl_hom _ _ _ (List.map emptied) _ _ ws [] fun entries w =>
    put_emptied entries w.name w.value)

section Statement

/-- Texts of objects that the scanner has to read as the parser does. -/
def Agrees (lib : FloatText) (text : Bytes) : Prop :=
  ∀ lead ws trail, text = lead ++ 0x7b :: join ws trail → IsBlank lead → IsBlank trail → ws ≠ [] →
    (∀ w ∈ ws, w.Fits lib) → (ws.map name).Nodup → (ws.map kept).sum ≤ kMetadataBytes →
    ∃ value, JsonText.parse lib text = some value ∧ readSnapshotEnvelope lib text = some (withoutPayload value)

/-- A value is returned, and the payload is a JSON text of an object. -/
def Returns (lib : FloatText) (text : Bytes) : Prop :=
  ∃ members, scanEnvelope lib text = some members ∧
    ∀ member ∈ members, member.name = payloadName → ∃ inside, IsJson lib member.text (.object inside)

theorem agrees (lib : FloatText) (text : Bytes) : Agrees lib text := by
  rintro lead ws trail rfl blank blank' nonempty fits distinct room
  have taken : ∀ w ∈ ws, w.Taken lib := fun w member => (fits w member).taken
  have parsed := parseValue_join nonempty taken blank trail
  rw [if_pos fun w member => (fits w member).clean] at parsed
  refine ⟨_, parse_of_isJson ⟨trail, parsed, blank'⟩, ?_⟩
  have enough := (length_join nonempty trail).1
  have opened : skipBlank (lead ++ 0x7b :: join ws trail) = 0x7b :: join ws trail := by
    rw [skipBlank_append blank, skipBlank_cons (by decide)]
  rw [readSnapshotEnvelope, scanEnvelope, opened, if_neg (not_not.mpr List.head?_cons), List.tail_cons,
    readMembers_join nonempty _ _ _ (by simp only [List.length_append, List.length_cons]; omega) fits
      (fun _ _ => List.not_mem_nil) distinct (by omega), Option.bind_some]
  dsimp only
  rw [if_pos (skipBlank_eq_nil.mpr blank'), Option.map_some, ofMembers_read]

/-- What the scanner reads is written as the parser expects it, up to the pieces. -/
theorem taken_of_returns (returns : Returns lib text) : ∃ lead ws trail,
    text = lead ++ 0x7b :: join ws trail ∧ IsBlank lead ∧ IsBlank trail ∧ ws ≠ [] ∧ ∀ w ∈ ws, w.Taken lib := by
  obtain ⟨members, scanned, payload⟩ := returns
  rw [scanEnvelope] at scanned
  split at scanned
  · cases scanned
  next opens =>
  obtain ⟨inside, isInside⟩ := List.head?_eq_some_iff.mp (not_not.mp opens)
  obtain ⟨⟨members', trail⟩, isRead, scanned⟩ := Option.bind_eq_some_iff.mp scanned
  dsimp only at scanned
  split at scanned
  next ended =>
    cases scanned
    rw [isInside, List.tail_cons] at isRead
    obtain ⟨ws, nonempty, isJoin, each⟩ := readMembers_split isRead
    obtain ⟨lead, blank, isLead⟩ := skipBlank_split text
    rw [isInside, isJoin] at isLead
    refine ⟨lead, ws, trail, isLead, blank, skipBlank_eq_nil.mp ended, nonempty, fun w known => ?_⟩
    obtain ⟨member, isMember, scanned⟩ := each w known
    have parsed : JsonText.parse lib w.text ≠ none := by
      by_cases isPayload : w.name = payloadName
      · obtain ⟨inside, json⟩ := payload member isMember (scanned.name ▸ isPayload)
        rw [scanned.text, parse_of_isJson json]
        exact Option.some_ne_none _
      · exact scanned.parsed isPayload
    obtain ⟨value, isValue⟩ := Option.ne_none_iff_exists'.mp parsed
    refine ⟨scanned.toSpaced, scanned.quote, scanned.key, ?_⟩
    rw [scanned.value, isValue, Option.getD_some]
  · cases scanned

/-- A text for which a value is returned is JSON unless a value begins with a byte order mark, or
goes on behind a zero byte, as a key may too. -/
theorem envelope_iff (lib : FloatText) (text : Bytes) :
    (Agrees lib text ∧ (Returns lib text → ∃ value, IsJson lib text value)) ↔
      (Returns lib text → ∀ lead ws trail, text = lead ++ 0x7b :: join ws trail → IsBlank lead →
        (∀ w ∈ ws, w.Taken lib) → ∀ w ∈ ws, w.Clean lib) := by
  constructor
  · rintro ⟨_, valid⟩ returns lead ws trail rfl blank taken w known
    obtain ⟨value, left, read, _⟩ := valid returns
    rw [parseValue_join (List.ne_nil_of_mem known) taken blank trail] at read
    split at read
    next clean => exact clean w known
    · cases read
  · intro clean
    refine ⟨agrees lib text, fun returns => ?_⟩
    obtain ⟨lead, ws, trail, rfl, blank, blank', nonempty, taken⟩ := taken_of_returns returns
    have parsed := parseValue_join nonempty taken blank trail
    rw [if_pos (clean returns lead ws trail rfl blank taken)] at parsed
    exact ⟨_, trail, parsed, blank'⟩

/-- A zero byte behind a value, and a byte order mark in front of one. -/
theorem envelope_not_json :
    (∃ text, ∀ lib, Returns lib text ∧ ¬∃ value, IsJson lib text value) ∧
    ∃ text, (0 : UInt8) ∉ text ∧ ∀ lib, Returns lib text ∧ ¬∃ value, IsJson lib text value := by
  have noPayload : ∀ {lib text value}, ∀ member ∈ [(⟨[], text, value⟩ : Member)],
      member.name = payloadName → ∃ inside, IsJson lib member.text (.object inside) := by
    intro lib text value member known isPayload
    rw [List.mem_singleton.mp known] at isPayload
    cases isPayload
  refine ⟨⟨[0x7b, 0x22, 0x22, 0x3a, 0x6e, 0x75, 0x6c, 0x6c, 0, 0x7d], fun lib => ⟨?_, ?_⟩⟩,
    [0x7b, 0x22, 0x22, 0x3a, 0xef, 0xbb, 0xbf, 0x6e, 0x75, 0x6c, 0x6c, 0x7d], by decide, fun lib => ⟨?_, ?_⟩⟩
  · exact ⟨[⟨[], [0x6e, 0x75, 0x6c, 0x6c, 0], .null⟩], rfl, noPayload⟩
  · rintro ⟨value, left, read, _⟩
    cases read
  · exact ⟨[⟨[], [0xef, 0xbb, 0xbf, 0x6e, 0x75, 0x6c, 0x6c], .null⟩], rfl, noPayload⟩
  · rintro ⟨value, left, read, _⟩
    cases read

end Statement

end PacificDb.Raft.Envelope
