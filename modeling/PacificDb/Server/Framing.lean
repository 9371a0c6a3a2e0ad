import PacificDb.Lib.JsonGrammar
import Mathlib.Data.Int.DivMod
import Mathlib.Algebra.Order.Ring.Int

/-!
# Request framing

A request without a frame header is complete when its bytes look like a whole JSON object:
`looksLikeCompleteJsonObject` scans them once, with one counter for both kinds of brackets.
The scan agrees with the grammar on every text of an object and on all its prefixes.
-/

namespace PacificDb.Server

open Lib.JsonGrammar

/-- `std::isspace`, in the C locale. -/
def isspace (byte : UInt8) : Bool := byte == 0x20 || decide (0x09 ≤ byte ∧ byte ≤ 0x0d)

/-- The variables of the scan behind the opening brace. -/
structure Scan where
  inString : Bool
  escaped : Bool
  depth : Int

/-- Arithmetic on `int`. -/
def wrapInt (value : Int) : Int := Int.bmod value (2 ^ 32)

/-- The scan, once it has started. -/
def scanStarted : Scan → List UInt8 → Bool
  | _, [] => false
  | scan, ch :: rest =>
      if scan.inString then
        if scan.escaped then scanStarted { scan with escaped := false } rest
        else if ch = 0x5c then scanStarted { scan with escaped := true } rest
        else if ch = 0x22 then scanStarted { scan with inString := false } rest
        else scanStarted scan rest
      else if ch = 0x22 then scanStarted { scan with inString := true } rest
      else if ch = 0x7b ∨ ch = 0x5b then scanStarted { scan with depth := wrapInt (scan.depth + 1) } rest
      else if ch = 0x7d ∨ ch = 0x5d then
        let depth := wrapInt (scan.depth - 1)
        if depth = 0 then rest.all isspace
        else if depth < 0 then false
        else scanStarted { scan with depth } rest
      else scanStarted scan rest

def looksLikeCompleteJsonObject : List UInt8 → Bool
  | [] => false
  | ch :: rest =>
      if isspace ch then looksLikeCompleteJsonObject rest
      else if ch ≠ 0x7b then false
      else scanStarted ⟨false, false, 1⟩ rest

/-! ## Texts the scan passes over -/

/-- The scan goes over a text from one state to another, and is not done on the way. -/
structure Leads (scan : Scan) (text : List UInt8) (after : Scan) : Prop where
  on : ∀ rest, scanStarted scan (text ++ rest) = scanStarted after rest
  undone : ∀ front, front <+: text → scanStarted scan front = false

theorem leads_nil (scan : Scan) : Leads scan [] scan where
  on _ := rfl
  undone front isPrefix := by
    rw [List.prefix_nil.mp isPrefix]
    rfl

theorem leads_byte {scan after : Scan} {byte : UInt8}
    (step : ∀ rest, scanStarted scan (byte :: rest) = scanStarted after rest) :
    Leads scan [byte] after where
  on rest := step rest
  undone front isPrefix := by
    rcases List.prefix_cons_iff.mp isPrefix with rfl | ⟨rest, rfl, empty⟩
    · rfl
    · rw [List.prefix_nil.mp empty, step]
      rfl

theorem prefix_append_cases {front text more : List UInt8} (isPrefix : front <+: text ++ more) :
    front <+: text ∨ ∃ rest, front = text ++ rest ∧ rest <+: more := by
  obtain ⟨behind, whole⟩ := isPrefix
  rcases List.append_eq_append_iff.mp whole with ⟨rest, early, _⟩ | ⟨rest, late, split⟩
  · exact .inl ⟨rest, early.symm⟩
  · exact .inr ⟨rest, late, behind, split.symm⟩

theorem Leads.append {first second third : Scan} {text more : List UInt8}
    (leads : Leads first text second) (leads' : Leads second more third) :
    Leads first (text ++ more) third where
  on rest := by rw [List.append_assoc, leads.on, leads'.on]
  undone front isPrefix := by
    rcases prefix_append_cases isPrefix with early | ⟨rest, rfl, late⟩
    · exact leads.undone front early
    · rw [leads.on, leads'.undone rest late]

/-- Between the tokens, so many brackets deep. -/
def outside (depth : Int) : Scan := ⟨false, false, depth⟩

/-- Between the quotes of a string. -/
def within (depth : Int) : Scan := ⟨true, false, depth⟩

/-- A byte of a string that is no quote and no backslash. -/
theorem leads_char {depth : Int} {byte : UInt8} (quote : byte ≠ 0x22) (backslash : byte ≠ 0x5c) :
    Leads (within depth) [byte] (within depth) := by
  apply leads_byte
  intro rest
  simp [scanStarted, within, quote, backslash]

/-- The byte behind a backslash does not count, whatever it is. -/
theorem leads_escape (depth : Int) (byte : UInt8) :
    Leads (within depth) [0x5c, byte] (within depth) := by
  have first : Leads (within depth) [0x5c] ⟨true, true, depth⟩ := by
    apply leads_byte
    intro rest
    simp [scanStarted, within]
  have second : Leads ⟨true, true, depth⟩ [byte] (within depth) := by
    apply leads_byte
    intro rest
    simp [scanStarted, within]
  exact first.append second

theorem leads_quotes {depth : Int} {chars : List UInt8} (leads : Leads (within depth) chars (within depth)) :
    Leads (outside depth) (0x22 :: (chars ++ [0x22])) (outside depth) := by
  have opens : Leads (outside depth) [0x22] (within depth) := by
    apply leads_byte
    intro rest
    simp [scanStarted, outside, within]
  have closes : Leads (within depth) [0x22] (outside depth) := by
    apply leads_byte
    intro rest
    simp [scanStarted, outside, within]
  exact opens.append (leads.append closes)

/-- What is passed over one level deeper is passed over in brackets. -/
theorem leads_brackets {depth : Int} {open_ close : UInt8} {inside : List UInt8}
    (opens : open_ = 0x7b ∨ open_ = 0x5b) (closes : close = 0x7d ∨ close = 0x5d)
    (positive : 1 ≤ depth) (fits : depth + 1 < 2 ^ 31)
    (leads : Leads (outside (depth + 1)) inside (outside (depth + 1))) :
    Leads (outside depth) (open_ :: (inside ++ [close])) (outside depth) := by
  have up : wrapInt (depth + 1) = depth + 1 := Int.bmod_eq_of_le (by omega) (by omega)
  have down : wrapInt depth = depth := Int.bmod_eq_of_le (by omega) (by omega)
  have deeper : Leads (outside depth) [open_] (outside (depth + 1)) := by
    apply leads_byte
    intro rest
    rcases opens with rfl | rfl <;> simp [scanStarted, outside, up]
  have back : Leads (outside (depth + 1)) [close] (outside depth) := by
    have some : ¬depth = 0 := by omega
    have notNegative : ¬depth < 0 := by omega
    apply leads_byte
    intro rest
    rcases closes with rfl | rfl <;> simp [scanStarted, outside, down, some, notNegative]
  exact deeper.append (leads.append back)

/-- The scan passes over texts so long as the counter has room for their levels. -/
theorem scan_passes : Passes (fun depth text => Leads (outside depth) text (outside depth))
    (fun depth text => Leads (within depth) text (within depth)) (fun _ depth => depth + 1)
    (fun depth levels => 1 ≤ depth ∧ depth + levels < 2 ^ 31) where
  nil _ := leads_nil _
  append leads leads' := leads.append leads'
  plain own := by
    apply leads_byte
    intro rest
    simp only [IsPlain, List.mem_cons, List.not_mem_nil, or_false, not_or] at own
    obtain ⟨quote, left, right, open_, close⟩ := own
    simp [scanStarted, outside, quote, left, right, open_, close]
  withinNil _ := leads_nil _
  withinAppend leads leads' := leads.append leads'
  char _ quote backslash := leads_char quote backslash
  escape _ := leads_escape _ _
  quotes leads := leads_quotes leads
  brackets pair room leads := by
    have fits := room.2
    exact leads_brackets (pair.imp And.left And.left) (pair.imp And.right And.right) room.1
      (by omega) leads
  room_deeper _ room := by
    have fits := room.2
    omega
  room_mono room fewer := by
    have fits := room.2
    omega

/-! ## Texts of objects -/

/-- The text of an object with the blanks around it, of fewer than `2 ^ 31` levels. -/
structure ObjectText where
  before : List UInt8
  object : List UInt8
  behind : List UInt8
  levels : Nat
  blank : IsBlank before
  derives : Derives .object levels object
  blank' : IsBlank behind
  shallow : levels < 2 ^ 31

namespace ObjectText

/-- `{"a\"}":["{",{}]}` behind a blank and with a line feed behind it. -/
def nested : ObjectText where
  before := [0x20]
  object := [0x7b, 0x22, 0x61, 0x5c, 0x22, 0x7d, 0x22, 0x3a, 0x5b, 0x22, 0x7b, 0x22, 0x2c, 0x7b, 0x7d,
    0x5d, 0x7d]
  behind := [0x0a]
  levels := 3
  blank := List.forall_mem_singleton.mpr (by decide)
  derives := by
    have name : IsString [0x22, 0x61, 0x5c, 0x22, 0x7d, 0x22] :=
      ⟨_, .plain (by decide) (by decide) (by decide) (.escape (by decide)
        (.plain (by decide) (by decide) (by decide) .nil)), rfl⟩
    have brace : IsString [0x22, 0x7b, 0x22] :=
      ⟨_, .plain (by decide) (by decide) (by decide) .nil, rfl⟩
    have none : IsBlank [] := List.forall_mem_nil _
    have items := Derives.element (.item none (.string brace) none)
      (.lastElement (.item none (.object (.emptyObject none)) none))
    exact .members (.lastMember (.namedItem none name none (.item none (.array items) none)))
  blank' := List.forall_mem_singleton.mpr (by decide)
  shallow := by decide

variable (text : ObjectText)

/-- The text up to its closing brace. -/
def closed : List UInt8 := text.before ++ text.object

def whole : List UInt8 := text.closed ++ text.behind

/-- Between the outer braces stands a text that the scan passes over. -/
theorem braced : ∃ inside, text.object = 0x7b :: (inside ++ [0x7d]) ∧
    Leads (outside 1) inside (outside 1) := by
  obtain ⟨_, object, _, levels, _, derives, _, shallow⟩ := text
  cases derives with
  | emptyObject blank => exact ⟨_, rfl, scan_passes.blank blank⟩
  | members members => exact ⟨_, rfl, scan_passes.derived members 1 ⟨le_rfl, by omega⟩⟩

end ObjectText

theorem isspace_of_blank {byte : UInt8} (blank : byte ∈ blanks) : isspace byte = true := by
  have all : ∀ byte ∈ blanks, isspace byte = true := by decide +kernel
  exact all byte blank

/-- The scan does not start before the first brace. -/
theorem looksLike_blank {before : List UInt8} (blank : IsBlank before) (rest : List UInt8) :
    looksLikeCompleteJsonObject (before ++ rest) = looksLikeCompleteJsonObject rest := by
  induction before with
  | nil => rfl
  | cons byte before ih =>
    obtain ⟨own, later⟩ := List.forall_mem_cons.mp blank
    rw [List.cons_append, looksLikeCompleteJsonObject, if_pos (isspace_of_blank own), ih later]

theorem looksLike_brace (rest : List UInt8) :
    looksLikeCompleteJsonObject (0x7b :: rest) = scanStarted (outside 1) rest := rfl

/-- Behind the closing brace only white space may follow. -/
theorem looksLike_closed (text : ObjectText) (more : List UInt8) :
    looksLikeCompleteJsonObject (text.closed ++ more) = more.all isspace := by
  obtain ⟨inside, braces, leads⟩ := text.braced
  have closes : scanStarted (outside 1) (0x7d :: more) = more.all isspace := rfl
  rw [ObjectText.closed, braces, List.append_assoc, looksLike_blank text.blank, List.cons_append,
    looksLike_brace, List.append_assoc, leads.on]
  exact closes

/-- Before the closing brace nothing is complete. -/
theorem looksLike_undone (text : ObjectText) {front : List UInt8} (isPrefix : front <+: text.closed)
    (short : front ≠ text.closed) : looksLikeCompleteJsonObject front = false := by
  obtain ⟨inside, braces, leads⟩ := text.braced
  rw [ObjectText.closed, braces] at isPrefix short
  rcases prefix_append_cases isPrefix with early | ⟨rest, rfl, started⟩
  · have blank : IsBlank front := fun byte member => text.blank byte (early.subset member)
    have same := looksLike_blank blank []
    rw [List.append_nil] at same
    rw [same]
    rfl
  · rw [looksLike_blank text.blank]
    rcases List.prefix_cons_iff.mp started with rfl | ⟨body, rfl, bodyPrefix⟩
    · rfl
    · rw [looksLike_brace]
      apply leads.undone
      rcases List.prefix_concat_iff.mp bodyPrefix with rfl | early
      · exact absurd rfl short
      · exact early

/-- The buffer is complete exactly from the closing brace on, and is no longer when something
else follows. -/
theorem framing_exact (text : ObjectText) :
    looksLikeCompleteJsonObject text.whole = true ∧
    (∀ front, front <+: text.whole → front.length < text.closed.length →
      looksLikeCompleteJsonObject front = false) ∧
    (∀ byte more, isspace byte = false →
      looksLikeCompleteJsonObject (text.whole ++ byte :: more) = false) ∧
    ∀ chunks : List (List UInt8), chunks.flatten = text.whole → ∀ received,
      looksLikeCompleteJsonObject (chunks.take received).flatten = true ↔
        text.closed.length ≤ (chunks.take received).flatten.length := by
  have blank : text.behind.all isspace = true :=
    List.all_eq_true.mpr fun byte member => isspace_of_blank (text.blank' byte member)
  have early : ∀ front, front <+: text.whole → front.length < text.closed.length →
      looksLikeCompleteJsonObject front = false := by
    intro front isPrefix short
    rcases prefix_append_cases isPrefix with inside | ⟨rest, rfl, -⟩
    · exact looksLike_undone text inside fun whole => short.ne (congrArg List.length whole)
    · rw [List.length_append] at short
      omega
  refine ⟨(looksLike_closed text _).trans blank, early, fun byte more other => ?_,
    fun chunks cut received => ?_⟩
  · rw [ObjectText.whole, List.append_assoc, looksLike_closed, List.all_append, List.all_cons, other,
      Bool.false_and, Bool.and_false]
  · have isPrefix : (chunks.take received).flatten <+: text.whole := by
      rw [← cut]
      conv_rhs => rw [← List.take_append_drop received chunks, List.flatten_append]
      exact List.prefix_append _ _
    generalize (chunks.take received).flatten = buffer at isPrefix ⊢
    constructor
    · intro complete
      by_contra short
      rw [early buffer isPrefix (Nat.lt_of_not_le short)] at complete
      cases complete
    · intro arrived
      rcases prefix_append_cases isPrefix with inside | ⟨rest, rfl, late⟩
      · rw [inside.eq_of_length_le arrived, ← List.append_nil text.closed, looksLike_closed]
        rfl
      · rw [looksLike_closed]
        exact List.all_eq_true.mpr fun byte member => List.all_eq_true.mp blank byte (late.subset member)

theorem framing_exact_nested : looksLikeCompleteJsonObject ObjectText.nested.whole = true ∧
    ∀ front, front <+: ObjectText.nested.whole → front.length < ObjectText.nested.closed.length →
      looksLikeCompleteJsonObject front = false :=
  ⟨(framing_exact .nested).1, (framing_exact .nested).2.1⟩

end PacificDb.Server
