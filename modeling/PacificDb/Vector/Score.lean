import PacificDb.Json
import Mathlib.Algebra.BigOperators.Group.Finset.Basic
import Mathlib.Algebra.BigOperators.Group.Finset.Piecewise
import Mathlib.Algebra.Order.Ring.Rat
import Mathlib.Tactic.NormNum

/-!
# Scores of vectors

Vectors come as JSON, dense as an array of numbers or sparse as sorted indices with their
values. `score` walks over both at once; a side that has come to its end stands at the sentinel
`UINT32_MAX`, behind every index there can be.

Numbers are the exact values of the doubles, and so are the sums.
-/

namespace PacificDb.Vectors

/-- `get<double>()` as exact numbers; a float that is not finite has none. -/
structure Doubles where
  ofInteger : Int → ℚ
  ofFloat : Nat → Option ℚ

/-- The value of a JSON number that is finite. -/
def Doubles.finite? (doubles : Doubles) : Json → Option ℚ
  | .integer value => some (doubles.ofInteger value)
  | .unsigned value => some (doubles.ofInteger value)
  | .float bits => doubles.ofFloat bits
  | _ => none

/-- `vectors::Value`. -/
structure Value where
  dimensions : Nat
  indices : List Nat
  values : List ℚ
  sparse : Bool
  deriving DecidableEq

def maxDimensions : Nat := 1000000000

def maxValues : Nat := 1000000

def unsignedInteger (value : Json) (maximum : Nat) : Except String Nat :=
  let invalid := .error "invalid sparse vector dimension/index"
  match value with
  | .unsigned number => if Json.wrapUInt64 number > maximum then invalid else .ok (Json.wrapUInt64 number)
  | .integer number =>
      if number < 0 then invalid
      else if Json.wrapUInt64 number > maximum then invalid
      else .ok (Json.wrapUInt64 number)
  | _ => invalid

/-- The numbers of a dense vector. -/
def decodeDense (doubles : Doubles) : List Json → Except String (List ℚ)
  | [] => .ok []
  | value :: rest =>
      match doubles.finite? value with
      | none => .error "vector must be a non-empty numeric array"
      | some number => do
          let numbers ← decodeDense doubles rest
          return number :: numbers

/-- The loop over the indices and the values of a sparse vector; `last` is the index before,
if there is one. -/
def decodeSparse (doubles : Doubles) (dimensions : Nat) :
    Option Nat → List Json → List Json → Except String (List Nat × List ℚ)
  | last, first :: indices, value :: values => do
      let index ← unsignedInteger first (dimensions - 1)
      if last.any fun last => decide (index ≤ last) then
        throw "sparse indices must be sorted unique and values finite"
      match doubles.finite? value with
      | none => throw "sparse indices must be sorted unique and values finite"
      | some number =>
          let rest ← decodeSparse doubles dimensions (some index) indices values
          return (index :: rest.1, number :: rest.2)
  | _, _, _ => .ok ([], [])

/-- `at("precision") != "float64"` and its like: the member is this text. -/
def isText (value : Option Json) (text : String) : Bool :=
  match value with
  | some (.string own) => own == text
  | _ => false

/-- `vectors::decode`; its exceptions are the texts of `invalid_argument`, and `type_error` is
the one of the JSON library. -/
def decode (doubles : Doubles) (input : Json) : Except String Value :=
  match input with
  | .array items =>
      if items = [] ∨ items.length > maxValues then
        .error "vector must be a non-empty numeric array within vector limits"
      else do
        let values ← decodeDense doubles items
        return { dimensions := items.length, indices := [], values, sparse := false }
  | .object members =>
      let invalid : Except String Value := .error "invalid sparse-v1 vector representation"
      if members.length ≠ 5 then invalid
      else
        match input.field? "format" with
        | none => invalid
        | some (.string format) =>
            if format ≠ "sparse-v1" then invalid
            else
              match input.field? "dimensions", input.field? "indices", input.field? "values" with
              | some dims, some indices, some values =>
                  if !isText (input.field? "precision") "float64" then invalid
                  else do
                    let dimensions ← unsignedInteger dims maxDimensions
                    match indices, values with
                    | .array indices, .array values =>
                        if dimensions = 0 ∨ indices.length ≠ values.length ∨ indices.length > maxValues then
                          throw "invalid sparse vector shape"
                        let numbers ← decodeSparse doubles dimensions none indices values
                        return { dimensions, indices := numbers.1, values := numbers.2, sparse := true }
                    | _, _ => throw "invalid sparse vector shape"
              | _, _, _ => invalid
        | some _ => .error "type_error"
  | _ => .error "invalid sparse-v1 vector representation"

/-! ## What decoding promises -/

/-- A vector whose indices lie in order below its dimension. -/
structure Value.Valid (value : Value) : Prop where
  few : value.dimensions ≤ maxDimensions
  dense : value.sparse = false → value.values.length = value.dimensions
  paired : value.sparse = true → value.indices.length = value.values.length
  sorted : value.indices.Pairwise (· < ·)
  inside : ∀ index ∈ value.indices, index < value.dimensions

theorem length_decodeDense {doubles : Doubles} {items : List Json} {numbers : List ℚ}
    (decoded : decodeDense doubles items = .ok numbers) : numbers.length = items.length := by
  induction items generalizing numbers with
  | nil =>
    cases decoded
    rfl
  | cons item items ih =>
    rw [decodeDense] at decoded
    cases read : doubles.finite? item with
    | none => rw [read] at decoded; cases decoded
    | some number =>
      rw [read] at decoded
      cases rest : decodeDense doubles items with
      | error text => rw [rest] at decoded; cases decoded
      | ok others =>
        rw [rest] at decoded
        cases decoded
        rw [List.length_cons, List.length_cons, ih rest]

theorem unsignedInteger_le {value : Json} {maximum number : Nat}
    (decoded : unsignedInteger value maximum = .ok number) : number ≤ maximum := by
  have bounded : ∀ own : Nat, (if own > maximum then
      (Except.error "invalid sparse vector dimension/index" : Except String Nat) else .ok own) = .ok number →
        number ≤ maximum := by
    intro own taken
    split at taken
    · cases taken
    next small =>
      cases taken
      exact Nat.le_of_not_lt small
  cases value with
  | unsigned own => exact bounded _ decoded
  | integer own =>
    rw [unsignedInteger] at decoded
    split at decoded
    · cases decoded
    · exact bounded _ decoded
  | _ => cases decoded

/-- What the loop over the indices leaves behind the index `last`. -/
theorem decodeSparse_spec {doubles : Doubles} {dimensions : Nat} {last : Option Nat}
    {indices values : List Json} {numbers : List Nat × List ℚ} (some : 0 < dimensions)
    (decoded : decodeSparse doubles dimensions last indices values = .ok numbers) :
    numbers.1.length = numbers.2.length ∧ numbers.1.Pairwise (· < ·) ∧
      (∀ index ∈ numbers.1, index < dimensions) ∧ ∀ before ∈ last, ∀ index ∈ numbers.1, before < index := by
  induction indices generalizing last values numbers with
  | nil =>
    rw [decodeSparse] at decoded
    · cases decoded
      simp
    · intro first rest value others absurd
      cases absurd
  | cons first indices ih =>
    cases values with
    | nil =>
      rw [decodeSparse] at decoded
      · cases decoded
        simp
      · intro first rest value others _ absurd
        cases absurd
    | cons value values =>
      rw [decodeSparse] at decoded
      cases read : unsignedInteger first (dimensions - 1) with
      | error text => rw [read] at decoded; cases decoded
      | ok index =>
        rw [read] at decoded
        dsimp only [bind, Except.bind] at decoded
        split at decoded
        · cases decoded
        next apart =>
          cases number : doubles.finite? value with
          | none => rw [number] at decoded; cases decoded
          | some number' =>
            rw [number] at decoded
            cases rest : decodeSparse doubles dimensions (Option.some index) indices values with
            | error text =>
              dsimp only [pure, Except.pure] at decoded
              rw [rest] at decoded
              cases decoded
            | ok others =>
              dsimp only [pure, Except.pure] at decoded
              rw [rest] at decoded
              cases decoded
              obtain ⟨size, sorted, inside, above⟩ := ih rest
              have low := unsignedInteger_le read
              refine ⟨?_, ?_, ?_, ?_⟩
              · rw [List.length_cons, List.length_cons, size]
              · exact List.pairwise_cons.mpr ⟨above index rfl, sorted⟩
              · exact List.forall_mem_cons.mpr ⟨by omega, inside⟩
              · intro before isLast
                have own : before < index := by
                  by_contra notAbove
                  apply apart
                  rw [Option.mem_def.mp isLast]
                  simpa using notAbove
                exact List.forall_mem_cons.mpr
                  ⟨own, fun other member => own.trans (above index rfl other member)⟩

theorem decode_valid {doubles : Doubles} {input : Json} {value : Value}
    (decoded : decode doubles input = .ok value) : value.Valid := by
  cases input with
  | array items =>
    rw [decode] at decoded
    split at decoded
    · cases decoded
    next fits =>
      cases read : decodeDense doubles items with
      | error text => rw [read] at decoded; cases decoded
      | ok numbers =>
        rw [read] at decoded
        cases decoded
        have size : items.length ≤ maxValues := by omega
        exact ⟨size.trans (by decide), fun _ => length_decodeDense read, fun flag => (by cases flag), .nil,
          List.forall_mem_nil _⟩
  | object members =>
    simp only [decode] at decoded
    split at decoded
    · cases decoded
    split at decoded
    · cases decoded
    · split at decoded
      · cases decoded
      split at decoded
      next dims indices values _ _ _ =>
        split at decoded
        · cases decoded
        cases read : unsignedInteger dims maxDimensions with
        | error text => rw [read] at decoded; cases decoded
        | ok dimensions =>
          rw [read] at decoded
          dsimp only [bind, Except.bind] at decoded
          split at decoded
          next indices values _ _ =>
            split at decoded
            · cases decoded
            next shape =>
              dsimp only [pure, Except.pure] at decoded
              cases numbers : decodeSparse doubles dimensions none indices values with
              | error text => rw [numbers] at decoded; cases decoded
              | ok numbers' =>
                rw [numbers] at decoded
                cases decoded
                obtain ⟨size, sorted, inside, -⟩ := decodeSparse_spec (by omega) numbers
                exact ⟨unsignedInteger_le read, fun flag => (by cases flag), fun _ => size, sorted, inside⟩
          · cases decoded
      · cases decoded
    · cases decoded
  | _ => cases decoded

/-! ## The loop of `score` -/

/-- `UINT32_MAX`. -/
def sentinel : Nat := 4294967295

/-- The four accumulators. -/
structure Sums where
  dot : ℚ
  aa : ℚ
  bb : ℚ
  square : ℚ

namespace Sums

def zero : Sums := ⟨0, 0, 0, 0⟩

/-- One pass adds the coordinates `x` and `y`. -/
def add (sums : Sums) (x y : ℚ) : Sums :=
  ⟨sums.dot + x * y, sums.aa + x * x, sums.bb + y * y, sums.square + (x - y) * (x - y)⟩

def plus (sums others : Sums) : Sums :=
  ⟨sums.dot + others.dot, sums.aa + others.aa, sums.bb + others.bb, sums.square + others.square⟩

theorem zero_plus (sums : Sums) : zero.plus sums = sums := by
  simp only [zero, plus, zero_add]

theorem plus_zero (sums : Sums) : sums.plus zero = sums := by
  simp only [zero, plus, add_zero]

theorem add_plus (sums others : Sums) (x y : ℚ) :
    (sums.add x y).plus others = sums.plus (others.add x y) := by
  simp only [add, plus, add_comm, add_left_comm]

end Sums

/-- The index of the next value; none reads past the indices. -/
def Value.position? (value : Value) (next : Nat) : Option Nat :=
  if next = value.values.length then some sentinel
  else if value.sparse then value.indices[next]?
  else some next

/-- The `while` loop with the passes that are left. It gives none when it reads past a list or
runs out of passes. -/
def scoreLoop (a b : Value) : Nat → Nat → Nat → Sums → Option Sums
  | passes, i, j, sums =>
      if i < a.values.length ∨ j < b.values.length then
        match passes with
        | 0 => none
        | passes + 1 => do
            let ai ← a.position? i
            let bj ← b.position? j
            let x ← if ai ≤ bj then a.values[i]? else some 0
            let y ← if bj ≤ ai then b.values[j]? else some 0
            scoreLoop a b passes (if ai ≤ bj then i + 1 else i) (if bj ≤ ai then j + 1 else j) (sums.add x y)
      else some sums

/-- The sums of two vectors of equal dimension. Every pass reads a value, so there are no more
passes than values. -/
def scoreSums (a b : Value) : Option Sums :=
  scoreLoop a b (a.values.length + b.values.length) 0 0 .zero

/-! ## The vectors that are meant -/

/-- The values with the coordinates they stand for. -/
def Value.entries (value : Value) : List (Nat × ℚ) :=
  (if value.sparse then value.indices else List.range value.values.length).zip value.values

/-- The coordinate of a list of entries; what has no entry is zero. -/
def coordinate (entries : List (Nat × ℚ)) (index : Nat) : ℚ := (entries.lookup index).getD 0

def Value.coordinate (value : Value) (index : Nat) : ℚ := Vectors.coordinate value.entries index

open Finset in
/-- The sums over all coordinates. -/
def sumsBelow (dimensions : Nat) (x y : Nat → ℚ) : Sums where
  dot := ∑ index ∈ range dimensions, x index * y index
  aa := ∑ index ∈ range dimensions, x index * x index
  bb := ∑ index ∈ range dimensions, y index * y index
  square := ∑ index ∈ range dimensions, (x index - y index) * (x index - y index)

/-- Entries in the order of their coordinates, below the dimension. -/
structure Ordered (dimensions : Nat) (entries : List (Nat × ℚ)) : Prop where
  sorted : entries.Pairwise fun first second => first.1 < second.1
  inside : ∀ entry ∈ entries, entry.1 < dimensions

theorem coordinate_cons (entry : Nat × ℚ) (rest : List (Nat × ℚ)) (index : Nat) :
    coordinate (entry :: rest) index = if index = entry.1 then entry.2 else coordinate rest index := by
  rw [coordinate, List.lookup_cons]
  by_cases own : index = entry.1
  · rw [if_pos own, beq_iff_eq.mpr own]
    rfl
  · rw [if_neg own, beq_eq_false_iff_ne.mpr own]
    rfl

theorem coordinate_absent {entries : List (Nat × ℚ)} {index : Nat}
    (absent : ∀ entry ∈ entries, index ≠ entry.1) : coordinate entries index = 0 := by
  induction entries with
  | nil => rfl
  | cons entry rest ih =>
    obtain ⟨own, later⟩ := List.forall_mem_cons.mp absent
    rw [coordinate_cons, if_neg own, ih later]

/-- One coordinate more: what `score` adds in one pass. -/
theorem sumsBelow_update {dimensions index : Nat} (inside : index < dimensions) (u v : ℚ)
    {x y x' y' : Nat → ℚ} (absent : x' index = 0) (absent' : y' index = 0)
    (left : ∀ other, x other = if other = index then u else x' other)
    (right : ∀ other, y other = if other = index then v else y' other) :
    sumsBelow dimensions x y = (sumsBelow dimensions x' y').add u v := by
  have added : ∀ f : ℚ → ℚ → ℚ, f 0 0 = 0 →
      ∑ other ∈ Finset.range dimensions, f (x other) (y other) =
        ∑ other ∈ Finset.range dimensions, f (x' other) (y' other) + f u v := by
    intro f zero
    have split : ∀ other ∈ Finset.range dimensions, f (x other) (y other) =
        f (x' other) (y' other) + if other = index then f u v else 0 := by
      intro other _
      rw [left, right]
      by_cases own : other = index
      · rw [if_pos own, if_pos own, if_pos own, own, absent, absent', zero, zero_add]
      · rw [if_neg own, if_neg own, if_neg own, add_zero]
    rw [Finset.sum_congr rfl split, Finset.sum_add_distrib, Finset.sum_ite_eq',
      if_pos (Finset.mem_range.mpr inside)]
  simp only [sumsBelow, Sums.add]
  rw [added (fun x y => x * y) (mul_zero 0), added (fun x _ => x * x) (mul_zero 0),
    added (fun _ y => y * y) (mul_zero 0), added (fun x y => (x - y) * (x - y)) (by simp)]

theorem sumsBelow_nil (dimensions : Nat) :
    sumsBelow dimensions (coordinate []) (coordinate []) = .zero := by
  simp [sumsBelow, coordinate, Sums.zero]

/-- The index of the first entry; behind the last one stands the sentinel. -/
def frontIndex : List (Nat × ℚ) → Nat
  | [] => sentinel
  | entry :: _ => entry.1

theorem coordinate_before_front {dimensions index : Nat} {entries : List (Nat × ℚ)}
    (ordered : Ordered dimensions entries) (before : index < frontIndex entries) :
    coordinate entries index = 0 := by
  apply coordinate_absent
  cases entries with
  | nil => exact List.forall_mem_nil _
  | cons first rest =>
    have own : index < first.1 := before
    have above := (List.pairwise_cons.mp ordered.sorted).1
    exact List.forall_mem_cons.mpr ⟨own.ne, fun other member => (own.trans (above other member)).ne⟩

namespace Value

variable {value : Value}

theorem Valid.length_entries (valid : value.Valid) : value.entries.length = value.values.length := by
  rw [entries, List.length_zip]
  cases flag : value.sparse with
  | false => rw [if_neg Bool.false_ne_true, List.length_range, Nat.min_self]
  | true => rw [if_pos rfl, valid.paired flag, Nat.min_self]

theorem Valid.ordered (valid : value.Valid) : Ordered value.dimensions value.entries := by
  have size : (if value.sparse then value.indices else List.range value.values.length).length =
      value.values.length := by
    cases flag : value.sparse with
    | false => rw [if_neg Bool.false_ne_true, List.length_range]
    | true => rw [if_pos rfl, valid.paired flag]
  have indices : (if value.sparse then value.indices else List.range value.values.length).Pairwise (· < ·) ∧
      ∀ index ∈ (if value.sparse then value.indices else List.range value.values.length),
        index < value.dimensions := by
    cases flag : value.sparse with
    | false =>
      rw [if_neg Bool.false_ne_true]
      refine ⟨List.pairwise_lt_range, fun index member => ?_⟩
      rw [← valid.dense flag]
      exact List.mem_range.mp member
    | true =>
      rw [if_pos rfl]
      exact ⟨valid.sorted, valid.inside⟩
  constructor
  · apply List.Pairwise.of_map Prod.fst (fun _ _ less => less)
    rw [entries, List.map_fst_zip size.le]
    exact indices.1
  · intro entry member
    exact indices.2 entry.1 (List.of_mem_zip member).1

/-- What the loop reads at the next value. -/
theorem Valid.reads (valid : value.Valid) {next : Nat} (more : next < value.values.length) :
    ∃ entry, value.entries.drop next = entry :: value.entries.drop (next + 1) ∧
      value.position? next = some entry.1 ∧ value.values[next]? = some entry.2 := by
  have size := valid.length_entries
  have inside : next < value.entries.length := by omega
  obtain ⟨index, own⟩ := List.getElem?_zip_eq_some.mp (List.getElem?_eq_getElem inside)
  refine ⟨value.entries[next], List.drop_eq_getElem_cons inside, ?_, own⟩
  rw [position?, if_neg (by omega)]
  cases flag : value.sparse with
  | false =>
    rw [flag, if_neg Bool.false_ne_true, List.getElem?_range more] at index
    rw [if_neg Bool.false_ne_true]
    exact index
  | true =>
    rw [flag, if_pos rfl] at index
    rw [if_pos rfl]
    exact index

theorem Valid.reads_end (valid : value.Valid) : value.entries.drop value.values.length = [] := by
  rw [← valid.length_entries, List.drop_length]

/-- The loop stands at the index of the first entry that is left. -/
theorem Valid.position?_eq (valid : value.Valid) {next : Nat} (within : next ≤ value.values.length) :
    value.position? next = some (frontIndex (value.entries.drop next)) := by
  rcases Nat.lt_or_eq_of_le within with more | rfl
  · obtain ⟨entry, split, position, -⟩ := valid.reads more
    rw [position, split]
    rfl
  · rw [valid.reads_end, position?, if_pos rfl]
    rfl

theorem Valid.frontIndex_inside (valid : value.Valid) {next : Nat} (more : next < value.values.length) :
    frontIndex (value.entries.drop next) < value.dimensions := by
  obtain ⟨entry, split, -⟩ := valid.reads more
  have member : entry ∈ value.entries := List.mem_of_mem_drop (split ▸ List.mem_cons_self)
  rw [split]
  exact valid.ordered.inside entry member

theorem Valid.dimensions_lt (valid : value.Valid) : value.dimensions < sentinel :=
  valid.few.trans_lt (by decide)

/-- No index reaches the sentinel. -/
theorem Valid.frontIndex_lt_iff (valid : value.Valid) {next : Nat} (within : next ≤ value.values.length) :
    frontIndex (value.entries.drop next) < sentinel ↔ next < value.values.length := by
  constructor
  · intro before
    rcases Nat.lt_or_eq_of_le within with more | rfl
    · exact more
    · rw [valid.reads_end] at before
      exact absurd before (lt_irrefl _)
  · intro more
    exact (valid.frontIndex_inside more).trans valid.dimensions_lt

theorem Valid.frontIndex_le (valid : value.Valid) {next : Nat} (within : next ≤ value.values.length) :
    frontIndex (value.entries.drop next) ≤ sentinel := by
  rcases Nat.lt_or_eq_of_le within with more | rfl
  · exact ((valid.frontIndex_lt_iff within).mpr more).le
  · rw [valid.reads_end]
    rfl

theorem Valid.ordered_drop (valid : value.Valid) (next : Nat) :
    Ordered value.dimensions (value.entries.drop next) where
  sorted := List.Pairwise.sublist (List.drop_sublist _ _) valid.ordered.sorted
  inside entry member := valid.ordered.inside entry (List.mem_of_mem_drop member)

/-- The values that are left, as a vector. -/
def left (value : Value) (next : Nat) : Nat → ℚ := Vectors.coordinate (value.entries.drop next)

/-- The front entry makes one coordinate, and the others are those of the rest. -/
theorem Valid.left_step (valid : value.Valid) {next : Nat} {number : ℚ}
    (more : next < value.values.length) (reads : value.values[next]? = some number) (index : Nat) :
    value.left next index =
      if index = frontIndex (value.entries.drop next) then number else value.left (next + 1) index := by
  obtain ⟨entry, split, -, own⟩ := valid.reads more
  obtain rfl : entry.2 = number := Option.some.inj (own.symm.trans reads)
  rw [left, split, coordinate_cons]
  rfl

theorem Valid.left_front (valid : value.Valid) {next : Nat} (more : next < value.values.length) :
    value.left (next + 1) (frontIndex (value.entries.drop next)) = 0 := by
  obtain ⟨entry, split, -⟩ := valid.reads more
  have ordered := valid.ordered_drop next
  rw [split] at ordered ⊢
  apply coordinate_absent
  intro other member
  exact ((List.pairwise_cons.mp ordered.sorted).1 other member).ne

theorem Valid.left_before (valid : value.Valid) {next index : Nat}
    (before : index < frontIndex (value.entries.drop next)) : value.left next index = 0 :=
  coordinate_before_front (valid.ordered_drop next) before

end Value

/-! ## The loop adds every coordinate once -/

theorem left_end {value : Value} (valid : value.Valid) : value.left value.values.length = coordinate [] := by
  funext index
  rw [Value.left, valid.reads_end]

/-- When both sides have come to their end, nothing is left to add. -/
theorem sumsBelow_end {a b : Value} (valid : a.Valid) (valid' : b.Valid) (sums : Sums) :
    sums.plus (sumsBelow a.dimensions (a.left a.values.length) (b.left b.values.length)) = sums := by
  rw [left_end valid, left_end valid', sumsBelow_nil, Sums.plus_zero]

theorem scoreLoop_spec {a b : Value} (valid : a.Valid) (valid' : b.Valid)
    (same : a.dimensions = b.dimensions) (passes : Nat) : ∀ i j sums, i ≤ a.values.length →
      j ≤ b.values.length → a.values.length - i + (b.values.length - j) ≤ passes →
        scoreLoop a b passes i j sums =
          some (sums.plus (sumsBelow a.dimensions (a.left i) (b.left j))) := by
  induction passes with
  | zero =>
    intro i j sums within within' done
    obtain rfl : i = a.values.length := by omega
    obtain rfl : j = b.values.length := by omega
    rw [scoreLoop, if_neg (by omega), sumsBelow_end valid valid']
  | succ passes ih =>
    intro i j sums within within' enough
    by_cases more : i < a.values.length ∨ j < b.values.length
    · have low := valid.frontIndex_le within
      have low' := valid'.frontIndex_le within'
      have moreLeft := valid.frontIndex_lt_iff within
      have moreRight := valid'.frontIndex_lt_iff within'
      rw [scoreLoop, if_pos more, valid.position?_eq within, valid'.position?_eq within']
      simp only [Option.bind_eq_bind, Option.bind_some]
      generalize atLeft : frontIndex (a.entries.drop i) = ai at *
      generalize atRight : frontIndex (b.entries.drop j) = bj at *
      rcases lt_trichotomy ai bj with less | rfl | greater
      · -- Only the left side has this coordinate.
        have inLeft : i < a.values.length := moreLeft.mp (by omega)
        obtain ⟨x, reads⟩ : ∃ x, a.values[i]? = some x := ⟨_, List.getElem?_eq_getElem inLeft⟩
        have inside := valid.frontIndex_inside inLeft
        have absent := valid.left_front inLeft
        have absent' := valid'.left_before (atRight ▸ less)
        have left := valid.left_step inLeft reads
        have right : ∀ other, b.left j other = if other = ai then 0 else b.left j other := by
          intro other
          by_cases own : other = ai
          · rw [if_pos own, own, absent']
          · rw [if_neg own]
        rw [atLeft] at inside absent left
        simp only [if_pos less.le, if_neg less.not_ge, reads, Option.bind_some]
        rw [ih (i + 1) j _ (by omega) within' (by omega), Sums.add_plus,
          ← sumsBelow_update inside x 0 absent absent' left right]
      · have inLeft : i < a.values.length := by omega
        have inRight : j < b.values.length := by omega
        obtain ⟨x, reads⟩ : ∃ x, a.values[i]? = some x := ⟨_, List.getElem?_eq_getElem inLeft⟩
        obtain ⟨y, reads'⟩ : ∃ y, b.values[j]? = some y := ⟨_, List.getElem?_eq_getElem inRight⟩
        have inside := valid.frontIndex_inside inLeft
        have absent := valid.left_front inLeft
        have absent' := valid'.left_front inRight
        have left := valid.left_step inLeft reads
        have right := valid'.left_step inRight reads'
        rw [atLeft] at inside absent left
        rw [atRight] at absent' right
        simp only [if_pos (le_refl ai), reads, reads', Option.bind_some]
        rw [ih (i + 1) (j + 1) _ (by omega) (by omega) (by omega), Sums.add_plus,
          ← sumsBelow_update inside x y absent absent' left right]
      · -- Only the right side has it.
        have inRight : j < b.values.length := moreRight.mp (by omega)
        obtain ⟨y, reads'⟩ : ∃ y, b.values[j]? = some y := ⟨_, List.getElem?_eq_getElem inRight⟩
        have inside := valid'.frontIndex_inside inRight
        have absent := valid.left_before (atLeft ▸ greater)
        have absent' := valid'.left_front inRight
        have left : ∀ other, a.left i other = if other = bj then 0 else a.left i other := by
          intro other
          by_cases own : other = bj
          · rw [if_pos own, own, absent]
          · rw [if_neg own]
        have right := valid'.left_step inRight reads'
        rw [atRight, ← same] at inside
        rw [atRight] at absent' right
        simp only [if_neg greater.not_ge, if_pos greater.le, reads', Option.bind_some]
        rw [ih i (j + 1) _ within (by omega) (by omega), Sums.add_plus,
          ← sumsBelow_update inside 0 y absent absent' left right]
    · obtain rfl : i = a.values.length := by omega
      obtain rfl : j = b.values.length := by omega
      rw [scoreLoop, if_neg more, sumsBelow_end valid valid']

/-- Two decoded vectors of one dimension: the loop ends, reads no value that is not there, and
has the four sums over all coordinates. -/
theorem scoreSums_exact {doubles : Doubles} {input input' : Json} {a b : Value}
    (decoded : decode doubles input = .ok a) (decoded' : decode doubles input' = .ok b)
    (same : a.dimensions = b.dimensions) :
    scoreSums a b = some (sumsBelow a.dimensions a.coordinate b.coordinate) := by
  rw [scoreSums, scoreLoop_spec (decode_valid decoded) (decode_valid decoded') same _ 0 0 _
    (Nat.zero_le _) (Nat.zero_le _) (by omega), Sums.zero_plus]
  rfl

/-- A sparse vector with its last coordinate and a dense one. -/
theorem scoreSums_three : ∃ sums, scoreSums ⟨3, [2], [5], true⟩ ⟨3, [], [1, 2, 4], false⟩ = some sums ∧
    sums.dot = 20 := by
  let doubles : Doubles := ⟨fun value => value, fun _ => none⟩
  have sparse : decode doubles (.object [("format", .string "sparse-v1"), ("dimensions", .unsigned 3),
      ("indices", .array [.unsigned 2]), ("values", .array [.integer 5]), ("precision", .string "float64")]) =
        .ok ⟨3, [2], [5], true⟩ := by rfl
  have dense : decode doubles (.array [.integer 1, .integer 2, .integer 4]) = .ok ⟨3, [], [1, 2, 4], false⟩ := by
    rfl
  refine ⟨_, scoreSums_exact sparse dense rfl, ?_⟩
  have coordinates : ∀ index, coordinate [(2, 5)] index = if index = 2 then (5 : ℚ) else 0 :=
    coordinate_cons (2, 5) []
  have third : coordinate [(0, 1), (1, 2), (2, 4)] 2 = 4 := rfl
  simp [sumsBelow, Value.coordinate, Value.entries, List.range_succ, coordinates, Finset.sum_range_succ, third]
  norm_num

end PacificDb.Vectors
