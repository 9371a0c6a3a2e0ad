import Mathlib.Algebra.Order.Ring.Int
import Mathlib.Data.List.Basic
import Mathlib.Order.Defs.LinearOrder

/-!
# Comparisons by a key

A comparison that first asks whether two values are equal, and then compares keys, is an
order only as far as the equality and the keys agree. `ordered_iff` says how far: equal keys
are equal values, equality is transitive, and no value stands between two equal ones.

A sort by several such comparisons in turn is stable and sorted (`mergeSort_sorted`), if each
of them is an order of the items that it is asked about (`beforeBy_order`).
-/

namespace PacificDb.Lib

variable {α κ : Type} [LinearOrder κ]

/-- The sign of a comparison: zero for equal values, else by the keys. -/
def compareBy (equal : α → α → Bool) (key : α → κ) (a b : α) : Int :=
  if equal a b then 0 else if key a < key b then -1 else 1

/-- A strict weak order on some values: what `std::sort` asks of a comparison. -/
structure StrictWeakOrderOn (values : List α) (less : α → α → Prop) : Prop where
  irreflexive : ∀ a ∈ values, ¬less a a
  transitive : ∀ a ∈ values, ∀ b ∈ values, ∀ c ∈ values, less a b → less b c → less a c
  incomparable : ∀ a ∈ values, ∀ b ∈ values, ∀ c ∈ values,
    ¬less a b → ¬less b a → ¬less b c → ¬less c b → ¬less a c ∧ ¬less c a

/-- A comparison that orders some values: its sign turns with its arguments, and its
negative part is a strict weak order. -/
structure OrderedOn (values : List α) (compare : α → α → Int) : Prop where
  turns : ∀ a ∈ values, ∀ b ∈ values, compare b a = -compare a b
  order : StrictWeakOrderOn values fun a b => compare a b < 0

/-- Equality and keys agree on some values. -/
structure Coherent (equal : α → α → Bool) (key : α → κ) (values : List α) : Prop where
  /-- Values with one key are equal. -/
  keyed : ∀ a ∈ values, ∀ b ∈ values, key a = key b → equal a b = true
  /-- Values equal to a third one are equal. -/
  transitive : ∀ a ∈ values, ∀ b ∈ values, ∀ c ∈ values,
    equal a b = true → equal b c = true → equal a c = true
  /-- A value between two equal ones is equal to them. -/
  convex : ∀ a ∈ values, ∀ b ∈ values, ∀ c ∈ values,
    equal a c = true → key a < key b → key b < key c → equal a b = true

variable {equal : α → α → Bool} {key : α → κ} {values : List α} {a b c : α}

instance : Decidable (Coherent equal key values) :=
  decidable_of_iff ((∀ a ∈ values, ∀ b ∈ values, key a = key b → equal a b = true) ∧
      (∀ a ∈ values, ∀ b ∈ values, ∀ c ∈ values,
        equal a b = true → equal b c = true → equal a c = true) ∧
      ∀ a ∈ values, ∀ b ∈ values, ∀ c ∈ values,
        equal a c = true → key a < key b → key b < key c → equal a b = true)
    ⟨fun all => ⟨all.1, all.2.1, all.2.2⟩, fun all => ⟨all.keyed, all.transitive, all.convex⟩⟩

theorem compareBy_neg : compareBy equal key a b < 0 ↔ equal a b = false ∧ key a < key b := by
  rw [compareBy]
  cases equal a b with
  | true => simp
  | false => by_cases less : key a < key b <;> simp [less]

theorem compareBy_turns (symmetric : equal b a = equal a b) :
    compareBy equal key b a = -compareBy equal key a b ↔ equal a b = true ∨ key a ≠ key b := by
  rw [compareBy, compareBy, symmetric]
  cases equal a b with
  | true => simp
  | false =>
    rcases lt_trichotomy (key a) (key b) with less | same | greater
    · simp [less, less.not_gt, less.ne]
    · simp [same]
    · simp [greater, greater.not_gt, greater.ne']

/-- Values are incomparable when they are equal, or have one key. -/
theorem compareBy_incomparable (symmetric : equal b a = equal a b) :
    (¬compareBy equal key a b < 0 ∧ ¬compareBy equal key b a < 0) ↔ equal a b = true ∨ key a = key b := by
  rw [compareBy_neg, compareBy_neg, symmetric]
  cases equal a b with
  | true => simp
  | false =>
    simp only [true_and, not_lt, Bool.false_eq_true, false_or]
    exact ⟨fun both => le_antisymm both.2 both.1, fun same => ⟨same.ge, same.le⟩⟩

/-- A comparison by a key orders values exactly when equality and keys agree on them. -/
theorem ordered_iff (reflexive : ∀ a, equal a a = true) (symmetric : ∀ a b, equal b a = equal a b) :
    OrderedOn values (compareBy equal key) ↔ Coherent equal key values := by
  constructor
  · intro ordered
    have keyed : ∀ a ∈ values, ∀ b ∈ values, key a = key b → equal a b = true := by
      intro a first b second same
      rcases (compareBy_turns (symmetric a b)).mp (ordered.turns a first b second) with isEqual | differ
      · exact isEqual
      · exact absurd same differ
    have incomparable : ∀ a ∈ values, ∀ b ∈ values, equal a b = true →
        ¬compareBy equal key a b < 0 ∧ ¬compareBy equal key b a < 0 :=
      fun a _ b _ isEqual => (compareBy_incomparable (symmetric a b)).mpr (.inl isEqual)
    refine ⟨keyed, fun a first b second c third left right => ?_,
      fun a first b second c third isEqual below above => ?_⟩
    · have one := incomparable a first b second left
      have two := incomparable b second c third right
      have apart := ordered.order.incomparable a first b second c third one.1 one.2 two.1 two.2
      rcases (compareBy_incomparable (symmetric a c)).mp apart with isEqual | same
      · exact isEqual
      · exact keyed a first c third same
    · -- If neither were equal to the value between, the outer two would compare by their keys.
      by_contra differ
      rw [Bool.not_eq_true] at differ
      have less : compareBy equal key a b < 0 := compareBy_neg.mpr ⟨differ, below⟩
      have other : equal b c = false := by
        rw [Bool.eq_false_iff]
        intro later
        have back : equal c a = true := by rw [symmetric a c, isEqual]
        have one := incomparable b second c third later
        have two := incomparable c third a first back
        exact (ordered.order.incomparable b second c third a first one.1 one.2 two.1 two.2).2 less
      have further : compareBy equal key b c < 0 := compareBy_neg.mpr ⟨other, above⟩
      have outer := ordered.order.transitive a first b second c third less further
      rw [compareBy_neg, isEqual] at outer
      exact absurd outer.1 (by decide)
  · intro coherent
    have incomparable : ∀ a ∈ values, ∀ b ∈ values,
        (¬compareBy equal key a b < 0 ∧ ¬compareBy equal key b a < 0) ↔ equal a b = true := by
      intro a first b second
      rw [compareBy_incomparable (symmetric a b)]
      exact ⟨fun either => either.elim id (coherent.keyed a first b second), .inl⟩
    refine ⟨fun a first b second => (compareBy_turns (symmetric a b)).mpr ?_, ⟨?_, ?_, ?_⟩⟩
    · by_cases same : key a = key b
      · exact .inl (coherent.keyed a first b second same)
      · exact .inr same
    · intro a _ less
      rw [compareBy_neg, reflexive] at less
      exact absurd less.1 (by decide)
    · intro a first b second c third left right
      rw [compareBy_neg] at left right ⊢
      refine ⟨Bool.eq_false_iff.mpr fun isEqual => ?_, left.2.trans right.2⟩
      have between := coherent.convex a first b second c third isEqual left.2 right.2
      rw [left.1] at between
      cases between
    · intro a first b second c third ab ba bc cb
      apply (incomparable a first c third).mpr
      exact coherent.transitive a first b second c third
        ((incomparable a first b second).mp ⟨ab, ba⟩) ((incomparable b second c third).mp ⟨bc, cb⟩)

/-! ## Sorting -/

/-- What a stable sort of a list gives. -/
structure StablySorted (before : α → α → Prop) (items sorted : List α) : Prop where
  perm : sorted.Perm items
  ordered : sorted.Pairwise fun first second => ¬before second first
  /-- Items none of which goes before an earlier one stay in their order. -/
  stable : ∀ kept : List α, kept.Sublist items → (kept.Pairwise fun first second => ¬before second first) →
    kept.Sublist sorted

/-- A strict weak order on the items sorts them. -/
theorem mergeSort_sorted {items : List α} {before : α → α → Bool}
    (order : StrictWeakOrderOn items fun a b => before a b = true) :
    StablySorted (fun a b => before a b = true) items (items.mergeSort fun a b => !before b a) := by
  -- The sort of the items together with their membership, where the order is total.
  let below : {item // item ∈ items} → {item // item ∈ items} → Bool := fun a b => !before b.1 a.1
  have total : ∀ a b, (below a b || below b a) = true := by
    intro a b
    by_contra both
    simp only [below, Bool.or_eq_true, Bool.not_eq_true', not_or, Bool.not_eq_false] at both
    exact order.irreflexive a a.2 (order.transitive a a.2 b b.2 a a.2 both.2 both.1)
  have trans : ∀ a b c, below a b = true → below b c = true → below a c = true := by
    intro a b c left right
    simp only [below, Bool.not_eq_true'] at left right ⊢
    rw [Bool.eq_false_iff] at left right ⊢
    intro less
    by_cases first : before a.1 b.1 = true
    · exact right (order.transitive c c.2 a a.2 b b.2 less first)
    · by_cases second : before b.1 c.1 = true
      · exact left (order.transitive b b.2 c c.2 a a.2 second less)
      · exact (order.incomparable a a.2 b b.2 c c.2 first left second right).2 less
  have attached : (items.attach.mergeSort below).map Subtype.val = items.mergeSort fun a b => !before b a := by
    rw [@List.map_mergeSort _ _ below (fun a b => !before b a) Subtype.val items.attach fun _ _ _ _ => rfl,
      List.attach_map_subtype_val]
  have sorted := List.pairwise_mergeSort trans total items.attach
  refine ⟨List.mergeSort_perm _ _, ?_, fun kept sublist ordered => ?_⟩
  · rw [← attached, List.pairwise_map]
    exact sorted.imp fun isBelow => by simpa [below] using isBelow
  · rw [← items.attach_map_subtype_val] at sublist
    obtain ⟨lifted, isLifted, rfl⟩ := List.sublist_map_iff.mp sublist
    rw [← attached]
    apply List.Sublist.map
    apply List.sublist_mergeSort trans total _ isLifted
    rw [List.pairwise_map] at ordered
    exact ordered.imp fun isBelow => by simpa [below] using isBelow

/-! ## Comparisons in turn -/

section Lexicographic

variable {items : List α} {less other : α → α → Prop}

theorem StrictWeakOrderOn.congr (order : StrictWeakOrderOn items less)
    (same : ∀ a ∈ items, ∀ b ∈ items, other a b ↔ less a b) : StrictWeakOrderOn items other := by
  refine ⟨fun a first => ?_, fun a first b second c third => ?_, fun a first b second c third => ?_⟩
  · rw [same a first a first]
    exact order.irreflexive a first
  · rw [same a first b second, same b second c third, same a first c third]
    exact order.transitive a first b second c third
  · rw [same a first b second, same b second a first, same b second c third, same c third b second,
      same a first c third, same c third a first]
    exact order.incomparable a first b second c third

theorem StrictWeakOrderOn.flip (order : StrictWeakOrderOn items less) :
    StrictWeakOrderOn items fun a b => less b a where
  irreflexive := order.irreflexive
  transitive a first b second c third left right := order.transitive c third b second a first right left
  incomparable a first b second c third ab ba bc cb :=
    (order.incomparable a first b second c third ba ab cb bc).symm

/-- What is below one of two incomparable items is below the other. -/
theorem StrictWeakOrderOn.below (order : StrictWeakOrderOn items less) {a b c : α} (first : a ∈ items)
    (second : b ∈ items) (third : c ∈ items) (isLess : less a b) (bc : ¬less b c) (cb : ¬less c b) : less a c := by
  by_contra ac
  by_cases ca : less c a
  · exact cb (order.transitive c third a first b second ca isLess)
  · exact (order.incomparable a first c third b second ac ca cb bc).1 isLess

theorem StrictWeakOrderOn.mono {some : List α} (order : StrictWeakOrderOn items less) (within : some ⊆ items) :
    StrictWeakOrderOn some less where
  irreflexive a first := order.irreflexive a (within first)
  transitive a first b second c third := order.transitive a (within first) b (within second) c (within third)
  incomparable a first b second c third :=
    order.incomparable a (within first) b (within second) c (within third)

/-- One order, and another for what it leaves open. -/
theorem StrictWeakOrderOn.lex (order : StrictWeakOrderOn items less)
    (next : ∀ a ∈ items, ∀ others : List α,
      (∀ b ∈ others, b ∈ items ∧ ¬less a b ∧ ¬less b a) → StrictWeakOrderOn others other) :
    StrictWeakOrderOn items fun a b => less a b ∨ (¬less a b ∧ ¬less b a) ∧ other a b := by
  -- what the second order says of three items that the first leaves open
  have three : ∀ a ∈ items, ∀ b ∈ items, ∀ c ∈ items, ¬less a b ∧ ¬less b a → ¬less a c ∧ ¬less c a →
      StrictWeakOrderOn [a, b, c] other := by
    intro a first b second c third ab ac
    have self := order.irreflexive a first
    refine next a first [a, b, c] fun item member => ?_
    simp only [List.mem_cons, List.not_mem_nil, or_false] at member
    rcases member with rfl | rfl | rfl
    · exact ⟨first, self, self⟩
    · exact ⟨second, ab⟩
    · exact ⟨third, ac⟩
  refine ⟨fun a first either => ?_, fun a first b second c third left right => ?_,
    fun a first b second c third ab ba bc cb => ?_⟩
  · rcases either with isLess | ⟨-, isOther⟩
    · exact order.irreflexive a first isLess
    · have self := order.irreflexive a first
      exact (three a first a first a first ⟨self, self⟩ ⟨self, self⟩).irreflexive a (.head _) isOther
  · rcases left with isLess | ⟨⟨ab, ba⟩, isOther⟩
    · rcases right with later | ⟨⟨bc, cb⟩, -⟩
      · exact .inl (order.transitive a first b second c third isLess later)
      · exact .inl (order.below first second third isLess bc cb)
    · rcases right with later | ⟨⟨bc, cb⟩, further⟩
      · exact .inl (order.flip.below third second first later ab ba)
      · have open_ := order.incomparable a first b second c third ab ba bc cb
        exact .inr ⟨open_, (three a first b second c third ⟨ab, ba⟩ open_).transitive a (by simp) b (by simp)
          c (by simp) isOther further⟩
  · simp only [not_or, not_and] at ab ba bc cb
    have firstPair := order.incomparable a first b second c third ab.1 ba.1 bc.1 cb.1
    have secondPair := (three a first b second c third ⟨ab.1, ba.1⟩ firstPair).incomparable a (by simp) b
      (by simp) c (by simp) (ab.2 ⟨ab.1, ba.1⟩) (ba.2 ⟨ba.1, ab.1⟩) (bc.2 ⟨bc.1, cb.1⟩) (cb.2 ⟨cb.1, bc.1⟩)
    exact ⟨fun either => either.elim firstPair.1 fun both => secondPair.1 both.2,
      fun either => either.elim firstPair.2 fun both => secondPair.2 both.2⟩

end Lexicographic

/-- Comparisons in turn: the first that tells two items apart decides, in its direction. -/
def beforeBy : List ((α → α → Int) × Bool) → α → α → Bool
  | [], _, _ => false
  | (compare, ascending) :: later, a, b =>
      if compare a b ≠ 0 then (if ascending then compare a b < 0 else 0 < compare a b)
      else beforeBy later a b

/-- What the comparisons are asked about: the first about all items, and a later one about
items that the earlier ones do not tell from one item. -/
def asked : List ((α → α → Int) × Bool) → List α → List ((α → α → Int) × List α)
  | [], _ => []
  | (compare, _) :: later, items =>
      (compare, items) :: items.flatMap fun item => asked later (items.filter fun other => compare item other = 0)

theorem orderedOn_map {β : Type} {items : List β} {f : β → α} {compare : α → α → Int} :
    OrderedOn (items.map f) compare ↔ OrderedOn items fun a b => compare (f a) (f b) := by
  constructor
  · rintro ⟨turns, irreflexive, transitive, incomparable⟩
    simp only [List.forall_mem_map] at turns irreflexive transitive incomparable
    exact ⟨turns, irreflexive, transitive, incomparable⟩
  · rintro ⟨turns, irreflexive, transitive, incomparable⟩
    refine ⟨?_, ?_, ?_, ?_⟩
    all_goals simpa only [List.forall_mem_map]

theorem OrderedOn.positive {items : List α} {compare : α → α → Int} (ordered : OrderedOn items compare)
    {a b : α} (first : a ∈ items) (second : b ∈ items) : compare b a < 0 ↔ 0 < compare a b := by
  rw [ordered.turns a first b second]
  exact neg_lt_zero

/-- Comparisons each of which orders the items that it is asked about order them in turn, each
in its direction. -/
theorem beforeBy_order {items : List α} {comparisons : List ((α → α → Int) × Bool)}
    (each : ∀ question ∈ asked comparisons items, OrderedOn question.2 question.1) :
    StrictWeakOrderOn items fun a b => beforeBy comparisons a b = true := by
  induction comparisons generalizing items with
  | nil =>
    refine ⟨fun _ _ less => ?_, fun _ _ _ _ _ _ less => ?_, fun _ _ _ _ _ _ _ _ _ _ => ⟨?_, ?_⟩⟩
    all_goals simp_all [beforeBy]
  | cons entry later ih =>
    obtain ⟨compare, ascending⟩ := entry
    obtain ⟨own, others⟩ := List.forall_mem_cons.mp each
    have turned : ∀ a ∈ items, ∀ b ∈ items, compare b a < 0 ↔ 0 < compare a b :=
      fun a first b second => own.positive first second
    -- among items that are not told from one item the later comparisons are an order
    have rest : ∀ a ∈ items, ∀ open_ : List α, (∀ b ∈ open_, b ∈ items ∧ ¬compare a b < 0 ∧ ¬0 < compare a b) →
        StrictWeakOrderOn open_ fun a b => beforeBy later a b = true := by
      intro a first open_ same
      have order := @ih (items.filter fun other => compare a other = 0) fun question member =>
        others question (List.mem_flatMap.mpr ⟨a, first, member⟩)
      refine order.mono fun b member => List.mem_filter.mpr ⟨(same b member).1, ?_⟩
      obtain ⟨-, notLess, notMore⟩ := same b member
      exact decide_eq_true (by omega)
    cases ascending with
    | true =>
      refine (own.order.lex fun a first open_ same => rest a first open_ fun b member => ?_).congr
        fun a first b second => ?_
      · obtain ⟨isItem, ab, ba⟩ := same b member
        rw [turned a first b isItem] at ba
        exact ⟨isItem, ab, ba⟩
      · rw [turned a first b second, beforeBy]
        rcases lt_trichotomy (compare a b) 0 with less | same | greater
        · simp [less, less.ne]
        · simp [same]
        · simp [greater, greater.ne', greater.le]
    | false =>
      refine (own.order.flip.lex fun a first open_ same => rest a first open_ fun b member => ?_).congr
        fun a first b second => ?_
      · obtain ⟨isItem, ba, ab⟩ := same b member
        rw [turned a first b isItem] at ba
        exact ⟨isItem, ab, ba⟩
      · rw [turned a first b second, beforeBy]
        rcases lt_trichotomy (compare a b) 0 with less | same | greater
        · simp [less, less.ne, less.le]
        · simp [same]
        · simp [greater, greater.ne']

/-- A comparison orders items exactly when it sorts them in both directions. -/
theorem ordered_iff_directions {items : List α} {compare : α → α → Int} (self : ∀ a, compare a a = 0)
    (zero : ∀ a b, compare a b = 0 → compare b a = 0) (sign : ∀ a b, compare a b < 0 → 0 < compare b a)
    (unit : ∀ a b, compare a b = -1 ∨ compare a b = 0 ∨ compare a b = 1) :
    OrderedOn items compare ↔
      ∀ ascending, StrictWeakOrderOn items fun a b => beforeBy [(compare, ascending)] a b = true := by
  constructor
  · intro ordered ascending
    refine beforeBy_order fun question member => ?_
    have only : asked [(compare, ascending)] items = [(compare, items)] := by
      simp [asked]
    rw [only, List.mem_singleton] at member
    rw [member]
    exact ordered
  · intro both
    have up : StrictWeakOrderOn items fun a b => compare a b < 0 := by
      refine (both true).congr fun a _ b _ => ?_
      simp only [beforeBy, if_true, Bool.if_false_right, Bool.and_eq_true, decide_eq_true_eq, ne_eq]
      omega
    refine ⟨fun a first b second => ?_, up⟩
    have down : ¬(0 < compare a b ∧ 0 < compare b a) := by
      intro each
      have less : ∀ a b, 0 < compare a b → beforeBy [(compare, false)] a b = true := by
        intro a b above
        simp [beforeBy, above, above.ne']
      have loop := (both false).transitive a first b second a first (less a b each.1) (less b a each.2)
      simp [beforeBy, self] at loop
    rcases unit a b with less | same | more
    · have turn := sign a b (by omega)
      rcases unit b a with other | other | other <;> omega
    · rw [same, zero a b same]
      rfl
    · rcases unit b a with other | other | other
      · omega
      · have back := zero b a other
        omega
      · exact absurd ⟨by omega, by omega⟩ down

end PacificDb.Lib
