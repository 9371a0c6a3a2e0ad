import Mathlib.Order.Bounds.Basic
import PacificDb.Lib.Intervals
import PacificDb.Lsm.Checkpoint

/-!
# Apply progress is the contiguous prefix

`markWalApplied` is called with the LSNs of each write that has been applied, in
whatever order the writers finish. It keeps the progress in a normal form: the
intervals are apart from each other and from the contiguous prefix. A progress in
that form is determined by the LSNs it counts as applied, so the order of the calls
does not show, and the prefix is as long as the calls allow.

The LSNs are natural numbers here: no call reaches `UINT64_MAX`, so no comparison of
the source wraps.
-/

namespace PacificDb.Lsm

open Lib

variable {progress : WalApplyProgress} {first last low n : Nat} {before following : List (Nat × Nat)}

/-- The intervals are apart from each other and from the prefix. -/
def WalApplyProgress.Normal (progress : WalApplyProgress) : Prop :=
  Spaced (progress.contiguous + 2) progress.intervals

theorem marked_iff : Marked progress n ↔ n ≤ progress.contiguous ∨ InSome progress.intervals n :=
  .rfl

/-! ## One call -/

theorem inSome_absorbFollowing (order : first ≤ last) (spaced : Spaced first following) :
    InSome (absorbFollowing first last following) n ↔
      (first ≤ n ∧ n ≤ last) ∨ InSome following n := by
  induction following generalizing last with
  | nil => simp [absorbFollowing]
  | cons next rest ih =>
    unfold absorbFollowing
    split
    next touches =>
      obtain ⟨above, nextOrder, later⟩ := spaced
      rw [ih (by omega) (later.weaken (by omega)), inSome_cons]
      constructor
      · rintro (⟨lower, upper⟩ | inside)
        · by_cases own : n ≤ last
          · exact .inl ⟨lower, own⟩
          · exact .inr (.inl ⟨by omega, by omega⟩)
        · exact .inr (.inr inside)
      · rintro (⟨lower, upper⟩ | ⟨lower, upper⟩ | inside)
        · exact .inl ⟨lower, by omega⟩
        · exact .inl ⟨by omega, by omega⟩
        · exact .inr inside
    next => rw [inSome_cons]

theorem spaced_absorbFollowing (order : first ≤ last) (spaced : Spaced first following) :
    Spaced first (absorbFollowing first last following) := by
  induction following generalizing last with
  | nil => exact ⟨le_rfl, order, trivial⟩
  | cons next rest ih =>
    obtain ⟨above, nextOrder, later⟩ := spaced
    unfold absorbFollowing
    split
    next touches => exact ih (by omega) (later.weaken (by omega))
    next apart => exact ⟨le_rfl, order, by omega, nextOrder, later⟩

/-- What `markWalApplied` makes of the intervals: `[first, last]` is joined to the one
before it and to those after it. -/
def spliceInterval (first last : Nat) (intervals : List (Nat × Nat)) : List (Nat × Nat) :=
  let (before, start, stop) :=
    joinPrevious first last (intervals.takeWhile fun interval => interval.1 < first)
  before ++ absorbFollowing start stop
    (intervals.dropWhile fun interval => interval.1 < first)

/-- Only the last interval can be joined. -/
theorem joinPrevious_cons_cons (interval next : Nat × Nat) (others : List (Nat × Nat)) :
    joinPrevious first last (interval :: next :: others) =
      (interval :: (joinPrevious first last (next :: others)).1,
        (joinPrevious first last (next :: others)).2) := by
  unfold joinPrevious
  rw [List.getLast?_cons_cons]
  split
  · split
    · rfl
    · rfl
  · rfl

/-- Past an interval that neither touches nor follows `[first, last]`. -/
theorem spliceInterval_cons_of_lt {interval : Nat × Nat} {rest : List (Nat × Nat)}
    (starts : interval.1 < first) (apart : interval.2 + 1 < first) :
    spliceInterval first last (interval :: rest) = interval :: spliceInterval first last rest := by
  unfold spliceInterval
  rw [List.takeWhile_cons_of_pos (by simpa using starts),
    List.dropWhile_cons_of_pos (by simpa using starts)]
  cases front : rest.takeWhile fun interval => interval.1 < first with
  | nil =>
    have separate : ¬first - 1 ≤ interval.2 := by omega
    simp [joinPrevious, separate]
  | cons next others =>
    rw [joinPrevious_cons_cons]
    rfl

/-- The splice contains the old numbers and the given ones, and nothing touches. -/
theorem spliceInterval_spec {intervals : List (Nat × Nat)} (order : first ≤ last)
    (spaced : Spaced low intervals) (above : low ≤ first) :
    Spaced low (spliceInterval first last intervals) ∧
      ∀ n, InSome (spliceInterval first last intervals) n ↔
        (first ≤ n ∧ n ≤ last) ∨ InSome intervals n := by
  induction intervals generalizing low with
  | nil =>
    have shape : spliceInterval first last [] = [(first, last)] := rfl
    rw [shape]
    exact ⟨⟨above, order, trivial⟩, fun n => by simp⟩
  | cons interval rest ih =>
    obtain ⟨lowest, nonempty, later⟩ := spaced
    by_cases starts : interval.1 < first
    · by_cases apart : interval.2 + 1 < first
      · rw [spliceInterval_cons_of_lt starts apart]
        obtain ⟨restSpaced, restSame⟩ := ih later (by omega)
        refine ⟨⟨lowest, nonempty, restSpaced⟩, fun n => ?_⟩
        rw [inSome_cons, restSame, inSome_cons, or_left_comm]
      -- the interval before `first` touches it, and nothing else is in between
      · have none : rest.takeWhile (fun interval => decide (interval.1 < first)) = [] := by
          cases rest with
          | nil => rfl
          | cons next others =>
            have nextAbove := later.1
            rw [List.takeWhile_cons_of_neg (by simp only [decide_eq_true_eq]; omega)]
        have all : rest.dropWhile (fun interval => decide (interval.1 < first)) = rest := by
          have whole := List.takeWhile_append_dropWhile
            (p := fun interval : Nat × Nat => decide (interval.1 < first)) (l := rest)
          rwa [none, List.nil_append] at whole
        have touches : first - 1 ≤ interval.2 := by omega
        have shape : spliceInterval first last (interval :: rest) =
            absorbFollowing interval.1 (max last interval.2) rest := by
          unfold spliceInterval
          rw [List.takeWhile_cons_of_pos (by simpa using starts),
            List.dropWhile_cons_of_pos (by simpa using starts), none, all]
          simp [joinPrevious, touches]
        have restAbove : Spaced interval.1 rest := later.weaken (by omega)
        rw [shape]
        refine ⟨(spaced_absorbFollowing (by omega) restAbove).weaken lowest, fun n => ?_⟩
        rw [inSome_absorbFollowing (by omega) restAbove, inSome_cons, ← or_assoc]
        apply or_congr_left
        constructor
        · intro inside
          by_cases own : n ≤ interval.2
          · exact .inr ⟨inside.1, own⟩
          · exact .inl ⟨by omega, by omega⟩
        · rintro (⟨lower, upper⟩ | ⟨lower, upper⟩)
          · exact ⟨by omega, by omega⟩
          · exact ⟨lower, by omega⟩
    · have shape : spliceInterval first last (interval :: rest) =
          absorbFollowing first last (interval :: rest) := by
        unfold spliceInterval
        rw [List.takeWhile_cons_of_neg (by simpa using starts),
          List.dropWhile_cons_of_neg (by simpa using starts)]
        rfl
      have whole : Spaced first (interval :: rest) := ⟨by omega, nonempty, later⟩
      rw [shape]
      exact ⟨(spaced_absorbFollowing order whole).weaken above,
        fun n => inSome_absorbFollowing order whole⟩

/-- The leading intervals move into the prefix when they touch it. -/
theorem advanceContiguous_spec {contiguous : Nat} {intervals : List (Nat × Nat)}
    (spaced : Spaced (contiguous + 1) intervals) :
    (advanceContiguous contiguous intervals).Normal ∧
      ∀ n, Marked (advanceContiguous contiguous intervals) n ↔
        n ≤ contiguous ∨ InSome intervals n := by
  induction intervals generalizing contiguous with
  | nil => exact ⟨trivial, fun n => .rfl⟩
  | cons next rest ih =>
    obtain ⟨above, order, later⟩ := spaced
    unfold advanceContiguous
    split
    next touches =>
      have reach : max contiguous next.2 = next.2 := by omega
      have restAbove : Spaced (next.2 + 1) rest := later.weaken (by omega)
      rw [reach]
      obtain ⟨normal, same⟩ := ih restAbove
      refine ⟨normal, fun n => ?_⟩
      rw [same, inSome_cons, ← or_assoc]
      apply or_congr_left
      omega
    next apart =>
      have start : contiguous + 2 ≤ next.1 := by omega
      exact ⟨⟨start, order, later⟩, fun n => .rfl⟩

/-- One call keeps the normal form and adds the given range, if it has an LSN. -/
theorem markWalApplied_spec (normal : progress.Normal) (some : 1 ≤ first) :
    (markWalApplied progress first last).Normal ∧
      ∀ n, Marked (markWalApplied progress first last) n ↔
        Marked progress n ∨ (first ≤ n ∧ n ≤ last) := by
  unfold markWalApplied
  split
  · refine ⟨normal, fun n => ?_⟩
    have empty : ¬(first ≤ n ∧ n ≤ last) := by omega
    rw [or_iff_left empty]
  · split
    next covered =>
      refine ⟨normal, fun n => ?_⟩
      constructor
      · exact .inl
      · rintro (marked | inside)
        · exact marked
        · exact .inl (by omega)
    next advance =>
      set start := max first (progress.contiguous + 1) with startEq
      have order : start ≤ last := by omega
      obtain ⟨spaced, same⟩ := spliceInterval_spec order
        (normal.weaken (show progress.contiguous + 1 ≤ progress.contiguous + 2 by omega))
        (show progress.contiguous + 1 ≤ start by omega)
      obtain ⟨result, marked⟩ := advanceContiguous_spec spaced
      refine ⟨result, fun n => ?_⟩
      refine (marked n).trans ?_
      rw [same, marked_iff]
      constructor
      · rintro (low | inside | inside)
        · exact .inl (.inl low)
        · exact .inr ⟨by omega, inside.2⟩
        · exact .inl (.inr inside)
      · rintro ((low | inside) | inside)
        · exact .inl low
        · exact .inr (.inr inside)
        · by_cases low : n ≤ progress.contiguous
          · exact .inl low
          · exact .inr (.inl ⟨by omega, inside.2⟩)

/-! ## Any sequence of calls -/

/-- The progress after the calls, from a progress without intervals. -/
def markCalls (contiguous : Nat) (calls : List (Nat × Nat)) : WalApplyProgress :=
  calls.foldl (fun progress call => markWalApplied progress call.1 call.2) { contiguous }

theorem foldl_markWalApplied (calls : List (Nat × Nat)) (some : ∀ call ∈ calls, 1 ≤ call.1)
    (normal : progress.Normal) :
    (calls.foldl (fun progress call => markWalApplied progress call.1 call.2) progress).Normal ∧
      ∀ n, Marked (calls.foldl (fun progress call => markWalApplied progress call.1 call.2)
        progress) n ↔ Marked progress n ∨ InSome calls n := by
  induction calls generalizing progress with
  | nil => exact ⟨normal, fun n => by simp⟩
  | cons call rest ih =>
    obtain ⟨kept, marked⟩ := @markWalApplied_spec progress call.1 call.2 normal (some call (.head _))
    obtain ⟨result, whole⟩ := ih (fun other member => some other (.tail _ member)) kept
    refine ⟨result, fun n => ?_⟩
    rw [List.foldl_cons, whole, marked, inSome_cons, or_assoc]

theorem markCalls_spec (contiguous : Nat) {calls : List (Nat × Nat)}
    (some : ∀ call ∈ calls, 1 ≤ call.1) :
    (markCalls contiguous calls).Normal ∧
      ∀ n, Marked (markCalls contiguous calls) n ↔ n ≤ contiguous ∨ InSome calls n := by
  obtain ⟨normal, marked⟩ := @foldl_markWalApplied { contiguous } calls some trivial
  refine ⟨normal, fun n => ?_⟩
  exact (marked n).trans (by simp [marked_iff])

/-- The first LSN after the prefix is not applied. -/
theorem WalApplyProgress.Normal.not_marked (normal : progress.Normal) :
    ¬Marked progress (progress.contiguous + 1) := by
  rintro (below | inside)
  · omega
  · have above := Spaced.le_of_inSome normal inside
    omega

/-- A progress in normal form is determined by what it counts as applied. -/
theorem WalApplyProgress.Normal.eq_of_marked {other : WalApplyProgress}
    (normal : progress.Normal) (normal' : other.Normal)
    (same : ∀ n, Marked progress n ↔ Marked other n) : progress = other := by
  have prefixes : progress.contiguous = other.contiguous := by
    rcases lt_trichotomy progress.contiguous other.contiguous with less | equal | more
    · exact absurd ((same _).mpr (.inl less)) normal.not_marked
    · exact equal
    · exact absurd ((same _).mp (.inl more)) normal'.not_marked
  obtain ⟨contiguous, intervals⟩ := progress
  obtain ⟨_, others⟩ := other
  obtain rfl : contiguous = _ := prefixes
  have intervalsEq : intervals = others := by
    apply Spaced.eq_of_inSome normal normal'
    intro n
    by_cases low : n ≤ contiguous
    · constructor
      · intro inside
        have above : contiguous + 2 ≤ n := Spaced.le_of_inSome normal inside
        omega
      · intro inside
        have above : contiguous + 2 ≤ n := Spaced.le_of_inSome normal' inside
        omega
    · have whole := same n
      rwa [marked_iff, marked_iff, or_iff_right low, or_iff_right low] at whole
  rw [intervalsEq]

/-- Any sequence of calls leaves the longest prefix that the calls cover, the
intervals apart from each other and from it, and the same for every order. -/
theorem markCalls_contiguous (contiguous : Nat) (calls : List (Nat × Nat))
    (some : ∀ call ∈ calls, 1 ≤ call.1 ∧ call.2 < 2 ^ 64 - 1) :
    IsGreatest
        {n | ∀ lsn, contiguous < lsn → lsn ≤ n → ∃ call ∈ calls, call.1 ≤ lsn ∧ lsn ≤ call.2}
        (markCalls contiguous calls).contiguous ∧
      ((markCalls contiguous calls).intervals.Pairwise fun first second =>
        first.2 + 1 < second.1) ∧
      (∀ interval ∈ (markCalls contiguous calls).intervals,
        (markCalls contiguous calls).contiguous + 1 < interval.1 ∧ interval.1 ≤ interval.2) ∧
      ∀ order, order.Perm calls → markCalls contiguous order = markCalls contiguous calls := by
  have starts : ∀ call ∈ calls, 1 ≤ call.1 := fun call member => (some call member).1
  obtain ⟨normal, marked⟩ := markCalls_spec contiguous starts
  refine ⟨⟨?_, ?_⟩, Spaced.pairwise normal, ?_, ?_⟩
  · intro lsn above below
    exact ((marked lsn).mp (.inl below)).resolve_left (by omega)
  · intro n covered
    by_contra longer
    have start : contiguous ≤ (markCalls contiguous calls).contiguous := by
      by_contra shorter
      exact normal.not_marked ((marked _).mpr (.inl (by omega)))
    apply normal.not_marked
    apply (marked _).mpr
    exact .inr (covered _ (by omega) (by omega))
  · intro interval member
    exact Spaced.le_of_mem normal member
  · intro order perm
    obtain ⟨normal', marked'⟩ := markCalls_spec contiguous
      (fun call member => starts call (perm.mem_iff.mp member))
    apply normal'.eq_of_marked normal
    intro n
    rw [marked, marked']
    simp only [InSome, perm.mem_iff]

/-- Two ranges that overlap and one that waits for its predecessor. -/
theorem markCalls_contiguous_overlapping :
    (∀ call ∈ [(5, 6), (2, 3), (3, 3), (1, 2)], 1 ≤ call.1 ∧ call.2 < 2 ^ 64 - 1) ∧
      markCalls 0 [(5, 6), (2, 3), (3, 3), (1, 2)] = ⟨3, [(5, 6)]⟩ ∧
      markCalls 0 [(1, 2), (2, 3), (3, 3), (5, 6)] = ⟨3, [(5, 6)]⟩ := by
  have bounded : ∀ call ∈ [(5, 6), (2, 3), (3, 3), (1, 2)], 1 ≤ call.1 ∧ call.2 < 2 ^ 64 - 1 := by
    decide
  have same := (markCalls_contiguous 0 _ bounded).2.2.2 [(1, 2), (2, 3), (3, 3), (5, 6)] (by decide)
  have value : markCalls 0 [(5, 6), (2, 3), (3, 3), (1, 2)] = ⟨3, [(5, 6)]⟩ := by decide
  exact ⟨bounded, value, same.trans value⟩

end PacificDb.Lsm
