import PacificDb.Lib.LastMax

/-!
# Merging sorted files

Files of rows, each in the order of the keys of its rows, are merged key by key: the run
of the least key is taken from every file, and the best of its rows wins. A scan may
take the runs from the newest file to the oldest and test a row only where it would
replace the winner so far; the winner is still the last of the best among all rows that
pass the test.
-/

namespace PacificDb.Lib

variable {α κ σ : Type} [LinearOrder κ] [LinearOrder σ]

/-! ## The winner of a key -/

section Winner

variable {score : α → σ} {accepted : α → Bool}

/-- A winner so far, and the file it is from. -/
structure Winner (α : Type) where
  item : α
  file : Nat

/-- Whether a row replaces the winner: it scores more, or as much in a file that is not older. -/
def replacesWinner (score : α → σ) (file : Nat) (item : α) : Option (Winner α) → Bool
  | none => true
  | some best => decide (score best.item < score item) ||
      (decide (score best.item = score item) && decide (best.file ≤ file))

def offerRow (score : α → σ) (accepted : α → Bool) (file : Nat) (best : Option (Winner α)) (item : α) :
    Option (Winner α) :=
  if replacesWinner score file item best && accepted item then some ⟨item, file⟩ else best

/-- The winner among the rows of one file, of which `own` is the best, and of the newer
files: of equal scores the newer file's. -/
def settleWinner (score : α → σ) (file : Nat) (own : Option α) (newer : Option (Winner α)) :
    Option (Winner α) :=
  if optScore score own ≤ optScore score (newer.map Winner.item) then newer
  else own.map fun item => ⟨item, file⟩

variable {file : Nat} {own : Option α} {newer : Option (Winner α)} {item : α}

theorem item_settleWinner : (settleWinner score file own newer).map Winner.item =
    latest score own (newer.map Winner.item) := by
  rw [latest_eq_ite, settleWinner]
  split
  · rfl
  · rw [Option.map_map]
    exact Option.map_id' ..

theorem replacesWinner_iff {best : Winner α} : replacesWinner score file item (some best) = true ↔
    score best.item < score item ∨ (score best.item = score item ∧ best.file ≤ file) := by
  rw [replacesWinner, Bool.or_eq_true, Bool.and_eq_true, decide_eq_true_eq, decide_eq_true_eq,
    decide_eq_true_eq]

/-- One more row of the file. -/
theorem replaces_settleWinner (newerFiles : ∀ best ∈ newer, file < best.file) :
    (if replacesWinner score file item (settleWinner score file own newer) then some ⟨item, file⟩
      else settleWinner score file own newer) =
      settleWinner score file (latest score own (some item)) newer := by
  have scored : optScore score (some item) = (score item : WithBot σ) := rfl
  by_cases kept : optScore score own ≤ optScore score (newer.map Winner.item)
  · have before : settleWinner score file own newer = newer := if_pos kept
    rw [before]
    cases newer with
    | none =>
      have nothing : own = none := by
        cases own with
        | none => rfl
        | some first => exact absurd kept (WithBot.not_coe_le_bot _)
      rw [nothing]
      rfl
    | some best =>
      -- a row of an older file has to score more
      have isNewer := newerFiles best rfl
      have bestScore : optScore score ((some best).map Winner.item) =
        (score best.item : WithBot σ) := rfl
      rw [bestScore] at kept
      have bounded : optScore score (latest score own (some item)) ≤
          optScore score ((some best).map Winner.item) ↔ score item ≤ score best.item := by
        rw [optScore_latest, bestScore, scored, max_le_iff, WithBot.coe_le_coe, and_iff_right kept]
      unfold settleWinner
      by_cases more : score best.item < score item
      · rw [if_pos (replacesWinner_iff.mpr (.inl more)),
          if_neg fun below => not_le_of_gt more (bounded.mp below), latest_eq_ite, if_pos]
        · rfl
        · exact kept.trans (WithBot.coe_le_coe.mpr more.le)
      · have stays : ¬replacesWinner score file item (some best) = true := by
          intro taken
          rcases replacesWinner_iff.mp taken with above | ⟨-, older⟩
          · exact more above
          · omega
        rw [if_neg stays, if_pos (bounded.mpr (le_of_not_gt more))]
  · have before : settleWinner score file own newer = own.map fun item => ⟨item, file⟩ := if_neg kept
    rw [before]
    cases own with
    | none => exact absurd bot_le kept
    | some first =>
      -- within a file the later row has to score as much
      have above : ¬optScore score (latest score (some first) (some item)) ≤
          optScore score (newer.map Winner.item) := by
        rw [optScore_latest, max_le_iff]
        exact fun below => kept below.1
      unfold settleWinner
      rw [if_neg above, Option.map_some, latest]
      by_cases below : score first ≤ score item
      · rw [if_pos below, if_pos]
        · rfl
        · exact replacesWinner_iff.mpr (below.lt_or_eq.imp_right fun same => ⟨same, le_rfl⟩)
      · rw [if_neg below, if_neg]
        · rfl
        · intro taken
          rcases replacesWinner_iff.mp taken with more | ⟨same, -⟩
          · exact below more.le
          · exact below same.le

theorem offerRow_settleWinner (newerFiles : ∀ best ∈ newer, file < best.file) :
    offerRow score accepted file (settleWinner score file own newer) item =
      settleWinner score file (if accepted item then latest score own (some item) else own) newer := by
  unfold offerRow
  cases accepted item with
  | false =>
    rw [Bool.and_false]
    rfl
  | true =>
    rw [Bool.and_true, if_pos rfl]
    exact replaces_settleWinner newerFiles

/-- A run of rows of one file, taken after the newer files. -/
theorem foldl_offerRow {run : List α} (newerFiles : ∀ best ∈ newer, file < best.file) :
    run.foldl (offerRow score accepted file) (settleWinner score file own newer) =
      settleWinner score file (latest score own (lastMax score (run.filter accepted))) newer := by
  induction run generalizing own with
  | nil =>
    rw [List.filter_nil]
    exact congrArg (settleWinner score file · newer) (latest_none own).symm
  | cons item rest ih =>
    rw [List.foldl_cons, offerRow_settleWinner newerFiles, ih, List.filter_cons]
    by_cases passes : accepted item = true
    · rw [if_pos passes, if_pos passes, lastMax_cons, latest_assoc]
    · rw [if_neg passes, if_neg passes]

/-- The run of one file: the winner is the best of it and of the newer files, and is from
one of these files. -/
theorem foldl_offerRow_item {run newerRows : List α} (newerFiles : ∀ best ∈ newer, file < best.file)
    (won : newer.map Winner.item = lastMax score (newerRows.filter accepted)) :
    (run.foldl (offerRow score accepted file) newer).map Winner.item =
        lastMax score ((run ++ newerRows).filter accepted) ∧
      ∀ best ∈ run.foldl (offerRow score accepted file) newer, file ≤ best.file := by
  have start : newer = settleWinner score file none newer := (if_pos bot_le).symm
  have folded : run.foldl (offerRow score accepted file) newer =
      settleWinner score file (lastMax score (run.filter accepted)) newer := by
    conv_lhs => rw [start]
    exact foldl_offerRow newerFiles
  rw [folded]
  constructor
  · rw [item_settleWinner, won, List.filter_append, lastMax_append]
  · intro best isBest
    rw [settleWinner] at isBest
    split at isBest
    · exact (newerFiles best isBest).le
    · obtain ⟨own, -, rfl⟩ := Option.map_eq_some_iff.mp isBest
      exact le_rfl

end Winner

/-! ## The run of a key -/

section Run

variable {key : α → κ} {rows : List α} {k : κ}

/-- Where no key is smaller, the run of the key is all there is of it. -/
theorem run_eq_filter (sorted : rows.Pairwise fun row next => key row ≤ key next)
    (least : ∀ row ∈ rows, k ≤ key row) :
    rows.takeWhile (fun row => key row = k) = rows.filter (fun row => key row = k) ∧
      rows.dropWhile (fun row => key row = k) = rows.filter fun row => key row ≠ k := by
  induction rows with
  | nil => exact ⟨rfl, rfl⟩
  | cons row rest ih =>
    obtain ⟨before, sorted⟩ := List.pairwise_cons.mp sorted
    obtain ⟨first, least⟩ := List.forall_mem_cons.mp least
    by_cases own : key row = k
    · obtain ⟨taken, dropped⟩ := ih sorted least
      rw [List.takeWhile_cons_of_pos (by simpa using own), List.filter_cons_of_pos (by simpa using own),
        taken, List.dropWhile_cons_of_pos (by simpa using own), List.filter_cons_of_neg (by simpa using own),
        dropped]
      exact ⟨rfl, rfl⟩
    · have above : ∀ other ∈ row :: rest, key other ≠ k := by
        intro other member
        rcases List.mem_cons.mp member with rfl | later
        · exact own
        · exact ((first.lt_of_ne (Ne.symm own)).trans_le (before other later)).ne'
      rw [List.takeWhile_cons_of_neg (by simpa using own), List.dropWhile_cons_of_neg (by simpa using own),
        List.filter_eq_nil_iff.mpr fun other member => by simpa using above other member,
        List.filter_eq_self.mpr fun other member => by simpa using above other member]
      exact ⟨rfl, rfl⟩

end Run

/-! ## The best row of a key -/

section Best

variable {key : α → κ} {score : α → σ} {accepted : α → Bool} {rows : List α} {k : κ}

/-- The best of the rows of a key that are accepted. -/
def bestOf (key : α → κ) (score : α → σ) (accepted : α → Bool) (rows : List α) (k : κ) : Option α :=
  lastMax score ((rows.filter fun row => key row = k).filter accepted)

theorem bestOf_rest {other : κ} (apart : other ≠ k) :
    bestOf key score accepted (rows.filter fun row => key row ≠ k) other =
      bestOf key score accepted rows other := by
  have same : (rows.filter fun row => key row ≠ k).filter (fun row => key row = other) =
      rows.filter fun row => key row = other := by
    rw [List.filter_filter]
    apply List.filter_congr
    intro row _
    by_cases own : key row = other
    · rw [decide_eq_true own, decide_eq_true (own.trans_ne apart), Bool.and_self]
    · rw [decide_eq_false own, Bool.false_and]
  rw [bestOf, same, bestOf]

end Best

end PacificDb.Lib
