import Mathlib.Data.List.Pairwise
import Mathlib.Order.MinMax
import Mathlib.Order.WithBot

/-!
# The last of the best

A scan that keeps a candidate unless the next one scores less ends with the
last element of greatest score. When the scanned list is a concatenation of
ranked sources, the winner is decided source by source: the greatest score, and
among equal scores the highest rank. So sources may be merged, moved or dropped
as long as these comparisons come out the same. Two scores that order the items alike
have the same winner.
-/

namespace PacificDb.Lib

variable {α ι σ : Type} [LinearOrder ι] [LinearOrder σ]

/-- Of two optional elements the later one, unless it scores less. -/
def latest (score : α → σ) : Option α → Option α → Option α
  | none, later => later
  | earlier, none => earlier
  | some earlier, some later => if score earlier ≤ score later then some later else some earlier

/-- The last element of greatest score. -/
def lastMax (score : α → σ) (items : List α) : Option α :=
  items.foldl (fun best item => latest score best (some item)) none

variable {score : α → σ}

theorem latest_none (best : Option α) : latest score best none = best := by
  cases best <;> rfl

theorem latest_assoc (first second third : Option α) :
    latest score (latest score first second) third =
      latest score first (latest score second third) := by
  cases first with
  | none => cases second <;> rfl
  | some a =>
    cases second with
    | none => cases third <;> rfl
    | some b =>
      cases third with
      | none => rw [latest_none, latest_none]
      | some c =>
        simp only [latest]
        by_cases ab : score a ≤ score b
        · by_cases bc : score b ≤ score c
          · simp [ab, bc, ab.trans bc]
          · simp [ab, bc]
        · by_cases bc : score b ≤ score c
          · simp [ab, bc]
          · have ac : ¬score a ≤ score c := fun ac =>
              ab (ac.trans (le_of_not_ge bc))
            simp [ab, bc, ac]

theorem foldl_latest (items : List α) (best : Option α) :
    items.foldl (fun best item => latest score best (some item)) best =
      latest score best (lastMax score items) := by
  induction items generalizing best with
  | nil => cases best <;> rfl
  | cons item items ih =>
    have whole : lastMax score (item :: items) = latest score (some item) (lastMax score items) :=
      ih (some item)
    rw [List.foldl_cons, ih, whole, latest_assoc]

theorem lastMax_append (items others : List α) :
    lastMax score (items ++ others) = latest score (lastMax score items) (lastMax score others) := by
  rw [lastMax, List.foldl_append, foldl_latest, ← lastMax]

theorem lastMax_cons (item : α) (items : List α) :
    lastMax score (item :: items) = latest score (some item) (lastMax score items) := by
  rw [lastMax, List.foldl_cons, foldl_latest]
  rfl

theorem lastMax_eq_none_iff {items : List α} : lastMax score items = none ↔ items = [] := by
  cases items with
  | nil => exact iff_of_true rfl rfl
  | cons item items =>
    rw [lastMax_cons]
    cases lastMax score items with
    | none => simp [latest]
    | some best => simp only [latest]; split <;> simp

theorem mem_of_lastMax {items : List α} {best : α} (found : lastMax score items = some best) :
    best ∈ items := by
  induction items with
  | nil => cases found
  | cons item items ih =>
    rw [lastMax_cons] at found
    cases rest : lastMax score items with
    | none =>
      rw [rest] at found
      cases found
      exact .head _
    | some other =>
      rw [rest] at found
      simp only [latest] at found
      split at found
      · exact .tail _ (ih (rest.trans found))
      · cases found
        exact .head _

theorem score_le_lastMax {items : List α} {best item : α} (found : lastMax score items = some best)
    (member : item ∈ items) : score item ≤ score best := by
  induction items generalizing best with
  | nil => cases member
  | cons first items ih =>
    rw [lastMax_cons] at found
    cases rest : lastMax score items with
    | none =>
      rw [lastMax_eq_none_iff.mp rest, List.mem_singleton] at member
      rw [rest] at found
      cases found
      rw [member]
    | some other =>
      rw [rest] at found
      simp only [latest] at found
      split at found
      next better =>
        cases found
        rcases List.mem_cons.mp member with rfl | member
        · exact better
        · exact ih rest member
      next worse =>
        cases found
        rcases List.mem_cons.mp member with rfl | member
        · exact le_rfl
        · exact (ih rest member).trans (le_of_not_ge worse)

/-- The last of the best, by its place. -/
theorem lastMax_eq_some_iff {items : List α} {best : α} : lastMax score items = some best ↔
    ∃ before after, items = before ++ best :: after ∧
      (∀ item ∈ before, score item ≤ score best) ∧ ∀ item ∈ after, score item < score best := by
  constructor
  · intro found
    induction items with
    | nil => cases found
    | cons first items ih =>
      rw [lastMax_cons] at found
      cases rest : lastMax score items with
      | none =>
        rw [rest] at found
        cases found
        rw [lastMax_eq_none_iff.mp rest]
        exact ⟨[], [], rfl, nofun, nofun⟩
      | some other =>
        rw [rest] at found
        simp only [latest] at found
        split at found
        next better =>
          cases found
          obtain ⟨before, after, split, atMost, below⟩ := ih rest
          exact ⟨first :: before, after, congrArg (first :: ·) split,
            List.forall_mem_cons.mpr ⟨better, atMost⟩, below⟩
        next worse =>
          cases found
          exact ⟨[], items, rfl, nofun, fun item member =>
            (score_le_lastMax rest member).trans_lt (not_le.mp worse)⟩
  · rintro ⟨before, after, rfl, atMost, below⟩
    have behind : latest score (some best) (lastMax score after) = some best := by
      cases rest : lastMax score after with
      | none => rfl
      | some other => exact if_neg (below other (mem_of_lastMax rest)).not_ge
    rw [lastMax_append, lastMax_cons, behind]
    cases front : lastMax score before with
    | none => rfl
    | some other => exact if_pos (atMost other (mem_of_lastMax front))

theorem mem_latest {earlier later : Option α} {best : α}
    (found : best ∈ latest score earlier later) : best ∈ earlier ∨ best ∈ later := by
  cases earlier with
  | none => exact .inr found
  | some first =>
    cases later with
    | none => exact .inl found
    | some second =>
      rw [latest] at found
      split at found
      · exact .inr found
      · exact .inl found

/-- The winner still wins where it is not left out. -/
theorem lastMax_filter {items : List α} {best : α} {test : α → Bool}
    (found : lastMax score items = some best) (passes : test best = true) :
    lastMax score (items.filter test) = some best := by
  obtain ⟨before, after, rfl, atMost, below⟩ := lastMax_eq_some_iff.mp found
  apply lastMax_eq_some_iff.mpr
  refine ⟨before.filter test, after.filter test, ?_, ?_, ?_⟩
  · rw [List.filter_append, List.filter_cons, if_pos passes]
  · exact fun item member => atMost item (List.mem_filter.mp member).1
  · exact fun item member => below item (List.mem_filter.mp member).1

/-- The score of an optional element; none is below everything. -/
def optScore (score : α → σ) : Option α → WithBot σ
  | none => ⊥
  | some item => (score item : WithBot σ)

theorem latest_eq_ite (earlier later : Option α) : latest score earlier later =
    if optScore score earlier ≤ optScore score later then later else earlier := by
  cases earlier with
  | none => exact (if_pos bot_le).symm
  | some first =>
    cases later with
    | none => exact (if_neg (WithBot.not_coe_le_bot _)).symm
    | some second =>
      rw [latest, optScore, optScore]
      by_cases below : score first ≤ score second
      · rw [if_pos below, if_pos (WithBot.coe_le_coe.mpr below)]
      · rw [if_neg below, if_neg fun under => below (WithBot.coe_le_coe.mp under)]

theorem optScore_latest (earlier later : Option α) : optScore score (latest score earlier later) =
    max (optScore score earlier) (optScore score later) := by
  rw [latest_eq_ite]
  split
  next below => exact (max_eq_right below).symm
  next above => exact (max_eq_left (le_of_not_ge above)).symm

theorem earlier_of_latest_none {earlier later : Option α}
    (neither : latest score earlier later = none) : earlier = none := by
  rw [latest_eq_ite] at neither
  split at neither
  next below =>
    rw [neither] at below
    cases earlier with
    | none => rfl
    | some item => exact absurd below (WithBot.not_coe_le_bot _)
  next => exact neither

theorem optScore_lastMax_le_iff {items : List α} {bound : WithBot σ} :
    optScore score (lastMax score items) ≤ bound ↔ ∀ item ∈ items, (score item : WithBot σ) ≤ bound := by
  induction items with
  | nil => exact iff_of_true bot_le fun item member => (by cases member)
  | cons item rest ih =>
    rw [lastMax_cons, optScore_latest, max_le_iff, ih, List.forall_mem_cons]
    rfl

theorem optScore_lastMax_reverse (items : List α) :
    optScore score (lastMax score items.reverse) = optScore score (lastMax score items) := by
  refine le_antisymm (optScore_lastMax_le_iff.mpr fun item member => ?_)
    (optScore_lastMax_le_iff.mpr fun item member => ?_)
  · exact optScore_lastMax_le_iff.mp le_rfl item (List.mem_reverse.mp member)
  · exact optScore_lastMax_le_iff.mp le_rfl item (List.mem_reverse.mpr member)

/-- `best` is what its source offers, and no other source offers more, or as
much at a higher rank. -/
def Wins (score : α → σ) (sources : List (ι × List α)) (best : α) : Prop :=
  ∃ source ∈ sources, lastMax score source.2 = some best ∧
    ∀ other ∈ sources, ∀ item, lastMax score other.2 = some item →
      score item < score best ∨ (score item = score best ∧ other.1 ≤ source.1)

variable {sources : List (ι × List α)} {best : α}

theorem Wins.of_lastMax (sorted : sources.Pairwise fun source next => source.1 < next.1)
    (found : lastMax score (sources.flatMap Prod.snd) = some best) : Wins score sources best := by
  induction sources generalizing best with
  | nil => cases found
  | cons source rest ih =>
    obtain ⟨before, sorted⟩ := List.pairwise_cons.mp sorted
    rw [List.flatMap_cons, lastMax_append] at found
    cases own : lastMax score source.2 with
    | none =>
      rw [own] at found
      obtain ⟨winner, member, offers, beats⟩ := ih sorted found
      refine ⟨winner, .tail _ member, offers, fun other isOther item offered => ?_⟩
      rcases List.mem_cons.mp isOther with rfl | isOther
      · rw [own] at offered
        cases offered
      · exact beats other isOther item offered
    | some mine =>
      cases others : lastMax score (rest.flatMap Prod.snd) with
      | none =>
        rw [own, others] at found
        cases found
        refine ⟨source, .head _, own, fun other isOther item offered => ?_⟩
        rcases List.mem_cons.mp isOther with rfl | isOther
        · rw [own] at offered
          cases offered
          exact .inr ⟨rfl, le_rfl⟩
        · have empty : other.2 = [] :=
            List.flatMap_eq_nil_iff.mp (lastMax_eq_none_iff.mp others) other isOther
          rw [empty] at offered
          cases offered
      | some theirs =>
        rw [own, others] at found
        obtain ⟨winner, member, offers, beats⟩ := ih sorted others
        simp only [latest] at found
        split at found
        next better =>
          cases found
          refine ⟨winner, .tail _ member, offers, fun other isOther item offered => ?_⟩
          rcases List.mem_cons.mp isOther with rfl | isOther
          · rw [own] at offered
            cases offered
            rcases better.lt_or_eq with less | same
            · exact .inl less
            · exact .inr ⟨same, (before winner member).le⟩
          · exact beats other isOther item offered
        next worse =>
          cases found
          refine ⟨source, .head _, own, fun other isOther item offered => ?_⟩
          rcases List.mem_cons.mp isOther with rfl | isOther
          · rw [own] at offered
            cases offered
            exact .inr ⟨rfl, le_rfl⟩
          · have atMost : score item ≤ score theirs := by
              rcases beats other isOther item offered with less | ⟨same, -⟩
              · exact less.le
              · exact same.le
            exact .inl (atMost.trans_lt (lt_of_not_ge worse))

theorem eq_of_rank_eq (sorted : sources.Pairwise fun source next => source.1 < next.1)
    {source other : ι × List α} (isSource : source ∈ sources) (isOther : other ∈ sources)
    (ranks : source.1 = other.1) : source = other := by
  induction sources with
  | nil => cases isSource
  | cons first rest ih =>
    obtain ⟨before, sorted⟩ := List.pairwise_cons.mp sorted
    rcases List.mem_cons.mp isSource with rfl | inRest
    · rcases List.mem_cons.mp isOther with rfl | otherInRest
      · rfl
      · exact absurd ranks (before other otherInRest).ne
    · rcases List.mem_cons.mp isOther with rfl | otherInRest
      · exact absurd ranks (before source inRest).ne'
      · exact ih sorted inRest otherInRest

theorem Wins.unique (sorted : sources.Pairwise fun source next => source.1 < next.1) {other : α}
    (first : Wins score sources best) (second : Wins score sources other) : best = other := by
  obtain ⟨source, isSource, offers, beats⟩ := first
  obtain ⟨rival, isRival, rivalOffers, rivalBeats⟩ := second
  have scores : score other = score best ∧ rival.1 ≤ source.1 := by
    rcases beats rival isRival other rivalOffers with less | same
    · rcases rivalBeats source isSource best offers with more | ⟨same, -⟩
      · exact absurd less more.not_gt
      · exact absurd same less.ne'
    · exact same
  have ranks : source.1 ≤ rival.1 := by
    rcases rivalBeats source isSource best offers with less | ⟨-, ranks⟩
    · exact absurd scores.1 less.ne'
    · exact ranks
  have same : source = rival :=
    eq_of_rank_eq sorted isSource isRival (le_antisymm ranks scores.2)
  rw [same, rivalOffers] at offers
  exact (Option.some.inj offers).symm

/-- The scan of ranked sources finds the winner. -/
theorem lastMax_flatMap_iff (sorted : sources.Pairwise fun source next => source.1 < next.1) :
    lastMax score (sources.flatMap Prod.snd) = some best ↔ Wins score sources best := by
  refine ⟨.of_lastMax sorted, fun wins => ?_⟩
  cases found : lastMax score (sources.flatMap Prod.snd) with
  | none =>
    obtain ⟨source, member, offers, -⟩ := wins
    have empty : source.2 = [] :=
      List.flatMap_eq_nil_iff.mp (lastMax_eq_none_iff.mp found) source member
    rw [empty] at offers
    cases offers
  | some other => rw [(Wins.of_lastMax sorted found).unique sorted wins]

/-! ## Replacing sources -/

section Replace

variable {replaced : List (ι × List α)} {merged : ι × List α} {input : ι → Bool}

/-- What wins from one of the inputs is the best of the inputs. -/
theorem lastMax_inputs (sorted : sources.Pairwise fun source next => source.1 < next.1)
    {source : ι × List α} (isSource : source ∈ sources) (isInput : input source.1 = true)
    (offers : lastMax score source.2 = some best)
    (beats : ∀ other ∈ sources, ∀ item, lastMax score other.2 = some item →
      score item < score best ∨ (score item = score best ∧ other.1 ≤ source.1)) :
    lastMax score ((sources.filter fun source => input source.1).flatMap Prod.snd) = some best := by
  refine (lastMax_flatMap_iff (sorted.filter _)).mpr
    ⟨source, List.mem_filter.mpr ⟨isSource, isInput⟩, offers, fun other isOther => ?_⟩
  exact beats other (List.mem_filter.mp isOther).1

/-- The winner is the same when one source offers the best of several inputs in
their place, if wherever a kept source ties with an input, the merged source
stands on the same side of it as that input. -/
theorem wins_merge_iff (sorted : sources.Pairwise fun source next => source.1 < next.1)
    (members : ∀ source, source ∈ replaced ↔
      (source ∈ sources ∧ input source.1 = false) ∨ source = merged)
    (offers : lastMax score merged.2 =
      lastMax score ((sources.filter fun source => input source.1).flatMap Prod.snd))
    (ties : ∀ kept ∈ sources, input kept.1 = false → ∀ taken ∈ sources, input taken.1 = true →
      ∀ first ∈ kept.2, ∀ second ∈ taken.2, score first = score second →
        (kept.1 < taken.1 ↔ kept.1 < merged.1))
    (fresh : ∀ kept ∈ sources, input kept.1 = false → kept.1 ≠ merged.1) :
    Wins score sources best ↔ Wins score replaced best := by
  have apart : ∀ kept ∈ sources, input kept.1 = false → ∀ taken ∈ sources,
      input taken.1 = true → kept.1 ≠ taken.1 := by
    intro kept _ isKept taken _ isTaken same
    rw [same, isTaken] at isKept
    cases isKept
  constructor
  · rintro ⟨source, isSource, offered, beats⟩
    cases isInput : input source.1 with
    | false =>
      refine ⟨source, (members source).mpr (.inl ⟨isSource, isInput⟩), offered, ?_⟩
      intro other isOther item itemOffered
      rcases (members other).mp isOther with ⟨wasOther, -⟩ | rfl
      · exact beats other wasOther item itemOffered
      · rw [offers] at itemOffered
        obtain ⟨taken, isTaken, takenOffers, -⟩ := Wins.of_lastMax (sorted.filter _) itemOffered
        obtain ⟨wasTaken, takenInput⟩ := List.mem_filter.mp isTaken
        rcases beats taken wasTaken item takenOffers with less | ⟨tie, rank⟩
        · exact .inl less
        · refine .inr ⟨tie, le_of_not_gt fun below => absurd rank (not_le_of_gt ?_)⟩
          exact (ties source isSource isInput taken wasTaken takenInput best
            (mem_of_lastMax offered) item (mem_of_lastMax takenOffers) tie.symm).mpr below
    | true =>
      have offersBest : lastMax score merged.2 = some best :=
        offers.trans (lastMax_inputs sorted isSource isInput offered beats)
      refine ⟨merged, (members merged).mpr (.inr rfl), offersBest, ?_⟩
      intro other isOther item itemOffered
      rcases (members other).mp isOther with ⟨wasOther, isKept⟩ | rfl
      · rcases beats other wasOther item itemOffered with less | ⟨tie, rank⟩
        · exact .inl less
        · have below := rank.lt_of_ne (apart other wasOther isKept source isSource isInput)
          exact .inr ⟨tie, ((ties other wasOther isKept source isSource isInput item
            (mem_of_lastMax itemOffered) best (mem_of_lastMax offered) tie).mp below).le⟩
      · rw [offersBest] at itemOffered
        cases itemOffered
        exact .inr ⟨rfl, le_rfl⟩
  · rintro ⟨source, isSource, offered, beats⟩
    rcases (members source).mp isSource with ⟨wasSource, isKept⟩ | rfl
    · refine ⟨source, wasSource, offered, fun other isOther item itemOffered => ?_⟩
      cases isInput : input other.1 with
      | false => exact beats other ((members other).mpr (.inl ⟨isOther, isInput⟩)) item itemOffered
      | true =>
        have inInputs : item ∈ (sources.filter fun source => input source.1).flatMap Prod.snd :=
          List.mem_flatMap.mpr ⟨other, List.mem_filter.mpr ⟨isOther, isInput⟩,
            mem_of_lastMax itemOffered⟩
        cases most : lastMax score merged.2 with
        | none =>
          rw [offers, lastMax_eq_none_iff] at most
          rw [most] at inInputs
          cases inInputs
        | some top =>
          have atMost : score item ≤ score top :=
            score_le_lastMax (offers.symm.trans most) inInputs
          rcases beats merged ((members merged).mpr (.inr rfl)) top most with less | ⟨tie, rank⟩
          · exact .inl (atMost.trans_lt less)
          · rcases atMost.lt_or_eq with less | same
            · exact .inl (less.trans_eq tie)
            · refine .inr ⟨same.trans tie, le_of_not_gt fun below => ?_⟩
              exact absurd rank (not_le_of_gt ((ties source wasSource isKept other isOther
                isInput best (mem_of_lastMax offered) item (mem_of_lastMax itemOffered)
                (same.trans tie).symm).mp below))
    · obtain ⟨taken, isTaken, takenOffers, takenBeats⟩ :=
        Wins.of_lastMax (sorted.filter _) (offers.symm.trans offered)
      obtain ⟨wasTaken, takenInput⟩ := List.mem_filter.mp isTaken
      refine ⟨taken, wasTaken, takenOffers, fun other isOther item itemOffered => ?_⟩
      cases isInput : input other.1 with
      | true => exact takenBeats other (List.mem_filter.mpr ⟨isOther, isInput⟩) item itemOffered
      | false =>
        rcases beats other ((members other).mpr (.inl ⟨isOther, isInput⟩)) item itemOffered with
          less | ⟨tie, rank⟩
        · exact .inl less
        · have below := rank.lt_of_ne (fresh other isOther isInput)
          exact .inr ⟨tie, ((ties other isOther isInput taken wasTaken takenInput item
            (mem_of_lastMax itemOffered) best (mem_of_lastMax takenOffers) tie).mpr below).le⟩

/-- Every other winner survives when the best of the inputs is dropped with
them, if no kept source holds anything that it would have beaten. -/
theorem wins_drop_iff (sorted : sources.Pairwise fun source next => source.1 < next.1) {top : α}
    (members : ∀ source, source ∈ replaced ↔
      (source ∈ sources ∧ input source.1 = false) ∨ source = merged)
    (empty : merged.2 = [])
    (dropped : lastMax score
      ((sources.filter fun source => input source.1).flatMap Prod.snd) = some top)
    (above : ∀ kept ∈ sources, input kept.1 = false → ∀ item ∈ kept.2, score top < score item ∨
      (score top = score item ∧ ∀ taken ∈ sources, input taken.1 = true → taken.1 < kept.1))
    (other : best ≠ top) : Wins score sources best ↔ Wins score replaced best := by
  have nothing : ∀ item, lastMax score merged.2 ≠ some item := by
    intro item offered
    rw [empty] at offered
    cases offered
  constructor
  · rintro ⟨source, isSource, offered, beats⟩
    cases isInput : input source.1 with
    | true =>
      have same := (lastMax_inputs sorted isSource isInput offered beats).symm.trans dropped
      exact absurd (Option.some.inj same) other
    | false =>
      refine ⟨source, (members source).mpr (.inl ⟨isSource, isInput⟩), offered, ?_⟩
      intro rival isRival item itemOffered
      rcases (members rival).mp isRival with ⟨wasRival, -⟩ | rfl
      · exact beats rival wasRival item itemOffered
      · exact absurd itemOffered (nothing item)
  · rintro ⟨source, isSource, offered, beats⟩
    rcases (members source).mp isSource with ⟨wasSource, isKept⟩ | rfl
    · refine ⟨source, wasSource, offered, fun rival isRival item itemOffered => ?_⟩
      cases isInput : input rival.1 with
      | false => exact beats rival ((members rival).mpr (.inl ⟨isRival, isInput⟩)) item itemOffered
      | true =>
        have atMost : score item ≤ score top := score_le_lastMax dropped
          (List.mem_flatMap.mpr ⟨rival, List.mem_filter.mpr ⟨isRival, isInput⟩,
            mem_of_lastMax itemOffered⟩)
        rcases above source wasSource isKept best (mem_of_lastMax offered) with less | ⟨tie, last⟩
        · exact .inl (atMost.trans_lt less)
        · rcases atMost.lt_or_eq with less | same
          · exact .inl (less.trans_eq tie)
          · exact .inr ⟨same.trans tie, (last rival isRival isInput).le⟩
    · exact absurd offered (nothing best)

end Replace

/-! ## Two scores -/

section TwoScores

variable {τ κ : Type} [LinearOrder τ] {other : α → τ} {kind : α → κ} {items : List α}

/-- Of two items, unless the first comes again behind the second, the second wins by both
scores or by none. -/
def RankAlike (score : α → σ) (other : α → τ) (kind : α → κ) (items : List α) : Prop :=
  ∀ before first between second after,
    items = before ++ first :: (between ++ second :: after) →
    kind first ∉ (second :: after).map kind → (score first ≤ score second ↔ other first ≤ other second)

/-- A score is the same for items of one kind. -/
def Respects (score : α → σ) (kind : α → κ) (items : List α) : Prop :=
  ∀ item ∈ items, ∀ twin ∈ items, kind item = kind twin → score item = score twin

omit [LinearOrder σ] in
theorem Respects.filter {test : α → Bool} (respects : Respects score kind items) :
    Respects score kind (items.filter test) :=
  fun item member twin isTwin =>
    respects item (List.mem_filter.mp member).1 twin (List.mem_filter.mp isTwin).1

/-- Leaving out whole kinds changes no order. -/
theorem RankAlike.filter (alike : RankAlike score other kind items) (accepts : κ → Bool) :
    RankAlike score other kind (items.filter fun item => accepts (kind item)) := by
  intro before first between second after split once
  obtain ⟨front, back, rfl, -, kept⟩ := List.filter_eq_append_iff.mp split
  obtain ⟨skipped, rest, rfl, -, firstKept, kept⟩ := List.filter_eq_cons_iff.mp kept
  obtain ⟨middle, rest, rfl, -, kept⟩ := List.filter_eq_append_iff.mp kept
  obtain ⟨others, last, rfl, -, -, rfl⟩ := List.filter_eq_cons_iff.mp kept
  refine alike (front ++ skipped) first (middle ++ others) second last (by simp) ?_
  intro again
  rcases List.mem_cons.mp again with same | later
  · exact once (same ▸ .head _)
  · obtain ⟨twin, isLast, same⟩ := List.mem_map.mp later
    refine once (.tail _ (List.mem_map.mpr ⟨twin, List.mem_filter.mpr ⟨isLast, ?_⟩, same⟩))
    rw [same]
    exact firstKept

/-- Where the scores order alike, they have the same winner. -/
theorem lastMax_congr (alike : RankAlike score other kind items) (byScore : Respects score kind items)
    (byOther : Respects other kind items) : lastMax score items = lastMax other items := by
  cases found : lastMax score items with
  | none =>
    rw [lastMax_eq_none_iff.mp found]
    rfl
  | some best =>
    obtain ⟨before, after, split, atMost, below⟩ := lastMax_eq_some_iff.mp found
    have isBest : best ∈ items := mem_of_lastMax found
    have isAfter : ∀ item ∈ after, item ∈ items := by
      intro item member
      rw [split]
      exact List.mem_append_right _ (.tail _ member)
    have behind : ∀ item ∈ after, other item < other best := by
      intro item member
      obtain ⟨between, last, rfl⟩ := List.append_of_mem member
      refine not_le.mp (mt (alike before best between item last split ?_).mpr (below item member).not_ge)
      intro again
      obtain ⟨twin, isTwin, same⟩ := List.mem_map.mp again
      have inside := List.mem_append_right between isTwin
      exact (below twin inside).ne (byScore twin (isAfter twin inside) best isBest same)
    have inFront : ∀ item ∈ before, other item ≤ other best := by
      intro item member
      have isItem : item ∈ items := by
        rw [split]
        exact List.mem_append_left _ member
      by_cases again : kind item ∈ (best :: after).map kind
      · -- the same item behind decides
        obtain ⟨twin, isTwin, same⟩ := List.mem_map.mp again
        rcases List.mem_cons.mp isTwin with rfl | later
        · exact (byOther item isItem twin isBest same.symm).le
        · exact (byOther item isItem twin (isAfter twin later) same.symm).trans_le (behind twin later).le
      · obtain ⟨front, between, rfl⟩ := List.append_of_mem member
        refine (alike front item between best after ?_ again).mp (atMost item member)
        rw [split, List.append_assoc, List.cons_append]
    exact (lastMax_eq_some_iff.mpr ⟨before, after, split, inFront, behind⟩).symm

/-- Among items of two kinds, the first of which does not come again behind an item of the
second, the second kind wins exactly if its score is not below. -/
theorem kind_lastMax_iff {before between after : List α} {first second best : α}
    (respects : Respects score kind items)
    (split : items = before ++ first :: (between ++ second :: after))
    (once : kind first ∉ (second :: after).map kind)
    (two : ∀ item ∈ items, kind item = kind first ∨ kind item = kind second)
    (found : lastMax score items = some best) :
    kind best = kind second ↔ score first ≤ score second := by
  have isFirst : first ∈ items := by simp [split]
  have isSecond : second ∈ items := by simp [split]
  have isBest := mem_of_lastMax found
  constructor
  · intro same
    rw [← respects best isBest second isSecond same]
    exact score_le_lastMax found isFirst
  · intro below
    have parts : items = (before ++ first :: between) ++ second :: after := by simp [split]
    rw [parts, lastMax_append] at found
    cases late : lastMax score (second :: after) with
    | none => exact absurd (lastMax_eq_none_iff.mp late) (List.cons_ne_nil _ _)
    | some last =>
      have inside := mem_of_lastMax late
      have isLast : last ∈ items := by
        rw [parts]
        exact List.mem_append_right _ inside
      have own : kind last = kind second :=
        (two last isLast).resolve_left fun same => once (same ▸ List.mem_map_of_mem inside)
      have most : ∀ item ∈ items, score item ≤ score last := by
        intro item member
        rw [respects last isLast second isSecond own]
        rcases two item member with same | same
        · exact (respects item member first isFirst same).trans_le below
        · exact (respects item member second isSecond same).le
      rw [late, latest_eq_ite, if_pos] at found
      · cases found
        exact own
      · cases early : lastMax score (before ++ first :: between) with
        | none => exact bot_le
        | some item =>
          refine WithBot.coe_le_coe.mpr (most item ?_)
          rw [parts]
          exact List.mem_append_left _ (mem_of_lastMax early)

end TwoScores

end PacificDb.Lib
