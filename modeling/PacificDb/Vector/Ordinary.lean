import PacificDb.Vector.Served

/-!
# Ordinary writes and rounds of maintenance

A round captures the certificate of the source first and reads the journal later. Where
an id is appended in between, the changes come with a certificate that the published
generation already accepts; they look like changes without a revision, and the round
fails. Without root mutations, gaps and cancellation this is the only way to fail.
-/

namespace PacificDb.Vector

open Lib Journal

variable {Id Record : Type}

/-- The first change after the cursor can be taken. -/
def Journal.Offers (journal : Journal Id) (cursor : Cursor) (visibility : Nat) : Prop :=
  ∃ first ∈ (journal.pending cursor).head?, first.minimumVisibility ≤ visibility

instance (journal : Journal Id) (cursor : Cursor) (visibility : Nat) :
    Decidable (journal.Offers cursor visibility) :=
  inferInstanceAs (Decidable (∃ first ∈ (journal.pending cursor).head?, _))

instance (journal : Journal Id) (cursor : Cursor) : Decidable (journal.Holds cursor) :=
  decidable_of_iff
    (journal.poisoned = false ∧ cursor.epoch = journal.epoch ∧ journal.floor ≤ cursor.sequence)
    ⟨fun ⟨clean, epoch, floor⟩ => ⟨clean, epoch, floor⟩, fun holds =>
      ⟨holds.clean, holds.epoch, holds.floor⟩⟩

namespace System

/-- Changes wait for a target that is no news to the published generation. -/
def Raced (s : System Id Record) (round : Round) : Prop :=
  round.previous.accepts round.target = true ∧
    s.source.journal.Offers round.maintenance.cursor round.target.visibility

/-- The round reads no changes for a target that the generation accepts. -/
def UnracedAt (s : System Id Record) : Worker Id Record → Prop
  | .reading round => ¬s.Raced round
  | _ => True

def Unraced (s : System Id Record) : Event Id Record → Prop
  | .work => s.UnracedAt s.worker
  | _ => True

/-- Edits of the collection, with journal enough for what is still to be read. -/
def OrdinaryEdit (s : System Id Record) : SourceEvent Id Record → Prop
  | .begin ofRoot => ofRoot = false
  | .edit _ _ _ | .commit _ => True
  | .append _ id minimumVisibility kept =>
      ∀ maintenance ∈ s.maintenance,
        (s.source.journal.append id minimumVisibility kept).Holds maintenance.cursor
  | .finish index => ∀ mutation ∈ s.source.mutations[index]?, mutation.ofRoot = false
  | .configure _ | .gap | .reset _ => False

/-- Edits, commits, readers and rounds of maintenance in which nothing is thrown. -/
def Ordinary (s : System Id Record) : Event Id Record → Prop
  | .source event => s.OrdinaryEdit event
  | .acquire _ | .maintain | .work => True
  | _ => False

/-- The generation is of this root and configuration, and the journal has what follows. -/
structure Continued (s : System Id Record) (maintenance : Maintenance) (published : Generation) :
    Prop where
  holds : s.source.journal.Holds maintenance.cursor
  root : published.certificate.root = s.source.rootRevision
  configuration : published.certificate.configuration = s.source.configuration

section

variable (s : System Id Record)

instance decidableUnracedAt : ∀ worker, Decidable (s.UnracedAt worker)
  | .reading _ => inferInstanceAs (Decidable (¬(_ = true ∧ Journal.Offers _ _ _)))
  | .waiting | .chosen _ _ _ | .targeted _ | .admitted _ | .resolving _ _ _ _ | .updating _ _ _
  | .measuring _ _ _ | .publishing _ _ _ _ | .starting _ | .scanning _ _ _ _ | .finishing _ _ _ _ _
  | .notifying _ => .isTrue trivial

instance decidableUnraced : ∀ event, Decidable (s.Unraced event)
  | .work => inferInstanceAs (Decidable (s.UnracedAt s.worker))
  | .source _ | .anchor | .enqueue _ | .enable _ _ _ | .invalidate | .close | .acquire _ | .maintain
  | .build | .exit | .emit _ | .withhold | .abort _ | .sourceChanged => .isTrue trivial

instance decidableOrdinaryEdit : ∀ event, Decidable (s.OrdinaryEdit event)
  | .begin ofRoot => inferInstanceAs (Decidable (ofRoot = false))
  | .append _ _ _ _ => inferInstanceAs (Decidable (∀ _ ∈ _, Journal.Holds _ _))
  | .finish index =>
      inferInstanceAs (Decidable (∀ mutation ∈ s.source.mutations[index]?, mutation.ofRoot = false))
  | .edit _ _ _ | .commit _ => .isTrue trivial
  | .configure _ | .gap | .reset _ => .isFalse id

instance decidableOrdinary : ∀ event, Decidable (s.Ordinary event)
  | .source event => inferInstanceAs (Decidable (s.OrdinaryEdit event))
  | .acquire _ | .maintain | .work => .isTrue trivial
  | .anchor | .enqueue _ | .enable _ _ _ | .invalidate | .close | .build | .exit | .emit _ | .withhold
  | .abort _ | .sourceChanged => .isFalse id

end

/-- Maintenance is on, idle and healthy. -/
structure Maintained (s : System Id Record) : Prop where
  idle : s.worker = .waiting
  healthy : s.status.state ≠ .failed
  continued : ∃ maintenance published, s.maintenance = some maintenance ∧
    s.published = some published ∧ s.Continued maintenance published

/-! ## A round that keeps going -/

structure Aimed (s : System Id Record) (round : Round) : Prop where
  published : s.published = some round.previous
  maintenance : s.maintenance = some round.maintenance
  stopped : s.stopped = false
  revision : s.revision = round.revision
  root : round.target.root = s.source.rootRevision
  configuration : round.target.configuration = s.source.configuration
  visibility : round.previous.certificate.visibility ≤ round.target.visibility

def Final (s : System Id Record) (final : Option Stamp) : Prop :=
  ∀ certificate, final = some certificate →
    certificate.root = s.source.rootRevision ∧ certificate.configuration = s.source.configuration

def KeepingAt (s : System Id Record) : Worker Id Record → Prop
  | .waiting => True
  | .chosen maintenance previous revision =>
      s.published = some previous ∧ s.maintenance = some maintenance ∧ s.stopped = false ∧
        s.revision = revision
  | .targeted round | .admitted round | .reading round | .resolving round _ _ _
  | .updating round _ _ => s.Aimed round
  | .measuring round _ final | .publishing round _ final _ => s.Aimed round ∧ s.Final final
  | .starting _ | .scanning _ _ _ _ | .finishing _ _ _ _ _ | .notifying _ => False

structure Keeping (s : System Id Record) : Prop where
  healthy : s.status.state ≠ .failed
  continued : ∃ maintenance published, s.maintenance = some maintenance ∧
    s.published = some published ∧ s.Continued maintenance published
  place : s.KeepingAt s.worker

/-- The index has failed. -/
def Fallen (s : System Id Record) : Prop := s.status.state = .failed ∧ s.worker = .waiting

variable {s t : System Id Record} {source : Source Id Record} {round : Round} {batch : Batch Id}
  {event : Event Id Record}

/-! ## Edits -/

/-- What an ordinary edit leaves. -/
structure Quiet (s : System Id Record) (source : Source Id Record) : Prop where
  root : source.rootRevision = s.source.rootRevision
  configuration : source.configuration = s.source.configuration
  holds : ∀ maintenance, s.maintenance = some maintenance →
    s.source.journal.Holds maintenance.cursor → source.journal.Holds maintenance.cursor

theorem quiet_step [DecidableEq Id] {edit : SourceEvent Id Record} (ordinary : s.OrdinaryEdit edit)
    (taken : s.source.step edit = some source) : s.Quiet source := by
  cases edit with
  | begin ofRoot =>
    cases ordinary
    cases taken
    exact ⟨rfl, rfl, fun _ _ holds => holds⟩
  | edit index id record =>
    simp only [Source.step] at taken
    split at taken
    next => cases taken
    next =>
      cases taken
      exact ⟨rfl, rfl, fun _ _ holds => holds⟩
  | append index id minimumVisibility kept =>
    simp only [Source.step] at taken
    split at taken
    next => cases taken
    next =>
      cases taken
      exact ⟨rfl, rfl, fun maintenance isMaintenance _ => ordinary maintenance isMaintenance⟩
  | finish index =>
    simp only [Source.step] at taken
    split at taken
    next => cases taken
    next mutation found =>
      split at taken
      next =>
        cases taken
        have collection := ordinary mutation found
        rw [collection]
        exact ⟨rfl, rfl, fun _ _ holds => holds⟩
      next => cases taken
  | commit visibility =>
    simp only [Source.step] at taken
    split at taken
    next =>
      cases taken
      exact ⟨rfl, rfl, fun _ _ holds => holds⟩
    next => cases taken
  | configure configuration => cases ordinary
  | gap => cases ordinary
  | reset drawn => cases ordinary

theorem Aimed.quiet (aimed : s.Aimed round) (quiet : s.Quiet source) :
    { s with source }.Aimed round :=
  ⟨aimed.published, aimed.maintenance, aimed.stopped, aimed.revision,
    aimed.root.trans quiet.root.symm, aimed.configuration.trans quiet.configuration.symm,
    aimed.visibility⟩

theorem Final.quiet {final : Option Stamp} (isFinal : s.Final final) (quiet : s.Quiet source) :
    { s with source }.Final final := by
  intro certificate same
  obtain ⟨root, configuration⟩ := isFinal certificate same
  exact ⟨root.trans quiet.root.symm, configuration.trans quiet.configuration.symm⟩

theorem KeepingAt.quiet {worker : Worker Id Record} (place : s.KeepingAt worker)
    (quiet : s.Quiet source) : { s with source }.KeepingAt worker := by
  cases worker with
  | waiting => trivial
  | chosen maintenance previous revision => exact place
  | targeted round => exact Aimed.quiet place quiet
  | admitted round => exact Aimed.quiet place quiet
  | reading round => exact Aimed.quiet place quiet
  | resolving round batch rest resolved => exact Aimed.quiet place quiet
  | updating round batch rest => exact Aimed.quiet place quiet
  | measuring round batch final => exact ⟨place.1.quiet quiet, place.2.quiet quiet⟩
  | publishing round batch final head => exact ⟨place.1.quiet quiet, place.2.quiet quiet⟩
  | starting job => exact place
  | scanning job pinned staged scanned => exact place
  | finishing job pinned staged completed anchors => exact place
  | notifying job => exact place

theorem Keeping.quiet (keeping : s.Keeping) (quiet : s.Quiet source) :
    { s with source }.Keeping := by
  obtain ⟨healthy, ⟨maintenance, published, isMaintenance, isPublished, continued⟩, place⟩ := keeping
  refine ⟨healthy, ⟨maintenance, published, isMaintenance, isPublished, ?_⟩, place.quiet quiet⟩
  exact ⟨quiet.holds maintenance isMaintenance continued.holds,
    continued.root.trans quiet.root.symm, continued.configuration.trans quiet.configuration.symm⟩

/-! ## Sections of a round -/

/-- What a round does outside of its last section. -/
theorem KeepingAt.frame {place : Worker Id Record} (at_ : s.KeepingAt place) (status : Status)
    (building : Bool) (graphs : Nat → Id → Option Record) (worker : Worker Id Record)
    (served : List (Stamp × Generation)) :
    { s with status, building, graphs, worker, served }.KeepingAt place := by
  have aimed : ∀ {round}, s.Aimed round →
      { s with status, building, graphs, worker, served }.Aimed round :=
    fun before => ⟨before.published, before.maintenance, before.stopped, before.revision,
      before.root, before.configuration, before.visibility⟩
  cases place with
  | waiting => trivial
  | chosen maintenance previous revision => exact at_
  | targeted round => exact aimed at_
  | admitted round => exact aimed at_
  | reading round => exact aimed at_
  | resolving round batch rest resolved => exact aimed at_
  | updating round batch rest => exact aimed at_
  | measuring round batch final => exact ⟨aimed at_.1, at_.2⟩
  | publishing round batch final head => exact ⟨aimed at_.1, at_.2⟩
  | starting job => exact at_
  | scanning job pinned staged scanned => exact at_
  | finishing job pinned staged completed anchors => exact at_
  | notifying job => exact at_

theorem Keeping.goto (keeping : s.Keeping) {place : Worker Id Record} (at_ : s.KeepingAt place)
    (status : Status) (building : Bool) (graphs : Nat → Id → Option Record)
    (healthy : status.state ≠ .failed) :
    { s with status, building, graphs, worker := place }.Keeping := by
  obtain ⟨-, ⟨maintenance, published, isMaintenance, isPublished, continued⟩, -⟩ := keeping
  refine ⟨healthy, ⟨maintenance, published, isMaintenance, isPublished, ?_⟩, ?_⟩
  · exact ⟨continued.holds, continued.root, continued.configuration⟩
  · exact at_.frame status building graphs place s.served

/-- The certificate of the source is of the root and the configuration. -/
theorem final_certificate : s.Final s.source.certificate := by
  intro certificate found
  exact ⟨(Source.certificate_eq_some found).2.1, (Source.certificate_policy found).2⟩

theorem continued_round (keeping : s.Keeping) (aimed : s.Aimed round) :
    s.Continued round.maintenance round.previous := by
  obtain ⟨-, ⟨maintenance, published, isMaintenance, isPublished, continued⟩, -⟩ := keeping
  cases aimed.maintenance.symm.trans isMaintenance
  cases aimed.published.symm.trans isPublished
  exact continued

/-- Reading fails exactly where the round was raced. -/
theorem readBatch_cases (inv : s.Inv) (keeping : s.Keeping) (isReading : s.worker = .reading round) :
    ¬s.Raced round ∧ (s.readBatch round).Keeping ∨ s.Raced round ∧ (s.readBatch round).Fallen := by
  have running : s.Running round := by
    have at_ := inv.worker
    rw [isReading] at at_
    exact at_
  have aimed : s.Aimed round := by
    have place := keeping.place
    rw [isReading] at place
    exact place
  have continued := continued_round keeping aimed
  obtain ⟨followed, -, room⟩ := inv.maintained _ aimed.maintenance
  have same : ¬(round.target.root ≠ round.previous.certificate.root ∨
      round.target.configuration ≠ round.previous.certificate.configuration ∨
      round.target.collection < round.previous.certificate.collection ∨
      round.target.visibility < round.previous.certificate.visibility) := by
    rintro (root | configuration | collection | visibility)
    · exact root (aimed.root.trans continued.root.symm)
    · exact configuration (aimed.configuration.trans continued.configuration.symm)
    · exact absurd (running.newest.collection _ (.inl running.published)) (not_le.mpr collection)
    · exact absurd aimed.visibility (not_le.mpr visibility)
  have batch := @after_of_holds Id s.source.journal round.target.visibility
    round.maintenance.cursor round.maintenance.maximumBatch inv.valid followed.reached continued.holds
  have noGap : (s.source.journal.after round.maintenance.cursor round.target.visibility
      round.maintenance.maximumBatch).state ≠ .gap := by
    rw [batch]
    exact collect_state_ne_gap rfl
  have offers : (s.source.journal.after round.maintenance.cursor round.target.visibility
      round.maintenance.maximumBatch).changes ≠ [] ↔
        s.source.journal.Offers round.maintenance.cursor round.target.visibility := by
    rw [batch]
    exact collect_changes_ne_nil _ room
  unfold readBatch
  dsimp only
  rw [if_neg same, if_neg noGap]
  split
  next raced =>
    rw [Bool.and_eq_true, Bool.not_eq_true', List.isEmpty_eq_false_iff] at raced
    refine .inr ⟨⟨raced.2, offers.mp raced.1⟩, ?_, rfl⟩
    have still : ¬(s.stopped = true ∨ s.revision ≠ round.revision) := by
      rintro (stopped | revised)
      · rw [aimed.stopped] at stopped
        cases stopped
      · exact revised aimed.revision
    unfold failRound
    dsimp only
    rw [if_neg still]
  next unraced =>
    rw [Bool.and_eq_true, Bool.not_eq_true', List.isEmpty_eq_false_iff] at unraced
    refine .inl ⟨fun raced => unraced ⟨offers.mpr raced.2, raced.1⟩, ?_⟩
    refine keeping.goto ?_ s.status s.building s.graphs keeping.healthy
    exact aimed

/-- The last section publishes with the root and the configuration of before. -/
theorem publishRound_keeping {final : Option Stamp} {head : Cursor} (inv : s.Inv)
    (keeping : s.Keeping) (isPublishing : s.worker = .publishing round batch final head) :
    (s.publishRound round batch final head).Keeping := by
  have reading : s.Reading round batch := by
    have at_ := inv.worker
    rw [isPublishing] at at_
    exact at_.1
  obtain ⟨aimed, isFinal⟩ : s.Aimed round ∧ s.Final final := by
    have place := keeping.place
    rw [isPublishing] at place
    exact place
  have continued := continued_round keeping aimed
  have holds : s.source.journal.Holds batch.next :=
    ⟨continued.holds.clean, reading.epoch.trans continued.holds.epoch,
      continued.holds.floor.trans reading.grows⟩
  unfold System.publishRound
  dsimp only
  split
  next =>
    refine @Keeping.goto _ _ s keeping .waiting trivial s.status false s.graphs keeping.healthy
  next =>
    split
    next certificate =>
      obtain ⟨root, configuration⟩ := isFinal certificate rfl
      split
      next =>
        refine ⟨nofun, ⟨_, _, rfl, rfl, holds, ?_, ?_⟩, trivial⟩
        · dsimp only
          split
          next => exact root
          next => exact aimed.root
        · dsimp only
          split
          next => exact configuration
          next => exact aimed.configuration
      next =>
        exact ⟨nofun, ⟨_, _, rfl, aimed.published, holds, continued.root, continued.configuration⟩,
          trivial⟩
    next =>
      exact ⟨nofun, ⟨_, _, rfl, aimed.published, holds, continued.root, continued.configuration⟩,
        trivial⟩

theorem admitRound_keeping (keeping : s.Keeping) (aimed : s.Aimed round) : (s.admitRound round).Keeping := by
  unfold System.admitRound
  split
  next =>
    exact @Keeping.goto _ _ s keeping .waiting trivial s.status s.building s.graphs keeping.healthy
  next => exact @Keeping.goto _ _ s keeping (.reading round) aimed _ true s.graphs nofun

theorem startMaintenance_keeping (keeping : s.Keeping) (taken : s.startMaintenance = some t) :
    t.Keeping := by
  unfold startMaintenance at taken
  split at taken
  next maintenance published isMaintenance isPublished =>
    split at taken
    next => cases taken
    next free =>
      cases taken
      simp only [Bool.or_eq_true, not_or, Bool.not_eq_true] at free
      have place : s.KeepingAt (.chosen maintenance published s.revision) :=
        ⟨isPublished, isMaintenance, free.1.1.1, rfl⟩
      exact keeping.goto place s.status s.building s.graphs keeping.healthy
  next => cases taken

theorem work_keeping [DecidableEq Id] (inv : s.Inv) (keeping : s.Keeping) (taken : s.work = some t) :
    s.UnracedAt s.worker ∧ t.Keeping ∨ ¬s.UnracedAt s.worker ∧ t.Fallen := by
  have stay {place : Worker Id Record} (at_ : s.KeepingAt place) (building : Bool)
      (graphs : Nat → Id → Option Record) :
      { s with building, graphs, worker := place }.Keeping :=
    keeping.goto at_ s.status building graphs keeping.healthy
  have at_ := keeping.place
  unfold System.work at taken
  cases place : s.worker with
  | waiting =>
    rw [place] at taken
    cases taken
  | chosen maintenance previous revision =>
    rw [place] at taken at_
    obtain ⟨isPublished, isMaintenance, running, isRevision⟩ := at_
    refine .inl ⟨trivial, ?_⟩
    dsimp only at taken
    split at taken
    next =>
      cases taken
      exact @stay .waiting trivial s.building s.graphs
    next target found =>
      cases taken
      have policy := Source.certificate_policy found
      have faithful := inv.faithful previous (.inl isPublished)
      refine @stay (.targeted _) ⟨isPublished, isMaintenance, running, isRevision,
        (Source.certificate_eq_some found).2.1, policy.2, ?_⟩ s.building s.graphs
      exact faithful.past.visibility.trans policy.1.ge
  | targeted round =>
    rw [place] at taken at_
    refine .inl ⟨trivial, ?_⟩
    dsimp only at taken
    split at taken
    next =>
      cases taken
      exact @stay .waiting trivial s.building s.graphs
    next =>
      cases taken
      exact @stay (.admitted round) at_ s.building s.graphs
  | admitted round =>
    rw [place] at taken at_
    cases taken
    exact .inl ⟨trivial, admitRound_keeping keeping at_⟩
  | reading round =>
    rw [place] at taken
    cases taken
    rcases readBatch_cases inv keeping place with unraced | ⟨raced, fallen⟩
    · exact .inl unraced
    · exact .inr ⟨fun unraced => unraced raced, fallen⟩
  | resolving round batch rest resolved =>
    rw [place] at taken at_
    refine .inl ⟨trivial, ?_⟩
    cases rest with
    | nil =>
      dsimp only at taken
      split at taken
      next =>
        cases taken
        exact @stay (.updating round batch resolved) at_ s.building s.graphs
      next =>
        cases taken
        exact @stay .waiting trivial false s.graphs
    | cons change rest =>
      dsimp only at taken
      split at taken
      next =>
        cases taken
        exact @stay (.resolving round batch rest resolved) at_ s.building s.graphs
      next =>
        cases taken
        exact @stay (.resolving round batch rest _) at_ s.building s.graphs
  | updating round batch rest =>
    rw [place] at taken at_
    refine .inl ⟨trivial, ?_⟩
    cases rest with
    | nil =>
      cases taken
      exact @stay (.measuring round batch _) ⟨at_, final_certificate⟩ s.building s.graphs
    | cons pair rest =>
      cases taken
      exact @stay (.updating round batch rest) at_ s.building _
  | measuring round batch final =>
    rw [place] at taken at_
    cases taken
    exact .inl ⟨trivial, @stay (.publishing round batch final _) at_ s.building s.graphs⟩
  | publishing round batch final head =>
    rw [place] at taken
    cases taken
    exact .inl ⟨trivial, publishRound_keeping inv keeping place⟩
  | starting job =>
    rw [place] at at_
    cases at_
  | scanning job pinned staged scanned =>
    rw [place] at at_
    cases at_
  | finishing job pinned staged completed anchors =>
    rw [place] at at_
    cases at_
  | notifying job =>
    rw [place] at at_
    cases at_

/-! ## Runs -/

theorem Ordinary.promised (ordinary : s.Ordinary event) (keeping : s.KeepingAt s.worker) :
    Promised s event := by
  cases event with
  | work =>
    change WholeScan s.source s.worker
    unfold WholeScan
    split
    next place =>
      rw [place] at keeping
      cases keeping
    next => trivial
  | enable anchor maximumBatch complete => cases ordinary
  | source event => trivial
  | _ => trivial

/-- A step of a run: only a raced round fails. -/
theorem step_keeping [DecidableEq Id] (inv : s.Inv) (keeping : s.Keeping) (ordinary : s.Ordinary event)
    (taken : s.step event = some t) :
    s.Unraced event ∧ t.Keeping ∨ ¬s.Unraced event ∧ t.Fallen := by
  cases event with
  | source edit =>
    obtain ⟨source, moved, rfl⟩ := Option.map_eq_some_iff.mp taken
    exact .inl ⟨trivial, keeping.quiet (quiet_step ordinary moved)⟩
  | acquire stamp =>
    refine .inl ⟨trivial, ?_⟩
    simp only [step] at taken
    split at taken
    next =>
      cases taken
      exact keeping
    next =>
      cases taken
      obtain ⟨healthy, ⟨maintenance, published, isMaintenance, isPublished, continued⟩, place⟩ :=
        keeping
      refine ⟨healthy, ⟨maintenance, published, isMaintenance, isPublished, ?_⟩, ?_⟩
      · exact ⟨continued.holds, continued.root, continued.configuration⟩
      · exact place.frame s.status s.building s.graphs s.worker _
  | maintain =>
    refine .inl ⟨trivial, ?_⟩
    simp only [step] at taken
    split at taken
    next => exact startMaintenance_keeping keeping taken
    next => cases taken
  | work => exact work_keeping inv keeping taken
  | _ => cases ordinary

theorem step_fallen [DecidableEq Id] (fallen : s.Fallen) (ordinary : s.Ordinary event)
    (taken : s.step event = some t) : s.Unraced event ∧ t.Fallen := by
  obtain ⟨failed, waiting⟩ := fallen
  cases event with
  | source edit =>
    obtain ⟨source, -, rfl⟩ := Option.map_eq_some_iff.mp taken
    exact ⟨trivial, failed, waiting⟩
  | acquire stamp =>
    simp only [step] at taken
    split at taken
    next =>
      cases taken
      exact ⟨trivial, failed, waiting⟩
    next =>
      cases taken
      exact ⟨trivial, failed, waiting⟩
  | maintain =>
    simp only [step, waiting] at taken
    unfold startMaintenance at taken
    split at taken
    next =>
      rw [failed] at taken
      simp at taken
    next => cases taken
  | work =>
    simp only [step] at taken
    unfold System.work at taken
    rw [waiting] at taken
    cases taken
  | _ => cases ordinary

end System

/-- Ordinary writes make maintenance fail in exactly the runs in which a round reads
changes for a certificate that is no news. -/
theorem ordinary_writes_keep_index_iff [DecidableEq Id] {records : Id → Option Record}
    {capacity : Nat} {s t : System Id Record} {events : List (Event Id Record)}
    (reached : Reach System.step Promised (System.initial records capacity) s)
    (maintained : s.Maintained)
    (ordinary : RunAllowed System.step System.Ordinary s events)
    (runs : run System.step s events = some t) :
    t.status.state ≠ .failed ↔ RunAllowed System.step System.Unraced s events := by
  have start : s.Inv ∧ (s.Keeping ∨ s.Fallen) := by
    refine ⟨reached.invariant (System.inv_initial records capacity) System.inv_step, .inl ?_⟩
    refine ⟨maintained.healthy, maintained.continued, ?_⟩
    rw [maintained.idle]
    trivial
  have keeps : ∀ {s t : System Id Record} {event}, s.Inv ∧ (s.Keeping ∨ s.Fallen) →
      s.Ordinary event → s.step event = some t → t.Inv ∧ (t.Keeping ∨ t.Fallen) := by
    rintro s t event ⟨inv, keeping | fallen⟩ ordinary taken
    · refine ⟨System.inv_step inv (ordinary.promised keeping.place) taken, ?_⟩
      rcases System.step_keeping inv keeping ordinary taken with ⟨-, kept⟩ | ⟨-, fallen⟩
      · exact .inl kept
      · exact .inr fallen
    · have place : s.KeepingAt s.worker := by
        rw [fallen.2]
        trivial
      exact ⟨System.inv_step inv (ordinary.promised place) taken,
        .inr (System.step_fallen fallen ordinary taken).2⟩
  have steps : ∀ {s t : System Id Record} {event}, s.Inv ∧ (s.Keeping ∨ s.Fallen) →
      s.Ordinary event → s.step event = some t →
        (t.status.state ≠ .failed ↔ s.status.state ≠ .failed ∧ s.Unraced event) := by
    rintro s t event ⟨inv, keeping | fallen⟩ ordinary taken
    · rcases System.step_keeping inv keeping ordinary taken with ⟨unraced, kept⟩ | ⟨raced, fallen⟩
      · exact iff_of_true kept.healthy ⟨keeping.healthy, unraced⟩
      · exact iff_of_false (fun healthy => healthy fallen.1) fun both => raced both.2
    · exact iff_of_false (fun healthy => healthy (System.step_fallen fallen ordinary taken).2.1)
        fun both => both.1 fallen.1
  rw [run_good_iff_of keeps steps start ordinary runs]
  exact and_iff_right maintained.healthy

/-- The index is built and maintenance is on. -/
def maintainedEvents : List (Event Bool Nat) :=
  [.anchor, .enqueue true, .build, .work, .emit false, .work, .work, .enable ⟨1, 0⟩ 8 true, .work]

def writeEvents : List (Event Bool Nat) :=
  [.source (.begin false), .source (.edit 0 true (some 20)), .source (.append 0 true 0 true),
    .source (.finish 0)]

/-- The state of `servedStart` after the index was built. -/
theorem maintained_start : ∃ s, Reach System.step Promised servedStart s ∧ s.Maintained ∧
    run System.step servedStart maintainedEvents = some s := by
  have summary : (run System.step servedStart maintainedEvents).map (fun s =>
      (s.status.state, s.maintenance, s.published)) =
        some (.ready, some ⟨⟨1, 0⟩, 8, true⟩, some ⟨1, ⟨0, 0, 0, 0⟩, 0, true⟩) := rfl
  have idle : (run System.step servedStart maintainedEvents).map (fun s => s.worker) =
      some .waiting := rfl
  have continued : (run System.step servedStart maintainedEvents).map (fun s =>
      decide (s.source.journal.Holds ⟨1, 0⟩) && decide (s.source.rootRevision = 0) &&
        decide (s.source.configuration = 0)) = some true := rfl
  obtain ⟨s, runs, found⟩ := Option.map_eq_some_iff.mp summary
  rw [runs] at idle continued
  simp only [Prod.mk.injEq] at found
  simp only [Option.map_some, Option.some.injEq, Bool.and_eq_true, decide_eq_true_eq] at idle continued
  obtain ⟨state, maintenance, published⟩ := found
  obtain ⟨⟨holds, root⟩, configuration⟩ := continued
  refine ⟨s, .of_runAllowed .refl (by decide) runs, ⟨idle, ?_, _, _, maintenance, published, holds,
    root.symm, configuration.symm⟩, runs⟩
  rw [state]
  exact nofun

/-- The write comes before a round. -/
theorem maintained_write_unfailed : ∃ s t, s.Maintained ∧
    run System.step s (writeEvents ++ .maintain :: List.replicate 10 .work) = some t ∧
      t.status.state ≠ .failed ∧ t.source.records true = some 20 := by
  obtain ⟨s, reached, maintained, isStart⟩ := maintained_start
  have summary : ((run System.step servedStart maintainedEvents).bind fun s =>
      (run System.step s (writeEvents ++ .maintain :: List.replicate 10 .work)).map fun t =>
        t.source.records true) = some (some 20) := rfl
  have ordinary : ∀ s ∈ run System.step servedStart maintainedEvents,
      RunAllowed System.step System.Ordinary s
        (writeEvents ++ .maintain :: List.replicate 10 .work) := by decide
  have unraced : ∀ s ∈ run System.step servedStart maintainedEvents,
      RunAllowed System.step System.Unraced s
        (writeEvents ++ .maintain :: List.replicate 10 .work) := by decide
  rw [isStart, Option.bind_some] at summary
  obtain ⟨t, runs, stored⟩ := Option.map_eq_some_iff.mp summary
  exact ⟨s, t, maintained, runs, (ordinary_writes_keep_index_iff reached maintained
    (ordinary s isStart) runs).mpr (unraced s isStart), stored⟩

/-- The write comes after the certificate of the round and before the journal is read. -/
theorem raced_write_fails : ∃ s t, Reach System.step Promised servedStart s ∧ s.Maintained ∧
    RunAllowed System.step System.Ordinary s
      (.maintain :: .work :: writeEvents ++ List.replicate 3 .work) ∧
    run System.step s (.maintain :: .work :: writeEvents ++ List.replicate 3 .work) = some t ∧
      t.status =
        ⟨.failed, 1, "vector_index_incremental_unversioned_changes_require_rebuild"⟩ := by
  obtain ⟨s, reached, maintained, isStart⟩ := maintained_start
  have summary : ((run System.step servedStart maintainedEvents).bind fun s =>
      (run System.step s (.maintain :: .work :: writeEvents ++ List.replicate 3 .work)).map fun t =>
        t.status) = some ⟨.failed, 1,
          "vector_index_incremental_unversioned_changes_require_rebuild"⟩ := rfl
  have ordinary : ∀ s ∈ run System.step servedStart maintainedEvents,
      RunAllowed System.step System.Ordinary s
        (.maintain :: .work :: writeEvents ++ List.replicate 3 .work) := by decide
  rw [isStart, Option.bind_some] at summary
  obtain ⟨t, runs, failed⟩ := Option.map_eq_some_iff.mp summary
  exact ⟨s, t, reached, maintained, ordinary s isStart, runs, failed⟩

end PacificDb.Vector
