import PacificDb.Lsm.Documents
import PacificDb.Lsm.IndexedLookup

/-!
# Where all reads agree

A collection whose memory files every document under its own id and whose SSTs can be
indexed. Its documents have ids, each has one of its own, and every way to look some of
them up gives those of `getAll` that it is asked for, each once: the merged scan
(`visitLatest_perm`), the lookup of an id (`findByField_perm`), and that of a value, by
its index or by a scan (`findByIndex_perm`, `findByScan_perm`).
-/

namespace PacificDb.Lsm

open Lib
open Index (BinaryColumnIndexState)

variable {config : LsmConfig} {s : Collection} {committedIndex : Nat} {names : List String}
  {docs others : List Json} {doc : Json} {id : String}

structure SettledReads (config : LsmConfig) (s : Collection) (committedIndex : Nat) (names : List String)
    (docs : List Json) : Prop where
  keyed : KeyedMemory config s
  published : publishedSsts config.codec s.dir = .ok names
  verified : Verified config s names
  indexable : ∀ name ∈ names, ∀ row ∈ sstRows s.dir name, Indexable row
  reads : readAllCollectionRows config s committedIndex = .ok docs

/-! ## The documents -/

theorem mem_under {key : Option String} : doc ∈ under config docs key ↔ doc ∈ docs ∧ rowKey config doc = key := by
  rw [under, List.mem_filter, decide_eq_true_eq]

/-- No two documents of a list are equal that has at most one under each key. -/
theorem nodup_of_under (once : ∀ key, (under config docs key).length ≤ 1) : docs.Nodup := by
  rw [List.nodup_iff_sublist]
  intro doc twice
  have both := (twice.filter fun other => rowKey config other = rowKey config doc).length_le
  rw [List.filter_cons, List.filter_cons, decide_eq_true rfl] at both
  have short := once (rowKey config doc)
  rw [under] at short
  have two : 2 ≤ 1 := both.trans short
  omega

theorem under_docs_length_le (reads : readAllCollectionRows config s committedIndex = .ok docs) (id : String) :
    (under config docs (some id)).length ≤ 1 := by
  rw [readAll_eq reads, under_latestDocs]
  cases shown _ with
  | none => exact Nat.zero_le _
  | some doc => exact le_rfl

namespace SettledReads

variable (settled : SettledReads config s committedIndex names docs)
include settled

theorem memory_named {row : Json} (member : row ∈ s.memoryRows) : ∃ id, rowKey config row = some id := by
  unfold Collection.memoryRows at member
  rcases List.mem_append.mp member with inImmutable | inActive
  · obtain ⟨immutable, isImmutable, inTable⟩ := List.mem_flatMap.mp inImmutable
    obtain ⟨id, held⟩ := Memtable.mem_rows.mp inTable
    exact ⟨id, settled.keyed.immutable immutable (List.mem_reverse.mp isImmutable) id row held⟩
  · obtain ⟨id, held⟩ := Memtable.mem_rows.mp inActive
    exact ⟨id, settled.keyed.active id row held⟩

theorem sst_named {name : String} {row : Json} (isName : name ∈ names) (member : row ∈ sstRows s.dir name) :
    ∃ id, rowKey config row = some id := by
  obtain ⟨rows, body, passes⟩ := settled.verified name isName
  have own : sstRows s.dir name = rows := by rw [sstRows, body]
  rw [← own] at passes
  exact ⟨_, (readyRows_of_verified passes (settled.indexable name isName)).named row member⟩

/-- Every document has an id. -/
theorem named (isDoc : doc ∈ docs) : ∃ id, rowKey config doc = some id := by
  obtain ⟨_, samePublished, -, isDocs⟩ := readAllCollectionRows_ok.mp settled.reads
  cases settled.published.symm.trans samePublished
  rw [isDocs] at isDoc
  rcases (mem_latestDocs.mp isDoc).2 with ⟨-, inRows⟩ | ⟨id, won⟩
  · have inRows := (List.mem_filter.mp inRows).1
    rw [flatMap_scanned] at inRows
    rcases List.mem_append.mp inRows with inSst | inMemory
    · obtain ⟨name, isName, member⟩ := List.mem_flatMap.mp inSst
      exact settled.sst_named isName member
    · exact settled.memory_named inMemory
  · exact ⟨id, (rowKey_of_lastMax won).2⟩

theorem under_length_le (key : Option String) : (under config docs key).length ≤ 1 := by
  cases key with
  | some id => exact under_docs_length_le settled.reads id
  | none =>
    have empty : under config docs none = [] := by
      rw [List.eq_nil_iff_forall_not_mem]
      intro doc member
      obtain ⟨isDoc, noKey⟩ := mem_under.mp member
      obtain ⟨id, isKey⟩ := settled.named isDoc
      rw [isKey] at noKey
      cases noKey
    rw [empty]
    exact Nat.zero_le _

theorem nodup : docs.Nodup := nodup_of_under settled.under_length_le

theorem under_of_mem (isDoc : doc ∈ docs) (isKey : rowKey config doc = some id) :
    under config docs (some id) = [doc] := by
  have member := mem_under.mpr ⟨isDoc, isKey⟩
  have once := under_docs_length_le settled.reads id
  match found : under config docs (some id) with
  | [] =>
    rw [found] at member
    cases member
  | [only] =>
    rw [found] at member
    rw [List.mem_singleton.mp member]
  | _ :: _ :: _ =>
    rw [found] at once
    exact absurd once (by simp)

/-- Documents with one id are one document. -/
theorem eq_of_key {other : Json} (isDoc : doc ∈ docs) (isOther : other ∈ docs) (isKey : rowKey config doc = some id)
    (otherKey : rowKey config other = some id) : doc = other := by
  have own := settled.under_of_mem isDoc isKey
  rw [settled.under_of_mem isOther otherKey, List.cons.injEq] at own
  exact own.1.symm

/-- A tombstone of its id that is visible and scores no less removes a document and no other. -/
theorem perm_tombstone {t : Collection} {tomb : Json} (isDoc : doc ∈ docs)
    (isKey : rowKey config doc = some id) (put : PutRow config s t id tomb)
    (visible : Collection.visibleDoc config committedIndex tomb = true) (dead : isDeletedDoc tomb = true)
    (newer : docScore doc ≤ docScore tomb) :
    ∃ left, readAllCollectionRows config t committedIndex = .ok left ∧ docs.Perm (doc :: left) := by
  obtain ⟨left, after⟩ := readAll_of_same settled.reads put.dir
  have own := settled.under_of_mem isDoc isKey
  have gone : under config left (some id) = [] := by
    apply under_put_tombstone put settled.keyed after visible dead
    intro row member shows
    exact (docScore_behind_le settled.reads own member shows).trans newer
  have frame : ∀ key, key ≠ some id → under config left key = under config docs key :=
    fun key other => under_put_other put settled.keyed settled.reads after other
  have isLeft : ∀ row, row ∈ left ↔ row ∈ docs ∧ rowKey config row ≠ some id := by
    intro row
    by_cases same : rowKey config row = some id
    · have absent : row ∉ left := by
        intro member
        have inEmpty := mem_under.mpr ⟨member, same⟩
        rw [gone] at inEmpty
        cases inEmpty
      exact iff_of_false absent fun both => both.2 same
    · rw [and_iff_left same, ← and_iff_left (a := row ∈ left) (rfl : rowKey config row = rowKey config row),
        ← mem_under, frame _ same, mem_under, and_iff_left rfl]
  have once : left.Nodup := by
    apply @nodup_of_under config
    intro key
    by_cases same : key = some id
    · rw [same, gone]
      exact Nat.zero_le _
    · rw [frame key same]
      exact settled.under_length_le key
  refine ⟨left, after, (List.perm_ext_iff_of_nodup settled.nodup (List.nodup_cons.mpr ⟨?_, once⟩)).mpr ?_⟩
  · exact fun member => ((isLeft doc).mp member).2 isKey
  · intro row
    rw [List.mem_cons, isLeft]
    constructor
    · intro isRow
      by_cases same : rowKey config row = some id
      · exact .inl (settled.eq_of_key isRow isDoc same isKey)
      · exact .inr ⟨isRow, same⟩
    · rintro (rfl | ⟨isRow, -⟩)
      · exact isDoc
      · exact isRow

theorem filed : s.FiledMemory config := by
  intro table isTable key doc held id isKey
  have own : rowKey config doc = some key := by
    rcases List.mem_cons.mp isTable with rfl | inImmutables
    · exact settled.keyed.active key doc held
    · obtain ⟨immutable, isImmutable, rfl⟩ := List.mem_map.mp inImmutables
      exact settled.keyed.immutable immutable isImmutable key doc held
  exact Option.some.inj (own.symm.trans isKey)

/-! ## The lookups -/

theorem visitLatest_perm : ∃ rows, visitLatest config s committedIndex = .ok rows ∧ rows.Perm docs := by
  obtain ⟨rows, visited, once, members⟩ := visitLatest_ok settled.published settled.verified settled.reads
    settled.indexable
  have same : ∀ doc, doc ∈ rows ↔ doc ∈ docs := by
    intro doc
    refine (members doc).trans (or_iff_left ?_)
    rintro ⟨inMemory, plain, -⟩
    obtain ⟨id, isKey⟩ := settled.memory_named inMemory
    rw [isObject_of_rowKey isKey] at plain
    cases plain
  refine ⟨rows, visited, ?_⟩
  apply (List.perm_ext_iff_of_nodup ?_ settled.nodup).mpr same
  rw [List.Nodup, List.pairwise_filterMap] at once
  apply once.imp_of_mem
  rintro doc _ isRow - different rfl
  obtain ⟨id, isKey⟩ := settled.named ((same doc).mp isRow)
  exact different id isKey id isKey rfl

theorem findByField_perm {layout : SstLayout} (points : PointReadsSettled layout config s committedIndex id names) :
    ∃ found, findByField layout config s committedIndex id = .ok found ∧
      found.Perm (docs.filter fun doc => rowKey config doc = some id) := by
  refine ⟨_, findByField_of_settled settled.published settled.verified points, ?_⟩
  apply (List.perm_ext_iff_of_nodup ?_ (settled.nodup.filter _)).mpr
  · intro doc
    rw [Option.mem_toList, ← mem_getAll_iff settled.keyed settled.published settled.verified settled.reads,
      List.mem_filter, decide_eq_true_eq]
  · cases shown _ with
    | none => exact .nil
    | some doc => exact List.nodup_singleton doc

theorem findByIndex_perm {layout : SstLayout} {targetedSeekMaxIds : Nat} {index : BinaryColumnIndexState}
    {field value : String} (consistent : IndexConsistent config field index docs)
    (lookups : IndexedLookupSettled layout config targetedSeekMaxIds s committedIndex names docs field value) :
    ∃ found, findByIndex layout config targetedSeekMaxIds s index committedIndex field value = .ok found ∧
      found.Perm (docs.filter (hasColumnValue config field value)) := by
  obtain ⟨found, isFound, members, once⟩ := @findByIndex_of_settled config s layout index committedIndex
    targetedSeekMaxIds names docs field value settled.filed settled.published settled.verified settled.reads
    consistent lookups
  refine ⟨found, isFound, (List.perm_ext_iff_of_nodup once (settled.nodup.filter _)).mpr ?_⟩
  intro doc
  rw [members, List.mem_filter]

theorem findByScan_perm {field value : String} :
    ∃ found, findByScan config s committedIndex field value = .ok found ∧
      found.Perm (docs.filter fun doc => docFieldMatchesColumnValue config doc field value) := by
  obtain ⟨rows, visited, same⟩ := settled.visitLatest_perm
  refine ⟨_, by rw [findByScan, visited], same.filter _⟩

end SettledReads

end PacificDb.Lsm
