import PacificDb.Compression.Codec

/-!
# What the compressor keeps

The decoder is total: on any bytes it ends, reads inside them, and puts out no more than it
was asked for (`lz4Decompress_total`).

It takes a token without literals for the end of the block, and the encoder writes such a
token wherever a match starts right where the one before it ended. A block comes back exactly
when it is stored as it is, or no two of its matches touch (`roundTrips_iff`).
-/

namespace PacificDb.Compression

open Lib

variable {src done rest : Bytes} {passes more srcPos originalLength : Nat} {output : Bytes}

/-! ## The decoder is total -/

theorem readLength_total {length : Nat} (inside : srcPos ≤ src.length)
    (enough : src.length < srcPos + passes) :
    ∃ read, readLength src passes srcPos length = some read ∧ srcPos ≤ read.2 ∧ read.2 ≤ src.length := by
  induction passes generalizing srcPos length with
  | zero => omega
  | succ passes ih =>
    rw [readLength]
    split
    next before =>
      rw [List.getElem?_eq_getElem before]
      dsimp only
      split
      next => exact ⟨_, rfl, Nat.le_succ srcPos, before⟩
      next =>
        obtain ⟨read, isRead, behind, within⟩ :=
          @ih (srcPos + 1) (length + src[srcPos].toNat) before (by omega)
        exact ⟨read, isRead, by omega, within⟩
    next => exact ⟨_, rfl, le_rfl, inside⟩

theorem extended_total {full : Bool} {start : Nat} (inside : srcPos ≤ src.length) :
    ∃ read, extended src full start srcPos = some read ∧ srcPos ≤ read.2 ∧ read.2 ≤ src.length := by
  rw [extended]
  split
  next => exact readLength_total inside (by omega)
  next => exact ⟨_, rfl, le_rfl, inside⟩

/-- What a pass leaves: a state further on in the input, within the length asked for. -/
def Decoded.Bounded (src : Bytes) (originalLength srcPos : Nat) : Decoded → Prop
  | .stopped output => output.length ≤ originalLength
  | .next after output => srcPos < after ∧ after ≤ src.length ∧ output.length ≤ originalLength

theorem decodeMatch_total {token : UInt8} (offsetInside : srcPos + 2 ≤ src.length)
    (bounded : output.length ≤ originalLength) :
    ∃ decoded, decodeMatch src originalLength token srcPos output = some decoded ∧
      decoded.Bounded src originalLength srcPos := by
  obtain ⟨length, isLength, behind, within⟩ :=
    @extended_total src (srcPos + 2) (token &&& 15 == 15) ((token &&& 15).toNat + 4) offsetInside
  rw [decodeMatch, List.getElem?_eq_getElem (show srcPos < src.length by omega),
    List.getElem?_eq_getElem (show srcPos + 1 < src.length by omega)]
  simp only [Option.bind_eq_bind, Option.bind_some, isLength]
  split
  next reach =>
    obtain ⟨copied, isCopied, least, -⟩ := @copyFrom_total _ originalLength length.1
      (output.length - (src[srcPos].toNat + 256 * src[srcPos + 1].toNat)) output (by omega) bounded
    rw [isCopied]
    exact ⟨_, rfl, by omega, within, least⟩
  next => exact ⟨_, rfl, by omega, within, bounded⟩

theorem decodeToken_total (inside : srcPos < src.length) (bounded : output.length ≤ originalLength) :
    ∃ decoded, decodeToken src originalLength srcPos output = some decoded ∧
      decoded.Bounded src originalLength srcPos := by
  obtain ⟨length, isLength, behind, within⟩ := @extended_total src (srcPos + 1)
    ((src[srcPos] >>> 4) &&& 15 == 15) ((src[srcPos] >>> 4) &&& 15).toNat inside
  rw [decodeToken, List.getElem?_eq_getElem inside]
  simp only [Option.bind_eq_bind, Option.bind_some, isLength]
  split
  next fits =>
    have literals : (((src.drop length.2).take length.1)).length = length.1 := by
      rw [List.length_take, List.length_drop]
      omega
    rw [readBytes, if_pos fits.2.1, Option.bind_some]
    split
    next =>
      refine ⟨_, rfl, ?_⟩
      rw [Decoded.Bounded, List.length_append]
      omega
    next room =>
      have longer : (output ++ (src.drop length.2).take length.1).length ≤ originalLength := by
        rw [List.length_append]
        omega
      obtain ⟨decoded, isDecoded, whole⟩ :=
        @decodeMatch_total src (length.2 + length.1) originalLength _ src[srcPos] (by omega) longer
      refine ⟨decoded, isDecoded, ?_⟩
      cases decoded with
      | stopped result => exact whole
      | next after result =>
        obtain ⟨further, most, least⟩ := whole
        exact ⟨by omega, most, least⟩
  next =>
    rw [readBytes, if_pos (by omega), Option.bind_some]
    exact ⟨_, rfl, bounded⟩

theorem decodeLoop_total (inside : srcPos ≤ src.length) (enough : src.length < srcPos + passes)
    (bounded : output.length ≤ originalLength) :
    ∃ result, decodeLoop src originalLength passes srcPos output = some result ∧
      result.length ≤ originalLength := by
  induction passes generalizing srcPos output with
  | zero => omega
  | succ passes ih =>
    rw [decodeLoop]
    split
    next more =>
      obtain ⟨decoded, isDecoded, within⟩ := decodeToken_total more.1 bounded
      rw [isDecoded]
      cases decoded with
      | stopped result => exact ⟨result, rfl, within⟩
      | next after longer =>
        obtain ⟨further, most, least⟩ := within
        exact ih most (by omega) least
    next => exact ⟨output, rfl, bounded⟩

/-- On any bytes, and for any length asked for, the decoder ends, has read inside its input,
and puts out no more than that length. -/
theorem lz4Decompress_total (src : Bytes) (originalLength : Nat) :
    ∃ output, lz4Decompress src originalLength = some output ∧ output.length ≤ originalLength :=
  decodeLoop_total (Nat.zero_le _) (by omega) (Nat.zero_le _)

/-! ## Passes -/

/-- Passes beyond those that the input allows make no difference. -/
theorem decodeLoop_passes (inside : srcPos ≤ src.length) (enough : src.length < srcPos + passes)
    (enoughMore : src.length < srcPos + more) (bounded : output.length ≤ originalLength) :
    decodeLoop src originalLength passes srcPos output = decodeLoop src originalLength more srcPos output := by
  induction passes generalizing srcPos output more with
  | zero => omega
  | succ passes ih =>
    cases more with
    | zero => omega
    | succ more =>
      rw [decodeLoop, decodeLoop]
      split
      next goesOn =>
        obtain ⟨decoded, isDecoded, within⟩ := decodeToken_total goesOn.1 bounded
        rw [isDecoded]
        cases decoded with
        | stopped result => rfl
        | next after longer =>
          obtain ⟨further, most, least⟩ := within
          exact ih most (by omega) (by omega) least
      next => rfl

/-- The decoder from a place of its input on. -/
def decodeFrom (src : Bytes) (originalLength srcPos : Nat) (output : Bytes) : Option Bytes :=
  decodeLoop src originalLength (src.length + 1 - srcPos) srcPos output

theorem decodeFrom_next {after : Nat} {longer : Bytes} (inside : srcPos < src.length)
    (unfinished : output.length < originalLength)
    (isNext : decodeToken src originalLength srcPos output = some (.next after longer)) :
    decodeFrom src originalLength srcPos output = decodeFrom src originalLength after longer := by
  obtain ⟨decoded, isDecoded, within⟩ := decodeToken_total inside unfinished.le
  rw [isNext] at isDecoded
  obtain rfl := Option.some.inj isDecoded
  obtain ⟨further, most, least⟩ := within
  have one : src.length + 1 - srcPos = (src.length - srcPos) + 1 := by omega
  rw [decodeFrom, decodeFrom, one, decodeLoop, if_pos ⟨inside, unfinished⟩, isNext]
  exact decodeLoop_passes most (by omega) (by omega) least

theorem decodeFrom_stopped {result : Bytes} (inside : srcPos < src.length)
    (unfinished : output.length < originalLength)
    (isStopped : decodeToken src originalLength srcPos output = some (.stopped result)) :
    decodeFrom src originalLength srcPos output = some result := by
  have one : src.length + 1 - srcPos = (src.length - srcPos) + 1 := by omega
  rw [decodeFrom, one, decodeLoop, if_pos ⟨inside, unfinished⟩, isStopped]

theorem decodeFrom_finished (inside : srcPos ≤ src.length) (finished : ¬output.length < originalLength) :
    decodeFrom src originalLength srcPos output = some output := by
  have one : src.length + 1 - srcPos = (src.length - srcPos) + 1 := by omega
  rw [decodeFrom, one, decodeLoop, if_neg fun goesOn => finished goesOn.2]

/-! ## Matches -/

variable {pos matchPos literalStart matchLen : Nat} {hashTable : Nat → UInt16} {x : Bytes}

theorem findMatch_eq_some (found : findMatch src hashTable pos = some matchPos) :
    matchPos < pos ∧ pos - matchPos < 65535 ∧ pos + 4 ≤ src.length ∧
      (src.drop pos).take 4 = (src.drop matchPos).take 4 := by
  rw [findMatch] at found
  split at found
  next holds =>
    cases found
    exact ⟨holds.1, holds.2.1, holds.2.2.1, holds.2.2.2.2⟩
  next => cases found

/-- A match is inside the input, and its bytes are those at its place. -/
theorem extendMatch_spec (inside : pos + matchLen ≤ src.length)
    (agrees : ∀ i < matchLen, src[matchPos + i]? = src[pos + i]?) :
    matchLen ≤ extendMatch src pos matchPos passes matchLen ∧
      pos + extendMatch src pos matchPos passes matchLen ≤ src.length ∧
      ∀ i < extendMatch src pos matchPos passes matchLen, src[matchPos + i]? = src[pos + i]? := by
  induction passes generalizing matchLen with
  | zero => exact ⟨le_rfl, inside, agrees⟩
  | succ passes ih =>
    rw [extendMatch]
    split
    next one =>
      have longer : ∀ i < matchLen + 1, src[matchPos + i]? = src[pos + i]? := by
        intro i bound
        rcases Nat.lt_succ_iff_lt_or_eq.mp bound with before | rfl
        · exact agrees i before
        · exact one.2.symm
      have rests := ih (by omega) longer
      exact ⟨by omega, rests.2⟩
    next => exact ⟨le_rfl, inside, agrees⟩

theorem matchLength_spec (found : findMatch src hashTable pos = some matchPos) :
    4 ≤ matchLength src pos matchPos ∧ pos + matchLength src pos matchPos ≤ src.length ∧
      ∀ i < matchLength src pos matchPos, src[matchPos + i]? = src[pos + i]? := by
  obtain ⟨-, -, room, same⟩ := findMatch_eq_some found
  apply extendMatch_spec room
  intro i bound
  have entry := congrArg (fun bytes : Bytes => bytes[i]?) same
  simp only [List.getElem?_take_of_lt bound, List.getElem?_drop] at entry
  exact entry.symm

/-! ## Lengths and tokens -/

theorem getElem?_behind (byte : UInt8) : (done ++ byte :: rest)[done.length]? = some byte := by
  rw [List.getElem?_append_right le_rfl, Nat.sub_self]
  rfl

theorem readLength_pushLength (remaining start : Nat) (enough : (pushLength remaining).length ≤ passes) :
    readLength (done ++ pushLength remaining ++ rest) passes done.length start =
      some (start + remaining, done.length + (pushLength remaining).length) := by
  induction remaining using pushLength.induct generalizing done passes start with
  | case1 remaining large ih =>
    rw [pushLength, if_pos large] at enough ⊢
    cases passes with
    | zero => cases enough
    | succ passes =>
      have inside : done.length < (done ++ 255 :: pushLength (remaining - 255) ++ rest).length := by
        simp only [List.length_append, List.length_cons]
        omega
      have next := @ih (done ++ [255]) passes (start + 255) (Nat.le_of_succ_le_succ enough)
      rw [List.append_assoc done [255], List.singleton_append, List.length_append] at next
      rw [readLength, if_pos inside, List.append_assoc, List.cons_append, getElem?_behind]
      dsimp only
      rw [if_neg (by decide), ← List.cons_append, ← List.append_assoc]
      have total : start + 255 + (remaining - 255) = start + remaining := by omega
      have place : done.length + 1 + (pushLength (remaining - 255)).length =
          done.length + ((pushLength (remaining - 255)).length + 1) := by omega
      rw [List.length_singleton, total, place] at next
      exact next
  | case2 remaining small =>
    rw [pushLength, if_neg small] at enough ⊢
    cases passes with
    | zero => cases enough
    | succ passes =>
      have inside : done.length < (done ++ [UInt8.ofNat remaining] ++ rest).length := by
        simp only [List.length_append, List.length_cons]
        omega
      have value : (UInt8.ofNat remaining).toNat = remaining := by
        rw [UInt8.toNat_ofNat']
        omega
      have last : UInt8.ofNat remaining < 255 := by
        rw [UInt8.lt_iff_toNat_lt, value]
        exact not_le.mp small
      rw [readLength, if_pos inside, List.append_assoc, List.cons_append, getElem?_behind]
      dsimp only
      rw [if_pos last, value]
      rfl

/-- A length comes back from its half of the token and its extra bytes. -/
theorem extended_extension (length base : Nat) :
    extended (done ++ extension length ++ rest) (decide (15 ≤ length)) (min length 15 + base) done.length =
      some (length + base, done.length + (extension length).length) := by
  rw [extended, extension]
  by_cases full : 15 ≤ length
  · rw [if_pos full, decide_eq_true full, if_pos rfl, readLength_pushLength]
    · congr 2
      omega
    · simp only [List.length_append]
      omega
  · rw [if_neg full, decide_eq_false full, if_neg Bool.false_ne_true]
    congr 2
    omega

theorem halves_of_token : ∀ literals extra : Fin 16,
    (UInt8.ofNat ((literals.val <<< 4) ||| extra.val) >>> 4) &&& 15 = UInt8.ofNat literals.val ∧
      UInt8.ofNat ((literals.val <<< 4) ||| extra.val) &&& 15 = UInt8.ofNat extra.val := by
  decide

theorem toNat_ofNat_min (length : Nat) : (UInt8.ofNat (min length 15)).toNat = min length 15 := by
  rw [UInt8.toNat_ofNat']
  omega

theorem ofNat_min_beq (length : Nat) : (UInt8.ofNat (min length 15) == 15) = decide (15 ≤ length) := by
  rw [Bool.eq_iff_iff, beq_iff_eq, decide_eq_true_eq, ← UInt8.toNat_inj, toNat_ofNat_min]
  change min length 15 = 15 ↔ 15 ≤ length
  omega

theorem tokenOf_literals (literalLen matchExtra : Nat) :
    (tokenOf literalLen matchExtra >>> 4) &&& 15 = UInt8.ofNat (min literalLen 15) :=
  (halves_of_token ⟨min literalLen 15, by omega⟩ ⟨min matchExtra 15, by omega⟩).1

theorem tokenOf_match (literalLen matchExtra : Nat) :
    tokenOf literalLen matchExtra &&& 15 = UInt8.ofNat (min matchExtra 15) :=
  (halves_of_token ⟨min literalLen 15, by omega⟩ ⟨min matchExtra 15, by omega⟩).2

/-! ## One token -/

theorem readBytes_behind (bytes : Bytes) :
    readBytes (done ++ bytes ++ rest) done.length bytes.length = some bytes := by
  have inside : done.length + bytes.length ≤ (done ++ bytes ++ rest).length := by
    simp only [List.length_append]
    omega
  rw [readBytes, if_pos inside, List.append_assoc, List.drop_left, List.take_left]

/-- The literals of a token come out, when there are any. -/
theorem decodeToken_literals {literals tail : Bytes} (extra : Nat) (some_literals : literals ≠ [])
    (fits : output.length + literals.length ≤ originalLength) :
    decodeToken (done ++ tokenOf literals.length extra :: (extension literals.length ++ literals ++ tail))
        originalLength done.length output =
      if tail.length < 2 then some (.stopped (output ++ literals))
      else decodeMatch
        (done ++ tokenOf literals.length extra :: (extension literals.length ++ literals ++ tail))
        originalLength (tokenOf literals.length extra)
        (done ++ tokenOf literals.length extra :: (extension literals.length ++ literals)).length
        (output ++ literals) := by
  have positive : 0 < literals.length := List.length_pos_iff.mpr some_literals
  have length := @extended_extension (done ++ [tokenOf literals.length extra]) (literals ++ tail)
    literals.length 0
  have run := @readBytes_behind
    (done ++ tokenOf literals.length extra :: extension literals.length) tail literals
  simp only [List.append_assoc, List.cons_append, List.nil_append, List.length_append,
    List.length_cons, List.length_nil, Nat.add_zero] at length run ⊢
  have behind : done.length + (0 + 1) = done.length + 1 := rfl
  have places : done.length + 1 + (extension literals.length).length =
      done.length + ((extension literals.length).length + 1) := by omega
  rw [behind] at length
  rw [decodeToken, getElem?_behind]
  simp only [Option.bind_eq_bind, Option.bind_some]
  rw [tokenOf_literals, ofNat_min_beq, toNat_ofNat_min, length]
  simp only [Option.bind_some, places, run, List.length_append, List.length_cons]
  rw [if_pos ⟨positive, by omega, fits⟩]
  by_cases short : tail.length < 2
  · rw [if_pos (by omega), if_pos short]
  · rw [if_neg (by omega), if_neg short]
    congr 1
    omega

/-- A token without literals ends the block. -/
theorem decodeToken_empty {extra : Nat} {tail : Bytes} :
    decodeToken (done ++ tokenOf 0 extra :: tail) originalLength done.length output =
      some (.stopped output) := by
  rw [decodeToken, getElem?_behind]
  simp only [Option.bind_eq_bind, Option.bind_some]
  rw [tokenOf_literals]
  have length : extended (done ++ tokenOf 0 extra :: tail) (UInt8.ofNat (min 0 15) == 15)
      (UInt8.ofNat (min 0 15)).toNat (done.length + 1) = some (0, done.length + 1) := rfl
  have inside : done.length + 1 + 0 ≤ (done ++ tokenOf 0 extra :: tail).length := by
    rw [List.length_append, List.length_cons]
    omega
  rw [length]
  simp only [Option.bind_some, lt_irrefl, false_and, if_false, Nat.zero_min]
  rw [readBytes, if_pos inside]
  rfl

/-- The match of a token comes out, when its bytes are those behind it. -/
theorem decodeMatch_take {literalLen : Nat} {lead tail : Bytes} (behind : matchPos < pos)
    (near : pos - matchPos < 65535) (long : 4 ≤ matchLen) (inside : pos + matchLen ≤ x.length)
    (agrees : ∀ i < matchLen, x[matchPos + i]? = x[pos + i]?) :
    decodeMatch (lead ++ (leBytes 2 (pos - matchPos) ++ extension (matchLen - 4) ++ tail)) x.length
        (tokenOf literalLen (matchLen - 4)) lead.length (x.take pos) =
      some (.next (lead ++ (leBytes 2 (pos - matchPos) ++ extension (matchLen - 4))).length
        (x.take (pos + matchLen))) := by
  obtain ⟨low, high, isOffset⟩ : ∃ low high, leBytes 2 (pos - matchPos) = [low, high] := ⟨_, _, rfl⟩
  have value : low.toNat + 256 * high.toNat = pos - matchPos := by
    have read := @readLe_leBytes_of_lt 2 (pos - matchPos) (by omega)
    rw [isOffset] at read
    simpa [readLe] using read
  have length := @extended_extension (lead ++ [low, high]) tail (matchLen - 4) 4
  rw [Nat.sub_add_cancel long] at length
  have taken : (x.take pos).length = pos := List.length_take_of_le (by omega)
  have source : pos - (pos - matchPos) = matchPos := by omega
  have first : (lead ++ low :: (high :: (extension (matchLen - 4) ++ tail)))[lead.length]? = some low :=
    getElem?_behind low
  have second : (lead ++ low :: (high :: (extension (matchLen - 4) ++ tail)))[lead.length + 1]? =
      some high := by
    have read := @getElem?_behind (lead ++ [low]) (extension (matchLen - 4) ++ tail) high
    simpa only [List.append_assoc, List.singleton_append, List.length_append,
      List.length_singleton] using read
  rw [isOffset]
  simp only [List.append_assoc, List.cons_append, List.nil_append, List.length_append,
    List.length_cons, List.length_nil] at length ⊢
  rw [decodeMatch, first, second]
  simp only [Option.bind_eq_bind, Option.bind_some, value, taken]
  rw [tokenOf_match, ofNat_min_beq, toNat_ofNat_min, length]
  simp only [Option.bind_some]
  rw [if_pos ⟨by omega, by omega⟩, source, copyFrom_take inside behind agrees]
  simp only [Option.bind_some, Option.some.injEq, Decoded.next.injEq, and_true]
  omega

theorem length_literals (ordered : literalStart ≤ pos) (inside : pos ≤ x.length) :
    ((x.drop literalStart).take (pos - literalStart)).length = pos - literalStart := by
  rw [List.length_take, List.length_drop]
  omega

theorem take_append_literals (ordered : literalStart ≤ pos) :
    x.take literalStart ++ (x.drop literalStart).take (pos - literalStart) = x.take pos := by
  rw [← List.take_add, Nat.add_sub_cancel' ordered]

/-- A match with literals before it extends the prefix that is decoded. -/
theorem decodeToken_encodeMatch (literals : literalStart < pos) (behind : matchPos < pos)
    (near : pos - matchPos < 65535) (long : 4 ≤ matchLen) (inside : pos + matchLen ≤ x.length)
    (agrees : ∀ i < matchLen, x[matchPos + i]? = x[pos + i]?) :
    decodeToken (done ++ encodeMatch x literalStart pos matchPos matchLen ++ rest) x.length done.length
        (x.take literalStart) =
      some (.next (done ++ encodeMatch x literalStart pos matchPos matchLen).length
        (x.take (pos + matchLen))) := by
  have length := length_literals literals.le (show pos ≤ x.length by omega)
  have some_literals : (x.drop literalStart).take (pos - literalStart) ≠ [] := by
    rw [← List.length_pos_iff, length]
    omega
  have taken : (x.take literalStart).length = literalStart := List.length_take_of_le (by omega)
  have token := @decodeToken_literals done x.length (x.take literalStart)
    ((x.drop literalStart).take (pos - literalStart))
    (leBytes 2 (pos - matchPos) ++ extension (matchLen - 4) ++ rest) (matchLen - 4) some_literals
    (by omega)
  have copy := @decodeMatch_take pos matchPos matchLen x (pos - literalStart)
    (done ++ tokenOf (pos - literalStart) (matchLen - 4) :: (extension (pos - literalStart) ++
      (x.drop literalStart).take (pos - literalStart))) rest behind near long inside agrees
  rw [length, take_append_literals literals.le, if_neg] at token
  · rw [encodeMatch]
    simp only [List.append_assoc, List.cons_append] at token copy ⊢
    rw [token, copy]
  · simp only [List.length_append, length_leBytes]
    omega

/-- The literals at the end complete the text. -/
theorem decodeFrom_encodeLast (inside : literalStart ≤ x.length) :
    decodeFrom (done ++ encodeLast x literalStart) x.length done.length (x.take literalStart) =
      some x := by
  have taken : (x.take literalStart).length = literalStart := List.length_take_of_le inside
  by_cases rests : 0 < x.length - literalStart
  · have some_literals : x.drop literalStart ≠ [] := by
      rw [← List.length_pos_iff, List.length_drop]
      exact rests
    have token := @decodeToken_literals done x.length (x.take literalStart) (x.drop literalStart) [] 0
      some_literals (by rw [taken, List.length_drop]; omega)
    rw [List.append_nil, if_pos (by decide), List.take_append_drop, List.length_drop] at token
    rw [encodeLast]
    rw [if_pos rests]
    apply decodeFrom_stopped _ (by omega) token
    rw [List.length_append, List.length_cons]
    omega
  · have whole : x.length ≤ literalStart := by omega
    rw [encodeLast]
    rw [if_neg rests, List.append_nil, decodeFrom_finished le_rfl (by omega), List.take_of_length_le whole]

/-! ## Blocks -/

/-- A match of the encoder: where its literals start, and where it starts. -/
structure FoundMatch where
  literalStart : Nat
  pos : Nat

/-- The matches that the encoder finds from `pos` on. -/
def matchesFrom (src : Bytes) : Nat → Nat → Nat → (Nat → UInt16) → List FoundMatch
  | 0, _, _, _ => []
  | passes + 1, pos, literalStart, hashTable =>
      if pos + 4 ≤ src.length then
        let updated := Function.update hashTable (hashAt src pos) (UInt16.ofNat pos)
        match findMatch src hashTable pos with
        | some matchPos =>
            let matchLen := matchLength src pos matchPos
            ⟨literalStart, pos⟩ :: matchesFrom src passes (pos + matchLen) (pos + matchLen) updated
        | none => matchesFrom src passes (pos + 1) literalStart updated
      else []

/-- No match starts right where the one before it ended. -/
def MatchesApart (src : Bytes) : Prop :=
  ∀ found ∈ matchesFrom src src.length 0 0 fun _ => 0, found.literalStart < found.pos

instance (src : Bytes) : Decidable (MatchesApart src) := inferInstanceAs (Decidable (∀ _ ∈ _, _))

theorem decodeFrom_encodeFrom (ordered : literalStart ≤ pos) (inside : pos ≤ x.length) :
    decodeFrom (done ++ encodeFrom x passes pos literalStart hashTable) x.length done.length
        (x.take literalStart) = some x ↔
      ∀ found ∈ matchesFrom x passes pos literalStart hashTable, found.literalStart < found.pos := by
  induction passes generalizing done pos literalStart hashTable with
  | zero =>
    rw [encodeFrom, matchesFrom]
    exact iff_of_true (decodeFrom_encodeLast (by omega)) fun _ member => absurd member List.not_mem_nil
  | succ passes ih =>
    rw [encodeFrom, matchesFrom]
    split
    next room =>
      dsimp only
      cases found : findMatch x hashTable pos with
      | none => exact ih (by omega) (by omega)
      | some matchPos =>
        obtain ⟨behind, near, -, -⟩ := findMatch_eq_some found
        obtain ⟨long, within, agrees⟩ := matchLength_spec found
        have taken : (x.take literalStart).length = literalStart := List.length_take_of_le (by omega)
        have bytes : done.length < (done ++ (encodeMatch x literalStart pos matchPos
            (matchLength x pos matchPos) ++ encodeFrom x passes (pos + matchLength x pos matchPos)
            (pos + matchLength x pos matchPos)
            (Function.update hashTable (hashAt x pos) (UInt16.ofNat pos)))).length := by
          rw [encodeMatch, List.length_append, List.cons_append, List.length_cons]
          omega
        dsimp only
        rw [List.forall_mem_cons]
        by_cases literals : literalStart < pos
        · have token := @decodeToken_encodeMatch done (encodeFrom x passes
            (pos + matchLength x pos matchPos) (pos + matchLength x pos matchPos)
            (Function.update hashTable (hashAt x pos) (UInt16.ofNat pos))) pos matchPos literalStart
            (matchLength x pos matchPos) x literals behind near long within agrees
          rw [List.append_assoc] at token
          rw [decodeFrom_next bytes (by omega) token, ← List.append_assoc, and_iff_right literals]
          exact ih le_rfl within
        · have same : literalStart = pos := by omega
          subst same
          refine iff_of_false (fun whole => ?_) fun all => literals all.1
          rw [encodeMatch, Nat.sub_self, List.cons_append] at whole bytes
          rw [decodeFrom_stopped bytes (by omega) decodeToken_empty] at whole
          have lengths := congrArg List.length (Option.some.inj whole)
          omega
    next => exact iff_of_true (decodeFrom_encodeLast (by omega)) fun _ member => absurd member List.not_mem_nil

/-- The engine gives back what it was given. -/
def RoundTrips (minCompressSize : Nat) (x : Bytes) (type : CompressionType) : Prop :=
  let result := compress minCompressSize x type
  decompress result.data result.originalSize result.type = some x

/-- The engine stores the bytes as they are. -/
def StoredAsIs (minCompressSize : Nat) (x : Bytes) (type : CompressionType) : Prop :=
  type = .none ∨ x.length < minCompressSize ∨ x.length ≤ (lz4Compress x).length

/-- Bytes come back exactly when they are stored as they are or no two matches touch; and on
any input the decoder ends, has read inside it, and puts out no more than the length it was
given. -/
theorem roundTrips_iff (minCompressSize : Nat) (x : Bytes) (type : CompressionType) :
    (RoundTrips minCompressSize x type ↔ StoredAsIs minCompressSize x type ∨ MatchesApart x) ∧
    ∀ src originalLength, ∃ output, lz4Decompress src originalLength = some output ∧
      output.length ≤ originalLength := by
  refine ⟨?_, lz4Decompress_total⟩
  have block : lz4Decompress (lz4Compress x) x.length = some x ↔ MatchesApart x :=
    @decodeFrom_encodeFrom [] x.length 0 0 (fun _ => 0) x le_rfl (Nat.zero_le _)
  rw [RoundTrips, StoredAsIs, compress]
  by_cases plain : type = .none ∨ x.length < minCompressSize
  · rw [if_pos plain, ← or_assoc]
    exact iff_of_true rfl (.inl (.inl plain))
  · rw [if_neg plain]
    by_cases longer : x.length ≤ (lz4Compress x).length
    · rw [if_pos longer]
      exact iff_of_true rfl (.inl (.inr (.inr longer)))
    · obtain ⟨compressed, large⟩ := not_or.mp plain
      rw [if_neg longer, ← block]
      dsimp only
      rw [decompress, if_neg compressed]
      constructor
      · exact .inr
      · intro either
        rcases either with (isNone | small | notShorter) | decodes
        · exact absurd isNone compressed
        · exact absurd small large
        · exact absurd notShorter longer
        · exact decodes

/-- Eight letters, the last four of them, the first four, and sixty-four equal bytes: the match
of the first four letters starts where the one before it ends. -/
theorem roundTrips_touching : ¬∀ minCompressSize x type, RoundTrips minCompressSize x type := by
  intro all
  have run := all 64 ([97, 98, 99, 100, 101, 102, 103, 104, 101, 102, 103, 104, 97, 98, 99, 100] ++
    List.replicate 64 120) .lz4
  rw [RoundTrips] at run
  revert run
  decide +kernel

end PacificDb.Compression
