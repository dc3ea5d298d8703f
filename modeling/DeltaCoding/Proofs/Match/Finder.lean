import DeltaCoding.Match.Finder
import DeltaCoding.Proofs.Edit
import DeltaCoding.Proofs.Match.Compare

/-!
# Found edits make the target

Hashes only say where to look: a stretch becomes a COPY after it has been compared, so that whatever
an index holds, the edits that are found make the target (`covers_findEdits`). Of the positions of
the target that an index holds it matters that they have been passed, since no copy can start at or
behind the position that it is for.
-/

namespace DeltaCoding

namespace DictionaryIndex

theorem dictionary_addBlock (index : DictionaryIndex) (block : Nat) :
    (index.addBlock block).dictionary = index.dictionary := by
  obtain ⟨dictionary, buckets, chain⟩ := index
  rfl

@[simp] theorem dictionary_ofDictionary (dictionary : Array UInt8) :
    (ofDictionary dictionary).dictionary = dictionary := by
  have blocks (blocks : List Nat) (index : DictionaryIndex) :
      (blocks.foldl addBlock index).dictionary = index.dictionary := by
    induction blocks generalizing index with
    | nil => rfl
    | cons block rest ih => rw [List.foldl_cons, ih, dictionary_addBlock]
  exact blocks _ _

end DictionaryIndex

namespace TargetIndex

/-- Every position in the index is before `pos`. -/
def Before (index : TargetIndex) (pos : Nat) : Prop :=
  ∀ stored ∈ index.buckets, stored ≤ pos

variable {index : TargetIndex} {pos place : Nat} {h : UInt32}

theorem before_ofLength (length pos : Nat) : (ofLength length).Before pos := by
  intro stored mem
  rw [Array.eq_of_mem_replicate mem]
  exact Nat.zero_le pos

theorem Before.mono {pos' : Nat} (before : index.Before pos) (later : pos ≤ pos') :
    index.Before pos' :=
  fun stored mem => Nat.le_trans (before stored mem) later

theorem Before.insert (before : index.Before pos) : (index.insert h pos).Before (pos + 1) := by
  obtain ⟨buckets⟩ := index
  simp only [TargetIndex.insert]
  split
  · intro stored mem
    rcases Array.mem_or_eq_of_mem_setIfInBounds mem with old | rfl
    · exact Nat.le_succ_of_le (before stored old)
    · exact Nat.le_refl _
  · exact before.mono (Nat.le_succ pos)

theorem Before.lookup (before : index.Before pos) (found : index.lookup? h = some place) :
    place < pos := by
  simp only [lookup?] at found
  split at found
  · cases found
  · next stored =>
    cases found
    cases there : index.buckets[bucket h (index.buckets.size - 1)]? with
    | none => simp [there] at stored
    | some number =>
      have mem := Array.mem_of_getElem? there
      rw [there, Option.getD_some] at stored
      have bound := before number mem
      omega

end TargetIndex

namespace Match

namespace Search

variable {search : Search} {seen : Option TargetIndex} {literalStart pos place base : Nat}
  {bytes : Array UInt8} {stretch : Stretch} {h : UInt32}

/-- The stretch begins where no edit covers the target yet, goes beyond `pos`, and can be copied. -/
structure Sound (search : Search) (literalStart pos : Nat) (stretch : Stretch) : Prop where
  begins : literalStart ≤ stretch.start
  reaches : stretch.start ≤ pos ∧ pos < stretch.start + stretch.length
  copies : Edit.Extends search.index.dictionary search.target stretch.start
    (.copy stretch.address stretch.length)

/-- A stretch that has been compared agrees with the target, byte for byte. -/
theorem compareAt_spec (size : search.target.size ≤ maxEdit) (passed : literalStart ≤ pos)
    (found : search.compareAt bytes base literalStart pos place = some stretch) :
    ∃ back, back ≤ place ∧ literalStart + back ≤ pos ∧ stretch.start + back = pos ∧
      stretch.address = base + (place - back) ∧ back < stretch.length ∧
      place - back + stretch.length ≤ bytes.size ∧
      stretch.start + stretch.length ≤ search.target.size ∧
      ∀ k, k < stretch.length → bytes[place - back + k]? = search.target[stretch.start + k]? := by
  simp only [compareAt] at found
  split at found
  · cases found
  · next long =>
    cases found
    have positive : 0 < forward bytes search.target place pos maxEdit := by
      simp only [minMatch, blockSize] at long
      omega
    obtain ⟨inBytes, inTarget, sameAhead⟩ := forward_spec positive
    obtain ⟨limit, inPlace, inPos, sameBehind⟩ := @backward_spec bytes search.target place pos
      (pos - literalStart)
    generalize forward bytes search.target place pos maxEdit = ahead at *
    generalize backward bytes search.target place pos (pos - literalStart) = back at *
    have start : pos - back + back = pos := Nat.sub_add_cancel inPos
    -- Cutting the stretch at the longest edit does not cut it, since no target is longer.
    have whole : min (back + ahead) maxEdit = back + ahead := by omega
    have address : base + place - back = base + (place - back) := by omega
    rw [whole, address]
    refine ⟨back, inPlace, by omega, start, rfl, Nat.lt_add_of_pos_right positive, ?_, ?_,
      fun k bound => ?_⟩
    · simp only
      omega
    · simp only
      omega
    · simp only at bound ⊢
      by_cases backward : k < back
      · have same := sameBehind (back - 1 - k) (by omega)
        rwa [show place - 1 - (back - 1 - k) = place - back + k by omega,
          show pos - 1 - (back - 1 - k) = pos - back + k by omega] at same
      · have same := sameAhead (k - back) (by omega)
        rwa [show place + (k - back) = place - back + k by omega,
          show pos + (k - back) = pos - back + k by omega] at same

theorem sound_source (size : search.target.size ≤ maxEdit) (passed : literalStart ≤ pos)
    (found : search.compareAt search.index.dictionary 0 literalStart pos place = some stretch) :
    search.Sound literalStart pos stretch := by
  obtain ⟨back, inPlace, begins, start, address, reaches, there, inside, same⟩ :=
    compareAt_spec size passed found
  refine ⟨by omega, by omega, ?_⟩
  rw [address, Nat.zero_add]
  exact Edit.extends_copy_source inside there same

theorem sound_target (size : search.target.size ≤ maxEdit) (passed : literalStart ≤ pos)
    (earlier : place < pos) (found : search.compareAt search.target search.index.dictionary.size
      literalStart pos place = some stretch) : search.Sound literalStart pos stretch := by
  obtain ⟨back, inPlace, begins, start, address, reaches, there, inside, same⟩ :=
    compareAt_spec size passed found
  refine ⟨by omega, by omega, ?_⟩
  rw [address]
  exact Edit.extends_copy_target inside (by omega) same

theorem mem_of_longest {best : Option Stretch} {stretches : List Stretch}
    (found : stretches.foldl longer best = some stretch) :
    best = some stretch ∨ stretch ∈ stretches := by
  induction stretches generalizing best with
  | nil => exact .inl found
  | cons next rest ih =>
    rcases ih found with longest | mem
    · cases best with
      | none =>
        cases longest
        exact .inr (List.mem_cons_self ..)
      | some old =>
        simp only [longer] at longest
        split at longest
        · cases longest
          exact .inr (List.mem_cons_self ..)
        · exact .inl longest
    · exact .inr (List.mem_cons_of_mem next mem)

theorem sound_bestMatch? (size : search.target.size ≤ maxEdit) (passed : literalStart ≤ pos)
    (before : ∀ index ∈ seen, index.Before pos)
    (found : search.bestMatch? seen literalStart pos h = some stretch) :
    search.Sound literalStart pos stretch := by
  rcases mem_of_longest found with impossible | mem
  · cases impossible
  · simp only [matchesAt, List.mem_append, List.mem_filterMap, Option.mem_toList] at mem
    rcases mem with ⟨place, -, compared⟩ | mem
    · exact sound_source size passed compared
    · simp only [Option.bind_eq_some_iff] at mem
      obtain ⟨place, ⟨index, indexed, looked⟩, compared⟩ := mem
      exact sound_target size passed ((before index indexed).lookup looked) compared

theorem extends_literal {stop : Nat} (ordered : literalStart ≤ stop)
    (inside : stop ≤ search.target.size) : Edit.Extends search.index.dictionary search.target
      literalStart (search.literal literalStart stop) ∧
        literalStart + (search.literal literalStart stop).size = stop := by
  refine ⟨Edit.extends_add ordered inside, ?_⟩
  simp only [literal, Edit.size, Array.length_toList, Array.size_extract]
  omega

theorem covers_push_literal {edits : Array Edit} {stop : Nat} {e : Edit}
    (covers : Edit.Covers search.index.dictionary search.target 0 edits.toList literalStart)
    (ordered : literalStart ≤ stop) (inside : stop ≤ search.target.size)
    (next : Edit.Extends search.index.dictionary search.target stop e) :
    Edit.Covers search.index.dictionary search.target 0
      ((edits.push (search.literal literalStart stop)).push e).toList (stop + e.size) := by
  obtain ⟨literal, ends⟩ := @extends_literal search literalStart stop ordered inside
  have pushed := Edit.covers_push covers literal
  rw [ends] at pushed
  exact Edit.covers_push pushed next

/-- The invariant of the scan: the edits so far cover the target up to `literalStart`. -/
theorem covers_scan {hash : Option UInt32} {edits : Array Edit}
    (size : search.target.size ≤ maxEdit)
    (covers : Edit.Covers search.index.dictionary search.target 0 edits.toList literalStart)
    (passed : literalStart ≤ pos) (inside : pos ≤ search.target.size)
    (before : ∀ index ∈ seen, index.Before pos) :
    Edit.Covers search.index.dictionary search.target 0
      (search.scan seen literalStart pos hash edits).toList search.target.size := by
  fun_induction scan search seen literalStart pos hash edits with
  | case1 seen literalStart pos hash edits hpos byte run long ih =>
    have same := @runLength_spec pos maxEdit search.target byte
    have positive : 0 < run := Nat.lt_of_lt_of_le (by decide) long
    have inside : pos + run ≤ search.target.size := by
      have last := same (run - 1) (Nat.sub_lt positive Nat.one_pos)
      obtain ⟨bound, -⟩ := Array.getElem?_eq_some_iff.1 last
      omega
    refine ih (covers_push_literal covers passed (Nat.le_of_lt hpos) (Edit.extends_run inside same))
      (Nat.le_refl _) inside fun index indexed => ?_
    exact (before index indexed).mono (Nat.le_add_right _ _)
  | case2 seen literalStart pos hash edits hpos byte run short last ih =>
    exact ih covers (Nat.le_succ_of_le passed) hpos fun index indexed =>
      (before index indexed).mono (Nat.le_succ pos)
  | case3 seen literalStart pos hash edits hpos byte run short more h stretch found next edits' ahead ih =>
    obtain ⟨begins, reaches, copies⟩ := sound_bestMatch? size passed before found
    refine ih (covers_push_literal covers begins (by omega) copies) (Nat.le_refl _) copies.inside
      fun index indexed => (before index indexed).mono (Nat.le_of_lt ahead)
  | case4 seen literalStart pos hash edits hpos byte run short more h stretch found next edits' ahead =>
    obtain ⟨begins, reaches, copies⟩ := sound_bestMatch? size passed before found
    -- A stretch that does not go beyond the current position is never found.
    exact absurd reaches.2 ahead
  | case5 seen literalStart pos hash edits hpos byte run short more h missing ih =>
    apply ih covers (Nat.le_succ_of_le passed) hpos
    intro index indexed
    obtain ⟨old, earlier, rfl⟩ := Option.map_eq_some_iff.1 indexed
    exact (before old earlier).insert
  | case6 seen literalStart pos hash edits hpos =>
    obtain ⟨literal, ends⟩ := @extends_literal search literalStart search.target.size (by omega)
      (Nat.le_refl _)
    have pushed := Edit.covers_push covers literal
    rwa [ends] at pushed

/-! ## Targets of one byte -/

theorem scan_uniform {byte : UInt8} {run : Nat} {hash : Option UInt32} {edits : Array Edit}
    (uniform : ∀ b ∈ search.target, b = byte)
    (counted : min maxEdit (search.target.size - pos) = run) (long : minRun ≤ run) :
    search.scan seen literalStart pos hash edits =
      search.scan seen (pos + run) (pos + run) none
        ((edits.push (search.literal literalStart pos)).push (.run run byte)) := by
  have inside : pos < search.target.size := by
    simp only [minRun] at long
    omega
  have same : search.target[pos] = byte := uniform _ (Array.getElem_mem inside)
  rw [scan, dif_pos inside]
  simp only [same, runLength_uniform uniform, counted]
  rw [if_pos long]

theorem scan_short {hash : Option UInt32} {edits : Array Edit}
    (short : search.target.size < pos + minRun) :
    search.scan seen literalStart pos hash edits =
      edits.push (search.literal literalStart search.target.size) := by
  have block : minRun ≤ blockSize := by decide
  fun_induction scan search seen literalStart pos hash edits with
  | case1 seen literalStart pos hash edits inside byte run long =>
    have last := runLength_spec (run - 1) (show run - 1 < run by simp only [minRun] at long; omega)
    obtain ⟨bound, -⟩ := Array.getElem?_eq_some_iff.1 last
    omega
  | case2 seen literalStart pos hash edits inside byte run few last ih => exact ih (by omega)
  | case3 seen literalStart pos hash edits inside byte run few room =>
    exact absurd (show pos + blockSize > search.target.size by omega) room
  | case4 seen literalStart pos hash edits inside byte run few room =>
    exact absurd (show pos + blockSize > search.target.size by omega) room
  | case5 seen literalStart pos hash edits inside byte run few room =>
    exact absurd (show pos + blockSize > search.target.size by omega) room
  | case6 => rfl

end Search

theorem findEdits_uniform (index : DictionaryIndex) (targetMatches : Bool) {byte : UInt8}
    {target : Array UInt8} (uniform : ∀ b ∈ target, b = byte) (size : target.size = maxEdit + 1) :
    findEdits index targetMatches target = [.add [], .run maxEdit byte, .add [byte]] := by
  have counted : min maxEdit (target.size - 0) = maxEdit := by omega
  have short : target.size < 0 + maxEdit + minRun := by
    simp only [minRun]
    omega
  have last : maxEdit < target.size := by omega
  have literal : target.extract maxEdit target.size = #[byte] := by
    rw [size, Array.extract_succ_right (Nat.lt_succ_self _) last,
      uniform _ (Array.getElem_mem last), Array.extract_eq_empty_of_le (Nat.min_le_left _ _)]
    rfl
  simp only [findEdits]
  rw [Search.scan_uniform uniform counted (by decide), Search.scan_short short]
  simp only [Search.literal, Nat.zero_add, literal]
  simp

/-- The edits that are found for a target make it, whatever dictionary is indexed. -/
theorem covers_findEdits (index : DictionaryIndex) (targetMatches : Bool) {target : Array UInt8}
    (size : target.size ≤ maxEdit) :
    Edit.Covers index.dictionary target 0 (findEdits index targetMatches target) target.size := by
  apply @Search.covers_scan ⟨index, target⟩ _ 0 0 none #[] size rfl (Nat.le_refl 0) (Nat.zero_le _)
  intro seen indexed
  cases targetMatches with
  | false => cases indexed
  | true =>
    cases indexed
    exact TargetIndex.before_ofLength _ _

end Match

end DeltaCoding
