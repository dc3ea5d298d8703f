import DeltaCoding.Match.Finder
import DeltaCoding.Proofs.Match.RollingHash
import Mathlib.Logic.Relation

/-!
# Looking up true hashes

A scan carries the hash of its position along if it can, and hashes afresh if it cannot. A stale hash
would show nowhere: it would only find other matches, or none. `Search.step` is one pass of the scan,
in which the hash that is looked up is in sight (`Search.lookup?`), and `Search.scan_step` says that
scans go step by step. However a scan has come to a position, what it looks up there is the hash of
the bytes at that position (`lookups_true`).
-/

namespace DeltaCoding.Match

/-- How far a scan has come. -/
structure ScanState where
  seen : Option TargetIndex
  literalStart : Nat
  pos : Nat
  /-- The hash that is carried along. -/
  hash : Option UInt32
  edits : Array Edit

/-- What a pass of a scan leads to. -/
inductive ScanStep where
  | next (s : ScanState)
  | done (edits : Array Edit)

/-- A scan that starts at the front of a target. -/
def ScanState.start (targetMatches : Bool) (target : Array UInt8) : ScanState :=
  ⟨if targetMatches then some (TargetIndex.ofLength target.size) else none, 0, 0, none, #[]⟩

namespace Search

variable {search : Search} {s s' : ScanState} {h : UInt32}

/-- What the scan comes to from a state on. -/
def finish (search : Search) (s : ScanState) : Array Edit :=
  search.scan s.seen s.literalStart s.pos s.hash s.edits

/-- The hash that matches are looked up by, unless there is a run, or no room for a match. -/
def lookup? (search : Search) (s : ScanState) : Option UInt32 :=
  if hpos : s.pos < search.target.size then
    if runLength search.target search.target[s.pos] s.pos maxEdit ≥ minRun then none
    else if s.pos + blockSize > search.target.size then none
    else some (s.hash.getD (RollingHash.standard.hashAt search.target s.pos))
  else none

/-- Behind a match that has been looked up by `h`, or without one. -/
def afterLookup (search : Search) (s : ScanState) (h : UInt32) : ScanStep :=
  match search.bestMatch? s.seen s.literalStart s.pos h with
  | some stretch =>
    let next := stretch.start + stretch.length
    let edits := (s.edits.push (search.literal s.literalStart stretch.start)).push
      (.copy stretch.address stretch.length)
    if s.pos < next then .next ⟨s.seen, next, next, none, edits⟩ else .done edits
  | none =>
    .next ⟨s.seen.map (·.insert h s.pos), s.literalStart, s.pos + 1, search.nextHash s.pos h, s.edits⟩

/-- One pass of a scan. -/
def step (search : Search) (s : ScanState) : ScanStep :=
  if hpos : s.pos < search.target.size then
    let byte := search.target[s.pos]
    let run := runLength search.target byte s.pos maxEdit
    if run ≥ minRun then
      .next ⟨s.seen, s.pos + run, s.pos + run, none,
        (s.edits.push (search.literal s.literalStart s.pos)).push (.run run byte)⟩
    else
      match search.lookup? s with
      | none => .next { s with pos := s.pos + 1 }
      | some h => search.afterLookup s h
  else .done (s.edits.push (search.literal s.literalStart search.target.size))

theorem scan_step (search : Search) (s : ScanState) : search.finish s =
    match search.step s with
    | .next s' => search.finish s'
    | .done edits => edits := by
  obtain ⟨seen, literalStart, pos, hash, edits⟩ := s
  rw [finish, scan]
  simp only [step, lookup?]
  split
  · split
    · rfl
    · split
      · rfl
      · simp only [afterLookup]
        cases found : search.bestMatch? seen literalStart pos
          (hash.getD (RollingHash.standard.hashAt search.target pos)) with
        | none => rfl
        | some stretch =>
          simp only
          split <;> rfl
  · rfl

/-- The scan comes from `s` to `s'`. -/
def Reaches (search : Search) : ScanState → ScanState → Prop :=
  Relation.ReflTransGen fun s s' => search.step s = .next s'

theorem Reaches.refl : search.Reaches s s :=
  Relation.ReflTransGen.refl

theorem Reaches.later {s'' : ScanState} (reaches : search.Reaches s s')
    (stepped : search.step s' = .next s'') : search.Reaches s s'' :=
  Relation.ReflTransGen.tail reaches stepped

theorem finish_reaches (reaches : search.Reaches s s') : search.finish s = search.finish s' := by
  induction reaches with
  | refl => rfl
  | tail before stepped ih => rw [ih, scan_step, stepped]

/-! ## The hash that is carried along -/

/-- Where there is room for a match, a hash that is carried along is the hash of the position. -/
def Fresh (search : Search) (s : ScanState) : Prop :=
  s.pos + blockSize ≤ search.target.size → ∀ h ∈ s.hash,
    h = RollingHash.standard.hash (search.target.toList.drop s.pos)

theorem hashAt_eq (bytes : Array UInt8) (start : Nat) : RollingHash.standard.hashAt bytes start =
    RollingHash.standard.hash (bytes.toList.drop start) := by
  rw [RollingHash.hashAt, Array.toList_extract, List.extract_eq_take_drop, Nat.add_sub_cancel_left]
  exact RollingHash.hash_take blockSize _

theorem fresh_none {seen : Option TargetIndex} {literalStart pos : Nat} {edits : Array Edit} :
    search.Fresh ⟨seen, literalStart, pos, none, edits⟩ := by
  rintro - h ⟨⟩

/-- What is looked up is the hash of the position, whether it is carried along or not. -/
theorem lookup?_of_fresh (fresh : search.Fresh s) (looked : search.lookup? s = some h) :
    s.pos + blockSize ≤ search.target.size ∧
      h = RollingHash.standard.hash (search.target.toList.drop s.pos) := by
  simp only [lookup?] at looked
  split at looked
  · split at looked
    · cases looked
    · split at looked
      · cases looked
      · next room =>
        have room := Nat.le_of_not_gt room
        refine ⟨room, ?_⟩
        cases carried : s.hash with
        | none =>
          rw [carried] at looked
          rw [← Option.some.inj looked]
          exact hashAt_eq _ _
        | some carriedHash =>
          rw [carried] at looked
          rw [← Option.some.inj looked]
          exact fresh room _ carried
  · cases looked

theorem nextHash_fresh {pos : Nat} {next : UInt32}
    (fresh : h = RollingHash.standard.hash (search.target.toList.drop pos))
    (rolled : search.nextHash pos h = some next) :
    next = RollingHash.standard.hash (search.target.toList.drop (pos + 1)) := by
  simp only [nextHash] at rolled
  split at rolled
  · next oldest newest first last =>
    rw [← Array.getElem?_toList] at first last
    rw [← Option.some.inj rolled, fresh]
    exact RollingHash.roll_hash_drop (by decide) first last
  · cases rolled

theorem fresh_step (fresh : search.Fresh s) (stepped : search.step s = .next s') :
    search.Fresh s' := by
  simp only [step] at stepped
  split at stepped
  · next inside =>
    split at stepped
    · cases stepped
      exact fresh_none
    · next short =>
      cases looked : search.lookup? s with
      | none =>
        rw [looked] at stepped
        cases stepped
        intro room
        simp only [lookup?, dif_pos inside, if_neg short] at looked
        split at looked
        · simp only at room
          omega
        · cases looked
      | some h =>
        obtain ⟨-, rfl⟩ := lookup?_of_fresh fresh looked
        rw [looked] at stepped
        simp only [afterLookup] at stepped
        split at stepped
        · split at stepped
          · cases stepped
            exact fresh_none
          · cases stepped
        · cases stepped
          exact fun _ next rolled => nextHash_fresh rfl rolled
  · cases stepped

theorem fresh_reaches (fresh : search.Fresh s) (reaches : search.Reaches s s') :
    search.Fresh s' := by
  induction reaches with
  | refl => exact fresh
  | tail before stepped ih => exact fresh_step ih stepped

end Search

/-- Whatever is indexed, and however a scan of a target has come to a position, the hash by which it
looks up matches there is that of the block of bytes at this position. And rolling a hash along a byte
string, in windows of any width, meets the hash of every window. -/
theorem lookups_true :
    (∀ (index : DictionaryIndex) (targetMatches : Bool) (target : Array UInt8) (s : ScanState),
      Search.Reaches ⟨index, target⟩ (.start targetMatches target) s →
        findEdits index targetMatches target = (Search.finish ⟨index, target⟩ s).toList ∧
        (Search.finish ⟨index, target⟩ s = match Search.step ⟨index, target⟩ s with
          | .next s' => Search.finish ⟨index, target⟩ s'
          | .done edits => edits) ∧
        ∀ h, Search.lookup? ⟨index, target⟩ s = some h → s.pos + blockSize ≤ target.size ∧
          h = RollingHash.standard.hash ((target.toList.drop s.pos).take blockSize)) ∧
    ∀ (width : Nat) (bytes : List UInt8), 0 < width → width ≤ bytes.length →
      (RollingHash.ofWidth width).hashes? bytes =
        some ((List.range (bytes.length - width + 1)).map fun pos =>
          (RollingHash.ofWidth width).hash ((bytes.drop pos).take width)) := by
  refine ⟨fun index targetMatches target s reaches =>
    ⟨?_, Search.scan_step _ s, fun h looked => ?_⟩,
    fun width bytes positive room => RollingHash.hashes?_eq positive room⟩
  · rw [← Search.finish_reaches reaches]
    rfl
  · obtain ⟨room, rfl⟩ := Search.lookup?_of_fresh (Search.fresh_reaches Search.fresh_none reaches)
      looked
    exact ⟨room, (RollingHash.hash_take blockSize _).symm⟩

/-- A run, and the hashes at two positions behind it, the first one afresh and the second one rolled.
The other byte string has two windows. -/
theorem lookups_true_run :
    let target : Array UInt8 := #[97, 97, 97, 97, 97, 97, 97, 97, 0, 1, 2, 3, 4, 5, 6, 7, 8, 9, 10, 11,
      12, 13, 14, 15, 16, 17]
    let search : Search := ⟨.ofDictionary #[], target⟩
    (∃ s h, search.Reaches (.start true target) s ∧ s.pos = 9 ∧ s.hash = some h ∧
      search.lookup? s = some h ∧
        h = RollingHash.standard.hash [1, 2, 3, 4, 5, 6, 7, 8, 9, 10, 11, 12, 13, 14, 15, 16]) ∧
    (RollingHash.ofWidth 4).hashes? [1, 2, 3, 4, 5] =
      some [(RollingHash.ofWidth 4).hash [1, 2, 3, 4], (RollingHash.ofWidth 4).hash [2, 3, 4, 5]] := by
  intro target search
  have first : search.step (.start true target) =
      .next ⟨some (.ofLength 26), 8, 8, none, #[.add [], .run 8 97]⟩ := by cbv
  have second : search.step ⟨some (.ofLength 26), 8, 8, none, #[.add [], .run 8 97]⟩ =
      .next ⟨some ((TargetIndex.ofLength 26).insert 1978488 8), 8, 9, some 5154952,
        #[.add [], .run 8 97]⟩ := by cbv
  have reaches := (Search.Reaches.refl.later first).later second
  have looked : search.lookup? ⟨some ((TargetIndex.ofLength 26).insert 1978488 8), 8, 9,
      some 5154952, #[.add [], .run 8 97]⟩ = some 5154952 := by cbv
  refine ⟨⟨_, _, reaches, rfl, rfl, looked, ?_⟩, ?_⟩
  · exact ((lookups_true.1 _ true target _ reaches).2.2 _ looked).2
  · exact lookups_true.2 4 [1, 2, 3, 4, 5] (by decide) (by decide)

end DeltaCoding.Match
