import DeltaCoding.Proofs.Match.Finder

namespace DeltaCoding.Match

/-- The edit makes enough bytes to be worth an instruction of its kind. -/
def Worthwhile : Edit → Prop
  | .add _ => True
  | .copy _ size => minMatch ≤ size
  | .run size _ => minRun ≤ size

namespace Search

variable {search : Search} {seen : Option TargetIndex} {literalStart pos place base : Nat}
  {bytes : Array UInt8} {stretch : Stretch} {h : UInt32}

theorem minMatch_le_of_compareAt
    (found : search.compareAt bytes base literalStart pos place = some stretch) :
    minMatch ≤ stretch.length := by
  simp only [compareAt] at found
  split at found
  · cases found
  · next long =>
    cases found
    have edit : minMatch ≤ maxEdit := by decide
    simp only
    omega

theorem minMatch_le_of_bestMatch?
    (found : search.bestMatch? seen literalStart pos h = some stretch) :
    minMatch ≤ stretch.length := by
  rcases mem_of_longest found with impossible | mem
  · cases impossible
  · simp only [matchesAt, List.mem_append, List.mem_filterMap, Option.mem_toList,
      Option.bind_eq_some_iff] at mem
    rcases mem with ⟨place, -, compared⟩ | ⟨place, -, compared⟩
    · exact minMatch_le_of_compareAt compared
    · exact minMatch_le_of_compareAt compared

theorem worthwhile_push_literal {edits : Array Edit} {stop : Nat} {e : Edit}
    (worth : ∀ e ∈ edits, Worthwhile e) (next : Worthwhile e) :
    ∀ e' ∈ (edits.push (search.literal literalStart stop)).push e, Worthwhile e' := by
  intro e' mem
  rcases Array.mem_push.1 mem with mem | rfl
  · rcases Array.mem_push.1 mem with mem | rfl
    · exact worth e' mem
    · exact trivial
  · exact next

/-- The scan adds no short edit to those that it has. -/
theorem worthwhile_scan {hash : Option UInt32} {edits : Array Edit}
    (worth : ∀ e ∈ edits, Worthwhile e) :
    ∀ e ∈ search.scan seen literalStart pos hash edits, Worthwhile e := by
  fun_induction scan search seen literalStart pos hash edits with
  | case1 seen literalStart pos hash edits hpos byte run long ih =>
    exact ih (worthwhile_push_literal worth long)
  | case2 seen literalStart pos hash edits hpos byte run short last ih => exact ih worth
  | case3 seen literalStart pos hash edits hpos byte run short more h stretch found next edits' ahead ih =>
    exact ih (worthwhile_push_literal worth (minMatch_le_of_bestMatch? found))
  | case4 seen literalStart pos hash edits hpos byte run short more h stretch found next edits' ahead =>
    exact worthwhile_push_literal worth (minMatch_le_of_bestMatch? found)
  | case5 seen literalStart pos hash edits hpos byte run short more h missing ih => exact ih worth
  | case6 seen literalStart pos hash edits hpos =>
    intro e mem
    rcases Array.mem_push.1 mem with mem | rfl
    · exact worth e mem
    · exact trivial

end Search

theorem worthwhile_findEdits {index : DictionaryIndex} {targetMatches : Bool}
    {target : Array UInt8} {e : Edit} (mem : e ∈ findEdits index targetMatches target) :
    Worthwhile e :=
  Search.worthwhile_scan (fun _ none => absurd none (Array.not_mem_empty _)) e
    (Array.mem_toList_iff.1 mem)

/-- The edits that are found for a target, carried out byte by byte, make the target, so that the scan
has come to its end. A COPY makes at least as many bytes as a match has, and starts before the byte
that is made next; a RUN makes at least as many as a run has; and all sizes fit their fields. -/
theorem findEdits_rebuilds (source : Array UInt8) (targetMatches : Bool) {target : Array UInt8}
    (size : target.size ≤ maxEdit) :
    Edit.replayAll source (findEdits (.ofDictionary source) targetMatches target) = target ∧
      ∀ before e after,
        findEdits (.ofDictionary source) targetMatches target = before ++ e :: after →
          e.size ≤ maxEdit ∧ Worthwhile e ∧
            ∀ address count, e = .copy address count →
              address < source.size + (Edit.replayAll source before).size := by
  have covers := covers_findEdits (.ofDictionary source) targetMatches size
  rw [DictionaryIndex.dictionary_ofDictionary] at covers
  refine ⟨Edit.replayAll_of_covers covers, fun before e after found => ?_⟩
  have worth : Worthwhile e := worthwhile_findEdits (found ▸ List.mem_append_right _ List.mem_cons_self)
  rw [found] at covers
  have next : e.Extends source target (Edit.replayAll source before).size :=
    Edit.extends_of_covers covers rfl
  refine ⟨?_, worth, ?_⟩
  · have inside := next.inside
    omega
  · rintro address count rfl
    have positive : 0 < count := Nat.lt_of_lt_of_le (by decide) worth
    exact next.before address count rfl positive

/-- The copies are extended backward into bytes that were passed, and overlap what they make. -/
theorem findEdits_rebuilds_overlapping :
    let source : Array UInt8 := (Array.range 64).map UInt8.ofNat
    let target : Array UInt8 := #[200] ++ source.extract 5 40 ++ Array.replicate 9 7 ++
      (Array.replicate 10 #[1, 2]).flatten
    let front : List Edit := [.add [200], .copy 5 35, .add [], .run 9 7, .add [1, 2]]
    target.size ≤ maxEdit ∧
      findEdits (.ofDictionary source) true target = front ++ [.copy 109 18, .add []] ∧
      Edit.replayAll source (front ++ [.copy 109 18, .add []]) = target ∧
      minMatch ≤ 18 ∧ 109 < source.size + (Edit.replayAll source front).size := by
  intro source target front
  have size : target.size ≤ maxEdit := by decide +kernel
  have found : findEdits (.ofDictionary source) true target = front ++ [.copy 109 18, .add []] := by
    decide +kernel
  obtain ⟨rebuilds, each⟩ := findEdits_rebuilds source true size
  obtain ⟨-, worth, before⟩ := each front _ _ found
  exact ⟨size, found, found ▸ rebuilds, worth, before 109 18 rfl⟩

end DeltaCoding.Match
