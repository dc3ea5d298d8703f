import DeltaCoding.Edit
import DeltaCoding.Match.Compare
import DeltaCoding.Match.Index

/-!
# Finding edits

A target is turned into edits in one pass. At each position a run of one byte comes first. Otherwise
the hash of the next block's worth of bytes names places in the source, and perhaps one in the
target itself, where the same bytes may stand. Each place is compared, forward and then backward
into the bytes that no edit covers yet, and the longest match becomes a COPY. Where there is neither
run nor match, the position is passed and its byte will be part of an ADD.
-/

namespace DeltaCoding.Match

def minMatch : Nat := blockSize

def minRun : Nat := 8

def maxEdit : Nat := 0x7FFFFFFF

/-- A stretch of the target whose bytes stand at an address. -/
structure Stretch where
  start : Nat
  length : Nat
  address : Nat
deriving DecidableEq

/-- What a target is compared with. -/
structure Search where
  index : DictionaryIndex
  target : Array UInt8

namespace Search

/-- Compares the target at `pos` with index `place` of `bytes`, whose first byte has the address
`base`. Going backward, no byte before `literalStart` is taken in. -/
def compareAt (search : Search) (bytes : Array UInt8) (base literalStart pos place : Nat) :
    Option Stretch :=
  let ahead := forward bytes search.target place pos maxEdit
  if ahead < minMatch then none
  else
    let back := backward bytes search.target place pos (pos - literalStart)
    some ⟨pos - back, min (back + ahead) maxEdit, base + place - back⟩

/-- The longer stretch, the earlier one of two that are equally long. -/
def longer (best : Option Stretch) (next : Stretch) : Option Stretch :=
  match best with
  | none => some next
  | some stretch => if stretch.length < next.length then some next else some stretch

/-- The matches at `pos`: those in the source, then the one in the target. -/
def matchesAt (search : Search) (seen : Option TargetIndex) (literalStart pos : Nat) (h : UInt32) :
    List Stretch :=
  let source := search.index.dictionary
  (search.index.candidates h).filterMap (search.compareAt source 0 literalStart pos) ++
    ((seen.bind (·.lookup? h)).bind
      (search.compareAt search.target source.size literalStart pos)).toList

def bestMatch? (search : Search) (seen : Option TargetIndex) (literalStart pos : Nat) (h : UInt32) :
    Option Stretch :=
  (search.matchesAt seen literalStart pos h).foldl longer none

def literal (search : Search) (start stop : Nat) : Edit :=
  .add (search.target.extract start stop).toList

def nextHash (search : Search) (pos : Nat) (h : UInt32) : Option UInt32 :=
  match search.target[pos]?, search.target[pos + blockSize]? with
  | some oldest, some newest => some (RollingHash.standard.roll h oldest newest)
  | _, _ => none

/-- The edits for the target from `literalStart` on, appended to `edits`. The bytes from
`literalStart` to `pos` have been passed. `h` is the hash at `pos`, if it is known. `seen` indexes
the positions passed, if matches within the target are wanted. -/
def scan (search : Search) (seen : Option TargetIndex) (literalStart pos : Nat) (h : Option UInt32)
    (edits : Array Edit) : Array Edit :=
  if hpos : pos < search.target.size then
    let byte := search.target[pos]
    let run := runLength search.target byte pos maxEdit
    -- A run comes before any match, however long the match is.
    if run ≥ minRun then
      scan search seen (pos + run) (pos + run) none
        ((edits.push (search.literal literalStart pos)).push (.run run byte))
    -- At the end of the target there are no matches, but there may be a run.
    else if pos + blockSize > search.target.size then
      scan search seen literalStart (pos + 1) h edits
    else
      let hash := h.getD (RollingHash.standard.hashAt search.target pos)
      match search.bestMatch? seen literalStart pos hash with
      | some stretch =>
        let next := stretch.start + stretch.length
        let edits := (edits.push (search.literal literalStart stretch.start)).push
          (.copy stretch.address stretch.length)
        -- A match covers `pos`, so that the scan moves on behind it.
        if pos < next then scan search seen next next none edits
        else edits
      | none =>
        scan search (seen.map (·.insert hash pos)) literalStart (pos + 1)
          (search.nextHash pos hash) edits
  else edits.push (search.literal literalStart search.target.size)
termination_by search.target.size - pos
decreasing_by
  · have long : minRun ≤ runLength search.target search.target[pos] pos maxEdit := by assumption
    simp only [minRun] at long
    omega
  · omega
  · omega
  · omega

end Search

/-- The edits that make `target` from an indexed source. With `targetMatches`, copies may also start
in the target itself. -/
def findEdits (index : DictionaryIndex) (targetMatches : Bool) (target : Array UInt8) : List Edit :=
  let seen := if targetMatches then some (TargetIndex.ofLength target.size) else none
  (Search.scan ⟨index, target⟩ seen 0 0 none #[]).toList

end DeltaCoding.Match
