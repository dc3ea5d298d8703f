import DeltaCoding.Proofs.Edit
import DeltaCoding.Proofs.Header.Reading
import DeltaCoding.Window.Copy

/-!
# Copying in blocks

A decoder copies in blocks, first from the source segment and then from the target, whose bytes so
far double while a pattern is repeated. The result is that of copying one byte after the other
(`AddressSpace.copy?_eq`): a block never reaches beyond the bytes that are there when it is copied,
and such a block can be copied at once (`replayCopy_source`, `replayCopy_target`).

`AddressSpace.copyBytes?` is the loop that looks up each byte anew in the segment and the output of
the window, the bytes that it has just appended included. Copying in blocks is the same
(`AddressSpace.copy?_bytewise`).
-/

namespace DeltaCoding

theorem SourceSegment.Within.grow {segment : SourceSegment} {dictionarySize decoded size : Nat}
    {allowTarget : Bool} (within : segment.Within dictionarySize decoded allowTarget)
    (grown : decoded ≤ size) : segment.Within dictionarySize size true := by
  cases segment with
  | none => trivial
  | dictionary position length => exact within
  | target position length => exact ⟨rfl, Nat.le_trans within.2 grown⟩

namespace AddressSpace

/-- The bytes of the source segment, given the target of earlier windows. -/
def source (space : AddressSpace) (history : Array UInt8) : Array UInt8 :=
  match space.segment with
  | .none => #[]
  | .dictionary position length => space.dictionary.extract position (position + length)
  | .target position length => history.extract position (position + length)

/-- The source segment lies within the dictionary or the target of earlier windows. -/
def Within (space : AddressSpace) : Prop :=
  ∃ allowTarget, space.segment.Within space.dictionary.size space.windowStart allowTarget

/-- The source segment lies within the dictionary or the bytes of the target so far. -/
def SegmentWithin (space : AddressSpace) (target : Array UInt8) : Prop :=
  space.segment.Within space.dictionary.size target.size true

variable {space : AddressSpace} {history out : Array UInt8} {address index count size : Nat}
  {target : Array UInt8}

theorem Within.segmentWithin (within : space.Within) (starts : space.windowStart ≤ target.size) :
    space.SegmentWithin target := by
  obtain ⟨allowTarget, within⟩ := within
  exact within.grow starts

theorem appendRange?_eq {source : Array UInt8} {position length : Nat}
    (within : position + length ≤ source.size) (inside : address + count ≤ length) :
    appendRange? target source (position + address) count =
      some (target ++
        (source.extract position (position + length)).extract address (address + count)) := by
  rw [appendRange?, if_pos (by omega), Array.extract_extract, Nat.min_eq_left (by omega),
    Nat.add_assoc]

namespace SegmentWithin

theorem size_source (within : space.SegmentWithin target) :
    (space.source target).size = space.segment.length := by
  unfold SegmentWithin at within
  cases segment : space.segment with
  | none =>
    simp only [AddressSpace.source, segment]
    rfl
  | dictionary position length =>
    simp only [segment, SourceSegment.Within] at within
    simp only [AddressSpace.source, segment, SourceSegment.length, Array.size_extract]
    omega
  | target position length =>
    simp only [segment, SourceSegment.Within] at within
    simp only [AddressSpace.source, segment, SourceSegment.length, Array.size_extract]
    omega

theorem source_append (within : space.SegmentWithin target) (more : Array UInt8) :
    space.source (target ++ more) = space.source target := by
  unfold SegmentWithin at within
  simp only [AddressSpace.source]
  cases segment : space.segment with
  | none => rfl
  | dictionary position length => rfl
  | target position length =>
    simp only [segment, SourceSegment.Within] at within
    have behind : more.extract (position - target.size) (position + length - target.size) = #[] :=
      Array.extract_eq_empty_of_le (by omega)
    simp only
    rw [Array.extract_append, behind, Array.append_empty]

theorem append (within : space.SegmentWithin target) (more : Array UInt8) :
    space.SegmentWithin (target ++ more) :=
  within.grow (by rw [Array.size_append]; exact Nat.le_add_right _ _)

theorem copySegment?_eq (within : space.SegmentWithin (history ++ out))
    (inside : address + count ≤ space.segment.length) :
    space.copySegment? (history ++ out) address count =
      some (history ++ Edit.replayCopy (space.source (history ++ out)) out address count) := by
  rw [Edit.replayCopy_source (by rw [within.size_source]; exact inside), ← Array.append_assoc]
  unfold SegmentWithin at within
  simp only [copySegment?, AddressSpace.source]
  cases segment : space.segment with
  | none => simp
  | dictionary position length =>
    rw [segment] at within inside
    exact appendRange?_eq within inside
  | target position length =>
    rw [segment] at within inside
    exact appendRange?_eq within.2 inside

end SegmentWithin

theorem size_source (within : space.Within) (starts : history.size = space.windowStart) :
    (space.source history).size = space.segment.length :=
  (within.segmentWithin (Nat.le_of_eq starts.symm)).size_source

/-- Behind the segment each block is as long as the bytes at hand allow. -/
theorem copyTarget?_eq (source : Array UInt8) (start : count = 0 ∨ index < out.size) :
    copyTarget? (history ++ out) (history.size + index) count =
      some (history ++ Edit.replayCopy source out (source.size + index) count) := by
  -- By the bytes left to copy. A block is not empty, since the copy starts behind what is there.
  induction count using Nat.strongRecOn generalizing out index with
  | ind count ih =>
    rw [copyTarget?]
    by_cases done : count = 0
    · subst done
      rfl
    · have start : index < out.size := by omega
      rw [if_neg done, if_pos (by rw [Array.size_append]; omega)]
      simp only [Array.size_append]
      generalize hblock : min count (history.size + out.size - (history.size + index)) = block
      have inside : index + block ≤ out.size := by omega
      have copied : history ++ out ++ (history ++ out).extract (history.size + index)
          (history.size + index + block) =
            history ++ Edit.replayCopy source out (source.size + index) block := by
        rw [Edit.replayCopy_target inside, Array.append_assoc, Array.extract_append,
          Array.extract_eq_empty_of_le (by omega), Array.empty_append]
        congr 3 <;> omega
      rw [copied, Nat.add_assoc, ih (count - block) (by omega)
        (by rw [Edit.size_replayCopy]; omega), ← Nat.add_assoc, ← Edit.replayCopy_add,
        Nat.add_sub_cancel' (by omega)]

/-- A copy from an address before the current position has an answer: the bytes that copying them
one by one gives. -/
theorem SegmentWithin.copy?_eq (within : space.SegmentWithin (history ++ out))
    (starts : history.size = space.windowStart)
    (before : address < space.segment.length + out.size) :
    space.copy? (history ++ out) address size =
      some (history ++ Edit.replayCopy (space.source (history ++ out)) out address size) := by
  have sourceSize := within.size_source
  simp only [copy?]
  by_cases inSegment : address < space.segment.length
  · generalize hcount : min size (space.segment.length - address) = count
    rw [if_pos inSegment, within.copySegment?_eq (by omega)]
    simp only [Option.bind_eq_bind, Option.bind_some]
    generalize hindex : address + count - space.segment.length = index
    rw [← starts, copyTarget?_eq (space.source (history ++ out))
      (by rw [Edit.size_replayCopy]; omega), sourceSize]
    by_cases rest : size - count = 0
    · rw [rest, show size = count by omega]
      rfl
    · -- The copy goes on at the start of the window.
      rw [show space.segment.length + index = address + count by omega, ← Edit.replayCopy_add,
        Nat.add_sub_cancel' (by omega)]
  · rw [if_neg inSegment]
    simp only [Option.bind_eq_bind, Option.bind_some]
    rw [show min size (space.segment.length - address) = 0 by omega, ← starts,
      copyTarget?_eq (space.source (history ++ out)) (by omega), sourceSize]
    simp only [Nat.add_zero, Nat.sub_zero]
    rw [show space.segment.length + (address - space.segment.length) = address by omega]

theorem copy?_eq (within : space.Within) (starts : history.size = space.windowStart)
    (before : address < space.segment.length + out.size) :
    space.copy? (history ++ out) address size =
      some (history ++ Edit.replayCopy (space.source history) out address size) := by
  have segmentWithin := within.segmentWithin (Nat.le_of_eq starts.symm)
  rw [(segmentWithin.append out).copy?_eq starts before, segmentWithin.source_append]

theorem exists_history {windowStart : Nat} (starts : windowStart ≤ target.size) :
    ∃ history out : Array UInt8, history.size = windowStart ∧ target = history ++ out := by
  refine ⟨target.extract 0 windowStart, target.extract windowStart target.size, ?_, ?_⟩
  · rw [Array.size_extract]
    omega
  · rw [Array.extract_append_extract, Nat.min_eq_left (Nat.zero_le _), Nat.max_eq_right starts,
      Array.extract_size]

theorem copy?_size (within : space.Within)
    (starts : space.windowStart ≤ target.size)
    (before : address < space.segment.length + (target.size - space.windowStart)) :
    ∃ target', space.copy? target address size = some target' ∧
      target'.size = target.size + size := by
  obtain ⟨history, out, historySize, rfl⟩ := exists_history starts
  rw [Array.size_append, historySize, Nat.add_sub_cancel_left] at before
  refine ⟨_, copy?_eq within historySize before, ?_⟩
  rw [Array.size_append, Array.size_append, Edit.size_replayCopy, Nat.add_assoc]

/-! ## One byte at a time -/

/-- The bytes that addresses refer to: the source segment, and then the output of the window. -/
def content (space : AddressSpace) (target : Array UInt8) : Array UInt8 :=
  space.source target ++ target.extract space.windowStart target.size

/-- Appends the byte at the next address, `count` times. -/
def copyBytes? (space : AddressSpace) (target : Array UInt8) (address : Nat) :
    (count : Nat) → Option (Array UInt8)
  | 0 => some target
  | count + 1 =>
    match (space.content target)[address]? with
    | some byte => space.copyBytes? (target.push byte) (address + 1) count
    | none => none

theorem content_append (starts : history.size = space.windowStart) :
    space.content (history ++ out) = space.source (history ++ out) ++ out := by
  rw [content, ← starts, Array.size_append, Array.extract_append_right, Array.extract_size]

theorem exists_of_copyBytes? {copied : Array UInt8}
    (h : space.copyBytes? target address count = some copied) :
    ∃ appended : Array UInt8, appended.size = count ∧ copied = target ++ appended := by
  induction count generalizing target address with
  | zero =>
    cases h
    exact ⟨#[], rfl, Array.append_empty.symm⟩
  | succ count ih =>
    rw [copyBytes?] at h
    cases read : (space.content target)[address]? with
    | none => simp only [read, reduceCtorEq] at h
    | some byte =>
      simp only [read] at h
      obtain ⟨appended, size, rfl⟩ := ih h
      refine ⟨#[byte] ++ appended, ?_, ?_⟩
      · rw [Array.size_append, size, Nat.add_comm]
        rfl
      · rw [← Array.append_assoc, Array.push_eq_append]

theorem copyBytes?_eq (within : space.SegmentWithin (history ++ out))
    (starts : history.size = space.windowStart)
    (before : address < space.segment.length + out.size) :
    space.copyBytes? (history ++ out) address count =
      some (history ++ Edit.replayCopy (space.source (history ++ out)) out address count) := by
  induction count generalizing out address with
  | zero => rfl
  | succ count ih =>
    have read : (space.content (history ++ out))[address]? =
        some (Edit.byteAt (space.source (history ++ out)) out address) := by
      rw [content_append starts,
        Edit.getElem?_source_append (by rw [within.size_source]; exact before)]
    rw [copyBytes?, read, Edit.replayCopy]
    generalize Edit.byteAt (space.source (history ++ out)) out address = byte
    have appended : history ++ out.push byte = history ++ out ++ #[byte] := by
      rw [Array.append_push, Array.push_eq_append]
    have source : space.source (history ++ out.push byte) = space.source (history ++ out) := by
      rw [appended, within.source_append]
    have rest := @ih (out.push byte) (address + 1) (by rw [appended]; exact within.append _)
      (by rw [Array.size_push]; omega)
    rw [source, Array.append_push] at rest
    exact rest

/-- Copying in blocks is copying byte by byte: each byte appended is the one at the next address of
the source segment and the window's output so far, the bytes just appended included. There always is
such a byte, and the target so far stays as it is. -/
theorem copy?_bytewise (within : space.SegmentWithin target)
    (starts : space.windowStart ≤ target.size)
    (before : address < space.segment.length + (target.size - space.windowStart)) (size : Nat) :
    space.copy? target address size = space.copyBytes? target address size ∧
      ∃ appended : Array UInt8, appended.size = size ∧
        space.copy? target address size = some (target ++ appended) := by
  obtain ⟨history, out, historySize, rfl⟩ := exists_history starts
  rw [Array.size_append, historySize, Nat.add_sub_cancel_left] at before
  have blocks := @SegmentWithin.copy?_eq _ _ _ _ size within historySize before
  have bytes := @copyBytes?_eq _ _ _ _ size within historySize before
  refine ⟨blocks.trans bytes.symm, ?_⟩
  obtain ⟨appended, appendedSize, copied⟩ := exists_of_copyBytes? bytes
  exact ⟨appended, appendedSize, blocks.trans (congrArg some copied)⟩

/-- The copy runs from the segment through the output of the window and on into its own bytes. -/
theorem copy?_bytewise_overlapping :
    let space : AddressSpace := ⟨#[1, 2, 3, 4, 5], .dictionary 3 2, 2⟩
    space.SegmentWithin #[9, 9, 7] ∧ space.windowStart ≤ 3 ∧ 1 < space.segment.length + (3 - 2) ∧
      space.copy? #[9, 9, 7] 1 6 = some #[9, 9, 7, 5, 7, 5, 7, 5, 7] := by
  intro space
  have within : space.SegmentWithin #[9, 9, 7] := by
    change 3 + 2 ≤ 5
    decide
  obtain ⟨bytewise, -⟩ := @copy?_bytewise space 1 #[9, 9, 7] within (by decide) (by decide) 6
  exact ⟨within, by decide, by decide, bytewise.trans (by decide)⟩

end AddressSpace

end DeltaCoding
