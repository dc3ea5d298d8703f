import DeltaCoding.CodeTable.Validity
import DeltaCoding.CodeTable.Standard
import DeltaCoding.AddressCache
import Mathlib.Data.List.Nodup
import Mathlib.Data.List.Perm.Subperm

/-!
# What validation establishes

`CodeTable.Valid` is what a table that passes `CodeTable.validate` has: slots that make sense, and
for each instruction a single opcode with an explicit size.

Validity bounds the modes. There are 256 opcodes, each stands for at most one instruction alone, and
ADD, RUN and every COPY mode need one of their own; so a valid table has modes up to 253 at most, and
the first SAME mode of caches that have a valid table fits a byte (`CodeTable.Valid.resolvable`).
-/

namespace DeltaCoding

namespace Slot

/-- The slot makes sense for modes up to `maxMode`. -/
structure Valid (slot : Slot) (maxMode : Nat) : Prop where
  instruction : slot.instruction ≤ InstructionType.copy
  mode_le : slot.mode.toNat ≤ maxMode
  size_noop : slot.isNoop = true → slot.size = 0
  mode_zero : slot.instruction ≠ InstructionType.copy → slot.mode = 0

theorem valid_of_check {slot : Slot} {opcode maxMode : Nat}
    (h : slot.check opcode maxMode = .ok ()) : slot.Valid maxMode := by
  unfold check at h
  split at h
  · cases h
  · next instruction =>
    split at h
    · cases h
    · next mode =>
      split at h
      · cases h
      · next size =>
        split at h
        · cases h
        · next modeZero =>
          refine ⟨UInt8.not_lt.1 instruction, by omega, fun noop => ?_, fun other => ?_⟩
          · simpa [noop] using size
          · simpa [other] using modeZero

end Slot

namespace CodeTable

@[simp] theorem mem_toList {table : CodeTable} {opcode : UInt8} {entry : Entry} :
    (opcode, entry) ∈ table.toList ↔ table.entry opcode = entry := by
  rw [toList, List.mem_map]
  constructor
  · rintro ⟨i, -, same⟩
    obtain ⟨rfl, rfl⟩ := Prod.mk.inj same
    have small : i.val % 256 = i.val := Nat.mod_eq_of_lt i.isLt
    have : place (.ofNat i.val) = i := Fin.ext (by simp [place, small])
    rw [entry, this]
  · rintro rfl
    refine ⟨place opcode, List.mem_finRange _, ?_⟩
    simp [entry, place]

theorem checks_of_checkSlots {maxMode : Nat} {opcodes : List (UInt8 × Entry)}
    (h : checkSlots maxMode opcodes = .ok ()) :
    ∀ p ∈ opcodes, p.2.first.Valid maxMode ∧ p.2.second.Valid maxMode := by
  induction opcodes with
  | nil => intro p hp; cases hp
  | cons p rest ih =>
    obtain ⟨opcode, entry⟩ := p
    simp only [checkSlots, bind, Except.bind] at h
    split at h
    · cases h
    · next first =>
      split at h
      · cases h
      · next second =>
        intro q hq
        rcases List.mem_cons.1 hq with rfl | hq
        · exact ⟨Slot.valid_of_check first, Slot.valid_of_check second⟩
        · exact ih h q hq

/-- The table can be used with caches whose largest mode is `maxMode`. -/
structure Valid (table : CodeTable) (maxMode : Nat) : Prop where
  first : ∀ opcode, (table.entry opcode).first.Valid maxMode
  second : ∀ opcode, (table.entry opcode).second.Valid maxMode
  required : ∀ p ∈ required maxMode, ∃ opcode, (table.entry opcode).single? = some p.1

theorem valid_of_validate {table : CodeTable} {maxMode : Nat}
    (h : table.validate maxMode = .ok ()) : table.Valid maxMode := by
  simp only [validate, bind, Except.bind] at h
  split at h
  · cases h
  · next slots =>
    have checks := checks_of_checkSlots slots
    split at h
    · cases h
    · next complete =>
      refine ⟨fun opcode => (checks _ (mem_toList.2 rfl)).1,
        fun opcode => (checks _ (mem_toList.2 rfl)).2, fun p hp => ?_⟩
      have single : table.hasSingle p.1 = true := by
        simpa using List.find?_eq_none.1 complete p hp
      simp only [hasSingle, List.any_eq_true, beq_iff_eq] at single
      obtain ⟨⟨opcode, entry⟩, mem, hs⟩ := single
      exact ⟨opcode, by rw [mem_toList.1 mem]; exact hs⟩

theorem validate_standard : standard.validate CacheSizes.standard.maxMode = .ok () := by
  decide +kernel

theorem valid_standard : standard.Valid CacheSizes.standard.maxMode :=
  valid_of_validate validate_standard

namespace Valid

variable {table : CodeTable} {maxMode : Nat}

theorem single (h : table.Valid maxMode) {opcode : UInt8} {slot : Slot}
    (hs : (table.entry opcode).single? = some slot) :
    slot.Valid maxMode ∧ slot.isNoop = false := by
  simp only [Entry.single?] at hs
  split at hs
  · next noop _ => cases hs; exact ⟨h.first opcode, noop⟩
  · next _ noop => cases hs; exact ⟨h.second opcode, noop⟩
  · cases hs

theorem add (h : table.Valid maxMode) : ∃ opcode, (table.entry opcode).single? = some (.add 0) :=
  h.required (.add 0, .missingAdd) (by simp [CodeTable.required])

theorem run (h : table.Valid maxMode) : ∃ opcode, (table.entry opcode).single? = some (.run 0) :=
  h.required (.run 0, .missingRun) (by simp [CodeTable.required])

theorem copy (h : table.Valid maxMode) {mode : Nat} (hm : mode ≤ maxMode) :
    ∃ opcode, (table.entry opcode).single? = some (.copy 0 (.ofNat mode)) := by
  apply h.required (.copy 0 (.ofNat mode), .missingCopy mode)
  simp only [CodeTable.required, List.mem_cons, List.mem_map, List.mem_range]
  exact .inr (.inr ⟨mode, by omega, rfl⟩)

/-! ## Counting opcodes -/

/-- The instructions that need an opcode of their own, as far as modes are bytes. -/
def explicitSlots (maxMode : Nat) : List Slot :=
  .add 0 :: .run 0 :: (List.range (maxMode + 1)).map fun mode => .copy 0 (.ofNat mode)

theorem nodup_explicitSlots {maxMode : Nat} (bytes : maxMode ≤ 255) :
    (explicitSlots maxMode).Nodup := by
  -- Modes that are bytes are told apart by their slots.
  have copies : ((List.range (maxMode + 1)).map fun mode => Slot.copy 0 (.ofNat mode)).Nodup := by
    refine List.Nodup.map_on (fun a ha b hb hab => ?_) List.nodup_range
    rw [List.mem_range] at ha hb
    have := congrArg (fun slot => slot.mode.toNat) hab
    simpa [Slot.copy, UInt8.toNat_ofNat', Nat.mod_eq_of_lt (show a < 256 by omega),
      Nat.mod_eq_of_lt (show b < 256 by omega)] using this
  simp only [explicitSlots, List.nodup_cons, List.mem_cons, List.mem_map, not_or, not_exists,
    not_and]
  exact ⟨⟨by decide, fun mode _ => by
      simp [Slot.copy, Slot.add, InstructionType.copy, InstructionType.add]⟩,
    fun mode _ => by simp [Slot.copy, Slot.run, InstructionType.copy, InstructionType.run], copies⟩

/-- There are 256 opcodes for ADD, RUN and all modes. -/
theorem maxMode_le (h : table.Valid maxMode) (bytes : maxMode ≤ 255) : maxMode ≤ 253 := by
  have covered : explicitSlots maxMode ⊆ table.toList.filterMap fun p => p.2.single? := by
    intro slot hslot
    have single : ∃ opcode, (table.entry opcode).single? = some slot := by
      simp only [explicitSlots, List.mem_cons, List.mem_map, List.mem_range] at hslot
      rcases hslot with rfl | rfl | ⟨mode, hm, rfl⟩
      · exact h.add
      · exact h.run
      · exact h.copy (by omega)
    obtain ⟨opcode, hs⟩ := single
    exact List.mem_filterMap.2 ⟨(opcode, table.entry opcode), mem_toList.2 rfl, hs⟩
  -- No two of these instructions share an opcode, and there are 256 of them.
  have count := ((nodup_explicitSlots bytes).subperm covered).length_le
  have opcodes := List.length_filterMap_le (fun p : UInt8 × Entry => p.2.single?) table.toList
  simp only [explicitSlots, List.length_cons, List.length_map, List.length_range] at count
  simp only [toList, List.length_map, List.length_finRange, opcodeCount] at opcodes count
  omega

/-- Caches with a valid table have a first SAME mode that fits a byte. -/
theorem resolvable {sizes : CacheSizes} (h : table.Valid sizes.maxMode) :
    sizes.resolvable = true := by
  have fits := sizes.fits
  have := h.maxMode_le (by unfold CacheSizes.maxMode; omega)
  apply decide_eq_true
  unfold CacheSizes.maxMode at this
  unfold CacheSizes.firstSameMode
  omega

end Valid

end CodeTable

end DeltaCoding
