import DeltaCoding.Proofs.CodeTable.Lookup
import Mathlib.Data.List.Sort
import Mathlib.Order.Bounds.Defs

namespace DeltaCoding

/-- The slot is the only one of the entry that stands for something. -/
def Entry.Alone (entry : Entry) (slot : Slot) : Prop :=
  slot.isNoop = false ∧
    (entry.first = slot ∧ entry.second.isNoop = true ∨
      entry.first.isNoop = true ∧ entry.second = slot)

theorem Entry.alone_iff {entry : Entry} {slot : Slot} :
    entry.Alone slot ↔ entry.single? = some slot := by
  simp only [Alone, single?]
  split
  · next first second =>
    rw [first, second, Option.some.injEq]
    constructor
    · rintro ⟨-, ⟨same, -⟩ | ⟨noop, -⟩⟩
      · exact same
      · cases noop
    · rintro rfl
      exact ⟨first, .inl ⟨rfl, rfl⟩⟩
  · next first second =>
    rw [first, second, Option.some.injEq]
    constructor
    · rintro ⟨-, ⟨-, noop⟩ | ⟨-, same⟩⟩
      · cases noop
      · exact same
    · rintro rfl
      exact ⟨second, .inr ⟨rfl, rfl⟩⟩
  · next neither other =>
    constructor
    · rintro ⟨something, ⟨rfl, noop⟩ | ⟨noop, rfl⟩⟩
      · exact absurd noop (neither something)
      · exact absurd something (other noop)
    · exact fun h => by cases h

/-- The answer of a search is the lowest of the opcodes in question, if there are any. -/
structure Finds (answer : Option UInt8) (opcodes : Set UInt8) : Prop where
  lowest : ∀ opcode, answer = some opcode ↔ IsLeast opcodes opcode
  nothing : answer = none ↔ opcodes = ∅

/-- In a list in ascending order the first opcode that is wanted is the lowest. -/
theorem finds_find? {α : Type} {entries : List α} {opcode : α → UInt8} {wanted : α → Bool}
    (ascending : entries.Pairwise fun a b => opcode a < opcode b) :
    Finds ((entries.find? wanted).map opcode)
      {o | ∃ a ∈ entries, wanted a = true ∧ opcode a = o} where
  lowest o := by
    induction entries with
    | nil =>
      constructor
      · exact fun h => by cases h
      · rintro ⟨⟨a, mem, -⟩, -⟩
        cases mem
    | cons a rest ih =>
      obtain ⟨first, others⟩ := List.pairwise_cons.1 ascending
      by_cases here : wanted a = true
      · rw [List.find?_cons_of_pos here, Option.map_some, Option.some.injEq]
        constructor
        · rintro rfl
          refine ⟨⟨a, List.mem_cons_self, here, rfl⟩, ?_⟩
          rintro _ ⟨b, mem, -, rfl⟩
          rcases List.mem_cons.1 mem with rfl | later
          · exact UInt8.le_refl _
          · exact UInt8.le_of_lt (first b later)
        · rintro ⟨⟨b, mem, -, rfl⟩, below⟩
          rcases List.mem_cons.1 mem with rfl | later
          · rfl
          · have le := below ⟨a, List.mem_cons_self, here, rfl⟩
            exact absurd (first b later) (UInt8.not_lt.2 le)
      · rw [List.find?_cons_of_neg here, ih others]
        have same : {o | ∃ b ∈ a :: rest, wanted b = true ∧ opcode b = o} =
            {o | ∃ b ∈ rest, wanted b = true ∧ opcode b = o} := by
          ext o
          constructor
          · rintro ⟨b, mem, there, rfl⟩
            rcases List.mem_cons.1 mem with rfl | later
            · exact absurd there here
            · exact ⟨b, later, there, rfl⟩
          · rintro ⟨b, mem, there, rfl⟩
            exact ⟨b, List.mem_cons_of_mem a mem, there, rfl⟩
        rw [same]
  nothing := by
    rw [Option.map_eq_none_iff, List.find?_eq_none, Set.eq_empty_iff_forall_notMem]
    constructor
    · rintro nowhere _ ⟨a, mem, there, -⟩
      exact nowhere a mem there
    · exact fun empty a mem there => empty (opcode a) ⟨a, mem, there, rfl⟩

theorem Finds.congr {answer : Option UInt8} {opcodes opcodes' : Set UInt8}
    (h : Finds answer opcodes) (same : ∀ opcode, opcode ∈ opcodes ↔ opcode ∈ opcodes') :
    Finds answer opcodes' :=
  Set.ext same ▸ h

namespace CodeTable

theorem pairwise_toList (table : CodeTable) :
    table.toList.Pairwise fun p q => p.1 < q.1 := by
  rw [toList, List.pairwise_map]
  refine (List.sortedLT_finRange opcodeCount).pairwise.imp fun {i j} before => ?_
  have small (k : Fin opcodeCount) : (UInt8.ofNat k.val).toNat = k.val :=
    Nat.mod_eq_of_lt k.isLt
  rw [UInt8.lt_iff_toNat_lt, small, small]
  exact before

theorem pairwise_filterMap {α : Type} {opcode : α → UInt8} {f : UInt8 × Entry → Option α}
    (table : CodeTable) (kept : ∀ p a, f p = some a → opcode a = p.1) :
    (table.toList.filterMap f).Pairwise fun a b => opcode a < opcode b := by
  rw [List.pairwise_filterMap]
  refine table.pairwise_toList.imp fun {p q} before a made b made' => ?_
  rw [kept p a made, kept q b made']
  exact before

end CodeTable

namespace OpcodeIndex

variable {table : CodeTable} {maxMode mode : Nat} {instruction size opcode : UInt8}

theorem key_eq (query : Askable maxMode instruction mode) (bytes : maxMode ≤ 255) :
    Slot.key ⟨instruction, size, .ofNat mode⟩ = instructionKey instruction mode := by
  have small : mode < 2 ^ 8 := Nat.lt_succ_of_le (Nat.le_trans query.mode_le bytes)
  rw [Slot.key, UInt8.toNat_ofNat', Nat.mod_eq_of_lt small]

/-! ## Single opcodes -/

theorem pairwise_singlesOf :
    (singlesOf table maxMode).Pairwise fun a b => a.opcode < b.opcode := by
  refine table.pairwise_filterMap fun p a made => ?_
  simp only [Option.bind_eq_bind, Option.bind_eq_some_iff] at made
  obtain ⟨slot, -, made⟩ := made
  split at made
  · cases made
    rfl
  · cases made

theorem finds_first (valid : table.Valid maxMode) (query : Askable maxMode instruction mode)
    (bytes : maxMode ≤ 255) :
    Finds ((ofTable table maxMode).first? instruction size mode)
      {opcode | (table.entry opcode).Alone ⟨instruction, size, .ofNat mode⟩} := by
  refine (finds_find? pairwise_singlesOf).congr fun opcode => ?_
  simp only [Set.mem_ofPred_eq, Bool.and_eq_true, beq_iff_eq, Entry.alone_iff]
  constructor
  · rintro ⟨s, mem, ⟨keys, sizes⟩, rfl⟩
    obtain ⟨slot, single, key, slotSize, -⟩ := mem_singlesOf.1 mem
    obtain ⟨slotValid, noop⟩ := valid.single single
    rw [single, slotValid.eq_of_key noop query (key.trans keys) (slotSize.trans sizes)]
  · intro single
    exact ⟨⟨instructionKey instruction mode, size, opcode⟩,
      mem_singlesOf.2 ⟨_, single, key_eq query bytes, rfl, query.key_le⟩, ⟨rfl, rfl⟩, rfl⟩

/-! ## Double opcodes -/

theorem pairwise_doublesOf {singles : List SingleOpcode} :
    (doublesOf table singles).Pairwise fun a b => a.opcode < b.opcode := by
  refine table.pairwise_filterMap fun p a made => ?_
  simp only at made
  split at made
  · simp only [Option.bind_eq_bind, Option.bind_eq_some_iff] at made
    obtain ⟨firstOpcode, -, made⟩ := made
    cases made
    rfl
  · cases made

/-- A search for an instruction can come back with the opcode. -/
def Returns (index : OpcodeIndex) (maxMode : Nat) (opcode : UInt8) : Prop :=
  ∃ instruction size mode, Askable maxMode instruction mode ∧
    index.first? instruction size mode = some opcode

theorem finds_second (valid : table.Valid maxMode) {last : UInt8} {slot : Slot}
    (returned : (ofTable table maxMode).Returns maxMode last)
    (alone : (table.entry last).Alone slot) (query : Askable maxMode instruction mode)
    (bytes : maxMode ≤ 255) :
    Finds ((ofTable table maxMode).second? last instruction size mode)
      {opcode | table.entry opcode = ⟨slot, ⟨instruction, size, .ofNat mode⟩⟩} := by
  refine (finds_find? pairwise_doublesOf).congr fun opcode => ?_
  simp only [Set.mem_ofPred_eq, Bool.and_eq_true, beq_iff_eq]
  constructor
  · rintro ⟨d, mem, ⟨⟨rfl, key⟩, rfl⟩, rfl⟩
    exact entry_of_mem_doubles valid query (Entry.alone_iff.1 alone) mem key
  · intro both
    -- The slot is what was asked for when its opcode was found, so that the opcode is found again.
    obtain ⟨instruction', size', mode', query', found⟩ := returned
    have asked := single?_of_first? valid query' found
    rw [Entry.alone_iff.1 alone, Option.some.injEq] at asked
    have double : (table.entry opcode).isDouble = true := by
      simp only [Entry.isDouble, both, alone.1, query.isNoop, Bool.not_false, Bool.and_self]
    have again : findSingle? (singlesOf table maxMode) slot.key slot.size = some last := by
      rw [asked, key_eq query' bytes]
      exact found
    refine ⟨⟨last, instructionKey instruction mode, size, opcode⟩, mem_doublesOf.2 ?_,
      ⟨⟨rfl, rfl⟩, rfl⟩, rfl⟩
    rw [both] at double ⊢
    exact ⟨double, again, key_eq query bytes, rfl⟩

end OpcodeIndex

end DeltaCoding
