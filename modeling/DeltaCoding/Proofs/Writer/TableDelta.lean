import DeltaCoding.Proofs.Writer.Target
import DeltaCoding.Writer.TableDelta

namespace DeltaCoding

namespace TableDelta

variable {a b source target : Array UInt8} {pos literalStart : Nat}

theorem agreement_spec (inside : pos ≤ a.size) (inside' : pos ≤ b.size) :
    pos + agreement a b pos ≤ a.size ∧ pos + agreement a b pos ≤ b.size ∧
      ∀ k, k < agreement a b pos → b[pos + k]? = a[pos + k]? := by
  fun_induction agreement a b pos with
  | case1 pos there same ih =>
    obtain ⟨inA, inB, others⟩ := ih there.1 there.2
    refine ⟨by omega, by omega, ?_⟩
    intro k bound
    cases k with
    | zero =>
      rw [Nat.add_zero, Array.getElem?_eq_getElem there.1, Array.getElem?_eq_getElem there.2, same]
    | succ k =>
      rw [← Nat.add_assoc, Nat.add_right_comm pos k 1]
      exact others k (by omega)
  | case2 pos there differ => exact ⟨inside, inside', fun _ h => by cases h⟩
  | case3 pos missing => exact ⟨inside, inside', fun _ h => by cases h⟩

theorem covers_editsFrom (size : target.size = source.size) (passed : literalStart ≤ pos)
    (inside : pos ≤ target.size) :
    Edit.Covers source target literalStart (editsFrom source target literalStart pos)
      target.size := by
  have literal {start stop : Nat} (ordered : start ≤ stop) (inside : stop ≤ target.size) :
      Edit.Extends source target start (.add (slice target start stop)) ∧
        start + (Edit.add (slice target start stop)).size = stop := by
    refine ⟨Edit.extends_add ordered inside, ?_⟩
    simp only [slice, Edit.size, Array.length_toList, Array.size_extract]
    omega
  fun_induction editsFrom source target literalStart pos with
  | case1 literalStart pos more same long ih =>
    obtain ⟨inTarget, inSource, agree⟩ := agreement_spec inside (size ▸ inside)
    obtain ⟨added, ends⟩ := literal passed inside
    refine ⟨added, ?_⟩
    rw [ends]
    exact ⟨Edit.extends_copy_source inTarget inSource agree, ih (Nat.le_refl _) inTarget⟩
  | case2 literalStart pos more same short ih =>
    have bounds := agreement_spec inside (size ▸ inside)
    exact ih (by omega) (by omega)
  | case3 literalStart pos done =>
    obtain ⟨added, ends⟩ := literal (show literalStart ≤ target.size by omega) (Nat.le_refl _)
    exact ⟨added, ends⟩

end TableDelta

namespace CodeTable

variable {table : CodeTable}

theorem size_toBytes (table : CodeTable) : table.toBytes.size = storedSize := by
  simp [toBytes, storedSize, opcodeCount]

/-- The columns of the stored form. -/
def columns : List (Entry → UInt8) :=
  [(·.first.instruction), (·.second.instruction), (·.first.size), (·.second.size), (·.first.mode),
    (·.second.mode)]

theorem toList_toBytes (table : CodeTable) :
    table.toBytes.toList = (columns.map (table.entries.toList.map ·)).flatten := by
  simp [toBytes, columns, Vector.toList]

theorem getElem?_columns {n k i : Nat} {columns : List (List UInt8)}
    (lengths : ∀ column ∈ columns, column.length = n) (bound : i < n) :
    columns.flatten[k * n + i]? = columns[k]?.bind (·[i]?) := by
  induction columns generalizing k with
  | nil => rfl
  | cons column rest ih =>
    -- Columns of the same length, so that whole columns can be skipped.
    have length := lengths column (List.mem_cons_self ..)
    rw [List.flatten_cons]
    cases k with
    | zero =>
      rw [Nat.zero_mul, Nat.zero_add, List.getElem?_append_left (by omega)]
      rfl
    | succ k =>
      rw [Nat.succ_mul, Nat.add_right_comm, List.getElem?_append_right (by omega), length,
        Nat.add_sub_cancel]
      exact ih fun column mem => lengths column (List.mem_cons_of_mem _ mem)

theorem getElem?_toBytes (table : CodeTable) (k : Nat) (i : Fin opcodeCount) :
    table.toBytes[k * opcodeCount + i.val]? = columns[k]?.map (· (table.entries.get i)) := by
  have lengths : ∀ column ∈ columns.map (table.entries.toList.map ·),
      column.length = opcodeCount := by
    intro column mem
    obtain ⟨field, -, rfl⟩ := List.mem_map.1 mem
    rw [List.length_map, Vector.length_toList]
  rw [← Array.getElem?_toList, toList_toBytes, getElem?_columns lengths i.isLt, List.getElem?_map]
  cases columns[k]? with
  | none => rfl
  | some field =>
    have there : table.entries.toList[i.val]? = some (table.entries.get i) := by
      simp [Vector.get]
    simp only [Option.map_some, Option.bind_some, List.getElem?_map, there]

theorem ofBytes_toBytes (table : CodeTable) : ofBytes table.toBytes = .ok table := by
  rw [ofBytes, if_pos (size_toBytes table)]
  simp only [getElem?_toBytes]
  have entries : Vector.ofFn table.entries.get = table.entries := by
    apply Vector.ext
    intro i bound
    simp [Vector.get]
  exact congrArg (fun entries => Except.ok (CodeTable.mk entries)) entries

theorem size_standardBytes : standardBytes.size = storedSize :=
  size_toBytes standard

end CodeTable

namespace TableDelta

variable {source target : Array UInt8}

theorem covers_edits (size : target.size = source.size) :
    Edit.Covers (Opening.source (.dictionary source.size) source #[]) target 0 (edits source target)
      target.size := by
  have whole : Opening.source (.dictionary source.size) source #[] = source := Array.extract_size
  rw [whole]
  exact covers_editsFrom size (Nat.le_refl 0) (Nat.zero_le _)

theorem delta_written (size : target.size = source.size) (nonempty : target ≠ #[])
    (room : source.size + target.size ≤ maxField) (small : target.size ≤ DeltaWriter.maxTarget) :
    ∃ window w', delta source target =
        .ok (FileHeader.toBytes { version := .standard, cacheSizes := none } ++ window) ∧
      (DeltaWriter.standard false).writeTarget (.dictionary source.size) (edits source target) false
        target = (.ok window, w') ∧
      window ≠ [] ∧ ∀ d : WindowDecoder, d.Follows (.standard false) false →
        d.Reads source #[] window target := by
  have whole : Opening.source (.dictionary source.size) source #[] = source := Array.extract_size
  have fields : Opening.Addressable (.dictionary source.size) :=
    Nat.le_trans (Nat.le_add_right _ _) room
  have within : Opening.Within (.dictionary source.size) source #[] := Nat.le_refl _
  obtain ⟨window, w₃, wrote, window_ne, between, -, reads⟩ :=
    DeltaWriter.accepts_target (.standard false) fields within (covers_edits size)
      (by rw [whole]; exact room) small nonempty false
  obtain ⟨w₁, w₂, opened, written, closed⟩ := DeltaWriter.writeTarget_ok.1 wrote
  refine ⟨window, w₃, ?_, wrote, window_ne, reads⟩
  rw [Opening.call_dictionary] at opened
  simp only [Bool.false_eq_true, if_false] at closed
  simp only [delta, opened, written, closed, DeltaWriter.finish, between.idle]
  rfl

end TableDelta

namespace CodeTable

theorem toBytes_ne (table : CodeTable) : table.toBytes ≠ #[] := by
  intro empty
  have size := size_toBytes table
  rw [empty] at size
  cases size

/-- The delta of any table is a file header and one window for the table's stored form. -/
theorem toDelta_written (table : CodeTable) : ∃ window w',
    table.toDelta = .ok (FileHeader.toBytes { version := .standard, cacheSizes := none } ++ window) ∧
      (DeltaWriter.standard false).writeTarget (.dictionary standardBytes.size)
        (TableDelta.edits standardBytes table.toBytes) false table.toBytes = (.ok window, w') ∧
      window ≠ [] ∧ ∀ d : WindowDecoder, d.Follows (.standard false) false →
        d.Reads standardBytes #[] window table.toBytes := by
  apply TableDelta.delta_written
  · rw [size_toBytes, size_standardBytes]
  · exact table.toBytes_ne
  · rw [size_toBytes, size_standardBytes]
    decide
  · rw [size_toBytes]
    decide

theorem toDelta_accepted (table : CodeTable) : ∃ window,
    table.toDelta = .ok (FileHeader.toBytes { version := .standard, cacheSizes := none } ++ window) ∧
      window ≠ [] ∧ ∀ d : WindowDecoder, d.Follows (.standard false) false →
        d.Reads standardBytes #[] window table.toBytes := by
  obtain ⟨window, w', written, -, accepted⟩ := table.toDelta_written
  exact ⟨window, written, accepted⟩

end CodeTable

end DeltaCoding
