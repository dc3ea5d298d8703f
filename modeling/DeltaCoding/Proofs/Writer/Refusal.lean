import DeltaCoding.Proofs.Writer.Target

namespace DeltaCoding

namespace DeltaWriter

variable {w w' : DeltaWriter}

/-- The writer can be used as before. -/
structure Persists (w w' : DeltaWriter) : Prop extends w.SameFormat w' where
  index : w'.index = w.index

theorem Persists.refl (w : DeltaWriter) : w.Persists w :=
  ⟨⟨rfl, rfl, rfl⟩, rfl⟩

theorem Persists.trans {a b c : DeltaWriter} (hab : a.Persists b) (hbc : b.Persists c) :
    a.Persists c :=
  ⟨⟨hbc.interleaved.trans hab.interleaved, hbc.table.trans hab.table, hbc.sizes.trans hab.sizes⟩,
    hbc.index.trans hab.index⟩

theorem Persists.usable (h : w.Persists w') (usable : w.Usable) : w'.Usable := by
  obtain ⟨valid, index⟩ := usable
  exact ⟨by rw [h.table, h.sizes]; exact valid, by rw [h.index, h.table, h.sizes]; exact index⟩

/-! ## Opening and closing -/

theorem persists_openSegment (w : DeltaWriter) (segment : SourceSegment) :
    w.Persists (w.openSegment segment).2 := by
  simp only [openSegment]
  split
  · exact .refl w
  · exact .refl w
  · split
    · exact .refl w
    · exact ⟨⟨rfl, rfl, rfl⟩, rfl⟩

theorem persists_call (w : DeltaWriter) (opening : Opening) : w.Persists (opening.call w).2 := by
  cases opening with
  | dictionary size => exact w.persists_openSegment _
  | target position length =>
    simp only [Opening.call, openTargetWindow]
    split
    · exact .refl w
    · exact w.persists_openSegment _

theorem persists_setChecksum (w : DeltaWriter) (n : Nat) : w.Persists (w.setChecksum n) :=
  ⟨⟨rfl, rfl, rfl⟩, rfl⟩

theorem persists_closeWindow (w : DeltaWriter) : w.Persists w.closeWindow.2 := by
  simp only [closeWindow]
  split
  · exact ⟨⟨rfl, rfl, rfl⟩, rfl⟩
  · exact .refl w
  · exact .refl w

/-! ## Edits -/

theorem persists_write {e : Edit} {instruction : UInt8} {mode : Nat} {supplied : SectionBytes}
    {finish : DeltaWriter → DeltaWriter} (writes : w.Writes e instruction mode supplied finish) :
    w.Persists (w.write instruction e.size mode finish).2 := by
  simp only [write]
  split
  · next choice _ =>
    obtain ⟨instructions, lastOpcode, -, -, put⟩ := w.putOpcode_eq choice e.size
    rw [writes.finishes _ (by rw [put]), put]
    simp only [grow]
    split
    · exact ⟨⟨rfl, rfl, rfl⟩, rfl⟩
    · exact ⟨⟨rfl, rfl, rfl⟩, rfl⟩
  · exact ⟨⟨rfl, rfl, rfl⟩, rfl⟩

theorem persists_edit (w : DeltaWriter) (e : Edit) : w.Persists (w.edit e).2 := by
  obtain passed | ⟨error, refused, -⟩ | ⟨cache, _, _, _, _, sizes, writes, written⟩ := w.edit_cases e
  · rw [passed]
    exact .refl w
  · rw [refused]
    exact .refl w
  · have cached : w.Persists { w with cache := cache } := ⟨⟨rfl, rfl, sizes⟩, rfl⟩
    rw [written]
    exact cached.trans (persists_write writes)

theorem persists_edits (w : DeltaWriter) (es : List Edit) : w.Persists (w.edits es).2 := by
  induction es generalizing w with
  | nil => exact .refl w
  | cons e rest ih =>
    have first := w.persists_edit e
    simp only [edits]
    generalize w.edit e = result at first ⊢
    rcases result with ⟨_ | ⟨⟩, w₁⟩
    · exact first
    · exact first.trans (ih w₁)

/-! ## Windows -/

theorem persists_writeTarget (w : DeltaWriter) (opening : Opening) (es : List Edit) (checked : Bool)
    (target : Array UInt8) : w.Persists (w.writeTarget opening es checked target).2 := by
  have opening_persists := w.persists_call opening
  simp only [writeTarget]
  generalize opening.call w = result at opening_persists ⊢
  rcases result with ⟨_ | ⟨⟩, w₁⟩
  · exact opening_persists
  · have persists := opening_persists.trans (w₁.persists_edits es)
    simp only
    generalize w₁.edits es = result at persists ⊢
    rcases result with ⟨_ | ⟨⟩, w₂⟩
    · exact persists
    · refine persists.trans (.trans ?_ (persists_closeWindow _))
      split
      · exact w₂.persists_setChecksum _
      · exact .refl w₂

theorem persists_finish (w : DeltaWriter) : w.Persists w.finish.2 := by
  simp only [finish]
  split
  · exact .refl w
  · exact ⟨⟨rfl, rfl, rfl⟩, rfl⟩

/-! ## Histories -/

/-- What a writer can be asked for. -/
inductive Request where
  | opening (opening : Opening)
  | edit (e : Edit)
  | checksum (n : Nat)
  | close
  | finish

/-- The writer behind a request, whatever has become of the request. -/
def behind (w : DeltaWriter) : Request → DeltaWriter
  | .opening opening => (opening.call w).2
  | .edit e => (w.edit e).2
  | .checksum n => w.setChecksum n
  | .close => w.closeWindow.2
  | .finish => w.finish.2

theorem persists_behind (w : DeltaWriter) (request : Request) : w.Persists (w.behind request) := by
  cases request with
  | opening opening => exact w.persists_call opening
  | edit e => exact w.persists_edit e
  | checksum n => exact w.persists_setChecksum n
  | close => exact w.persists_closeWindow
  | finish => exact w.persists_finish

/-- The writer has come about by any requests, accepted or refused. -/
inductive Reached : DeltaWriter → Prop where
  | standard (interleaved : Bool) : Reached (standard interleaved)
  | withTable {interleaved : Bool} {near same : Nat} {table : CodeTable} {w : DeltaWriter}
      (made : withTable interleaved near same table = .ok w) : Reached w
  | request {w : DeltaWriter} (before : Reached w) (request : Request) :
      Reached (w.behind request)

theorem Reached.usable (h : w.Reached) : w.Usable := by
  induction h with
  | standard interleaved => exact usable_make CodeTable.valid_standard
  | withTable made => exact usable_withTable made
  | @request w before request ih => exact (w.persists_behind request).usable ih

end DeltaWriter

end DeltaCoding
