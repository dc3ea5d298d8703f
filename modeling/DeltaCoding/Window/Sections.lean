import DeltaCoding.Cursor

/-!
# The sections of a window body

A standard body keeps data, instructions and addresses apart. An interleaved body has one stream, in
which the data and the address of an instruction follow it directly; reading any of the three then
reads that stream.
-/

namespace DeltaCoding

/-- Where the parts of a window body are read. -/
inductive Sections where
  | separate (data instructions addresses : Cursor)
  | interleaved (stream : Cursor)

namespace Sections

def isInterleaved : Sections → Bool
  | separate _ _ _ => false
  | interleaved _ => true

def instructions : Sections → Cursor
  | separate _ c _ => c
  | interleaved c => c

def data : Sections → Cursor
  | separate c _ _ => c
  | interleaved c => c

def addresses : Sections → Cursor
  | separate _ _ c => c
  | interleaved c => c

def withInstructions (sections : Sections) (c : Cursor) : Sections :=
  match sections with
  | separate data _ addresses => separate data c addresses
  | interleaved _ => interleaved c

def withData (sections : Sections) (c : Cursor) : Sections :=
  match sections with
  | separate _ instructions addresses => separate c instructions addresses
  | interleaved _ => interleaved c

def withAddresses (sections : Sections) (c : Cursor) : Sections :=
  match sections with
  | separate data instructions _ => separate data instructions c
  | interleaved _ => interleaved c

theorem instructions_withInstructions (sections : Sections) (c : Cursor) :
    (sections.withInstructions c).instructions = c := by
  cases sections <;> rfl

/-- Reading data moves the instructions forward or leaves them alone. -/
theorem reaches_withData {sections : Sections} {c : Cursor} (h : sections.data.Reaches c) :
    sections.instructions.Reaches (sections.withData c).instructions := by
  cases sections with
  | separate _ _ _ => exact .refl _
  | interleaved _ => exact h

/-- Reading addresses moves the instructions forward or leaves them alone. -/
theorem reaches_withAddresses {sections : Sections} {c : Cursor}
    (h : sections.addresses.Reaches c) :
    sections.instructions.Reaches (sections.withAddresses c).instructions := by
  cases sections with
  | separate _ _ _ => exact .refl _
  | interleaved _ => exact h

end Sections

end DeltaCoding
