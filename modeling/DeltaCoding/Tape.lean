import DeltaCoding.Cursor

namespace DeltaCoding

/-- A buffer and a cursor into it. -/
structure Tape where
  /-- The cursor in front of the whole buffer. -/
  origin : Cursor
  /-- The cursor in front of what is still unread. -/
  current : Cursor
deriving Inhabited

namespace Tape

def ofBytes (bytes : List UInt8) (base : Nat := 0) : Tape :=
  ⟨.ofBytes bytes base, .ofBytes bytes base⟩

def position (t : Tape) : Nat :=
  t.current.offset - t.origin.offset

def seek? (t : Tape) (position : Nat) : Option Tape :=
  if t.origin.has position then some { t with current := t.origin.skip position } else none

def advance? (t : Tape) (n : Nat) : Option Tape :=
  t.seek? (t.position + n)

/-- Splits off the next `n` bytes as a stream of their own and passes over them. -/
def take? (t : Tape) (n : Nat) : Option (Cursor × Tape) :=
  (t.current.split? n).map fun (piece, behind) => (piece, { t with current := behind })

/-- Drops what has been read and puts `more` behind the rest. Places count from the new start. -/
def feed (t : Tape) (more : List UInt8) : Tape :=
  ofBytes (t.current.rest ++ more)

/-- Takes a parse step. A step that stops leaves the cursor where it is. -/
def read {α : Type} (t : Tape) (step : Parser α) : Except ParseStop α × Tape :=
  match step t.current with
  | .ok (a, c) => (.ok a, { t with current := c })
  | .error stop => (.error stop, t)

theorem position_ofBytes (bytes : List UInt8) (base : Nat) : (ofBytes bytes base).position = 0 := by
  simp [ofBytes, position]

theorem position_of_seek? {t t' : Tape} {n : Nat} (h : t.seek? n = some t') : t'.position = n := by
  unfold seek? at h
  split at h
  · cases h
    simp [position, Cursor.skip]
  · cases h

end Tape

end DeltaCoding
