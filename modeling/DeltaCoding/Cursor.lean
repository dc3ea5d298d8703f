import DeltaCoding.Error

/-!
# Cursors and parse steps

A `Cursor` is the unread rest of a stream together with the stream offset of its first byte. A
`Parser` is a step on cursors that either yields a value and the cursor behind it, or stops; a step
that stops leaves its caller where it was, because the caller still holds its own cursor.

`Cursor.Reaches` relates a cursor to every cursor further along the same stream: bytes are read in
order, none is invented, and offsets count them.
-/

namespace DeltaCoding

/-- The unread rest of a stream and the number of bytes in front of it. -/
structure Cursor where
  /-- The stream offset of the next unread byte. -/
  offset : Nat
  /-- The unread bytes at hand. More may arrive later. -/
  rest : List UInt8
deriving DecidableEq, Inhabited

namespace Cursor

/-- A cursor in front of `bytes`, of which the first is `base` bytes into the stream. -/
def ofBytes (bytes : List UInt8) (base : Nat := 0) : Cursor :=
  ⟨base, bytes⟩

def isEmpty (c : Cursor) : Bool :=
  c.rest.isEmpty

def remaining (c : Cursor) : Nat :=
  c.rest.length

/-- The cursor `n` bytes further along. Callers see to it that so many are at hand. -/
def skip (c : Cursor) (n : Nat) : Cursor :=
  ⟨c.offset + n, c.rest.drop n⟩

/-- The same place in a stream that ends after at most `n` more bytes. -/
def window (c : Cursor) (n : Nat) : Cursor :=
  ⟨c.offset, c.rest.take n⟩

def extend (c : Cursor) (more : List UInt8) : Cursor :=
  ⟨c.offset, c.rest ++ more⟩

/-- At least `n` bytes are at hand. Looks at no more than `n` of them. -/
def has (c : Cursor) (n : Nat) : Bool :=
  go n c.rest
where
  go : Nat → List UInt8 → Bool
    | 0, _ => true
    | _ + 1, [] => false
    | n + 1, _ :: rest => go n rest

theorem has_go_iff (n : Nat) (bytes : List UInt8) : has.go n bytes = true ↔ n ≤ bytes.length := by
  induction n generalizing bytes with
  | zero => simp [has.go]
  | succ n ih => cases bytes <;> simp [has.go, ih]

theorem has_iff (c : Cursor) (n : Nat) : c.has n = true ↔ n ≤ c.rest.length :=
  has_go_iff n c.rest

/-- Splits off the next `n` bytes as a stream of their own, if they are all at hand. -/
def split? (c : Cursor) (n : Nat) : Option (Cursor × Cursor) :=
  if c.has n then some (c.window n, c.skip n) else none

/-! ## The order of cursors on a stream -/

/-- `c'` stands on the same stream as `c`, behind bytes that `c` has still to read. -/
def Reaches (c c' : Cursor) : Prop :=
  ∃ read, c.rest = read ++ c'.rest ∧ c'.offset = c.offset + read.length

namespace Reaches

theorem refl (c : Cursor) : c.Reaches c :=
  ⟨[], rfl, rfl⟩

theorem trans {a b c : Cursor} (hab : a.Reaches b) (hbc : b.Reaches c) : a.Reaches c := by
  obtain ⟨r, hr, hro⟩ := hab
  obtain ⟨s, hs, hso⟩ := hbc
  exact ⟨r ++ s, by rw [hr, hs, List.append_assoc], by rw [hso, hro, List.length_append]; omega⟩

/-- What is left to read only shrinks. -/
theorem length_le {c c' : Cursor} (h : c.Reaches c') : c'.rest.length ≤ c.rest.length := by
  obtain ⟨r, hr, _⟩ := h
  rw [hr, List.length_append]
  omega

/-- The offset and the unread bytes together mark the same end. -/
theorem offset_add_length {c c' : Cursor} (h : c.Reaches c') :
    c'.offset + c'.rest.length = c.offset + c.rest.length := by
  obtain ⟨r, hr, ho⟩ := h
  rw [hr, ho, List.length_append]
  omega

end Reaches

theorem reaches_skip {c : Cursor} {n : Nat} (h : n ≤ c.rest.length) : c.Reaches (c.skip n) :=
  ⟨c.rest.take n, (List.take_append_drop n c.rest).symm, by simp [skip, h]⟩

end Cursor

/-! ## Parse steps -/

/-- A parse step: a value and the cursor behind it, or the reason why there is none. -/
abbrev Parser (α : Type) := StateT Cursor (Except ParseStop) α

namespace Parser

def byte : Parser UInt8 := fun c =>
  match c.rest with
  | [] => .error .needMoreData
  | b :: rest => .ok (b, ⟨c.offset + 1, rest⟩)

def bytes (n : Nat) : Parser (List UInt8) := fun c =>
  if c.has n then .ok (c.rest.take n, c.skip n) else .error .needMoreData

def malformed {α : Type} (error : FormatError) : Parser α := fun _ =>
  .error (.malformed error)

theorem reaches_byte {c c' : Cursor} {b : UInt8} (h : byte c = .ok (b, c')) : c.Reaches c' := by
  unfold byte at h
  split at h
  · cases h
  · next hc =>
    cases h
    exact ⟨[b], by rw [hc]; rfl, rfl⟩

theorem length_of_byte {c c' : Cursor} {b : UInt8} (h : byte c = .ok (b, c')) :
    c.rest.length = c'.rest.length + 1 := by
  unfold byte at h
  split at h
  · cases h
  · next hc =>
    cases h
    rw [hc]
    rfl

theorem reaches_bytes {n : Nat} {c c' : Cursor} {bs : List UInt8} (h : bytes n c = .ok (bs, c')) :
    c.Reaches c' := by
  unfold bytes at h
  split at h
  · next hn =>
    cases h
    exact Cursor.reaches_skip ((c.has_iff n).1 hn)
  · cases h

end Parser

end DeltaCoding
