import DeltaCoding.Varint

/-!
# The address cache

A COPY address is written in one of several modes: as it is (SELF), as the distance back from the
current position (HERE), as the distance behind one of the last few addresses (NEAR), or as one byte
that picks an address seen before (SAME). Writer and reader keep the same cache and record every
address in it, so that a mode and a short number are enough to name an address.

`AddressCache.encode` chooses a mode and `AddressCache.decode` resolves one; both record the address
with `AddressCache.record`.
-/

namespace DeltaCoding

/-- The numbers of NEAR and SAME modes. All modes together have to be numbered by one byte. -/
structure CacheSizes where
  near : Nat
  same : Nat
  fits : near + same ≤ 254 := by decide
deriving DecidableEq

namespace CacheSizes

/-- The sizes of the default code table. -/
def standard : CacheSizes := { near := 4, same := 3 }

instance : Inhabited CacheSizes := ⟨standard⟩

def check (near same : Nat) : Except FormatError CacheSizes :=
  if h : near + same ≤ 254 then .ok ⟨near, same, h⟩ else .error (.invalidCacheSizes near same)

/-- The number of the first SAME mode, or of the mode behind the last one if there is none. -/
def firstSameMode (sizes : CacheSizes) : Nat := 2 + sizes.near

def maxMode (sizes : CacheSizes) : Nat := 1 + sizes.near + sizes.same

/-- The first SAME mode is numbered by a byte too. Without it no address can be resolved. -/
def resolvable (sizes : CacheSizes) : Bool := sizes.firstSameMode ≤ 255

end CacheSizes

/-- How an address is written. -/
inductive AddressMode where
  /-- The address itself. -/
  | self
  /-- The distance back from the current position. -/
  | here
  /-- The distance behind the address in a slot of the NEAR cache. -/
  | near (slot : Nat)
  /-- One byte, the place of the address in a page of the SAME cache. -/
  | same (page : Nat)
deriving DecidableEq

namespace AddressMode

/-- The number of a mode: SELF, HERE, then the NEAR slots, then the SAME pages. -/
def number (sizes : CacheSizes) : AddressMode → Nat
  | self => 0
  | here => 1
  | near slot => 2 + slot
  | same page => sizes.firstSameMode + page

def ofNumber? (sizes : CacheSizes) (number : Nat) : Option AddressMode :=
  if number > sizes.maxMode then none
  else if number = 0 then some self
  else if number = 1 then some here
  else if number < sizes.firstSameMode then some (near (number - 2))
  else some (same (number - sizes.firstSameMode))

def inCache (sizes : CacheSizes) : AddressMode → Bool
  | near slot => slot < sizes.near
  | same page => page < sizes.same
  | _ => true

end AddressMode

/-- An address as written behind its mode. -/
inductive AddressCode where
  | integer (value : Nat)
  | byte (value : UInt8)
deriving DecidableEq

namespace AddressCode

def toBytes : AddressCode → List UInt8
  | integer value => Varint.encode value
  | byte value => [value]

end AddressCode

/-- The addresses that modes refer to. -/
structure AddressCache where
  sizes : CacheSizes
  /-- The latest addresses, in a ring. -/
  near : Vector Nat sizes.near
  /-- For each remainder modulo `256 * sizes.same`, the latest address that leaves it. -/
  same : Vector Nat (256 * sizes.same)
  /-- The slot of the ring that the next address goes into. -/
  nextSlot : Nat
  /-- The ring has this slot, unless it has none at all. -/
  inRing : sizes.near = 0 ∨ nextSlot < sizes.near
deriving DecidableEq

namespace AddressCache

def empty (sizes : CacheSizes) : AddressCache where
  sizes := sizes
  near := .replicate sizes.near 0
  same := .replicate (256 * sizes.same) 0
  nextSlot := 0
  inRing := Nat.eq_zero_or_pos sizes.near

instance : Inhabited AddressCache := ⟨empty .standard⟩

def reset (cache : AddressCache) : AddressCache :=
  empty cache.sizes

def sameIndex (cache : AddressCache) (address : Nat) : Nat :=
  address % (256 * cache.sizes.same)

def record (cache : AddressCache) (address : Nat) : AddressCache where
  sizes := cache.sizes
  near := cache.near.setIfInBounds cache.nextSlot address
  same := cache.same.setIfInBounds (cache.sameIndex address) address
  nextSlot := if cache.sizes.near = 0 then 0 else (cache.nextSlot + 1) % cache.sizes.near
  inRing := by
    by_cases h : cache.sizes.near = 0
    · exact .inl h
    · rw [if_neg h]
      exact .inr (Nat.mod_lt _ (Nat.pos_of_ne_zero h))

/-! ## Choosing a mode -/

/-- A mode and the number that is written for it. -/
structure Choice where
  mode : AddressMode
  value : Nat

def Choice.orSmaller (choice other : Choice) : Choice :=
  if other.value < choice.value then other else choice

/-- Of a choice and the NEAR slots from `slot` on, the one with the smallest number. -/
def nearest (address : Nat) (slot : Nat) : List Nat → Choice → Choice
  | [], choice => choice
  | near :: rest, choice =>
    nearest address (slot + 1) rest
      (if near ≤ address then choice.orSmaller ⟨.near slot, address - near⟩ else choice)

/-- The mode with the smallest number to write, the earlier mode of two with the same number. -/
def choose (cache : AddressCache) (address here : Nat) : Choice :=
  nearest address 0 cache.near.toList
    (Choice.orSmaller ⟨.self, address⟩ ⟨.here, here - address⟩)

/-- Writes an address. A SAME entry that holds it comes first, since it takes one byte only. -/
def encode (cache : AddressCache) (address here : Nat) :
    AddressMode × AddressCode × AddressCache :=
  let index := cache.sameIndex address
  if cache.same[index]? = some address then
    -- Pages hold 256 entries, so that the low byte is the place on the page.
    (.same (index / 256), .byte (UInt8.ofNat index), cache.record address)
  else
    let choice := cache.choose address here
    (choice.mode, .integer choice.value, cache.record address)

/-! ## Resolving a mode -/

def addressBound : Nat := UInt64.size

def signedDifference (a b : Nat) : Int :=
  ((a : Int) - (b : Int)).bmod addressBound

/-- The address that `value` names in a mode that is written as a number. -/
def resolve? (cache : AddressCache) (here : Nat) (mode : AddressMode) (value : Nat) : Option Nat :=
  match mode with
  | .self => some value
  | .here => if value ≤ here then some (here - value) else none
  | .near slot =>
    let address := cache.near[slot]?.getD 0 + value
    if address < addressBound then some address else none
  | .same page => cache.same[page * 256 + value]?

def readNumber (cache : AddressCache) (here : Nat) (mode : AddressMode) : Parser Nat := do
  let value ← Varint.parseInt32
  match cache.resolve? here mode value with
  | some address => pure address
  | none => Parser.malformed (.invalidAddress (signedDifference here value) here)

def readAddress (cache : AddressCache) (here : Nat) : AddressMode → Parser Nat
  | .same page => do
    let place ← Parser.byte
    pure ((cache.resolve? here (.same page) place.toNat).getD 0)
  | mode => cache.readNumber here mode

/-- Reads an address, checks that it lies before the current position, and records it. If it stops,
the caller's cache and cursor are still the ones in front of the address. -/
def decode (cache : AddressCache) (here mode : Nat) : Parser (Nat × AddressCache) := do
  match AddressMode.ofNumber? cache.sizes mode with
  | none => Parser.malformed (.invalidMode mode)
  | some addressMode =>
    if cache.sizes.resolvable && addressMode.inCache cache.sizes then
      let address ← cache.readAddress here addressMode
      -- Only an address that can be copied from is recorded.
      if address < here then pure (address, cache.record address)
      else Parser.malformed (.addressBeyondHere address here)
    else fun _ => .error .breach

/-! ## Reading an address moves forward -/

theorem reaches_readNumber {cache : AddressCache} {here address : Nat} {mode : AddressMode}
    {c c' : Cursor} (h : cache.readNumber here mode c = .ok (address, c')) : c.Reaches c' := by
  simp only [readNumber, bind, StateT.bind, Except.bind] at h
  cases hv : Varint.parseInt32 c with
  | error stop => simp [hv] at h
  | ok b =>
    obtain ⟨value, c₁⟩ := b
    simp only [hv] at h
    cases hr : cache.resolve? here mode value with
    | none => simp [hr, Parser.malformed] at h
    | some a =>
      rw [hr] at h
      cases h
      exact (Varint.reaches_parse hv).1

theorem reaches_readAddress {cache : AddressCache} {here address : Nat} {mode : AddressMode}
    {c c' : Cursor} (h : cache.readAddress here mode c = .ok (address, c')) : c.Reaches c' := by
  cases mode with
  | same page =>
    simp only [readAddress, bind, StateT.bind, Except.bind] at h
    cases hb : Parser.byte c with
    | error stop => simp [hb] at h
    | ok b =>
      obtain ⟨place, c₁⟩ := b
      rw [hb] at h
      cases h
      exact Parser.reaches_byte hb
  | self => exact @reaches_readNumber cache here address .self c c' h
  | here => exact @reaches_readNumber cache here address .here c c' h
  | near slot => exact @reaches_readNumber cache here address (.near slot) c c' h

theorem reaches_decode {cache cache' : AddressCache} {here mode address : Nat} {c c' : Cursor}
    (h : cache.decode here mode c = .ok ((address, cache'), c')) : c.Reaches c' := by
  cases hm : AddressMode.ofNumber? cache.sizes mode with
  | none => simp [decode, hm, Parser.malformed] at h
  | some addressMode =>
    by_cases hs : (cache.sizes.resolvable && addressMode.inCache cache.sizes) = true
    · simp only [decode, hm, hs, if_true, bind, StateT.bind, Except.bind] at h
      cases hb : cache.readAddress here addressMode c with
      | error stop => simp [hb] at h
      | ok b =>
        obtain ⟨a, c₁⟩ := b
        simp only [hb] at h
        by_cases ha : a < here
        · rw [if_pos ha] at h
          cases h
          exact reaches_readAddress hb
        · simp [ha, Parser.malformed] at h
    · simp [decode, hm, hs] at h

end AddressCache

end DeltaCoding
