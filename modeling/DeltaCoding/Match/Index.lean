import DeltaCoding.Match.RollingHash

/-!
# Where a hash has been seen

`DictionaryIndex` knows the aligned blocks of a dictionary by their hashes. Blocks of the same
bucket are chained, the latest first, and a look-up follows the chain for a bounded number of
blocks.

`TargetIndex` knows positions of the target that have been passed. A bucket holds one position, the
latest.

Both store a number one higher than the block or position, so that zero is left for "none".
-/

namespace DeltaCoding

/-! ## Blocks of a dictionary -/

/-- The blocks of a dictionary by hash. -/
structure DictionaryIndex where
  dictionary : Array UInt8
  /-- For each bucket, one more than its latest block, or zero. -/
  buckets : Array Nat
  /-- For each block, one more than the block before it in its bucket, or zero. -/
  chain : Array Nat
deriving Inhabited

namespace DictionaryIndex

def maxCandidates : Nat := 32

def maxBlocks : Nat := 0xFFFFFFFE

def countBlocks (dictionary : Array UInt8) : Nat :=
  min (dictionary.size / blockSize) maxBlocks

def lastIndexFor (blocks : Nat) : Nat :=
  (max blocks 1).nextPowerOfTwo - 1

def lastIndex (index : DictionaryIndex) : Nat :=
  index.buckets.size - 1

def addBlock (index : DictionaryIndex) (block : Nat) : DictionaryIndex :=
  match index with
  | ⟨dictionary, buckets, chain⟩ =>
    let b := bucket (RollingHash.standard.hashAt dictionary (block * blockSize)) (buckets.size - 1)
    let previous := buckets[b]?.getD 0
    ⟨dictionary, buckets.setIfInBounds b (block + 1), chain.push previous⟩

def ofDictionary (dictionary : Array UInt8) : DictionaryIndex :=
  let blocks := countBlocks dictionary
  (List.range blocks).foldl addBlock
    ⟨dictionary, .replicate (lastIndexFor blocks + 1) 0, #[]⟩

def blockCount (index : DictionaryIndex) : Nat :=
  index.chain.size

/-- Follows a chain for at most `left` blocks from a stored number on. -/
def follow (chain : Array Nat) : (left stored : Nat) → List Nat
  | left + 1, block + 1 => block * blockSize :: follow chain left (chain[block]?.getD 0)
  | _, _ => []

/-- The offsets of the blocks in the bucket of a hash, the latest first. -/
def candidates (index : DictionaryIndex) (h : UInt32) : List Nat :=
  follow index.chain maxCandidates (index.buckets[bucket h index.lastIndex]?.getD 0)

end DictionaryIndex

/-! ## Positions of the target -/

/-- Positions of a target by hash. -/
structure TargetIndex where
  /-- For each bucket, one more than its latest position, or zero. -/
  buckets : Array Nat
deriving Inhabited

namespace TargetIndex

def positionBound : Nat := 0xFFFFFFFE

def sizeFor (targetLength : Nat) : Nat :=
  (max 16 (min targetLength (1024 * 1024))).nextPowerOfTwo

def ofLength (targetLength : Nat) : TargetIndex :=
  ⟨.replicate (sizeFor targetLength) 0⟩

def insert (index : TargetIndex) (h : UInt32) (position : Nat) : TargetIndex :=
  match index with
  | ⟨buckets⟩ =>
    if position < positionBound then
      ⟨buckets.setIfInBounds (bucket h (buckets.size - 1)) (position + 1)⟩
    else ⟨buckets⟩

def lookup? (index : TargetIndex) (h : UInt32) : Option Nat :=
  match index.buckets[bucket h (index.buckets.size - 1)]?.getD 0 with
  | 0 => none
  | position + 1 => some position

end TargetIndex

end DeltaCoding
