import DeltaCoding.Proofs.Match.Finder

namespace DeltaCoding

namespace DictionaryIndex

variable {dictionary : Array UInt8} {index : DictionaryIndex} {chain : Array Nat}
  {lastIndex b block count stored : Nat} {blocks : List Nat}

/-! ## The blocks of a bucket -/

/-- The bucket of a block, in a table with the given last index. -/
def bucketOf (dictionary : Array UInt8) (lastIndex block : Nat) : Nat :=
  bucket (RollingHash.standard.hashAt dictionary (block * blockSize)) lastIndex

/-- Of the first `count` blocks, those in a bucket, the latest first. -/
def blocksIn (dictionary : Array UInt8) (lastIndex b count : Nat) : List Nat :=
  (List.range count).reverse.filter fun block => bucketOf dictionary lastIndex block = b

theorem blocksIn_succ : blocksIn dictionary lastIndex b (count + 1) =
    if bucketOf dictionary lastIndex count = b then
      count :: blocksIn dictionary lastIndex b count
    else blocksIn dictionary lastIndex b count := by
  rw [blocksIn, List.range_succ, List.reverse_append, List.reverse_singleton, List.singleton_append,
    List.filter_cons]
  simp only [decide_eq_true_eq]
  rfl

theorem mem_blocksIn : block ∈ blocksIn dictionary lastIndex b count ↔
    block < count ∧ bucketOf dictionary lastIndex block = b := by
  simp [blocksIn]

theorem pairwise_blocksIn : (blocksIn dictionary lastIndex b count).Pairwise (· > ·) :=
  (List.pairwise_reverse.2 List.pairwise_lt_range).filter _

theorem mem_take_iff {l : List Nat} {x n : Nat} (falling : l.Pairwise (· > ·)) (mem : x ∈ l) :
    x ∈ l.take n ↔ l.countP (x < ·) < n := by
  induction l generalizing n with
  | nil => cases mem
  | cons a rest ih =>
    obtain ⟨larger, falling⟩ := List.pairwise_cons.1 falling
    cases n with
    | zero => simp
    | succ n =>
      rw [List.take_succ_cons, List.mem_cons, List.countP_cons]
      rcases List.mem_cons.1 mem with rfl | later
      · have none : rest.countP (x < ·) = 0 := by
          rw [List.countP_eq_zero]
          intro y there
          have below := larger y there
          simp only [decide_eq_true_eq]
          omega
        simp [none]
      · have above := larger x later
        rw [ih falling later, if_pos (decide_eq_true above)]
        constructor
        · rintro (rfl | few)
          · omega
          · omega
        · intro few
          exact .inr (by omega)

/-! ## Chains -/

/-- The stored number leads along the chain through these blocks and no others. -/
inductive Links (chain : Array Nat) : (stored : Nat) → (blocks : List Nat) → Prop where
  | none : Links chain 0 []
  | block {block stored : Nat} {blocks : List Nat} (next : chain[block]? = some stored)
      (rest : Links chain stored blocks) : Links chain (block + 1) (block :: blocks)

theorem Links.push (links : Links chain stored blocks) (previous : Nat) :
    Links (chain.push previous) stored blocks := by
  induction links with
  | none => exact .none
  | block next _ ih =>
    have inside := (Array.getElem?_eq_some_iff.1 next).1
    exact .block (by rw [Array.getElem?_push_lt inside, ← next, Array.getElem?_eq_getElem inside]) ih

theorem Links.stored_le (links : Links chain stored blocks) : stored ≤ chain.size := by
  cases links with
  | none => exact Nat.zero_le _
  | block next _ => exact (Array.getElem?_eq_some_iff.1 next).1

theorem Links.follow_eq (links : Links chain stored blocks) (left : Nat) :
    follow chain left stored = (blocks.take left).map (· * blockSize) := by
  induction links generalizing left with
  | none => cases left <;> rfl
  | block next _ ih =>
    cases left with
    | zero => rfl
    | succ left =>
      rw [follow, next, Option.getD_some, ih left]
      rfl

/-! ## Building the index -/

/-- The first `count` blocks of the dictionary are in the index, and no others. -/
structure Indexes (index : DictionaryIndex) (count : Nat) : Prop where
  nonempty : 0 < index.buckets.size
  blocks : index.chain.size = count
  links : ∀ b ≤ index.lastIndex, Links index.chain (index.buckets[b]?.getD 0)
    (blocksIn index.dictionary index.lastIndex b count)
  chained : ∀ previous ∈ index.chain, previous ≤ count

theorem bucketOf_le (dictionary : Array UInt8) (lastIndex block : Nat) :
    bucketOf dictionary lastIndex block ≤ lastIndex :=
  Nat.and_le_right

/-- The block is stored in its bucket, and the number that was there in the chain. -/
theorem addBlock_eq (index : DictionaryIndex) (block : Nat) : index.addBlock block =
    let b := bucketOf index.dictionary index.lastIndex block
    { index with
      buckets := index.buckets.setIfInBounds b (block + 1)
      chain := index.chain.push (index.buckets[b]?.getD 0) } := by
  obtain ⟨dictionary, buckets, chain⟩ := index
  rfl

@[simp] theorem lastIndex_addBlock (index : DictionaryIndex) (block : Nat) :
    (index.addBlock block).lastIndex = index.lastIndex := by
  rw [addBlock_eq, lastIndex, Array.size_setIfInBounds, lastIndex]

theorem indexes_addBlock (indexes : index.Indexes count) :
    (index.addBlock count).Indexes (count + 1) := by
  obtain ⟨nonempty, blocks, links, chained⟩ := indexes
  have previous := links _ (bucketOf_le index.dictionary index.lastIndex count)
  refine ⟨?_, ?_, fun b bound => ?_, fun stored mem => ?_⟩
  · rwa [addBlock_eq, Array.size_setIfInBounds]
  · rw [addBlock_eq, Array.size_push, blocks]
  · rw [lastIndex_addBlock] at bound
    rw [lastIndex_addBlock, dictionary_addBlock, addBlock_eq, blocksIn_succ]
    simp only
    split
    · next mine =>
      have there : b < index.buckets.size := by
        rw [lastIndex] at bound
        omega
      rw [mine, Array.getElem?_setIfInBounds_self_of_lt there, Option.getD_some]
      rw [mine] at previous
      exact .block (by rw [← blocks, Array.getElem?_push_size]) (previous.push _)
    · next other =>
      rw [Array.getElem?_setIfInBounds_ne other]
      exact (links b bound).push _
  · rw [addBlock_eq] at mem
    rcases Array.mem_push.1 mem with old | rfl
    · exact Nat.le_succ_of_le (chained stored old)
    · exact Nat.le_succ_of_le (blocks ▸ previous.stored_le)

theorem indexes_range (dictionary : Array UInt8) (lastIndex count : Nat) :
    let index := (List.range count).foldl addBlock ⟨dictionary, .replicate (lastIndex + 1) 0, #[]⟩
    index.lastIndex = lastIndex ∧ index.Indexes count := by
  induction count with
  | zero =>
    refine ⟨by simp [DictionaryIndex.lastIndex], by simp, rfl, fun b bound => ?_, by simp⟩
    have there : b < lastIndex + 1 := by
      simpa [DictionaryIndex.lastIndex, Nat.lt_succ_iff] using bound
    simp only [List.range_zero, List.foldl_nil, Array.getElem?_replicate, if_pos there,
      Option.getD_some]
    exact .none
  | succ count ih =>
    rw [List.range_succ, List.foldl_append, List.foldl_cons, List.foldl_nil]
    exact ⟨(lastIndex_addBlock _ count).trans ih.1, indexes_addBlock ih.2⟩

theorem indexes_ofDictionary (few : dictionary.size / blockSize < UInt32.size - 1) :
    (ofDictionary dictionary).lastIndex = lastIndexFor (dictionary.size / blockSize) ∧
      (ofDictionary dictionary).Indexes (dictionary.size / blockSize) := by
  have count : countBlocks dictionary = dictionary.size / blockSize := by
    have size : UInt32.size = 0x100000000 := rfl
    rw [countBlocks, maxBlocks]
    omega
  rw [ofDictionary, count]
  exact indexes_range dictionary _ _

/-! ## Looking up -/

theorem Indexes.candidates_eq (indexes : index.Indexes count) (h : UInt32) :
    index.candidates h = ((blocksIn index.dictionary index.lastIndex (bucket h index.lastIndex)
      count).take maxCandidates).map (· * blockSize) :=
  (indexes.links _ Nat.and_le_right).follow_eq maxCandidates

theorem Indexes.stored_le (indexes : index.Indexes count) :
    ∀ stored ∈ index.buckets ++ index.chain, stored ≤ count := by
  intro stored mem
  rcases Array.mem_append.1 mem with bucket | chain
  · obtain ⟨b, bound, rfl⟩ := Array.mem_iff_getElem.1 bucket
    have links := indexes.links b (Nat.le_sub_one_of_lt bound)
    rw [Array.getElem?_eq_getElem bound, Option.getD_some] at links
    exact indexes.blocks ▸ links.stored_le
  · exact indexes.chained stored chain

/-- An index of a dictionary finds for a hash the last blocks in the hash's bucket, the latest first.
All the numbers that it stores fit in 32 bits. -/
theorem candidates_ofDictionary (dictionary : Array UInt8)
    (few : dictionary.size / blockSize < UInt32.size - 1) :
    let index := ofDictionary dictionary
    let count := dictionary.size / blockSize
    let lastIndex := lastIndexFor count
    (∀ h : UInt32,
      index.candidates h = ((blocksIn dictionary lastIndex (bucket h lastIndex) count).take
        maxCandidates).map (· * blockSize) ∧
      (index.candidates h).Pairwise (· > ·) ∧
      ∀ offset ∈ index.candidates h, offset + blockSize ≤ dictionary.size) ∧
    (∀ block < count, block * blockSize ∈
        index.candidates (RollingHash.standard.hashAt dictionary (block * blockSize)) ↔
      (blocksIn dictionary lastIndex (bucketOf dictionary lastIndex block) count).countP
        (block < ·) < maxCandidates) ∧
    ∀ stored ∈ index.buckets ++ index.chain, stored < UInt32.size := by
  intro index count lastIndex
  obtain ⟨last, indexes⟩ := indexes_ofDictionary few
  have candidates (h : UInt32) : index.candidates h = ((blocksIn dictionary lastIndex
      (bucket h lastIndex) count).take maxCandidates).map (· * blockSize) := by
    rw [indexes.candidates_eq h, last, dictionary_ofDictionary]
  have positive : 0 < blockSize := by decide
  refine ⟨fun h => ⟨candidates h, ?_, fun offset mem => ?_⟩, fun block bound => ?_,
    fun stored mem => ?_⟩
  · rw [candidates h]
    exact (pairwise_blocksIn.take).map _ fun a b larger => Nat.mul_lt_mul_of_pos_right larger positive
  · rw [candidates h] at mem
    obtain ⟨block, found, rfl⟩ := List.mem_map.1 mem
    have bound := (mem_blocksIn.1 (List.mem_of_mem_take found)).1
    calc block * blockSize + blockSize = (block + 1) * blockSize := (Nat.succ_mul _ _).symm
      _ ≤ dictionary.size / blockSize * blockSize := Nat.mul_le_mul_right _ bound
      _ ≤ dictionary.size := Nat.div_mul_le_self _ _
  · have mine : block ∈ blocksIn dictionary lastIndex (bucketOf dictionary lastIndex block) count :=
      mem_blocksIn.2 ⟨bound, rfl⟩
    rw [candidates, ← mem_take_iff pairwise_blocksIn mine]
    constructor
    · intro mem
      obtain ⟨other, found, same⟩ := List.mem_map.1 mem
      obtain rfl := Nat.eq_of_mul_eq_mul_right positive same
      exact found
    · exact List.mem_map_of_mem
  · have bound := indexes.stored_le stored mem
    omega

/-- Three times the same block: the other two are behind the latest. -/
theorem candidates_ofDictionary_repeated :
    let dictionary := Array.replicate 50 (7 : UInt8)
    let h := RollingHash.standard.hashAt dictionary 0
    dictionary.size / blockSize < UInt32.size - 1 ∧
      (ofDictionary dictionary).candidates h = [32, 16, 0] ∧
      0 * blockSize ∈ (ofDictionary dictionary).candidates h := by
  intro dictionary h
  have few : dictionary.size / blockSize < UInt32.size - 1 := by decide
  obtain ⟨found, own, -⟩ := candidates_ofDictionary dictionary few
  refine ⟨few, ?_, (own 0 (by decide)).2 (by decide +kernel)⟩
  rw [(found h).1]
  decide +kernel

end DictionaryIndex

end DeltaCoding
