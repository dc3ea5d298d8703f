import DeltaCoding.AddressCache
import DeltaCoding.Proofs.Varint

/-!
# Writer and reader caches in lock step

A mode that a writer chooses names the address to a reader with the same cache: the mode's number is
read back as the mode, and the bytes behind it as the address (`reads_encode`). Both then record the
address, so that their caches stay the same.

The writer's search keeps one invariant, `Choice.Names`: the best choice so far names the address.
-/

namespace DeltaCoding

namespace AddressMode

theorem inCache_of_ofNumber? {sizes : CacheSizes} {number : Nat} {mode : AddressMode}
    (h : ofNumber? sizes number = some mode) : mode.inCache sizes = true := by
  unfold ofNumber? at h
  split at h
  · cases h
  · next bound =>
    simp only [CacheSizes.maxMode] at bound
    split at h
    · cases h; rfl
    · split at h
      · cases h; rfl
      · split at h
        · next near =>
          cases h
          simp only [CacheSizes.firstSameMode] at near
          exact decide_eq_true (by omega)
        · next near =>
          cases h
          simp only [CacheSizes.firstSameMode] at near ⊢
          exact decide_eq_true (by omega)

theorem ofNumber?_number {sizes : CacheSizes} {mode : AddressMode}
    (h : mode.inCache sizes = true) : ofNumber? sizes (mode.number sizes) = some mode := by
  cases mode with
  | self => rfl
  | here =>
    have : ¬ 1 > sizes.maxMode := by simp only [CacheSizes.maxMode]; omega
    simp [ofNumber?, number, this]
  | near slot =>
    have inside : slot < sizes.near := of_decide_eq_true h
    have below : ¬ 2 + slot > sizes.maxMode := by simp only [CacheSizes.maxMode]; omega
    have isNear : 2 + slot < sizes.firstSameMode := by simp only [CacheSizes.firstSameMode]; omega
    simp only [ofNumber?, number, below, isNear, if_false, if_true]
    rw [if_neg (by omega), if_neg (by omega), Nat.add_sub_cancel_left]
  | same page =>
    have inside : page < sizes.same := of_decide_eq_true h
    have below : ¬ sizes.firstSameMode + page > sizes.maxMode := by
      simp only [CacheSizes.maxMode, CacheSizes.firstSameMode]; omega
    have isSame : ¬ sizes.firstSameMode + page < sizes.firstSameMode := by omega
    simp only [ofNumber?, number, below, isSame, if_false]
    rw [if_neg (by simp only [CacheSizes.firstSameMode]; omega),
      if_neg (by simp only [CacheSizes.firstSameMode]; omega), Nat.add_sub_cancel_left]

theorem number_le {sizes : CacheSizes} {mode : AddressMode} (h : mode.inCache sizes = true) :
    mode.number sizes ≤ sizes.maxMode := by
  cases mode with
  | self => exact Nat.zero_le _
  | here => simp only [number, CacheSizes.maxMode]; omega
  | near slot =>
    have inside : slot < sizes.near := of_decide_eq_true h
    simp only [number, CacheSizes.maxMode]; omega
  | same page =>
    have inside : page < sizes.same := of_decide_eq_true h
    simp only [number, CacheSizes.maxMode, CacheSizes.firstSameMode]; omega

end AddressMode

namespace AddressCache

theorem sizes_encode (cache : AddressCache) (address here : Nat) :
    (cache.encode address here).2.2 = cache.record address := by
  simp only [encode]
  split <;> rfl

/-! ## Reading is local -/

theorem local_readNumber (cache : AddressCache) (here : Nat) (mode : AddressMode) :
    (cache.readNumber here mode).Local := by
  apply Varint.local_parseInt32.bind
  intro value
  split
  · exact .pure _
  · exact .malformed _

theorem local_readAddress (cache : AddressCache) (here : Nat) (mode : AddressMode) :
    (cache.readAddress here mode).Local := by
  cases mode with
  | same page => exact Parser.local_byte.bind fun _ => .pure _
  | self => exact local_readNumber cache here .self
  | here => exact local_readNumber cache here .here
  | near slot => exact local_readNumber cache here (.near slot)

theorem local_decode (cache : AddressCache) (here mode : Nat) : (cache.decode here mode).Local := by
  unfold decode
  split
  · exact .malformed _
  · split
    · exact (local_readAddress _ _ _).bind fun _ => .ite (.pure _) (.malformed _)
    · exact .stop _

/-! ## Reading has an answer -/

theorem answers_readNumber (cache : AddressCache) (here : Nat) (mode : AddressMode) :
    (cache.readNumber here mode).Answers := by
  apply Varint.answers_parseInt32.bind
  intro value
  split
  · exact .pure _
  · exact .malformed _

theorem answers_readAddress (cache : AddressCache) (here : Nat) (mode : AddressMode) :
    (cache.readAddress here mode).Answers := by
  cases mode with
  | same page => exact Parser.answers_byte.bind fun _ => .pure _
  | self => exact answers_readNumber cache here .self
  | here => exact answers_readNumber cache here .here
  | near slot => exact answers_readNumber cache here (.near slot)

theorem answers_decode {cache : AddressCache} (resolvable : cache.sizes.resolvable = true)
    (here mode : Nat) : (cache.decode here mode).Answers := by
  simp only [decode]
  split
  · exact .malformed _
  · next addressMode numbered =>
    rw [resolvable, AddressMode.inCache_of_ofNumber? numbered, Bool.and_self, if_pos rfl]
    exact (answers_readAddress _ _ _).bind fun _ => .ite (.pure _) (.malformed _)

theorem decode_mode {cache cache' : AddressCache} {here mode address : Nat} {c c' : Cursor}
    (h : cache.decode here mode c = .ok ((address, cache'), c')) :
    ∃ addressMode, AddressMode.ofNumber? cache.sizes mode = some addressMode ∧
      cache.readAddress here addressMode c = .ok (address, c') ∧ address < here ∧
      cache' = cache.record address := by
  cases numbered : AddressMode.ofNumber? cache.sizes mode with
  | none =>
    simp only [decode, numbered] at h
    cases h
  | some addressMode =>
    simp only [decode, numbered] at h
    by_cases there : (cache.sizes.resolvable && addressMode.inCache cache.sizes) = true
    · rw [if_pos there] at h
      obtain ⟨found, c₁, read, h⟩ := Parser.bind_eq_ok h
      by_cases before : found < here
      · rw [if_pos before] at h
        cases h
        exact ⟨addressMode, rfl, read, before, rfl⟩
      · rw [if_neg before] at h
        cases h
    · rw [if_neg there] at h
      cases h

theorem decode_ok {cache cache' : AddressCache} {here mode address : Nat} {c c' : Cursor}
    (h : cache.decode here mode c = .ok ((address, cache'), c')) :
    address < here ∧ cache' = cache.record address := by
  obtain ⟨-, -, -, recorded⟩ := decode_mode h
  exact recorded

theorem readAddress_number {mode : AddressMode} (isNumber : ∀ page, mode ≠ .same page)
    (cache : AddressCache) (here : Nat) :
    cache.readAddress here mode = cache.readNumber here mode := by
  cases mode with
  | same page => exact absurd rfl (isNumber page)
  | self | here | near _ => rfl

theorem readAddress_nil (cache : AddressCache) (here offset : Nat) (mode : AddressMode) :
    cache.readAddress here mode ⟨offset, []⟩ = .error .needMoreData := by
  cases mode <;> rfl

theorem nonempty_of_reads {cache cache' : AddressCache} {here mode address : Nat}
    {bytes : List UInt8} (reads : (cache.decode here mode).Reads bytes (address, cache')) :
    bytes ≠ [] := by
  rintro rfl
  obtain ⟨addressMode, -, read, -⟩ := decode_mode (reads ⟨0, []⟩ _ (.refl _))
  rw [readAddress_nil] at read
  cases read

/-! ## The writer's choice -/

theorem reads_resolved {cache : AddressCache} {here address value : Nat} {mode : AddressMode}
    (isNumber : ∀ page, mode ≠ .same page) (bound : value ≤ Varint.maxInt32)
    (names : cache.resolve? here mode value = some address) :
    (cache.readAddress here mode).Reads (Varint.encode value) address := by
  have number : (cache.readNumber here mode).Reads (Varint.encode value) address :=
    (Varint.reads_encode_int32 bound).bind_pure fun c => by rw [names]; rfl
  cases mode with
  | same page => exact absurd rfl (isNumber page)
  | self => exact number
  | here => exact number
  | near slot => exact number

/-- The choice is a mode of the cache in which its number is read as the address. -/
def Choice.Names (cache : AddressCache) (address here : Nat) (choice : Choice) : Prop :=
  choice.mode.inCache cache.sizes = true ∧ choice.value ≤ address ∧
    (cache.readAddress here choice.mode).Reads (Varint.encode choice.value) address

theorem names_self {cache : AddressCache} {address here : Nat} (field : address ≤ Varint.maxInt32) :
    Choice.Names cache address here ⟨.self, address⟩ :=
  ⟨rfl, Nat.le_refl _, reads_resolved (fun _ h => by cases h) field rfl⟩

theorem names_here {cache : AddressCache} {address here : Nat} (before : address < here)
    (field : address ≤ Varint.maxInt32) (smaller : here - address ≤ address) :
    Choice.Names cache address here ⟨.here, here - address⟩ := by
  have value : here - address ≤ Varint.maxInt32 := by omega
  have distance : here - address ≤ here := Nat.sub_le _ _
  refine ⟨rfl, smaller, reads_resolved (fun _ h => by cases h) value ?_⟩
  simp only [resolve?, if_pos distance, Nat.sub_sub_self (Nat.le_of_lt before)]

theorem names_near {cache : AddressCache} {address here slot near : Nat}
    (field : address ≤ Varint.maxInt32) (entry : cache.near.toList[slot]? = some near)
    (below : near ≤ address) : Choice.Names cache address here ⟨.near slot, address - near⟩ := by
  have inside : slot < cache.sizes.near := by
    have := (List.getElem?_eq_some_iff.1 entry).1
    simpa using this
  have stored : cache.near[slot]? = some near := by
    rw [← entry, Vector.getElem?_toList]
  have value : address - near ≤ Varint.maxInt32 := by omega
  refine ⟨decide_eq_true inside, Nat.sub_le _ _, reads_resolved (fun _ h => by cases h) value ?_⟩
  have sum : near + (address - near) = address := by omega
  simp only [resolve?, stored, Option.getD_some, sum]
  rw [if_pos (Nat.lt_of_le_of_lt field (by decide))]

theorem names_nearest {cache : AddressCache} {address here slot : Nat} {entries : List Nat}
    {choice : Choice} (field : address ≤ Varint.maxInt32)
    (ring : ∀ i near, entries[i]? = some near → cache.near.toList[slot + i]? = some near)
    (h : choice.Names cache address here) :
    (nearest address slot entries choice).Names cache address here := by
  -- By the entries that are left. Each of them is at its own slot of the ring.
  induction entries generalizing slot choice with
  | nil => exact h
  | cons near rest ih =>
    refine ih (fun i near' hi => ?_) ?_
    · rw [show slot + 1 + i = slot + (i + 1) by omega]
      exact ring (i + 1) near' hi
    · split
      · next below =>
        unfold Choice.orSmaller
        split
        · exact names_near field (ring 0 near rfl) below
        · exact h
      · exact h

theorem names_choose {cache : AddressCache} {address here : Nat} (before : address < here)
    (field : address ≤ Varint.maxInt32) : (cache.choose address here).Names cache address here := by
  apply names_nearest field (fun i near hi => by simpa using hi)
  unfold Choice.orSmaller
  split
  · next smaller => exact names_here before field (Nat.le_of_lt smaller)
  · exact names_self field

/-! ## Lock step -/

/-- What a writer's cache makes of an address, a reader with the same cache makes the address of,
and records it as the writer does. -/
theorem reads_encode {cache cache' : AddressCache} {address here : Nat} {mode : AddressMode}
    {code : AddressCode} (resolvable : cache.sizes.resolvable = true) (before : address < here)
    (field : address ≤ Varint.maxInt32) (h : cache.encode address here = (mode, code, cache')) :
    mode.inCache cache.sizes = true ∧
      (cache.decode here (mode.number cache.sizes)).Reads code.toBytes (address, cache') := by
  have decoded {mode : AddressMode} {bytes : List UInt8} (inside : mode.inCache cache.sizes = true)
      (reads : (cache.readAddress here mode).Reads bytes address) :
      (cache.decode here (mode.number cache.sizes)).Reads bytes (address, cache.record address) := by
    simp only [decode, AddressMode.ofNumber?_number inside, resolvable, inside, Bool.and_self,
      if_true]
    exact reads.bind_pure fun c => by rw [if_pos before]; rfl
  simp only [encode] at h
  split at h
  · next stored =>
    cases h
    have inside : cache.sameIndex address < 256 * cache.sizes.same :=
      (Vector.getElem?_eq_some_iff.1 stored).1
    have page : (AddressMode.same (cache.sameIndex address / 256)).inCache cache.sizes = true :=
      decide_eq_true (by omega)
    refine ⟨page, decoded page ?_⟩
    apply (Parser.reads_byte _).bind_pure
    intro c
    have place : cache.sameIndex address / 256 * 256 +
        (UInt8.ofNat (cache.sameIndex address)).toNat = cache.sameIndex address := by
      rw [UInt8.toNat_ofNat']; omega
    simp only [resolve?, place, stored, Option.getD_some]
    rfl
  · cases h
    obtain ⟨inside, _, reads⟩ := @names_choose cache address here before field
    exact ⟨inside, decoded inside reads⟩

theorem length_encode_le {cache : AddressCache} {address here : Nat} (before : address < here)
    (field : address ≤ Varint.maxInt32) : (cache.encode address here).2.1.toBytes.length ≤ 5 := by
  simp only [encode]
  split
  · simp [AddressCode.toBytes]
  · have small := (@names_choose cache address here before field).2.1
    simp only [AddressCode.toBytes, Varint.length_encode]
    exact Varint.encodedLength_le_int32 (Nat.le_trans small field)

end AddressCache

end DeltaCoding
