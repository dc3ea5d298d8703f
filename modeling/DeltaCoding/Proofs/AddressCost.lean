import DeltaCoding.Proofs.AddressCache
import DeltaCoding.Proofs.Varint.Codec

/-!
# The cheapest form of an address

Whatever a cache has been used for, a writer gets an address into as few bytes as a reader with the
same cache can be told it in, in whatever mode and with however many zeros in front
(`AddressCache.encode_cheapest`).

In the modes that are written as numbers, the writer's choice has the smallest number
(`AddressCache.choose_le`), and smaller numbers have no longer forms. The SAME modes take one byte. The
writer looks for an address at one place of their pages only, and it is at no other place, since every
place holds zero or an address that belongs there (`AddressCache.Filed`). Only zero may be found at a
place where it does not belong; but the address zero is short enough as it is.
-/

namespace DeltaCoding

namespace AddressCache

variable {cache cache' : AddressCache} {address here mode : Nat} {bytes : List UInt8}
  {c c' : Cursor}

/-- Addresses have been written and read with the cache, in any order, since it was reset. -/
inductive Used : AddressCache → Prop where
  | reset (cache : AddressCache) : Used cache.reset
  | encode {cache : AddressCache} (before : Used cache) (address here : Nat) :
      Used (cache.encode address here).2.2
  | decode {cache cache' : AddressCache} {here mode address : Nat} {c c' : Cursor}
      (before : Used cache) (read : cache.decode here mode c = .ok ((address, cache'), c')) :
      Used cache'

/-- All of the bytes are read as the address, in the mode with the given number. -/
def Spells (cache : AddressCache) (here address mode : Nat) (bytes : List UInt8) : Prop :=
  ∃ cache', cache.decode here mode (.ofBytes bytes) = .ok ((address, cache'), ⟨bytes.length, []⟩)

/-! ## The pages of the SAME cache -/

/-- Each place of the pages holds zero or an address that belongs there. -/
def Filed (cache : AddressCache) : Prop :=
  ∀ index address : Nat, cache.same[index]? = some address →
    address = 0 ∨ cache.sameIndex address = index

theorem filed_empty (sizes : CacheSizes) : (empty sizes).Filed := by
  intro index address entry
  obtain ⟨inside, value⟩ := Vector.getElem?_eq_some_iff.1 entry
  left
  rw [← value]
  exact Vector.getElem_replicate _

theorem Filed.record (filed : cache.Filed) (address : Nat) : (cache.record address).Filed := by
  intro index other entry
  have entry : (cache.same.setIfInBounds (cache.sameIndex address) address)[index]? = some other :=
    entry
  rw [Vector.getElem?_setIfInBounds] at entry
  split at entry
  · next place =>
    split at entry
    · cases entry
      exact .inr place
    · cases entry
  · exact filed index other entry

theorem Used.filed (used : cache.Used) : cache.Filed := by
  induction used with
  | reset cache => exact filed_empty cache.sizes
  | encode before address here ih =>
    rw [sizes_encode]
    exact ih.record address
  | decode before read ih =>
    obtain ⟨-, rfl⟩ := decode_ok read
    exact ih.record _

/-! ## The writer's number -/

theorem Choice.orSmaller_le (choice other : Choice) :
    (choice.orSmaller other).value ≤ choice.value ∧
      (choice.orSmaller other).value ≤ other.value := by
  unfold orSmaller
  split
  · next smaller => exact ⟨Nat.le_of_lt smaller, Nat.le_refl _⟩
  · next larger => exact ⟨Nat.le_refl _, Nat.not_lt.1 larger⟩

theorem nearest_le (address slot : Nat) (entries : List Nat) (choice : Choice) :
    (nearest address slot entries choice).value ≤ choice.value := by
  induction entries generalizing slot choice with
  | nil => exact Nat.le_refl _
  | cons near rest ih =>
    refine Nat.le_trans (ih (slot + 1) _) ?_
    split
    · exact (choice.orSmaller_le _).1
    · exact Nat.le_refl _

theorem nearest_le_distance {entries : List Nat} {near : Nat} (entry : near ∈ entries)
    (below : near ≤ address) (slot : Nat) (choice : Choice) :
    (nearest address slot entries choice).value ≤ address - near := by
  induction entry generalizing slot choice with
  | head rest =>
    refine Nat.le_trans (nearest_le address (slot + 1) rest _) ?_
    rw [if_pos below]
    exact (choice.orSmaller_le _).2
  | tail other _ ih => exact ih (slot + 1) _

/-- No number that names the address is smaller than the one that the writer chooses. -/
theorem choose_le {addressMode : AddressMode} {value : Nat}
    (isNumber : ∀ page, addressMode ≠ .same page)
    (inside : addressMode.inCache cache.sizes = true)
    (names : cache.resolve? here addressMode value = some address) :
    (cache.choose address here).value ≤ value := by
  have first : (cache.choose address here).value ≤ _ := nearest_le address 0 cache.near.toList
    (Choice.orSmaller ⟨.self, address⟩ ⟨.here, here - address⟩)
  have smaller := Choice.orSmaller_le ⟨.self, address⟩ ⟨.here, here - address⟩
  cases addressMode with
  | self =>
    cases names
    exact Nat.le_trans first smaller.1
  | here =>
    simp only [resolve?] at names
    split at names
    · next reaches =>
      cases names
      have distance : here - (here - value) = value := Nat.sub_sub_self reaches
      exact Nat.le_trans first (Nat.le_trans smaller.2 (Nat.le_of_eq distance))
    · cases names
  | near slot =>
    have bound : slot < cache.near.toList.length := by
      rw [Vector.length_toList]
      exact of_decide_eq_true inside
    have stored : cache.near[slot]? = some cache.near.toList[slot] := by
      rw [← Vector.getElem?_toList, List.getElem?_eq_getElem bound]
    simp only [resolve?, stored, Option.getD_some] at names
    split at names
    · cases names
      have found := @nearest_le_distance (cache.near.toList[slot] + value) cache.near.toList _
        (List.getElem_mem bound) (Nat.le_add_right _ _) 0
        (Choice.orSmaller ⟨.self, cache.near.toList[slot] + value⟩
          ⟨.here, here - (cache.near.toList[slot] + value)⟩)
      rwa [Nat.add_sub_cancel_left] at found
    · cases names
  | same page => exact absurd rfl (isNumber page)

/-! ## What a reader can be told -/

theorem resolved_of_readNumber {addressMode : AddressMode}
    (read : cache.readNumber here addressMode c = .ok (address, c')) :
    ∃ value, cache.resolve? here addressMode value = some address ∧
      ∃ bytes, c.Takes bytes c' ∧ Varint.encodedLength value ≤ bytes.length := by
  obtain ⟨value, c₁, number, named⟩ := Parser.bind_eq_ok read
  obtain ⟨bytes, terminated, -, digits, -, takes⟩ := Varint.parse_eq_ok_iff.1 number
  cases resolved : cache.resolve? here addressMode value with
  | none =>
    rw [resolved] at named
    cases named
  | some found =>
    rw [resolved] at named
    cases named
    exact ⟨value, resolved, bytes, takes, Varint.encodedLength_le_length terminated digits⟩

/-- An address is told by a number that names it, or by a place where it is. -/
theorem Spells.cases (h : cache.Spells here address mode bytes) :
    (∃ addressMode value, (∀ page, addressMode ≠ AddressMode.same page) ∧
      addressMode.inCache cache.sizes = true ∧
      cache.resolve? here addressMode value = some address ∧
      Varint.encodedLength value ≤ bytes.length) ∨
    (∃ index : Nat, cache.same[index]? = some address) ∧ bytes.length = 1 := by
  obtain ⟨cache', read⟩ := h
  obtain ⟨addressMode, numbered, told, -⟩ := decode_mode read
  have inside := AddressMode.inCache_of_ofNumber? numbered
  by_cases isPage : ∃ page, addressMode = .same page
  · obtain ⟨page, rfl⟩ := isPage
    obtain ⟨place, c₂, byte, there⟩ := Parser.bind_eq_ok told
    cases there
    refine .inr ⟨⟨page * 256 + place.toNat, ?_⟩, (Parser.takes_byte byte).2⟩
    have within : page < cache.sizes.same := of_decide_eq_true inside
    have low := place.toNat_lt
    have bound : page * 256 + place.toNat < 256 * cache.sizes.same := by omega
    simp only [resolve?, Vector.getElem?_eq_getElem bound, Option.getD_some]
  · have isNumber (page : Nat) (h : addressMode = .same page) : False := isPage ⟨page, h⟩
    rw [readAddress_number isNumber] at told
    obtain ⟨value, resolved, taken, takes, length⟩ := resolved_of_readNumber told
    refine .inl ⟨addressMode, value, isNumber, inside, resolved, ?_⟩
    have ends : bytes.length = 0 + taken.length := takes.2
    rwa [ends, Nat.zero_add]

/-! ## The cheapest form -/

theorem length_encode_same (stored : cache.same[cache.sameIndex address]? = some address)
    (here : Nat) : (cache.encode address here).2.1.toBytes.length = 1 := by
  simp only [encode, stored, if_true]
  rfl

theorem length_encode_choose (cache : AddressCache) (address here : Nat) :
    (cache.encode address here).2.1.toBytes.length ≤
      Varint.encodedLength (cache.choose address here).value := by
  by_cases stored : cache.same[cache.sameIndex address]? = some address
  · rw [length_encode_same stored]
    exact Varint.encodedLength_pos _
  · simp only [encode, if_neg stored, AddressCode.toBytes, Varint.length_encode]
    exact Nat.le_refl _

theorem length_encode_le_of_spells (filed : cache.Filed)
    (spells : cache.Spells here address mode bytes) :
    (cache.encode address here).2.1.toBytes.length ≤ bytes.length := by
  obtain ⟨addressMode, value, isNumber, inside, named, length⟩ | ⟨⟨index, stored⟩, single⟩ :=
    spells.cases
  · calc (cache.encode address here).2.1.toBytes.length
        ≤ Varint.encodedLength (cache.choose address here).value :=
          length_encode_choose cache address here
      _ ≤ Varint.encodedLength value :=
          Varint.encodedLength_mono (choose_le isNumber inside named)
      _ ≤ bytes.length := length
  · rw [single]
    obtain rfl | rfl := filed index address stored
    · have zero : (cache.choose 0 here).value ≤ 0 :=
        choose_le (fun _ h => by cases h) rfl (show cache.resolve? here .self 0 = some 0 from rfl)
      exact Nat.le_trans (length_encode_choose cache 0 here) (Varint.encodedLength_mono zero)
    · rw [length_encode_same stored]

/-- What a writer makes of an address is read as the address by a reader with the same cache, and
nothing shorter is, in any mode. -/
theorem encode_cheapest (used : cache.Used) (sizes : cache.sizes.near ≤ 253)
    (before : address < here) (field : address ≤ Varint.maxInt32) :
    let written := cache.encode address here
    cache.Spells here address (written.1.number cache.sizes) written.2.1.toBytes ∧
      ∀ other bytes, cache.Spells here address other bytes →
        written.2.1.toBytes.length ≤ bytes.length := by
  have resolvable : cache.sizes.resolvable = true := by
    have : 2 + cache.sizes.near ≤ 255 := by omega
    exact decide_eq_true this
  obtain ⟨-, reads⟩ := @reads_encode cache _ address here _ _ resolvable before field rfl
  refine ⟨⟨_, reads _ _ ⟨?_, ?_⟩⟩, fun other bytes spells => ?_⟩
  · exact (List.append_nil _).symm
  · exact (Nat.zero_add _).symm
  · exact length_encode_le_of_spells used.filed spells

/-- The entry for zero has been overwritten. Zero is written as a number then, although it is still at
other places of the page. -/
theorem encode_cheapest_zero :
    let cache := ((AddressCache.empty ⟨1, 1, by decide⟩).encode 256 1000).2.2
    cache.Used ∧ cache.sizes.near ≤ 253 ∧ 0 < 1000 ∧ 0 ≤ Varint.maxInt32 ∧
      cache.Spells 1000 0 0 [0] ∧
        ∀ other bytes, cache.Spells 1000 0 other bytes → 1 ≤ bytes.length := by
  intro cache
  have used : cache.Used := (Used.reset (.empty ⟨1, 1, by decide⟩)).encode 256 1000
  have sizes : cache.sizes = ⟨1, 1, by decide⟩ := rfl
  have near : cache.sizes.near ≤ 253 := by
    rw [sizes]
    decide
  have overwritten : cache.same[cache.sameIndex 0]? ≠ some 0 := by decide +kernel
  have chosen : cache.choose 0 1000 = ⟨.self, 0⟩ := rfl
  have form : (AddressCode.integer 0).toBytes = [0] := by simp [AddressCode.toBytes, Varint.encode]
  have cheapest := @encode_cheapest cache 0 1000 used near (by decide) (by decide)
  simp only [encode, if_neg overwritten, chosen, form] at cheapest
  exact ⟨used, near, by decide, by decide, cheapest⟩

end AddressCache

end DeltaCoding
