import DeltaCoding.CodeTable.Standard
import DeltaCoding.Proofs.Window.Body

namespace DeltaCoding

/-- An address and the position that refers to it. -/
structure Reference where
  address : Nat
  here : Nat
deriving DecidableEq

/-- The address lies before the position and fits the field that addresses are written in. -/
structure Reference.Writable (reference : Reference) : Prop where
  before : reference.address < reference.here
  field : reference.address ≤ Varint.maxInt32

namespace AddressCache

variable {writer reader : AddressCache}

/-- What the writer makes of one address after the other brings the same addresses to the reader, and
the two caches are equal in front of each of them and behind the last. -/
def InStep (writer reader : AddressCache) : List Reference → Prop
  | [] => writer = reader
  | ⟨address, here⟩ :: rest =>
    match writer.encode address here with
    | (mode, code, writer') =>
      let number := mode.number writer.sizes
      writer = reader ∧ number ≤ writer.sizes.maxMode ∧
        (∀ part missing, code.toBytes = part ++ missing → missing ≠ [] → ∀ offset,
          reader.decode here number ⟨offset, part⟩ = .error .needMoreData) ∧
        ∃ reader', (reader.decode here number).Reads code.toBytes (address, reader') ∧
          InStep writer' reader' rest

/-- Caches that are in step behind an address were in step in front of it. -/
theorem inStep_encode {cache : AddressCache} {reference : Reference} {rest : List Reference}
    (resolvable : cache.sizes.resolvable = true) (writable : reference.Writable)
    (behind : (cache.record reference.address).InStep (cache.record reference.address) rest) :
    cache.InStep cache (reference :: rest) := by
  obtain ⟨address, here⟩ := reference
  obtain ⟨before, field⟩ := writable
  have recorded := sizes_encode cache address here
  cases encoded : cache.encode address here with | mk mode out =>
  obtain ⟨code, cache'⟩ := out
  rw [encoded] at recorded
  obtain ⟨inside, reads⟩ := reads_encode resolvable before field encoded
  simp only [InStep, encoded, true_and]
  refine ⟨AddressMode.number_le inside, ?_, cache', reads, ?_⟩
  · intro part missing split something offset
    exact reads.waits (local_decode _ _ _) split something offset
  · rw [show cache' = cache.record address from recorded]
    exact behind

theorem inStep_of_writable {cache : AddressCache} {references : List Reference}
    (resolvable : cache.sizes.resolvable = true)
    (writable : ∀ reference ∈ references, reference.Writable) : cache.InStep cache references := by
  induction references generalizing cache with
  | nil => rfl
  | cons reference rest ih =>
    obtain ⟨first, later⟩ := List.forall_mem_cons.1 writable
    have kept : (cache.record reference.address).sizes.resolvable = true := resolvable
    exact inStep_encode resolvable first (ih kept later)

end AddressCache

theorem BodyState.performCopy_of_stopped {s : BodyState} {context : BodyContext} {size mode : Nat}
    {stop : ParseStop}
    (h : s.cache.decode (context.space.segment.length + s.produced context) mode
      s.sections.addresses = .error stop) : (s.performCopy context size mode).1 = s := by
  simp only [performCopy, h]
  cases stop <;> rfl

namespace AddressCache

variable {writer reader : AddressCache}

/-- Caches of the same sizes stay in step from a reset on, and no call of the reader that stops
changes what it holds. -/
theorem lockStep_reset (sizes : writer.sizes = reader.sizes) (near : writer.sizes.near ≤ 253)
    {references : List Reference} (writable : ∀ reference ∈ references, reference.Writable) :
    writer.reset.InStep reader.reset references ∧
      ∀ (s : BodyState) (context : BodyContext) (size mode : Nat) (stop : ParseStop),
        s.cache.decode (context.space.segment.length + s.produced context) mode
          s.sections.addresses = .error stop → (s.performCopy context size mode).1 = s := by
  refine ⟨?_, fun s context size mode stop h => BodyState.performCopy_of_stopped h⟩
  have empty : reader.reset = writer.reset := by rw [reset, reset, sizes]
  have resolvable : writer.reset.sizes.resolvable = true := by
    have : 2 + writer.sizes.near ≤ 255 := by omega
    exact decide_eq_true this
  rw [empty]
  exact inStep_of_writable resolvable writable

/-- A ring of two slots and one page: the ring comes round, and addresses come back in a NEAR slot
and on the page. A COPY of the same caches is stopped in the middle of its address, and one at an
address that is not there yet. -/
theorem lockStep_reset_small :
    let sizes : CacheSizes := ⟨2, 1, by decide⟩
    let references :=
      [⟨1000, 5000⟩, ⟨1010, 5003⟩, ⟨1000, 5009⟩, ⟨0x7FFFFFFF, 0x7FFFFFFFFFFFFFFF⟩, ⟨0, 1⟩]
    let body (part : List UInt8) : BodyState := ⟨.ofTable .standard, (empty sizes).record 1000,
      .separate ⟨9, [6]⟩ ⟨10, [20]⟩ ⟨11, part⟩, #[1, 2, 3]⟩
    let context : BodyContext := ⟨⟨#[], .none, 0⟩, 10, false⟩
    (∀ reference ∈ references, reference.Writable) ∧
      ((AddressCache.empty sizes).reset.InStep (AddressCache.empty sizes).reset references) ∧
      (body [0x81]).cache.decode 3 0 ⟨11, [0x81]⟩ = .error .needMoreData ∧
      ((body [0x81]).performCopy context 4 0).1 = body [0x81] ∧
      (body [5]).cache.decode 3 0 ⟨11, [5]⟩ = .error (.malformed (.addressBeyondHere 5 3)) ∧
      ((body [5]).performCopy context 4 0).1 = body [5] := by
  intro sizes references body context
  have writable : ∀ reference ∈ references, reference.Writable := by
    simp only [references, List.forall_mem_cons]
    refine ⟨?_, ?_, ?_, ?_, ?_, fun _ h => by cases h⟩ <;> exact ⟨by decide, by decide⟩
  obtain ⟨inStep, stopped⟩ :=
    @lockStep_reset (empty sizes) (empty sizes) rfl (by decide) references writable
  have waits : (body [0x81]).cache.decode 3 0 ⟨11, [0x81]⟩ = .error .needMoreData := rfl
  have beyond : (body [5]).cache.decode 3 0 ⟨11, [5]⟩ =
      .error (.malformed (.addressBeyondHere 5 3)) := rfl
  exact ⟨writable, inStep, waits, stopped (body [0x81]) context 4 0 _ waits, beyond,
    stopped (body [5]) context 4 0 _ beyond⟩

end AddressCache

end DeltaCoding
