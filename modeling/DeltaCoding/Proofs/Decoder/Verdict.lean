import DeltaCoding.Proofs.Decoder.Chunking

namespace DeltaCoding

namespace StreamDecoder

variable {config : DecoderConfig} {session : Session} {start : WindowRun} {c : Cursor} {sink : Sink}

theorem ok_iff_of_unlocated {verdict verdict' : Except DecodeError Unit}
    (same : verdict.mapError DecodeError.unlocated = verdict'.mapError DecodeError.unlocated) :
    verdict = .ok () ↔ verdict' = .ok () := by
  have kept (verdict : Except DecodeError Unit) :
      verdict.mapError DecodeError.unlocated = .ok () ↔ verdict = .ok () := by
    cases verdict <;> simp [Except.mapError]
  rw [← kept verdict, same, kept]

theorem conclude_sink (result : Except DecodeError (Session × Cursor) × Sink) :
    (conclude config result).2 = result.2 := by
  rcases result with ⟨_ | _, _⟩ <;> rfl

theorem runWindows_sink : (session.runWindows start c sink).2 =
    (start.run session.dictionary session.config none c sink).2 := by
  simp only [Session.runWindows]
  rcases start.run _ _ none c sink with ⟨_ | _, _⟩ <;> rfl

theorem conclude_ok_iff : (conclude config (.ok (session, c), sink)).1 = .ok () ↔
    c.rest = [] ∧ session.isComplete = true := by
  simp only [conclude, finish]
  rw [← List.isEmpty_iff, ← Bool.and_eq_true]
  split <;> simp [*]

theorem conclude_ok (h : (conclude config (session.runWindows start c sink)).1 = .ok ()) :
    ∃ r offset, start.run session.dictionary session.config none c sink =
        (.ok (r, ⟨offset, []⟩), (conclude config (session.runWindows start c sink)).2) ∧
      r.decoder.phase = .header := by
  simp only [Session.runWindows] at h ⊢
  generalize start.run session.dictionary session.config none c sink = result at *
  rcases result with ⟨error | ⟨r, offset, rest⟩, sink'⟩
  · cases h
  · obtain ⟨rfl, complete⟩ := conclude_ok_iff.1 h
    refine ⟨r, offset, rfl, WindowDecoder.inWindow_eq_false.1 ?_⟩
    simpa only [Session.isComplete, Bool.not_eq_true'] using complete

/-- A decoder to which nothing has been fed yet. -/
def ofSession (session : Session) : StreamDecoder :=
  ⟨session.config, some session, [], 0⟩

/-- A session that has nothing to do without input takes pieces as what they make up. -/
theorem agree_pieces {session : Session} (ready : session.Ready)
    (rests : ∀ sink, session.run ⟨0, []⟩ sink = (.ok (session, ⟨0, []⟩), sink)) (sink : Sink)
    (pieces : List (List UInt8)) :
    Agree ((ofSession session).decodePieces sink pieces)
      (conclude session.config (session.run ⟨0, pieces.flatten⟩ sink)) := by
  cases pieces with
  | nil =>
    rw [List.flatten_nil, rests]
    exact .refl _
  | cons piece rest =>
    have started : (ofSession session).Ready session.config :=
      ⟨session, rfl, ready, rfl⟩
    have whole := agree_flatten started sink piece rest
    rw [ofSession, decodePieces_last] at whole
    exact whole

theorem agree_start (dictionary : Array UInt8) (config : DecoderConfig) (sink : Sink)
    (pieces : List (List UInt8)) : Agree (decodeStream dictionary config sink pieces)
      (conclude config ((Session.start dictionary config).run ⟨0, pieces.flatten⟩ sink)) :=
  @agree_pieces (Session.start dictionary config) trivial (fun _ => rfl) sink pieces

end StreamDecoder

theorem decodeStream_singleton (dictionary : Array UInt8) (config : DecoderConfig) (sink : Sink)
    (delta : List UInt8) : decodeStream dictionary config sink [delta] =
      StreamDecoder.conclude config ((Session.start dictionary config).run ⟨0, delta⟩ sink) :=
  StreamDecoder.decodePieces_last _ _ _ _

theorem decodeMemory_ok_iff {dictionary : Array UInt8} {delta : List UInt8} {config : DecoderConfig}
    {target : Array UInt8} : decodeMemory dictionary delta config = .ok target ↔
      (decodeStream dictionary config {} [delta]).1 = .ok () ∧
        (decodeStream dictionary config {} [delta]).2.written = target := by
  have same : decodeMemory dictionary delta config = (decodeStream dictionary config {} [delta]).1.map
      fun _ => (decodeStream dictionary config {} [delta]).2.written := by
    simp only [decodeMemory, decodeStream, StreamDecoder.decodePieces, StreamDecoder.feed,
      StreamDecoder.start, StreamDecoder.idle, StreamDecoder.isDecoding, Option.isSome_none,
      Bool.false_eq_true, if_false]
    rcases StreamDecoder.decodeChunk _ delta {} with ⟨error | u, d, sink⟩
    · rfl
    · change (do d.finish.1; pure sink.written) = _
      cases d.finish.1 <;> rfl
  rw [same]
  cases (decodeStream dictionary config {} [delta]).1 with
  | error error => simp only [Except.map, reduceCtorEq, false_and]
  | ok u => simp only [Except.map, Except.ok.injEq, true_and]

end DeltaCoding
