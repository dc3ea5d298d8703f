import DeltaCoding.Proofs.Decoder.Limits
import DeltaCoding.Proofs.Decoder.Truncation

namespace DeltaCoding

/-! ## Other settings -/

namespace HeaderStep

variable {α β : Type} {step : HeaderStep α} {next : α → HeaderStep β} {s s'' : HeaderState} {b : β}

theorem ok_of_bind (h : (step >>= next) s = (.ok b, s'')) :
    ∃ a s', step s = (.ok a, s') ∧ next a s' = (.ok b, s'') := by
  rcases first : step s with ⟨stop | a, s'⟩
  · rw [bind_error first] at h
    cases h
  · rw [bind_ok first] at h
    exact ⟨a, s', rfl, h⟩

end HeaderStep

theorem WindowHeader.parse_check {context : Context} {check check' : Nat → Except FormatError Unit}
    {s s' : HeaderState} {header : WindowHeader} (read : parse context check s = (.ok header, s'))
    (passes : check' header.targetLength = .ok ()) : parse context check' s = (.ok header, s') := by
  obtain ⟨p, s₁, segment, read⟩ := HeaderStep.ok_of_bind read
  obtain ⟨length, s₂, lengths, read⟩ := HeaderStep.ok_of_bind read
  obtain ⟨u, s₃, checked, read⟩ := HeaderStep.ok_of_bind read
  obtain ⟨u', s₄, indicator, read'⟩ := HeaderStep.ok_of_bind read
  obtain ⟨sections, s₅, sectionLengths, made⟩ := HeaderStep.ok_of_bind read'
  cases made
  have accepted : HeaderStep.require (check' length) s₂ = (.ok u, s₃) := by
    rw [← checked, passes]
    cases passed : check length with
    | ok _ => rfl
    | error error =>
      rw [passed] at checked
      cases checked
  rw [parse, HeaderStep.bind_ok segment]
  dsimp only
  rw [HeaderStep.bind_ok lengths, HeaderStep.bind_ok accepted]
  exact read

namespace WindowDecoder

variable {d : WindowDecoder} {dictionary history : Array UInt8} {config config' : DecoderConfig}
  {decoded : Nat} {c : Cursor} {low high : Nat}

theorem decode_settings (ready : d.Ready ⟨dictionary, config, decoded⟩ history)
    (phase : d.phase = .header) (allow : config'.allowTarget = config.allowTarget)
    (complete : (d.decode ⟨dictionary, config, decoded⟩ c history).outcome = .ok (.complete low high))
    (passes : config'.checkLength decoded (high - low) = .ok ()) :
    d.decode ⟨dictionary, config', decoded⟩ c history =
      d.decode ⟨dictionary, config, decoded⟩ c history := by
  obtain ⟨-, -, begins, ends, -⟩ := (sound_decode ready c).complete low high complete
  obtain ⟨header, s, spelling, read, spelt⟩ := spelt_decode ready phase complete
  have length : high - low = header.targetLength := by
    rw [ends, begins, spelt.target, Array.size_append, Spelling.size_target, spelt.size,
      ready.header phase, Nat.add_sub_cancel_left]
  rw [length] at passes
  have read' : d.readHeader ⟨dictionary, config', decoded⟩ c = (.ok header, s) := by
    simp only [readHeader, WindowContext.headerContext, allow] at read ⊢
    exact WindowHeader.parse_check read passes
  simp only [decode, phase, read, read']
  rfl

end WindowDecoder

namespace WindowRun

variable {dictionary : Array UInt8} {config config' : DecoderConfig} {start last : WindowRun}
  {c c' : Cursor} {windows : List PlacedWindow}

theorem Windows.total_le (h : Windows dictionary config none start c windows last c') :
    start.total ≤ last.total := by
  induction h with
  | nil => exact Nat.le_refl _
  | cons goes decoded complete others ih => exact Nat.le_trans (Nat.le_add_right _ _) ih

/-- Windows come to the same under other settings, if all of them pass their check. -/
theorem run_settings (between : start.Between dictionary config)
    (h : Windows dictionary config none start c windows last c') (empty : c'.isEmpty = true)
    (allow : config'.allowTarget = config.allowTarget)
    (passes : ∀ decoded length, config.checkLength decoded length = .ok () →
      decoded + length ≤ last.total → config'.checkLength decoded length = .ok ()) (sink : Sink) :
    run dictionary config' none c sink start = run dictionary config none c sink start := by
  induction h generalizing sink with
  | nil => rw [run_stops (.inr empty), run_stops (.inr empty)]
  | @cons start last c c' windows low high progress goes decoded complete others ih =>
    obtain ⟨next, -⟩ := between.next decoded complete
    subst decoded
    have sound := WindowDecoder.sound_decode between.ready.ready c
    obtain ⟨-, -, -, -, -, checked, -⟩ := sound.complete low high complete
    have same := WindowDecoder.decode_settings between.ready.ready between.phase allow complete
      (passes _ _ checked others.total_le)
    rw [run_goes _ goes, run_goes _ goes, same]
    simp only [proceed, complete, allow]
    split
    · rfl
    · split
      · rfl
      · exact ih next empty passes _

end WindowRun

namespace StreamDecoder

variable {dictionary : Array UInt8} {config config' : DecoderConfig} {delta : List UInt8}
  {sink sink' : Sink}

theorem decodeStream_ok_iff (pieces : List (List UInt8)) :
    decodeStream dictionary config sink pieces = (.ok (), sink') ↔
      conclude config ((Session.start dictionary config).run ⟨0, pieces.flatten⟩ sink) =
        (.ok (), sink') := by
  obtain ⟨sinks, verdicts⟩ := agree_start dictionary config sink pieces
  rw [Prod.ext_iff, Prod.ext_iff, ok_iff_of_unlocated verdicts, sinks]

theorem decodePieces_sink (d : StreamDecoder) (sink : Sink) (pieces : List (List UInt8)) :
    (d.decodePieces sink pieces).2 = (d.feed sink pieces).2 := by
  rw [decodePieces]
  rcases d.feed sink pieces with ⟨_ | _, _⟩ <;> rfl

theorem conclude_settings
    (accepted : conclude config ((Session.start dictionary config).run ⟨0, delta⟩ sink) =
      (.ok (), sink')) (allow : config'.allowTarget = config.allowTarget)
    (passes : ∀ decoded length, config.checkLength decoded length = .ok () →
      sink.written.size + (decoded + length) ≤ sink'.written.size →
        config'.checkLength decoded length = .ok ()) :
    conclude config' ((Session.start dictionary config').run ⟨0, delta⟩ sink) = (.ok (), sink') := by
  rcases Session.accepted_cases accepted with
    ⟨rfl, rfl⟩ | ⟨decoder, c, windows, r, offset, opens, all, ran⟩
  · rfl
  · have between : (WindowRun.ofDecoder decoder).Between dictionary config := opens.between
    have sound := WindowRun.sound_run between.ready none c sink
    rw [ran] at sound
    obtain ⟨-, -, written⟩ := sound
    have same := WindowRun.run_settings between all rfl allow (fun decoded length checked within =>
      passes decoded length checked (by
        rw [show (WindowRun.ofDecoder decoder).total = 0 from rfl] at written
        omega)) sink
    rw [opens.run, Session.runWindows]
    simp only [Session.start, same, ran]
    refine Prod.ext (conclude_ok_iff.2 ⟨rfl, ?_⟩) (conclude_sink _)
    simp only [Session.isComplete, (all.between between).inWindow, Bool.not_false]

end StreamDecoder

/-! ## Planned sizes -/

/-- The settings with another planned size of the target, or with none. -/
def DecoderConfig.planning (config : DecoderConfig) (planned : Option Nat) : DecoderConfig :=
  { config with plannedTargetFile := planned }

theorem DecoderConfig.checkLength_ok_iff {config : DecoderConfig} {decoded length : Nat} :
    config.checkLength decoded length = .ok () ↔ length ≤ config.maxTargetWindow ∧
      decoded + length ≤ config.maxTargetFile ∧
        ∀ planned ∈ config.plannedTargetFile, decoded + length ≤ planned := by
  refine ⟨le_of_checkLength, fun ⟨window, file, planned⟩ => ?_⟩
  rw [checkLength, if_neg (Nat.not_lt.2 window), if_neg (Nat.not_lt.2 file)]
  cases present : config.plannedTargetFile with
  | none => rfl
  | some n => exact if_neg (Nat.not_lt.2 (planned n present))

theorem DecoderConfig.checkLength_planning {config : DecoderConfig} {n decoded length : Nat} :
    (config.planning (some n)).checkLength decoded length = .ok () ↔
      (config.planning none).checkLength decoded length = .ok () ∧ decoded + length ≤ n := by
  simp [checkLength_ok_iff, planning, and_assoc]

/-- With a planned size exactly the deltas are accepted that are accepted without it and whose target
is not larger, and they make the same target. -/
theorem decodeStream_planning (dictionary : Array UInt8) (config : DecoderConfig) (n : Nat)
    (sink sink' : Sink) (pieces : List (List UInt8)) :
    decodeStream dictionary (config.planning (some n)) sink pieces = (.ok (), sink') ↔
      decodeStream dictionary (config.planning none) sink pieces = (.ok (), sink') ∧
        sink'.written.size ≤ sink.written.size + n := by
  constructor
  · intro accepted
    refine ⟨?_, ?_⟩
    · rw [StreamDecoder.decodeStream_ok_iff] at accepted ⊢
      exact StreamDecoder.conclude_settings accepted rfl fun decoded length checked _ =>
        (DecoderConfig.checkLength_planning.1 checked).1
    · have sinks : (decodeStream _ _ sink pieces).2 = sink' := congrArg Prod.snd accepted
      rw [decodeStream, StreamDecoder.decodePieces_sink] at sinks
      obtain ⟨w, written, room⟩ := StreamDecoder.written_feed
        (StreamDecoder.ready_start dictionary (config.planning (some n))) sink pieces
        (fun checked => (DecoderConfig.checkLength_planning.1 checked).2) (Nat.zero_le n)
      rw [← sinks, written, Array.size_append]
      omega
  · rintro ⟨accepted, within⟩
    rw [StreamDecoder.decodeStream_ok_iff] at accepted ⊢
    refine StreamDecoder.conclude_settings accepted rfl fun decoded length checked room => ?_
    exact DecoderConfig.checkLength_planning.2 ⟨checked, by omega⟩

/-- A delta of five bytes for which ten have been planned is accepted. -/
theorem planned_not_reached : ¬ ∀ (dictionary : Array UInt8) (config : DecoderConfig) (n : Nat)
    (pieces : List (List UInt8)),
    (decodeStream dictionary (config.planning (some n)) {} pieces).1 = .ok () →
      (decodeStream dictionary (config.planning (some n)) {} pieces).2.written.size = n := by
  intro reached
  have five := reached #[] {} 10
    [[0xD6, 0xC3, 0xC4, 0, 0, 0, 0x0B, 5, 0, 5, 1, 0, 0x68, 0x65, 0x6C, 0x6C, 0x6F, 6]]
    (by decide +kernel)
  exact absurd five (by decide +kernel)

end DeltaCoding
