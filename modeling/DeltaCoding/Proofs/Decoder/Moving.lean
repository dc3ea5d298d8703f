import DeltaCoding.Proofs.Decoder.Chunking
import DeltaCoding.Proofs.Window.Shifting

namespace DeltaCoding

namespace Sink

variable {front : Array UInt8} {sink : Sink}

/-- The same sink with room for `front`, which has been written before. -/
def behind (sink : Sink) (front : Array UInt8) : Sink :=
  ⟨front ++ sink.written, sink.capacity.map (front.size + ·)⟩

@[simp] theorem behind_empty (sink : Sink) : sink.behind #[] = sink := by
  obtain ⟨written, capacity⟩ := sink
  cases capacity <;> simp [behind]

theorem write_behind (sink : Sink) (front bytes : Array UInt8) :
    (sink.behind front).write bytes = ((sink.write bytes).1, (sink.write bytes).2.behind front) := by
  obtain ⟨written, capacity⟩ := sink
  have room : (Sink.behind ⟨written, capacity⟩ front).hasRoom bytes.size =
      Sink.hasRoom ⟨written, capacity⟩ bytes.size := by
    cases capacity with
    | none => rfl
    | some capacity =>
      simp only [behind, hasRoom, Option.map_some, Array.size_append, Nat.add_assoc,
        Nat.add_le_add_iff_left]
  simp only [write, room]
  split
  · simp only [behind, Array.append_assoc]
  · rfl

theorem size_le_write (sink : Sink) (bytes : Array UInt8) :
    sink.written.size ≤ (sink.write bytes).2.written.size := by
  simp only [write]
  split
  · rw [Array.size_append]
    exact Nat.le_add_right _ _
  · exact Nat.le_refl _

end Sink

theorem DecoderConfig.checkLength_congr {config : DecoderConfig} {a b length : Nat}
    (planned : config.plannedTargetFile = none) (ha : a + length ≤ config.maxTargetFile)
    (hb : b + length ≤ config.maxTargetFile) :
    config.checkLength a length = config.checkLength b length := by
  simp only [checkLength, planned, if_neg (Nat.not_lt.2 ha), if_neg (Nat.not_lt.2 hb)]

theorem WindowContext.same_of_limits {dictionary : Array UInt8} {config : DecoderConfig}
    {decoded decoded' : Nat} (disallowed : config.allowTarget = false)
    (planned : config.plannedTargetFile = none)
    (limit : decoded + Varint.maxInt32 ≤ config.maxTargetFile)
    (limit' : decoded' + Varint.maxInt32 ≤ config.maxTargetFile) :
    WindowContext.Same ⟨dictionary, config, decoded⟩ ⟨dictionary, config, decoded'⟩ where
  dictionary := rfl
  header version c := by
    refine @WindowHeader.parse_congr (headerContext ⟨dictionary, config, decoded⟩ version)
      (headerContext ⟨dictionary, config, decoded'⟩ version) _ _ rfl rfl disallowed disallowed
      (fun length field => ?_) _ (HeaderState.started_ofCursor c)
    exact DecoderConfig.checkLength_congr planned (by simp only; omega) (by simp only; omega)

namespace WindowRun

variable {dictionary : Array UInt8} {config : DecoderConfig} {stopAt : Option Nat} {c : Cursor}
  {sink : Sink}

theorem size_le_run (start : WindowRun) :
    sink.written.size ≤ (run dictionary config stopAt c sink start).2.written.size := by
  fun_induction run dictionary config stopAt c sink start with
  | case1 => exact Nat.le_refl _
  | case2 => exact Nat.le_refl _
  | case3 => exact Nat.le_refl _
  | case4 => exact Nat.le_refl _
  | case5 c sink decoder target total goes progress start stop complete inside sink' full =>
    have grown := sink.size_le_write (progress.target.extract start stop)
    rwa [full] at grown
  | case6 c sink decoder target total goes progress start stop complete inside sink' written ih =>
    have grown := sink.size_le_write (progress.target.extract start stop)
    rw [written] at grown
    exact Nat.le_trans grown ih

/-- Two results that are the same but for `n` more bytes in front of the stream and `front` in front
of what has been written. -/
def Moved (n : Nat) (front : Array UInt8) :
    (p q : Except DecodeError (WindowRun × Cursor) × Sink) → Prop
  | (.error e, sink), (.error e', sink') =>
    e.unlocated = e'.unlocated ∧ sink' = sink.behind front
  | (.ok (r, c), sink), (.ok (r', c'), sink') => sink' = sink.behind front ∧
      r.decoder.inWindow = r'.decoder.inWindow ∧ (r.decoder.inWindow = false → c' = c.shift n)
  | _, _ => False

theorem moved_proceed {p q : WindowProgress} {n total : Nat} {front : Array UInt8}
    (alike : (p.shift n).Alike q)
    (behind : ∀ start stop sink', p.outcome = .ok (.complete start stop) →
      ¬ (p.target.size < stop ∨ stop < start) →
      sink.write (p.target.extract start stop) = (true, sink') → p.decoder.SameStart q.decoder →
      Moved n front (run dictionary config none p.cursor sink'
          ⟨p.decoder, if config.allowTarget then p.target else #[], total + (stop - start)⟩)
        (run dictionary config none (p.cursor.shift n) (sink'.behind front)
          ⟨q.decoder, if config.allowTarget then p.target else #[],
            total + (stop - start) + front.size⟩)) :
    Moved n front (proceed dictionary config none sink total p)
      (proceed dictionary config none (sink.behind front) (total + front.size) q) := by
  generalize shifted : p.shift n = p' at alike
  obtain ⟨outcome, d, c, target⟩ := p
  cases alike.ends with
  | failed same =>
    cases shifted
    exact ⟨same, rfl⟩
  | waits inWindow place =>
    cases shifted
    exact ⟨rfl, inWindow, fun outside => (place outside).1.symm⟩
  | @complete start stop _ _ _ _ same =>
    cases shifted
    simp only [proceed, Sink.write_behind]
    split
    · exact ⟨rfl, rfl⟩
    · next inside =>
      rcases written : sink.write (target.extract start stop) with ⟨fits, sink'⟩
      cases fits with
      | false => exact ⟨rfl, rfl⟩
      | true =>
        have next := behind start stop sink' rfl inside written same
        rw [Nat.add_right_comm] at next
        exact next

/-- Windows that stand further on come to the same, if the headers that are met on the way are
accepted in both places. -/
theorem moved_run {start : WindowRun} {e : WindowDecoder} (same : start.decoder.SameStart e)
    (c : Cursor) (n : Nat) (sink : Sink) (front : Array UInt8)
    (contexts : ∀ decoded, decoded + sink.written.size ≤
        start.total + (run dictionary config none c sink start).2.written.size →
      WindowContext.Same ⟨dictionary, config, decoded⟩
        ⟨dictionary, config, decoded + front.size⟩) :
    Moved n front (run dictionary config none c sink start)
      (run dictionary config none (c.shift n) (sink.behind front)
        ⟨e, start.target, start.total + front.size⟩) := by
  -- By what there is to do. Each window is alike in both places, and is followed by windows that
  -- stand further on in the same way.
  induction work : start.decoder.workBound c using Nat.strongRecOn generalizing start e c sink with
  | ind work' ih =>
    subst work
    by_cases stops : (none : Option Nat) = some start.total ∨ c.isEmpty = true
    · have stops' : (none : Option Nat) = some (start.total + front.size) ∨
          (c.shift n).isEmpty = true := stops.imp_left fun h => by cases h
      rw [run_stops stops, run_stops stops']
      exact ⟨rfl, same.inWindow, fun _ => rfl⟩
    · have goes : ¬ ((none : Option Nat) = some (start.total + front.size) ∨
          (c.shift n).isEmpty = true) := fun h => stops (h.imp_left fun h => by cases h)
      have grown := @size_le_run dictionary config none c sink start
      have alike := WindowDecoder.alike_shift same (contexts start.total (by omega)) c start.target n
      rw [run_goes start stops, run_goes _ goes]
      refine moved_proceed alike fun first last sink' complete inside written same' => ?_
      refine ih _ (WindowDecoder.workBound_decode complete) same' _ sink' (fun decoded within => ?_) rfl
      have next := @run_goes dictionary config none c sink start stops
      simp only [proceed, complete, if_neg inside, written] at next
      have size := size_write written
      rw [Array.size_extract] at size
      refine contexts decoded ?_
      rw [next]
      simp only at within
      omega

theorem keeps_run (start : WindowRun) {r : WindowRun} {c' : Cursor} {sink' : Sink}
    (ran : run dictionary config stopAt c sink start = (.ok (r, c'), sink')) :
    start.decoder.Keeps r.decoder := by
  fun_induction run dictionary config stopAt c sink start with
  | case1 => cases ran; exact .refl _
  | case2 => cases ran
  | case3 => cases ran; exact WindowDecoder.keeps_decode _ _ _ _
  | case4 => cases ran
  | case5 => cases ran
  | case6 c sink decoder target total goes progress start stop complete inside sink' written ih =>
    exact (WindowDecoder.keeps_decode _ _ _ _).trans (ih ran)

end WindowRun

end DeltaCoding
