import DeltaCoding.Edit

/-!
# What edits make

Copies are carried out byte by byte, and each byte may be one that the same copy has made. A copy
whose bytes agree with the target, each with the byte that it stands for, makes the next bytes of the
target, whether or not it overlaps them (`Edit.extends_copy`). Edits that cover a target from end to
end make it (`Edit.replayAll_of_covers`).
-/

namespace DeltaCoding

namespace Edit

variable {source target : Array UInt8} {address index n m count : Nat}

theorem getElem?_source_append (there : address < source.size + target.size) :
    (source ++ target)[address]? = some (byteAt source target address) := by
  rw [byteAt]
  split
  · next inSource =>
    rw [Array.getElem?_append_left inSource, Array.getElem?_eq_getElem inSource, Option.getD_some]
  · next behind =>
    rw [Array.getElem?_append_right (by omega), Array.getElem?_eq_getElem (by omega),
      Option.getD_some]

theorem replayCopy_add : replayCopy source target address (n + m) =
    replayCopy source (replayCopy source target address n) (address + n) m := by
  induction n generalizing target address with
  | zero => simp [replayCopy]
  | succ n ih =>
    rw [Nat.add_right_comm]
    simp only [replayCopy]
    rw [ih, show address + 1 + n = address + (n + 1) by omega]

theorem replayCopy_succ : replayCopy source target address (n + 1) =
    (replayCopy source target address n).push
      (byteAt source (replayCopy source target address n) (address + n)) := by
  rw [replayCopy_add]
  rfl

@[simp] theorem size_replayCopy :
    (replayCopy source target address count).size = target.size + count := by
  induction count with
  | zero => rfl
  | succ count ih => rw [replayCopy_succ, Array.size_push, ih, Nat.add_assoc]

theorem replayCopy_source (inside : address + count ≤ source.size) :
    replayCopy source target address count =
      target ++ source.extract address (address + count) := by
  induction count with
  | zero =>
    rw [Nat.add_zero, Array.extract_eq_empty_of_le (by omega), Array.append_empty]
    rfl
  | succ count ih =>
    have last : address + count < source.size := by omega
    rw [replayCopy_succ, ih (by omega), ← Nat.add_assoc,
      Array.extract_succ_right (by omega) last, Array.append_push]
    simp [byteAt, last]

theorem replayCopy_target (inside : index + count ≤ target.size) :
    replayCopy source target (source.size + index) count =
      target ++ target.extract index (index + count) := by
  induction count with
  | zero =>
    rw [Nat.add_zero, Array.extract_eq_empty_of_le (by omega), Array.append_empty]
    rfl
  | succ count ih =>
    have last : index + count < target.size := by omega
    rw [replayCopy_succ, ih (by omega), ← Nat.add_assoc,
      Array.extract_succ_right (by omega) last, Array.append_push]
    have behind : ¬ source.size + index + count < source.size := by omega
    have back : source.size + index + count - source.size = index + count := by omega
    simp only [byteAt, behind, back, if_false]
    rw [Array.getElem?_append_left last, Array.getElem?_eq_getElem last, Option.getD_some]

@[simp] theorem size_replay (source out : Array UInt8) (e : Edit) :
    (e.replay source out).size = out.size + e.size := by
  cases e with
  | add bytes => simp [replay, size]
  | copy address size => exact size_replayCopy
  | run size byte => simp [replay, Edit.size]

theorem replay_of_size_zero {e : Edit} (h : e.size = 0) (source out : Array UInt8) :
    e.replay source out = out := by
  cases e with
  | add bytes =>
    obtain rfl := List.eq_nil_of_length_eq_zero h
    rfl
  | copy address size =>
    obtain rfl : size = 0 := h
    rfl
  | run size byte =>
    obtain rfl : size = 0 := h
    rfl

/-! ## Covering a target -/

/-- Behind the first `pos` bytes of the target the edit makes the next ones, from an address before
the current position. -/
structure Extends (source target : Array UInt8) (pos : Nat) (e : Edit) : Prop where
  before : ∀ address size, e = .copy address size → 0 < size → address < source.size + pos
  inside : pos + e.size ≤ target.size
  replay : e.replay source (target.extract 0 pos) = target.extract 0 (pos + e.size)

/-- The edits make the bytes of the target from `pos` to before `stop`. -/
def Covers (source target : Array UInt8) : (pos : Nat) → List Edit → (stop : Nat) → Prop
  | pos, [], stop => pos = stop
  | pos, e :: rest, stop => e.Extends source target pos ∧
      Covers source target (pos + e.size) rest stop

variable {pos stop between : Nat} {byte : UInt8}

theorem covers_append {es es' : List Edit} (h : Covers source target pos es between)
    (h' : Covers source target between es' stop) : Covers source target pos (es ++ es') stop := by
  induction es generalizing pos with
  | nil =>
    obtain rfl : pos = between := h
    exact h'
  | cons e rest ih => exact ⟨h.1, ih h.2⟩

theorem covers_push {es : Array Edit} {e : Edit} (h : Covers source target pos es.toList between)
    (next : e.Extends source target between) :
    Covers source target pos (es.push e).toList (between + e.size) := by
  rw [Array.toList_push]
  exact covers_append h ⟨next, rfl⟩

/-- Edits that cover a target from end to end make it. -/
theorem replayAll_of_covers {es : List Edit} (h : Covers source target 0 es target.size) :
    replayAll source es = target := by
  have from_ {es : List Edit} {pos : Nat} (h : Covers source target pos es target.size) :
      es.foldl (Edit.replay source) (target.extract 0 pos) = target := by
    induction es generalizing pos with
    | nil =>
      obtain rfl : pos = target.size := h
      exact Array.extract_size
    | cons e rest ih =>
      rw [List.foldl_cons, h.1.replay]
      exact ih h.2
  have whole := from_ h
  rwa [Array.extract_eq_empty_of_le (by omega)] at whole

theorem extends_of_covers {before after : List Edit} {e : Edit} {out : Array UInt8}
    (h : Covers source target pos (before ++ e :: after) stop) (made : out.size = pos) :
    e.Extends source target (before.foldl (replay source) out).size := by
  induction before generalizing pos out with
  | nil => exact made ▸ h.1
  | cons first rest ih => exact ih h.2 (by rw [size_replay, made])

theorem push_extract {n : Nat} (inside : n < target.size) (byte : UInt8)
    (next : target[n]? = some byte) :
    (target.extract 0 n).push byte = target.extract 0 (n + 1) := by
  obtain ⟨_, rfl⟩ := Array.getElem?_eq_some_iff.1 next
  rw [Array.extract_succ_right (by omega) inside]

theorem extends_add (ordered : pos ≤ stop) (inside : stop ≤ target.size) :
    Extends source target pos (.add (target.extract pos stop).toList) := by
  have length : (target.extract pos stop).size = stop - pos := by
    rw [Array.size_extract]
    omega
  have ends : pos + size (.add (target.extract pos stop).toList) = stop := by
    simp only [size, Array.length_toList, length]
    omega
  refine ⟨(fun _ _ h => by cases h), Nat.le_trans (Nat.le_of_eq ends) inside, ?_⟩
  rw [ends]
  have appended : replay source (target.extract 0 pos) (.add (target.extract pos stop).toList) =
      target.extract 0 pos ++ target.extract pos stop := by
    simpa only [replay, Array.toArray_toList] using List.foldl_push_eq_append'
  rw [appended, Array.extract_append_extract]
  congr 1
  omega

theorem extends_run (inside : pos + n ≤ target.size)
    (same : ∀ k, k < n → target[pos + k]? = some byte) :
    Extends source target pos (.run n byte) := by
  refine ⟨(fun _ _ h => by cases h), inside, ?_⟩
  simp only [size] at inside ⊢
  induction n with
  | zero => rfl
  | succ n ih =>
    have made := ih (by omega) fun k bound => same k (by omega)
    simp only [replay] at made ⊢
    rw [List.replicate_succ', List.foldl_append, made]
    exact push_extract (by omega) byte (same n (by omega))

/-- Each byte of the copy is the byte of the target that it stands for. -/
theorem extends_copy (inside : pos + n ≤ target.size) (before : 0 < n → address < source.size + pos)
    (same : ∀ k, k < n → target[pos + k]? =
      some (byteAt source (target.extract 0 (pos + k)) (address + k))) :
    Extends source target pos (.copy address n) := by
  refine ⟨?_, inside, ?_⟩
  · rintro _ _ ⟨⟩
    exact before
  · simp only [size] at inside ⊢
    -- The bytes that the copy has made so far are those of the target, so the next one is read from
    -- them.
    induction n with
    | zero => rfl
    | succ n ih =>
      have made := ih (by omega) (fun _ => before (by omega)) fun k bound => same k (by omega)
      simp only [replay] at made ⊢
      rw [replayCopy_succ, made]
      exact push_extract (by omega) _ (same n (by omega))

theorem extends_copy_source (inside : pos + n ≤ target.size) (there : address + n ≤ source.size)
    (same : ∀ k, k < n → source[address + k]? = target[pos + k]?) :
    Extends source target pos (.copy address n) := by
  apply extends_copy inside (fun _ => by omega)
  intro k bound
  have inSource : address + k < source.size := by omega
  rw [← same k bound, byteAt, if_pos inSource, Array.getElem?_eq_getElem inSource, Option.getD_some]

theorem extends_copy_target (inside : pos + n ≤ target.size) (earlier : index < pos)
    (same : ∀ k, k < n → target[index + k]? = target[pos + k]?) :
    Extends source target pos (.copy (source.size + index) n) := by
  apply extends_copy inside (fun _ => by omega)
  intro k bound
  have behind : ¬ source.size + index + k < source.size := by omega
  have back : source.size + index + k - source.size = index + k := by omega
  rw [← same k bound, byteAt, if_neg behind, back, Array.getElem?_extract,
    Nat.sub_zero, Nat.zero_add, if_pos (by omega), Array.getElem?_eq_getElem (by omega),
    Option.getD_some]

end Edit

end DeltaCoding
