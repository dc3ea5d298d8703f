import DeltaCoding.Varint

/-!
# What parse steps depend on

A parse step looks at the bytes in front of its cursor and at nothing else: not at the offset, and
not at what follows the bytes that it takes. `Parser.Reads` says this of one value, and
`Parser.Local` of every result of a step: a value comes with the bytes that it was read from, and
any other result but the call for more input holds for all continuations too. So a local step does the
same wherever it stands (`Local.shift`), and a call for more input is never made for nothing
(`Local.needs`).

Steps that are made of local steps are local (`Local.bind`), so that the fact is proved of a byte
and a block of bytes and carried up from there. `Parser.Answers` is carried up in the same way: the
preconditions of the step hold.
-/

namespace DeltaCoding

namespace Cursor

theorem Reaches.offset_le {c c' : Cursor} (h : c.Reaches c') : c.offset ≤ c'.offset := by
  obtain ⟨read, -, offset⟩ := h
  omega

/-- `bytes` come next at `c`, and `c'` stands behind them. -/
def Takes (c : Cursor) (bytes : List UInt8) (c' : Cursor) : Prop :=
  c.rest = bytes ++ c'.rest ∧ c'.offset = c.offset + bytes.length

theorem Takes.reaches {c c' : Cursor} {bytes : List UInt8} (h : c.Takes bytes c') : c.Reaches c' :=
  ⟨bytes, h⟩

theorem Takes.refl (c : Cursor) : c.Takes [] c :=
  ⟨rfl, rfl⟩

theorem Takes.trans {a b c : Cursor} {bytes more : List UInt8} (hab : a.Takes bytes b)
    (hbc : b.Takes more c) : a.Takes (bytes ++ more) c := by
  obtain ⟨hr, ho⟩ := hab
  obtain ⟨hr', ho'⟩ := hbc
  refine ⟨?_, ?_⟩
  · rw [hr, hr', List.append_assoc]
  · rw [ho', ho, List.length_append]; omega

theorem Takes.split {a c : Cursor} {bytes more : List UInt8} (h : a.Takes (bytes ++ more) c) :
    ∃ b, a.Takes bytes b ∧ b.Takes more c := by
  obtain ⟨hr, ho⟩ := h
  refine ⟨⟨a.offset + bytes.length, more ++ c.rest⟩, ⟨?_, rfl⟩, ⟨rfl, ?_⟩⟩
  · rw [hr, List.append_assoc]
  · rw [ho, List.length_append, Nat.add_assoc]

/-- Where a step through known bytes ends is determined by where it starts. -/
theorem Takes.unique {c d e : Cursor} {bytes : List UInt8} (hd : c.Takes bytes d)
    (he : c.Takes bytes e) : d = e := by
  obtain ⟨hr, ho⟩ := hd
  obtain ⟨hr', ho'⟩ := he
  have rest : d.rest = e.rest := List.append_cancel_left (hr.symm.trans hr')
  cases d; cases e
  simp_all

theorem Takes.extend {c c' : Cursor} {bytes : List UInt8} (h : c.Takes bytes c')
    (more : List UInt8) : (c.extend more).Takes bytes (c'.extend more) := by
  obtain ⟨hr, ho⟩ := h
  refine ⟨?_, ho⟩
  simp only [Cursor.extend, hr, List.append_assoc]

theorem takes_append (offset : Nat) (bytes rest : List UInt8) :
    Takes ⟨offset, bytes ++ rest⟩ bytes ⟨offset + bytes.length, rest⟩ :=
  ⟨rfl, rfl⟩

@[simp] theorem extend_offset (c : Cursor) (more : List UInt8) :
    (c.extend more).offset = c.offset := rfl

@[simp] theorem extend_rest (c : Cursor) (more : List UInt8) :
    (c.extend more).rest = c.rest ++ more := rfl

@[simp] theorem extend_nil (c : Cursor) : c.extend [] = c := by
  cases c; simp [Cursor.extend]

@[simp] theorem extend_extend (c : Cursor) (more more' : List UInt8) :
    (c.extend more).extend more' = c.extend (more ++ more') := by
  simp only [extend, List.append_assoc]

/-- The same place with `n` more bytes in front of the stream. -/
def shift (c : Cursor) (n : Nat) : Cursor :=
  ⟨c.offset + n, c.rest⟩

@[simp] theorem shift_offset (c : Cursor) (n : Nat) : (c.shift n).offset = c.offset + n := rfl

@[simp] theorem shift_rest (c : Cursor) (n : Nat) : (c.shift n).rest = c.rest := rfl

theorem Takes.shift {c c' : Cursor} {bytes : List UInt8} (h : c.Takes bytes c') (n : Nat) :
    (c.shift n).Takes bytes (c'.shift n) :=
  ⟨h.1, by rw [shift_offset, shift_offset, h.2, Nat.add_right_comm]⟩

theorem skip_shift (c : Cursor) (n m : Nat) : (c.shift n).skip m = (c.skip m).shift n := by
  simp only [skip, shift, Nat.add_right_comm]

end Cursor

namespace Parser

variable {α β : Type}

@[simp] theorem pure_run (a : α) (c : Cursor) : (pure a : Parser α) c = .ok (a, c) := rfl

theorem bind_ok {p : Parser α} {f : α → Parser β} {c c' : Cursor} {a : α}
    (h : p c = .ok (a, c')) : (p >>= f) c = f a c' := by
  simp only [bind, StateT.bind, h, Except.bind]

theorem bind_error {p : Parser α} {f : α → Parser β} {c : Cursor} {stop : ParseStop}
    (h : p c = .error stop) : (p >>= f) c = .error stop := by
  simp only [bind, StateT.bind, h, Except.bind]

theorem bind_eq_ok {p : Parser α} {f : α → Parser β} {c c'' : Cursor} {b : β}
    (h : (p >>= f) c = .ok (b, c'')) : ∃ a c', p c = .ok (a, c') ∧ f a c' = .ok (b, c'') := by
  cases hp : p c with
  | error stop => rw [bind_error hp] at h; cases h
  | ok r =>
    obtain ⟨a, c'⟩ := r
    rw [bind_ok hp] at h
    exact ⟨a, c', rfl, h⟩

/-! ## Values and the bytes that they are read from -/

/-- The step reads `a` from `bytes`, wherever they stand and whatever follows them. -/
def Reads (p : Parser α) (bytes : List UInt8) (a : α) : Prop :=
  ∀ c c', c.Takes bytes c' → p c = .ok (a, c')

theorem Reads.pure (a : α) : (Pure.pure a : Parser α).Reads [] a := by
  intro c c' h
  rw [(Cursor.Takes.refl c).unique h]
  rfl

theorem Reads.bind {p : Parser α} {f : α → Parser β} {bytes more : List UInt8} {a : α} {b : β}
    (hp : p.Reads bytes a) (hf : (f a).Reads more b) : (p >>= f).Reads (bytes ++ more) b := by
  intro c c'' h
  have first : c.Takes bytes ⟨c.offset + bytes.length, more ++ c''.rest⟩ :=
    ⟨by rw [h.1, List.append_assoc], rfl⟩
  rw [bind_ok (hp c _ first)]
  refine hf _ _ ⟨rfl, ?_⟩
  rw [h.2, List.length_append, Nat.add_assoc]

theorem Reads.bind_pure {p : Parser α} {f : α → Parser β} {bytes : List UInt8} {a : α} {b : β}
    (hp : p.Reads bytes a) (hf : ∀ c, f a c = .ok (b, c)) : (p >>= f).Reads bytes b := by
  intro c c' h
  rw [bind_ok (hp c c' h), hf]

theorem reads_byte (b : UInt8) : byte.Reads [b] b := by
  rintro ⟨offset, rest⟩ ⟨offset', rest'⟩ ⟨hr, ho⟩
  simp only [List.cons_append, List.nil_append, List.length_cons, List.length_nil] at hr ho
  subst hr; subst ho
  rfl

theorem reads_bytes (bytes : List UInt8) : (Parser.bytes bytes.length).Reads bytes bytes := by
  rintro ⟨offset, rest⟩ ⟨offset', rest'⟩ ⟨hr, ho⟩
  simp only at hr ho
  subst hr; subst ho
  have enough : Cursor.has ⟨offset, bytes ++ rest'⟩ bytes.length = true := by
    rw [Cursor.has_iff]; simp
  simp [Parser.bytes, enough, Cursor.skip]

theorem takes_byte {c c' : Cursor} {b : UInt8} (h : byte c = .ok (b, c')) : c.Takes [b] c' := by
  unfold byte at h
  split at h
  · cases h
  · next hc =>
    cases h
    exact ⟨hc, rfl⟩

theorem takes_bytes {n : Nat} {c c' : Cursor} {bs : List UInt8} (h : bytes n c = .ok (bs, c')) :
    n = bs.length ∧ c.Takes bs c' := by
  unfold bytes at h
  split at h
  · next enough =>
    cases h
    have length : (c.rest.take n).length = n := by
      rw [List.length_take, Nat.min_eq_left ((c.has_iff n).1 enough)]
    exact ⟨length.symm, (List.take_append_drop n c.rest).symm, by rw [length]; rfl⟩
  · cases h

/-! ## Local steps -/

/-- What the step comes to depends on the unread bytes only, and more of them change nothing but a
call for more. -/
structure Local (p : Parser α) : Prop where
  ok : ∀ {c c' : Cursor} {a : α}, p c = .ok (a, c') → ∃ bytes, c.Takes bytes c' ∧ p.Reads bytes a
  error : ∀ {c : Cursor} {stop : ParseStop}, p c = .error stop → stop ≠ .needMoreData →
    ∀ offset more, p ⟨offset, c.rest ++ more⟩ = .error stop

theorem Local.extend_ok {p : Parser α} (hp : p.Local) {c c' : Cursor} {a : α}
    (h : p c = .ok (a, c')) (more : List UInt8) : p (c.extend more) = .ok (a, c'.extend more) := by
  obtain ⟨bytes, takes, reads⟩ := hp.ok h
  exact reads _ _ (takes.extend more)

theorem Local.extend_error {p : Parser α} (hp : p.Local) {c : Cursor} {stop : ParseStop}
    (h : p c = .error stop) (final : stop ≠ .needMoreData) (more : List UInt8) :
    p (c.extend more) = .error stop :=
  hp.error h final _ _

theorem Local.pure (a : α) : (Pure.pure a : Parser α).Local where
  ok h := by cases h; exact ⟨[], .refl _, .pure a⟩
  error h := by cases h

theorem Local.stop (stop : ParseStop) : @Local α fun _ => .error stop where
  ok h := by cases h
  error h _ _ _ := by cases h; rfl

theorem Local.malformed (error : FormatError) : (Parser.malformed error : Parser α).Local :=
  .stop _

theorem Local.bind {p : Parser α} {f : α → Parser β} (hp : p.Local) (hf : ∀ a, (f a).Local) :
    (p >>= f).Local where
  ok h := by
    obtain ⟨a, c', ha, hb⟩ := bind_eq_ok h
    obtain ⟨bytes, takes, reads⟩ := hp.ok ha
    obtain ⟨more, takes', reads'⟩ := (hf a).ok hb
    exact ⟨bytes ++ more, takes.trans takes', reads.bind reads'⟩
  error := by
    intro c stop h final offset more
    cases hpc : p c with
    | error stop' =>
      rw [bind_error hpc] at h
      cases h
      exact bind_error (hp.error hpc final _ _)
    | ok r =>
      obtain ⟨a, c'⟩ := r
      rw [bind_ok hpc] at h
      obtain ⟨bytes, takes, reads⟩ := hp.ok hpc
      have first : Cursor.Takes ⟨offset, c.rest ++ more⟩ bytes
          ⟨offset + bytes.length, c'.rest ++ more⟩ :=
        ⟨by simp only [takes.1, List.append_assoc], rfl⟩
      rw [bind_ok (reads _ _ first)]
      exact (hf a).error h final _ _

theorem Local.ite {p q : Parser α} {condition : Prop} [Decidable condition] (hp : p.Local)
    (hq : q.Local) : (if condition then p else q).Local := by
  split
  · exact hp
  · exact hq

theorem local_byte : byte.Local where
  ok h := ⟨_, takes_byte h, reads_byte _⟩
  error h final := by
    unfold byte at h
    split at h
    · cases h; exact absurd rfl final
    · cases h

theorem local_bytes (n : Nat) : (bytes n).Local where
  ok {c c' bs} h := by
    obtain ⟨rfl, takes⟩ := takes_bytes h
    exact ⟨bs, takes, reads_bytes bs⟩
  error h final := by
    unfold bytes at h
    split at h
    · cases h
    · cases h; exact absurd rfl final

theorem Local.shift {p : Parser α} (hp : p.Local) (c : Cursor) (n : Nat) :
    p (c.shift n) = (p c).map fun r => (r.1, r.2.shift n) := by
  cases here : p c with
  | ok r =>
    obtain ⟨a, c'⟩ := r
    obtain ⟨bytes, takes, reads⟩ := hp.ok here
    exact reads _ _ (takes.shift n)
  | error stop =>
    cases there : p (c.shift n) with
    | ok r =>
      obtain ⟨bytes, takes, reads⟩ := hp.ok there
      rw [reads c ⟨c.offset + bytes.length, r.2.rest⟩ ⟨takes.1, rfl⟩] at here
      cases here
    | error stop' =>
      by_cases final : stop = .needMoreData
      · by_cases final' : stop' = .needMoreData
        · rw [final, final']
          rfl
        · have again := hp.error there final' c.offset []
          rw [List.append_nil] at again
          rw [show p c = .error stop' from again] at here
          cases here
          exact absurd final final'
      · have again := hp.error here final (c.offset + n) []
        rw [List.append_nil] at again
        rw [show p (c.shift n) = .error stop from again] at there
        cases there
        rfl

theorem Local.needs {p : Parser α} (hp : p.Local) {c c' : Cursor} {a : α} {more : List UInt8}
    (waits : p c = .error .needMoreData) (h : p (c.extend more) = .ok (a, c')) :
    c'.rest.length < more.length := by
  obtain ⟨bytes, takes, reads⟩ := hp.ok h
  have ends := congrArg List.length takes.1
  rw [Cursor.extend_rest, List.length_append, List.length_append] at ends
  by_cases enough : bytes.length ≤ c.rest.length
  · have there : c.rest = bytes ++ c.rest.drop bytes.length := by
      have first := congrArg (List.take bytes.length) takes.1
      rw [Cursor.extend_rest, List.take_append_of_le_length enough, List.take_left] at first
      rw [← first, List.length_take, Nat.min_eq_left enough, List.take_append_drop]
    rw [reads c ⟨c.offset + bytes.length, c.rest.drop bytes.length⟩ ⟨there, rfl⟩] at waits
    cases waits
  · omega

/-- A local step asks for more as long as bytes of its value are missing. -/
theorem Reads.waits {p : Parser α} (hp : p.Local) {a : α} {bytes part missing : List UInt8}
    (reads : p.Reads bytes a) (split : bytes = part ++ missing) (something : missing ≠ [])
    (offset : Nat) : p ⟨offset, part⟩ = .error .needMoreData := by
  have whole : p ⟨offset, part ++ missing⟩ = .ok (a, ⟨offset + bytes.length, []⟩) :=
    reads _ _ ⟨by rw [List.append_nil, split], rfl⟩
  cases h : p ⟨offset, part⟩ with
  | ok r =>
    have again := hp.extend_ok h missing
    rw [show Cursor.extend ⟨offset, part⟩ missing = ⟨offset, part ++ missing⟩ from rfl, whole] at again
    have rest := congrArg (fun r => r.toOption.map fun r => r.2.rest) again
    simp only [Except.toOption, Option.map_some, Option.some.injEq, Cursor.extend_rest] at rest
    exact absurd (List.append_eq_nil_iff.1 rest.symm).2 something
  | error stop =>
    by_cases more : stop = .needMoreData
    · rw [more]
    · have again := hp.error h more offset missing
      rw [whole] at again
      cases again

/-! ## Steps that always have an answer -/

/-- The step's preconditions hold at every cursor. -/
def Answers (p : Parser α) : Prop :=
  ∀ c, p c ≠ .error .breach

theorem Answers.pure (a : α) : (Pure.pure a : Parser α).Answers := by
  intro c h
  cases h

theorem Answers.malformed (error : FormatError) :
    (Parser.malformed error : Parser α).Answers := by
  intro c h
  cases h

theorem Answers.bind {p : Parser α} {f : α → Parser β} (hp : p.Answers)
    (hf : ∀ a, (f a).Answers) : (p >>= f).Answers := by
  intro c h
  cases hpc : p c with
  | error stop =>
    rw [bind_error hpc] at h
    cases h
    exact hp c hpc
  | ok r =>
    obtain ⟨a, c'⟩ := r
    rw [bind_ok hpc] at h
    exact hf a c' h

theorem Answers.ite {p q : Parser α} {condition : Prop} [Decidable condition] (hp : p.Answers)
    (hq : q.Answers) : (if condition then p else q).Answers := by
  split
  · exact hp
  · exact hq

theorem answers_byte : byte.Answers := by
  intro c h
  simp only [byte] at h
  split at h <;> cases h

end Parser

end DeltaCoding
