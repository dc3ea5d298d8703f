import DeltaCoding.Proofs.Text.JsonArray
import DeltaCoding.Proofs.Writer.Windows
import DeltaCoding.Writer.Basic

namespace DeltaCoding

open JsonArray (Item StandsFor Lists)

/-- What an edit is in JSON: a string of the bytes that it makes, or the two numbers of a copy. -/
def Edit.items (e : Edit) : List Item :=
  if e.size = 0 then []
  else
    match e with
    | .add bytes => [.string bytes]
    | .copy address size => [.number address, .number size]
    | .run size byte => [.string (List.replicate size byte)]

/-! ## Strings -/

namespace JsonText

/-- The bytes are a text in UTF-8 that stands for `bytes` inside a string. -/
def Shows (written bytes : List UInt8) : Prop :=
  ∃ text : List Char, written = text.flatMap String.utf8EncodeChar ∧ StandsFor text bytes

theorem utf8_eq (text : String) : utf8 text = text.toList.flatMap String.utf8EncodeChar :=
  Text.toList_toUTF8 text

theorem toList_hex_four {n : Nat} (byte : n < 256) :
    (Text.hex 4 n).toList = ['0', '0', Nat.digitChar (n / 16), Nat.digitChar (n % 16)] := by
  by_cases small : n < 16
  · simp [Text.hex, Nat.toDigits_of_lt_base small, Nat.div_eq_of_lt small, Nat.mod_eq_of_lt small,
      List.replicate]
  · rw [Text.hex, Nat.toDigits_of_base_le (by decide) (Nat.le_of_not_lt small),
      Nat.toDigits_of_lt_base (by omega : n / 16 < 16)]
    simp [List.replicate]

theorem codeUnit?_digitChar {n : Nat} (byte : n < 256) :
    JsonArray.codeUnit? '0' '0' (Nat.digitChar (n / 16)) (Nat.digitChar (n % 16)) = some n := by
  have digit : ∀ d < 16, JsonArray.hexDigit? (Nat.digitChar d) = some d := by decide
  have zero : JsonArray.hexDigit? '0' = some 0 := rfl
  simp only [JsonArray.codeUnit?, zero, digit (n / 16) (by omega), digit (n % 16) (by omega)]
  show some _ = some n
  congr 1
  omega

theorem unitBytes?_toNat (byte : UInt8) : JsonArray.unitBytes? byte.toNat = some [byte] := by
  have := byte.toNat_lt
  by_cases ascii : byte.toNat < 0x80
  · rw [JsonArray.unitBytes?, if_neg (by simp; omega), if_neg (by simp; omega),
      Text.Utf8.utf8EncodeChar_ofNat ascii]
  · rw [JsonArray.unitBytes?, if_pos (by simp; omega), UInt8.ofNat_toNat]

theorem shows_escapedByte (byte : UInt8) : Shows (escapedByte byte) [byte] := by
  refine ⟨_, ?_, .unit (codeUnit?_digitChar byte.toNat_lt) (unitBytes?_toNat byte)⟩
  rw [escapedByte, utf8_eq, String.toList_append, toList_hex_four byte.toNat_lt]
  rfl

theorem shows_letter {letter c : Char} (stands : JsonArray.escaped? letter = some c) :
    Shows (utf8 (String.ofList ['\\', letter])) (String.utf8EncodeChar c) :=
  ⟨_, (utf8_eq _).trans (congrArg _ String.toList_ofList), .letter stands⟩

theorem shows_char {byte : UInt8} (ascii : byte.toNat < 0x80) (printable : 0x20 ≤ byte.toNat)
    (notQuote : byte ≠ 0x22) (notEscape : byte ≠ 0x5C) : Shows [byte] [byte] := by
  have value : (Char.ofNat byte.toNat).toNat = byte.toNat :=
    Text.Utf8.toNat_ofNat (.inl (Nat.lt_trans ascii (by decide)))
  have differs : ∀ c : Char, byte ≠ UInt8.ofNat c.toNat → Char.ofNat byte.toNat ≠ c := by
    rintro c different rfl
    rw [value, UInt8.ofNat_toNat] at different
    exact different rfl
  have stands := StandsFor.char (by rwa [value]) (differs '"' notQuote) (differs '\\' notEscape)
  rw [Text.Utf8.utf8EncodeChar_ofNat ascii] at stands
  exact ⟨[Char.ofNat byte.toNat], by simp [Text.Utf8.utf8EncodeChar_ofNat ascii], stands⟩

theorem shows_escapedAscii {byte : UInt8} (ascii : byte.toNat < 0x80) :
    Shows (escapedAscii byte) [byte] := by
  unfold escapedAscii
  split_ifs with quote escape backspace tab newline feed carriage control
  · subst quote; exact @shows_letter '"' '"' rfl
  · subst escape; exact @shows_letter '\\' '\\' rfl
  · subst backspace; exact @shows_letter 'b' '\x08' rfl
  · subst tab; exact @shows_letter 't' '\t' rfl
  · subst newline; exact @shows_letter 'n' '\n' rfl
  · subst feed; exact @shows_letter 'f' '\x0C' rfl
  · subst carriage; exact @shows_letter 'r' '\r' rfl
  · exact shows_escapedByte byte
  · have printable : 0x20 ≤ byte.toNat := Nat.le_of_not_lt fun less =>
      control (UInt8.lt_iff_toNat_lt.mpr less)
    exact shows_char ascii printable quote escape

/-- What is written for the front of bytes stands for what the front is. -/
theorem shows_escapeFront (byte : UInt8) (rest : List UInt8) :
    ∃ front, Shows (escapeFront byte rest).1 front ∧
      front ++ (escapeFront byte rest).2 = byte :: rest := by
  unfold escapeFront
  split
  · exact ⟨[byte], shows_escapedByte byte, rfl⟩
  · next single =>
    have ascii : byte.toNat < 0x80 := Nat.lt_of_not_le fun long => by
      obtain ⟨_, _, more, _, _, _, _, two, _⟩ := Text.Utf8.encodedLength?_cases single long
      omega
    exact ⟨[byte], shows_escapedAscii ascii, rfl⟩
  · next length notSingle found =>
    have long : 0x80 ≤ byte.toNat := Text.Utf8.le_of_encodedLength?_ne_one fun single => by
      rw [found] at single
      exact notSingle (Option.some.inj single)
    obtain ⟨c, encoded, large⟩ := Text.Utf8.exists_char_of_encodedLength? found long
    have differs : ∀ d : Char, d.toNat < 0x80 → c ≠ d := by
      rintro d small rfl
      omega
    refine ⟨byte :: rest.take (length - 1), ⟨[c], ?_, ?_⟩, ?_⟩
    · simp [encoded]
    · exact encoded ▸ .char (by omega) (differs '"' (by decide)) (differs '\\' (by decide))
    · rw [List.cons_append, List.take_append_drop]

theorem Shows.append {written written' bytes bytes' : List UInt8} (first : Shows written bytes)
    (second : Shows written' bytes') : Shows (written ++ written') (bytes ++ bytes') := by
  obtain ⟨text, rfl, stands⟩ := first
  obtain ⟨text', rfl, stands'⟩ := second
  exact ⟨text ++ text', List.flatMap_append.symm, stands.append stands'⟩

theorem shows_escapeOnto (bytes : List UInt8) (before : Array UInt8) :
    ∃ written, (escapeOnto before bytes).toList = before.toList ++ written ∧
      Shows written bytes := by
  fun_induction escapeOnto before bytes with
  | case1 before => exact ⟨[], (List.append_nil _).symm, [], rfl, .nil⟩
  | case2 before byte rest front ih =>
    obtain ⟨written, onto, shows⟩ := ih
    obtain ⟨bytes, showsFront, whole⟩ := shows_escapeFront byte rest
    refine ⟨front.1 ++ written, ?_, whole ▸ showsFront.append shows⟩
    rw [onto, Array.toList_appendList, List.append_assoc]

end JsonText

/-! ## Items -/

namespace JsonWriter

/-- The bytes are a text in UTF-8 that lists the items inside an array. -/
def ShowsItems (written : List UInt8) (items : List Item) : Prop :=
  ∃ text : List Char, written = text.flatMap String.utf8EncodeChar ∧ Lists text items

theorem showsItems_quoted (bytes : List UInt8) :
    ShowsItems (JsonText.quoted bytes) [.string bytes] := by
  obtain ⟨written, onto, text, rfl, stands⟩ := JsonText.shows_escapeOnto bytes #[0x22]
  refine ⟨'"' :: (text ++ ['"']), ?_, .string stands⟩
  rw [JsonText.quoted, Array.toList_push, onto]
  simp only [List.flatMap_cons, List.flatMap_append, List.flatMap_nil]
  rfl

theorem showsItems_copy (address size : Nat) :
    ShowsItems (JsonText.utf8 s!"{address},{size}") [.number address, .number size] := by
  refine ⟨Nat.toDigits 10 address ++ ',' :: Nat.toDigits 10 size, ?_,
    (Lists.number address).comma (.number size)⟩
  rw [JsonText.utf8_eq]
  congr 1
  simp [toString, String.toList_append]

theorem showsItems_item {e : Edit} (nonempty : e.size ≠ 0) : ShowsItems (item e) e.items := by
  unfold Edit.items
  rw [if_neg nonempty]
  cases e with
  | add bytes => exact showsItems_quoted bytes
  | copy address size => exact showsItems_copy address size
  | run size byte => exact showsItems_quoted (List.replicate size byte)

/-! ## Windows -/

variable {w : JsonWriter} {before : List UInt8} {items : List Item}

/-- What has been handed out behind the first bracket, together with what the window holds, lists the
items. -/
def Holds (w : JsonWriter) (before : List UInt8) (items : List Item) : Prop :=
  if w.hasItems then ShowsItems (before ++ w.window.toList) items
  else before ++ w.window.toList = [] ∧ items = []

/-- The writer is in a window. -/
structure Writing (w : JsonWriter) (before : List UInt8) (items : List Item) : Prop where
  inWindow : w.inWindow = true
  going : w.finished = false
  holds : w.Holds before items

/-- The writer is between windows. -/
structure Between (w : JsonWriter) (before : List UInt8) (items : List Item) : Prop where
  outside : w.inWindow = false
  going : w.finished = false
  empty : w.window = #[]
  holds : w.Holds before items

theorem between_start : ({} : JsonWriter).Between [] [] :=
  ⟨rfl, rfl, rfl, rfl, rfl⟩

theorem Between.openWindow (between : w.Between before items) :
    ∃ w', w.openWindow = (.ok (), w') ∧ w'.Writing before items := by
  refine ⟨{ w with inWindow := true }, ?_, rfl, between.going, between.holds⟩
  simp [JsonWriter.openWindow, between.going, between.outside]

theorem holds_putItem {written : List UInt8} {more : List Item} (holds : w.Holds before items)
    (shows : ShowsItems written more) : (w.putItem written).Holds before (items ++ more) := by
  obtain ⟨text, rfl, lists⟩ := shows
  unfold Holds at holds
  split at holds
  · next some =>
    obtain ⟨front, shown, listed⟩ := holds
    refine ⟨front ++ ',' :: text, ?_, listed.comma lists⟩
    simp only [putItem, if_pos some, Array.toList_appendList, JsonText.utf8_eq]
    rw [List.flatMap_append, ← shown]
    simp
  · next none =>
    obtain ⟨nothing, rfl⟩ := holds
    refine ⟨text, ?_, lists⟩
    simp only [putItem, if_neg none, Array.toList_appendList, List.append_nil]
    rw [← List.append_assoc, nothing, List.nil_append]

theorem Writing.edit (writing : w.Writing before items) (e : Edit) :
    ∃ w', w.edit e = (.ok (), w') ∧ w'.Writing before (items ++ e.items) := by
  rw [JsonWriter.edit, if_pos writing.inWindow]
  by_cases empty : e.size = 0
  · have nothing : e.items = [] := if_pos empty
    rw [if_pos empty, nothing, List.append_nil]
    exact ⟨w, rfl, writing⟩
  · rw [if_neg empty]
    exact ⟨w.putItem (item e), rfl, writing.inWindow, writing.going,
      holds_putItem writing.holds (showsItems_item empty)⟩

theorem Writing.closeWindow (writing : w.Writing before items) :
    ∃ bytes w', w.closeWindow = (.ok bytes, w') ∧ w'.Between (before ++ bytes) items := by
  refine ⟨w.window.toList, { w with window := #[], inWindow := false }, ?_, rfl, writing.going, rfl,
    ?_⟩
  · rw [JsonWriter.closeWindow, if_pos writing.inWindow]
  · have holds := writing.holds
    unfold Holds at holds ⊢
    simpa using holds

end JsonWriter

/-! ## Documents -/

/-- The call that opens the window. -/
def Opening.begin (opening : Opening) (writer : Writer) : Writer.Call Unit :=
  match opening with
  | .dictionary size => writer.openWindow size
  | .target position length => writer.openTargetWindow position length

namespace Writer

/-- The calls for a window of edits, which is handed out. -/
def window (writer : Writer) (opening : Opening) (es : List Edit) : Call (List UInt8) :=
  match opening.begin writer with
  | (.error error, writer) => (.error error, writer)
  | (.ok (), writer) =>
    match writer.edits es with
    | (.error error, writer) => (.error error, writer)
    | (.ok (), writer) => writer.closeWindow

/-- The calls for windows one after another, and the bytes that are handed out. -/
def windows (writer : Writer) : List (Opening × List Edit) → Call (List UInt8)
  | [] => (.ok [], writer)
  | (opening, es) :: rest =>
    match writer.window opening es with
    | (.error error, writer) => (.error error, writer)
    | (.ok bytes, writer) => (writer.windows rest).map (·.map (bytes ++ ·)) id

/-- All calls for a delta of windows. -/
def document (writer : Writer) (version : Version) (windows : List (Opening × List Edit)) :
    Except EncodeError (List UInt8) := do
  let header ← writer.fileHeader version
  let (body, writer) := writer.windows windows
  return header ++ (← body) ++ (← writer.finish.1)

end Writer

namespace JsonWriter

variable {w : JsonWriter} {before : List UInt8} {items : List Item}

theorem Writing.edits (writing : w.Writing before items) (es : List Edit) :
    ∃ w', Writer.edits (.json w) es = (.ok (), .json w') ∧
      w'.Writing before (items ++ es.flatMap Edit.items) := by
  induction es generalizing w items with
  | nil => exact ⟨w, rfl, by simpa using writing⟩
  | cons e es ih =>
    obtain ⟨w', accepted, writing⟩ := writing.edit e
    obtain ⟨w'', rest, writing⟩ := ih writing
    refine ⟨w'', ?_, ?_⟩
    · simp only [Writer.edits, Writer.edit, accepted, Prod.map, id, rest]
    · rwa [List.flatMap_cons, ← List.append_assoc]

theorem Between.window (between : w.Between before items) (opening : Opening) (es : List Edit) :
    ∃ bytes w', Writer.window (.json w) opening es = (.ok bytes, .json w') ∧
      w'.Between (before ++ bytes) (items ++ es.flatMap Edit.items) := by
  obtain ⟨w₁, opens, writing⟩ := between.openWindow
  have begins : opening.begin (.json w) = (.ok (), .json w₁) := by
    cases opening <;>
      simp only [Opening.begin, Writer.openWindow, Writer.openTargetWindow, opens, Prod.map, id]
  obtain ⟨w₂, accepted, writing⟩ := writing.edits es
  obtain ⟨bytes, w₃, closes, between⟩ := writing.closeWindow
  refine ⟨bytes, w₃, ?_, between⟩
  simp only [Writer.window, begins, accepted, Writer.closeWindow, closes, Prod.map, id]

theorem Between.windows (between : w.Between before items) (windows : List (Opening × List Edit)) :
    ∃ bytes w', Writer.windows (.json w) windows = (.ok bytes, .json w') ∧
      w'.Between (before ++ bytes) (items ++ windows.flatMap fun made => made.2.flatMap Edit.items) := by
  induction windows generalizing w before items with
  | nil => exact ⟨[], w, rfl, by simpa using between⟩
  | cons made windows ih =>
    obtain ⟨opening, es⟩ := made
    obtain ⟨bytes, w₁, wrote, between⟩ := between.window opening es
    obtain ⟨more, w₂, rest, between⟩ := ih between
    refine ⟨bytes ++ more, w₂, ?_, ?_⟩
    · simp only [Writer.windows, wrote, rest, Prod.map, Except.map, id]
    · rwa [List.flatMap_cons, ← List.append_assoc, ← List.append_assoc]

theorem Between.read (between : w.Between before items) :
    ∃ text : String, JsonWriter.fileHeader ++ before ++ JsonText.utf8 "]" = JsonText.utf8 text ∧
      JsonArray.read text.toList = some items := by
  have holds := between.holds
  unfold Holds at holds
  rw [between.empty, List.append_nil] at holds
  split at holds
  · obtain ⟨text, rfl, lists⟩ := holds
    refine ⟨String.ofList ('[' :: (text ++ [']'])), ?_, ?_⟩
    · simp [JsonWriter.fileHeader, JsonText.utf8_eq]
    · rw [String.toList_ofList]
      exact lists.read
  · obtain ⟨rfl, rfl⟩ := holds
    exact ⟨"[]", by simp [JsonWriter.fileHeader, JsonText.utf8_eq], rfl⟩

end JsonWriter

/-- Whatever windows of edits the JSON writer is handed, it accepts them, and what it hands out is the
text of an array whose items are those of the edits. -/
theorem Writer.read_document (version : Version) (windows : List (Opening × List Edit)) :
    ∃ text : String,
      (Writer.json {}).document version windows = .ok text.toUTF8.toList ∧
      JsonArray.read text.toList =
        some (windows.flatMap fun made => made.2.flatMap Edit.items) := by
  obtain ⟨body, w, wrote, between⟩ := JsonWriter.between_start.windows windows
  obtain ⟨text, same, reads⟩ := between.read
  refine ⟨text, ?_, reads⟩
  have finishes : w.finish = (.ok (JsonText.utf8 "]"), { w with finished := true }) := by
    rw [JsonWriter.finish, if_neg (by simp [between.outside])]
  simp only [Writer.document, Writer.fileHeader, wrote, Writer.finish, finishes]
  exact congrArg Except.ok same

/-- A character that is cut between two edits, and a window without edits. -/
example :
    (Writer.json {}).document .standard
      [(.dictionary 7, [.add [0x63, 0xC3], .run 2 0xA9, .add [], .copy 3 7]), (.dictionary 7, []),
        (.target 1 2, [.add [0xC3, 0xBC, 0x0A]])] =
      .ok (JsonText.utf8 "[\"c\\u00c3\",\"\\u00a9\\u00a9\",3,7,\"ü\\n\"]") := by
  cbv

end DeltaCoding
