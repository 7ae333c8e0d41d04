import SuiteIndex.Text

/-! # Texts as bytes

A text is kept outside of memory in UTF-8. Not every string of bytes stands for a text; where
one has to be shown all the same, U+FFFD takes the place of what cannot be decoded.
-/

namespace SuiteIndex

abbrev Bytes := List UInt8

def Text.utf8 (t : Text) : Bytes :=
  t.flatMap String.utf8EncodeChar

namespace Bytes

/-- The text that the bytes stand for, if they are UTF-8. -/
def text? (bytes : Bytes) : Option Text :=
  (String.fromUTF8? bytes.toByteArray).map String.toList

/-- How many bytes follow a first byte, and the bounds of the one right behind it. -/
def lead? (byte : UInt8) : Option (Nat × UInt8 × UInt8) :=
  if byte ≤ 0x7F then some (0, 0x80, 0xBF)
  else if byte < 0xC2 then none
  else if byte ≤ 0xDF then some (1, 0x80, 0xBF)
  else if byte = 0xE0 then some (2, 0xA0, 0xBF)
  else if byte = 0xED then some (2, 0x80, 0x9F)
  else if byte ≤ 0xEF then some (2, 0x80, 0xBF)
  else if byte = 0xF0 then some (3, 0x90, 0xBF)
  else if byte ≤ 0xF3 then some (3, 0x80, 0xBF)
  else if byte = 0xF4 then some (3, 0x80, 0x8F)
  else none

/-- How many of up to `count` bytes go on with a character. -/
def following : Nat → UInt8 → UInt8 → Bytes → Nat
  | count + 1, low, high, byte :: rest =>
    if low ≤ byte && byte ≤ high then following count 0x80 0xBF rest + 1 else 0
  | _, _, _, _ => 0

/-- The bytes as a text to look at. Each longest part that begins a character and cannot be
decoded is shown as one U+FFFD. -/
def shown : Bytes → Text
  | [] => []
  | byte :: rest =>
    let length := match lead? byte with
      | some (count, low, high) => following count low high rest
      | none => 0
    ((byte :: rest.take length).toByteArray.utf8DecodeChar? 0).getD '\uFFFD' ::
      shown (rest.drop length)
termination_by bytes => bytes.length
decreasing_by grind

theorem fromUTF8?_eq_some_iff {bytes : ByteArray} {s : String} :
    String.fromUTF8? bytes = some s ↔ s.toByteArray = bytes := by
  unfold String.fromUTF8?
  constructor
  · intro h
    split at h
    · cases h
      rfl
    · cases h
  · rintro rfl
    rw [dif_pos s.isValidUTF8]
    rfl

theorem text?_eq_some_iff {bytes : Bytes} {t : Text} : text? bytes = some t ↔ bytes = t.utf8 := by
  have hutf8 : t.utf8.toByteArray = (String.ofList t).toByteArray := by
    rw [String.toByteArray_ofList]
    rfl
  rw [text?, Option.map_eq_some_iff]
  constructor
  · rintro ⟨s, hs, rfl⟩
    rw [fromUTF8?_eq_some_iff] at hs
    rw [String.ofList_toList, hs] at hutf8
    exact (List.toByteArray_inj.1 hutf8).symm
  · rintro rfl
    exact ⟨String.ofList t, fromUTF8?_eq_some_iff.2 hutf8.symm, String.toList_ofList⟩

@[simp] theorem text?_utf8 (t : Text) : text? t.utf8 = some t :=
  text?_eq_some_iff.2 rfl

example : shown [0x61, 0xFF, 0xE2, 0x82, 0x62] = "a\uFFFD\uFFFDb".toList := by cbv

end Bytes

end SuiteIndex
