/-!
# Byte strings

Names and texts are byte strings. They come from characters by UTF-8 and are shown as characters
again; bytes that are no UTF-8 are shown as replacement characters.

* `Bytes.ofChars`, `Bytes.ofString`: the UTF-8 encoding.
* `Bytes.lossy`: the characters of a byte string, with one `U+FFFD` for every maximal ill-formed
  part.

Results:
* `ofChars_append`: encoding works character by character.
* `lossy_ofChars_append`: what was encoded is decoded, whatever follows it.
* `lossy_ofChars`: decoding undoes encoding.
-/

namespace ActionKit

/-- A name or a text: any sequence of bytes. -/
abbrev Bytes := List UInt8

namespace Bytes

/-! ## Encoding -/

/-- The UTF-8 encoding of a sequence of characters. -/
def ofChars (cs : List Char) : Bytes := cs.flatMap String.utf8EncodeChar

/-- The UTF-8 encoding of a string. -/
def ofString (s : String) : Bytes := ofChars s.toList

@[simp] theorem ofChars_nil : ofChars [] = [] := rfl

@[simp] theorem ofChars_cons (c : Char) (cs : List Char) :
    ofChars (c :: cs) = String.utf8EncodeChar c ++ ofChars cs := rfl

@[simp] theorem ofChars_append (cs ds : List Char) :
    ofChars (cs ++ ds) = ofChars cs ++ ofChars ds := by
  simp [ofChars]

/-! ## Decoding -/

/-- The character a byte string starts with, if it starts with a well-formed sequence. No
sequence is longer than four bytes. -/
def first? (bytes : Bytes) : Option Char := (bytes.take 4).toByteArray.utf8DecodeChar? 0

/-- The range of the second byte of the well-formed sequences of several bytes that start with
`lead`, if there are any. -/
def secondRange? (lead : UInt8) : Option (UInt8 × UInt8) :=
  if lead < 0xC2 then none
  else if lead < 0xE0 then some (0x80, 0xBF)
  else if lead = 0xE0 then some (0xA0, 0xBF)
  else if lead = 0xED then some (0x80, 0x9F)
  else if lead < 0xF0 then some (0x80, 0xBF)
  else if lead = 0xF0 then some (0x90, 0xBF)
  else if lead < 0xF4 then some (0x80, 0xBF)
  else if lead = 0xF4 then some (0x80, 0x8F)
  else none

/-- Whether a byte may stand at the third or a later place of a sequence. -/
def isContinuation (byte : UInt8) : Bool := 0x80 ≤ byte && byte ≤ 0xBF

/-- How many bytes after the second one may belong to an unfinished sequence. -/
def unfinishedTail (lead : UInt8) : Nat := if lead < 0xF0 then 0 else 1

/-- The length of the ill-formed part that starts with `lead`: the longest beginning of some
well-formed sequence, and at least one byte. -/
def brokenLength (lead : UInt8) (rest : Bytes) : Nat :=
  match secondRange? lead, rest with
  | some (lo, hi), second :: tail =>
    if lo ≤ second && second ≤ hi then
      2 + ((tail.take (unfinishedTail lead)).takeWhile isContinuation).length
    else 1
  | _, _ => 1

/-- The characters of a byte string. Every maximal ill-formed part counts as one replacement
character. -/
def lossy (bytes : Bytes) : List Char :=
  match bytes with
  | [] => []
  | lead :: rest =>
    match first? (lead :: rest) with
    | some c => c :: lossy (rest.drop (c.utf8Size - 1))
    | none => '\uFFFD' :: lossy (rest.drop (brokenLength lead rest - 1))
termination_by bytes.length
decreasing_by all_goals simp only [List.length_cons, List.length_drop]; omega

/-- The text a byte string is shown as. -/
def shown (bytes : Bytes) : String := String.ofList bytes.lossy

/-! ## Decoding undoes encoding -/

theorem encode_length_le (c : Char) : (String.utf8EncodeChar c).length ≤ 4 := by
  rw [String.length_utf8EncodeChar]
  exact Char.utf8Size_le_four c

theorem first?_encode_append (c : Char) (rest : Bytes) :
    first? (String.utf8EncodeChar c ++ rest) = some c := by
  have h : (String.utf8EncodeChar c ++ rest).take 4 =
      String.utf8EncodeChar c ++ rest.take (4 - (String.utf8EncodeChar c).length) := by
    rw [List.take_append, List.take_of_length_le (encode_length_le c)]
  rw [first?, h, List.toByteArray_append]
  exact ByteArray.utf8DecodeChar?_utf8EncodeChar_append

theorem lossy_encode_append (c : Char) (rest : Bytes) :
    lossy (String.utf8EncodeChar c ++ rest) = c :: lossy rest := by
  have hf := first?_encode_append c rest
  have hl := String.length_utf8EncodeChar c
  have hp := Char.utf8Size_pos c
  cases he : String.utf8EncodeChar c with
  | nil =>
    rw [he] at hl
    simp at hl
    omega
  | cons lead tail =>
    rw [he] at hf hl
    rw [List.cons_append] at hf
    have hd : (tail ++ rest).drop (c.utf8Size - 1) = rest := by
      have : c.utf8Size - 1 = tail.length := by
        simp at hl
        omega
      rw [this, List.drop_left]
    rw [List.cons_append, lossy, hf]
    simp [hd]

/-- **Encoded characters are decoded again**, whatever bytes follow them. -/
theorem lossy_ofChars_append (cs : List Char) (rest : Bytes) :
    lossy (ofChars cs ++ rest) = cs ++ lossy rest := by
  induction cs with
  | nil => rfl
  | cons c cs ih => rw [ofChars_cons, List.append_assoc, lossy_encode_append, ih, List.cons_append]

/-- **Decoding undoes encoding.** -/
theorem lossy_ofChars (cs : List Char) : lossy (ofChars cs) = cs := by
  have h := lossy_ofChars_append cs []
  rw [List.append_nil] at h
  rw [h, lossy, List.append_nil]

/-- Different characters have different encodings. -/
theorem ofChars_injective {cs ds : List Char} (h : ofChars cs = ofChars ds) : cs = ds := by
  rw [← lossy_ofChars cs, h, lossy_ofChars]

end Bytes

end ActionKit
