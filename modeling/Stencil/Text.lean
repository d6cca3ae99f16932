import Stencil.Count

/-!
# Text and Its Bytes

Text is a list of Unicode scalar values, so that a template, a spec and a
rendered run can be read and taken apart one character at a time. Sinks store
and count bytes instead, so every text also has an encoded form.

The two measures of a text must agree: what a renderer reports is a sum of
character widths, and what a sink receives is a list of bytes.
`length_bytes` says the list is as long as the sum.

## Main definitions

* `Text`: A run of characters.
* `Text.bytes`: Its UTF-8 encoding.
* `Text.byteLength`: The length of that encoding, counted character by character.

## Theorems

* `Text.bytes_append`, `Text.byteLength_append`: Both respect concatenation.
* `Text.length_bytes`: The encoding is as long as the characters are wide.
-/

namespace Stencil

/-- A run of characters. -/
abbrev Text := List Char

namespace Text

/-- The UTF-8 encoding of a text. -/
def bytes (t : Text) : List UInt8 := t.flatMap String.utf8EncodeChar

/-- How many bytes the encoding of a text takes. -/
def byteLength : Text → Nat
  | [] => 0
  | c :: t => c.utf8Size + byteLength t

/-- The count of the bytes of a text. -/
def count (t : Text) : Count := Count.ofNat (byteLength t)

theorem bytes_nil : bytes [] = [] := rfl

theorem bytes_cons (c : Char) (t : Text) :
    bytes (c :: t) = String.utf8EncodeChar c ++ bytes t := rfl

theorem bytes_append (s t : Text) : bytes (s ++ t) = bytes s ++ bytes t :=
  List.flatMap_append

theorem byteLength_nil : byteLength [] = 0 := rfl

theorem byteLength_cons (c : Char) (t : Text) :
    byteLength (c :: t) = c.utf8Size + byteLength t := rfl

theorem byteLength_append (s t : Text) :
    byteLength (s ++ t) = byteLength s + byteLength t := by
  induction s with
  | nil => exact (Nat.zero_add _).symm
  | cons c s ih => rw [List.cons_append, byteLength_cons, byteLength_cons, ih, Nat.add_assoc]

/-- The encoding of one character is as long as the character is wide, hence
    the encoding of a text is as long as its characters together. -/
theorem length_bytes (t : Text) : (bytes t).length = byteLength t := by
  induction t with
  | nil => rfl
  | cons c t ih =>
      rw [bytes_cons, byteLength_cons, List.length_append, ih, String.length_utf8EncodeChar]

end Text

end Stencil
