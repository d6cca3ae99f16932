import Stencil.Text

/-!
# Reading UTF-8

Bytes from outside need not be text. They are cut into segments: each well-formed
character is a segment, and so is each maximal ill-formed subpart, which is the
longest stretch that could still have become a character before a byte ruled
it out. A byte that rules a character out is not part of the stretch; it is
read again as the start of the next segment.

Which bytes may come next depends only on the bytes of the character begun, so
one byte at a time is enough. The second byte of a character is where overlong
forms, surrogates and values beyond the last code point are excluded, and
`Partial.low` and `Partial.high` carry that restriction.

Everything this library does with doubtful bytes is a function of the segments:
the readable beginning of a buffer that was cut inside a character, and the
text with every ill-formed stretch replaced by U+FFFD.

## Main definitions

* `Utf8.Partial`: A character begun and not complete.
* `Utf8.step`: One byte read.
* `Utf8.segments`: The characters and ill-formed stretches of some bytes.
* `Utf8.validPrefix`: The text up to the first ill-formed stretch.
* `Utf8.lossy`: The text with U+FFFD for each ill-formed stretch.

## Theorems

* `Utf8.segmentsFrom_append`: Reading two pieces is reading one and going on.
-/

namespace Stencil

namespace Utf8

/-- A character of which some bytes have been read. -/
structure Partial where
  /-- How many bytes are still owed, the next one included. -/
  owed : Nat
  /-- The least byte that may come next. -/
  low : UInt8
  /-- The greatest byte that may come next. -/
  high : UInt8
  /-- The bits read so far. -/
  value : Nat
  deriving DecidableEq

/-- A segment is a character, or `none` for an ill-formed stretch. -/
abbrev Segment := Option Char

/-- What stands in for an ill-formed stretch. -/
def replacement : Char := '\uFFFD'

/-- Read a byte that starts a segment: a character of one byte, the lead of a
    longer one, or a byte that starts nothing. -/
def start (b : UInt8) : List Segment × Option Partial :=
  let bits := fun (mask : UInt8) => (b &&& mask).toNat
  if b < 0x80 then ([some (Char.ofNat b.toNat)], none)
  -- A byte that continues a character, or the lead of an overlong form.
  else if b < 0xC2 then ([none], none)
  else if b < 0xE0 then ([], some ⟨1, 0x80, 0xBF, bits 0x1F⟩)
  -- The second byte excludes overlong forms, and then surrogates.
  else if b = 0xE0 then ([], some ⟨2, 0xA0, 0xBF, bits 0x0F⟩)
  else if b = 0xED then ([], some ⟨2, 0x80, 0x9F, bits 0x0F⟩)
  else if b < 0xF0 then ([], some ⟨2, 0x80, 0xBF, bits 0x0F⟩)
  -- And here overlong forms, and then values beyond the last code point.
  else if b = 0xF0 then ([], some ⟨3, 0x90, 0xBF, bits 0x07⟩)
  else if b < 0xF4 then ([], some ⟨3, 0x80, 0xBF, bits 0x07⟩)
  else if b = 0xF4 then ([], some ⟨3, 0x80, 0x8F, bits 0x07⟩)
  else ([none], none)

/-- Read one byte: the segments it completes, and the character it leaves open. -/
def step (state : Option Partial) (b : UInt8) : List Segment × Option Partial :=
  match state with
  | none => start b
  | some p =>
    if p.low ≤ b ∧ b ≤ p.high then
      let value := p.value * 64 + (b &&& 0x3F).toNat
      if p.owed ≤ 1 then ([some (Char.ofNat value)], none)
      else ([], some ⟨p.owed - 1, 0x80, 0xBF, value⟩)
    else
      -- The byte that rules the character out is read again.
      let (out, next) := start b
      (none :: out, next)

/-- The segments of some bytes, read on from a character left open. A character
    still open at the end is an ill-formed stretch. -/
def segmentsFrom : Option Partial → List UInt8 → List Segment
  | none, [] => []
  | some _, [] => [none]
  | state, b :: rest =>
    let (out, next) := step state b
    out ++ segmentsFrom next rest

/-- The segments of some bytes. -/
def segments (bytes : List UInt8) : List Segment := segmentsFrom none bytes

/-- The segments that some bytes complete, and the character they leave open. -/
def scan : Option Partial → List UInt8 → List Segment × Option Partial
  | state, [] => ([], state)
  | state, b :: rest =>
    let (out, next) := step state b
    let (more, last) := scan next rest
    (out ++ more, last)

/-- Reading bytes in two pieces: the first leaves a state behind, and the
    second goes on from there. -/
theorem segmentsFrom_append (state : Option Partial) (first second : List UInt8) :
    segmentsFrom state (first ++ second) =
      (scan state first).1 ++ segmentsFrom (scan state first).2 second := by
  induction first generalizing state with
  | nil => rfl
  | cons b rest ih =>
      simp only [List.cons_append, segmentsFrom, scan, ih, List.append_assoc]

/-- The characters before the first ill-formed stretch. -/
def leading : List Segment → Text
  | some c :: rest => c :: leading rest
  | _ => []

/-- The longest beginning of some bytes that is text. -/
def validPrefix (bytes : List UInt8) : Text := leading (segments bytes)

/-- The text of some bytes, with a replacement for each ill-formed stretch. -/
def lossy (bytes : List UInt8) : Text := (segments bytes).map (Option.getD · replacement)

end Utf8

end Stencil
