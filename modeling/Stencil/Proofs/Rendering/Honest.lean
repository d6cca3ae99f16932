import Stencil.CString
import Stencil.HexDump
import Stencil.Number.FloatText
import Stencil.Number.Integer

/-!
# Honest Renderings

A rendering that ends well reports a count, and nothing ties the count to what
was sent: a renderer from outside may report what it likes, and even the ones
here work some counts out apart from the calls they make. A rendering is honest
if its count, when there is one, is the number of bytes it sent.

Sending characters and runs is honest by construction, and sequencing keeps it
so. What is left are the places where a length is known beforehand: a byte of a
dump takes three characters, a hexadecimal numeral two for each byte of its
type and two for the prefix, and a mark takes one.

## Main definitions

* `Rendering.sent`: The number of bytes sent.
* `Rendering.Honest`: A count, if reported, is the number of bytes sent.
* `Rendering.Clean`: A rendering that is honest and does not fail.

## Theorems

* `Rendering.Honest.andThen`: Sequencing is honest.
* `HexDump.clean_render`, `CString.clean_render`, `Integer.clean_render`,
  `FloatText.clean_render`: The renderers of bytes and of numbers are clean.
-/

namespace Stencil

namespace Rendering

/-- The number of bytes of all characters sent. -/
def sent (r : Rendering) : Nat := (Text.bytes r.content).length

/-- The count reported, if there is one, is the number of bytes sent. -/
def Honest (r : Rendering) : Prop := ∀ n, r.outcome = .ok n → n = Count.ofNat r.sent

/-- The rendering ends well and reports the number of bytes sent. -/
def Clean (r : Rendering) : Prop := r.outcome = .ok (Count.ofNat r.sent)

theorem Clean.honest {r : Rendering} (h : r.Clean) : r.Honest := by
  intro n hn
  rw [h, Except.ok.injEq] at hn
  exact hn.symm

theorem Clean.ne_error {r : Rendering} (h : r.Clean) {e : FormatError} :
    r.outcome ≠ .error e := by
  rw [h]
  simp only [ne_eq, reduceCtorEq, not_false_eq_true]

theorem honest_of_error {r : Rendering} {e : FormatError} (h : r.outcome = .error e) :
    r.Honest := by
  intro n hn
  rw [h] at hn
  exact absurd hn (by simp only [reduceCtorEq, not_false_eq_true])

theorem sent_eq_byteLength (r : Rendering) : r.sent = Text.byteLength r.content :=
  Text.length_bytes _

/-- What is reported is the length of what was sent, in bytes. -/
theorem Clean.outcome_eq {r : Rendering} (h : r.Clean) :
    r.outcome = .ok (Text.count r.content) := by
  rw [h, Text.count, sent_eq_byteLength]

/-- Characters sent one by one are sent in order. -/
theorem flatMap_chars (t : Text) : (t.map Event.char).flatMap Event.content = t := by
  rw [List.flatMap_map]
  exact List.flatMap_singleton' t

theorem sent_mk (events : List Event) (outcome : Except FormatError Count) :
    sent ⟨events, outcome⟩ = Text.byteLength (events.flatMap Event.content) :=
  Text.length_bytes _

/-- Calls made one after the other send their bytes together. -/
theorem sent_append (first second : List Event) (a b c : Except FormatError Count) :
    sent ⟨first ++ second, a⟩ = sent ⟨first, b⟩ + sent ⟨second, c⟩ := by
  rw [sent_mk, sent_mk, sent_mk, List.flatMap_append, Text.byteLength_append]

theorem clean_done : done.Clean := rfl

theorem clean_char (c : Char) : (char c).Clean := by
  rw [Clean, sent_eq_byteLength]
  rfl

theorem clean_text (t : Text) : (text t).Clean := by
  rw [Clean, sent_eq_byteLength, content, text]
  simp only [List.flatMap_cons, List.flatMap_nil, Event.content, List.append_nil, Text.count]

/-- A length worked out beforehand is honest if it is that of the calls. -/
theorem clean_reporting {events : List Event} {length : Nat}
    (h : length = Text.byteLength (events.flatMap Event.content)) :
    (reporting events length).Clean := by
  rw [Clean, reporting, sent_mk, h]

theorem Clean.content_andThen {r : Rendering} (hr : r.Clean) (s : Rendering) :
    (r.andThen s).content = r.content ++ s.content :=
  content_andThen_of_ok hr s

theorem Clean.andThen {r s : Rendering} (hr : r.Clean) (hs : s.Clean) : (r.andThen s).Clean := by
  have hboth : r.andThen s =
      ⟨r.events ++ s.events, .ok (Count.ofNat r.sent + Count.ofNat s.sent)⟩ := by
    rw [andThen_of_ok hr, hs]
    rfl
  rw [Clean, hboth, sent_append _ _ _ r.outcome s.outcome, Count.ofNat_add]

/-- Sequencing is honest: if both parts end well their counts add up to the
    count of what both sent, and if one fails there is no count at all. -/
theorem Honest.andThen {r s : Rendering} (hr : r.Honest) (hs : s.Honest) :
    (r.andThen s).Honest := by
  cases hm : r.outcome with
  | error e =>
      -- The second part does not take place.
      rw [andThen_of_error hm]
      exact hr
  | ok m =>
      have hcr : r.Clean := by rw [Clean, hm, hr m hm]
      cases hn : s.outcome with
      | error e =>
          refine honest_of_error (e := e) ?_
          rw [andThen_of_ok hm, hn]
          rfl
      | ok n =>
          have hcs : s.Clean := by rw [Clean, hn, hs n hn]
          exact (hcr.andThen hcs).honest

end Rendering

namespace LetterCase

theorem utf8Size_digit (letters : LetterCase) {n : Nat} (h : n < 16) :
    (letters.digit n).utf8Size = 1 := by
  have hall : ∀ m : Fin 16, (letters.digit m).utf8Size = 1 := by
    cases letters <;> decide
  exact hall ⟨n, h⟩

end LetterCase

namespace HexDump

theorem utf8Size_digit (nibble : UInt8) : (digit nibble).utf8Size = 1 := by
  -- Masking with four bits leaves a digit.
  have hlow : (nibble &&& 0x0F).toNat < 16 := by
    rw [UInt8.toNat_and]
    exact Nat.and_lt_two_pow _ (by decide : (0x0F : UInt8).toNat < 2 ^ 4)
  exact LetterCase.lower.utf8Size_digit hlow

/-- Every byte of a dump is three characters of one byte each. -/
theorem byteLength_entries (bytes : List UInt8) :
    Text.byteLength ((bytes.flatMap entry).flatMap Event.content) =
      bytes.length * entryLength := by
  induction bytes with
  | nil => rfl
  | cons b rest ih =>
      have hentry : Text.byteLength ((entry b).flatMap Event.content) = entryLength := by
        simp only [entry, List.flatMap_cons, List.flatMap_nil, Event.content, List.cons_append,
          List.nil_append, Text.byteLength_cons, Text.byteLength_nil, utf8Size_digit]
        rfl
      rw [List.flatMap_cons, List.flatMap_append, Text.byteLength_append, ih, hentry,
        List.length_cons, Nat.succ_mul, Nat.add_comm]

theorem clean_render (bytes : List UInt8) (spec : Text) : (render bytes spec).Clean :=
  Rendering.clean_reporting (byteLength_entries bytes).symm

end HexDump

namespace CString

/-- Runs and replacements are sent honestly, by induction on the segments. -/
theorem clean_sendSegments (run : Text) (segments : List Utf8.Segment) :
    (sendSegments run segments).Clean := by
  induction segments generalizing run with
  | nil =>
      rw [sendSegments]
      split
      · exact Rendering.clean_done
      · exact Rendering.clean_text _
  | cons segment rest ih =>
      cases segment with
      | none =>
          rw [sendSegments]
          exact (Rendering.clean_text _).andThen ((Rendering.clean_char _).andThen (ih []))
      | some c =>
          rw [sendSegments]
          exact ih (c :: run)

theorem clean_render (bytes : List UInt8) (spec : Text) : (render bytes spec).Clean :=
  clean_sendSegments [] _

end CString

namespace Integer

/-- Two digits for each byte of the type, of one byte each. -/
theorem byteLength_hexDigits (n : Integer) (letters : LetterCase) :
    Text.byteLength (n.hexDigits letters) = 2 * n.width.bytes := by
  have hplaces : ∀ places : List Nat,
      Text.byteLength (places.map (n.nibbleDigit letters)) = places.length := by
    intro places
    induction places with
    | nil => rfl
    | cons i rest ih =>
        have hnibble : (n.nibbleDigit letters i).utf8Size = 1 :=
          letters.utf8Size_digit (n.pattern.extractLsb' (4 * i) 4).isLt
        rw [List.map_cons, Text.byteLength_cons, ih, hnibble, List.length_cons, Nat.add_comm]
  rw [hexDigits, hplaces, List.length_reverse, List.length_range]

theorem clean_render (n : Integer) (spec : Text) : (n.render spec).Clean := by
  rw [render]
  cases Radix.ofSpec spec with
  | decimal => exact Rendering.clean_text _
  | hexadecimal letters =>
      -- Two bytes for the prefix, and the digits are sent one by one.
      refine Rendering.clean_reporting ?_
      rw [List.flatMap_cons, Rendering.flatMap_chars, Text.byteLength_append,
        byteLength_hexDigits, Nat.add_comm]
      rfl

end Integer

namespace FloatText

/-- A mark of one byte is reported as one byte. -/
theorem clean_mark {c : Char} (h : c.utf8Size = 1) :
    (Rendering.reporting [.char c] 1).Clean := by
  refine Rendering.clean_reporting ?_
  rw [List.flatMap_cons, List.flatMap_nil, List.append_nil, Event.content, Text.byteLength_cons, h]
  rfl

theorem clean_numeral (negative : Bool) (magnitude : Nat) : (numeral negative magnitude).Clean :=
  Rendering.clean_text _

theorem clean_fractionPart (digits : Text) : (fractionPart digits).Clean := by
  rw [fractionPart]
  split
  · exact Rendering.clean_done
  · exact (clean_mark rfl).andThen (Rendering.clean_text _)

theorem clean_exponentPart (exponent : Int) : (exponentPart exponent).Clean := by
  rw [exponentPart]
  split
  · exact Rendering.clean_done
  · exact (clean_mark rfl).andThen (clean_numeral _ _)

theorem clean_render (x : Binary64) (spec : Text) : (render x spec).Clean := by
  cases x with
  -- The special texts are of a known length, and a number is its parts in a row.
  | nan => exact Rendering.clean_reporting rfl
  | infinite negative => cases negative <;> exact Rendering.clean_text _
  | finite negative magnitude =>
      exact (clean_numeral _ _).andThen ((clean_fractionPart _).andThen (clean_exponentPart _))

end FloatText

end Stencil
