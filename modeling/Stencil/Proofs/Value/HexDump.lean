import Stencil.Proofs.Number.IntegerText
import Stencil.Sink.Trace
import Stencil.Value

/-!
# A Dump Can Be Read Back

Every byte has a group of three characters in the dump of a region, two digits and a
blank. So the text can be taken apart without looking at what is in it: a byte is
found by its place alone, and what was dumped is read back group by group. Two
regions with the same dump are the same region.

The count of a dump is worked out from the number of bytes, and not from what is
sent. Nothing but the width of a group makes it right.

## Main definitions

* `HexDump.group`: The characters for one byte.
* `HexDump.Spells`: Characters are two digits worth a byte, and a blank.
* `HexDump.bytes?`: Reading a dump.

## Theorems

* `HexDump.content_dump`: A dump is the groups of its bytes in order.
* `HexDump.spells_group`: A group spells its byte.
* `HexDump.bytes?_groups`: What was dumped is read back.
* `HexDump.dump_reads_back`: What is sent for a region, byte by byte and as a whole.
-/

namespace Stencil

namespace HexDump

/-- The characters for one byte: the digits of its halves, and a blank. -/
def group (b : UInt8) : Text := [digit (b >>> 4), digit b, ' ']

/-- Characters are two lowercase digits that are worth a byte, and a blank. -/
def Spells (t : Text) (b : UInt8) : Prop :=
  ∃ high low, t = [high, low, ' '] ∧ Hexadecimal.IsLower high ∧ Hexadecimal.IsLower low ∧
    Hexadecimal.natural? [high, low] = some b.toNat

/-- Read groups of two digits and a blank. -/
def bytes? : Text → Option (List UInt8)
  | [] => some []
  | high :: low :: blank :: rest =>
    if blank = ' ' then
      (Hexadecimal.natural? [high, low]).bind fun n => (bytes? rest).map (UInt8.ofNat n :: ·)
    else none
  | _ => none

theorem digit_eq (nibble : UInt8) : digit nibble = LetterCase.lower.digit (nibble.toNat % 16) := by
  -- The mask leaves the lower four bits.
  have hmask : (nibble &&& 0x0F).toNat = nibble.toNat % 16 := by
    rw [UInt8.toNat_and]
    exact Nat.and_two_pow_sub_one_eq_mod nibble.toNat 4
  rw [digit, hmask, LetterCase.digit]

/-- Shifted by four bits, a byte is its upper half. -/
theorem toNat_high (b : UInt8) : (b >>> 4).toNat % 16 = b.toNat / 16 := by
  have hbound := b.toNat_lt
  have hshift : (b >>> 4).toNat = b.toNat / 16 := by
    rw [UInt8.toNat_shiftRight]
    exact Nat.shiftRight_eq_div_pow b.toNat 4
  rw [hshift]
  omega

/-- The halves of a byte are digits, and together they are worth it. -/
theorem spells_group (b : UInt8) : Spells (group b) b := by
  have hbound := b.toNat_lt
  have hhigh : (b >>> 4).toNat % 16 < 16 := Nat.mod_lt _ (by decide)
  have hlow : b.toNat % 16 < 16 := Nat.mod_lt _ (by decide)
  refine ⟨digit (b >>> 4), digit b, rfl, ?_, ?_, ?_⟩
  · rw [digit_eq]
    exact Hexadecimal.isLower_digit hhigh
  · rw [digit_eq]
    exact Hexadecimal.isLower_digit hlow
  · have hworth : 16 * (16 * 0 + b.toNat / 16) + b.toNat % 16 = b.toNat := by omega
    -- The second digit is read with sixteen times the worth of the first in hand.
    rw [digit_eq, digit_eq, Hexadecimal.natural?, Hexadecimal.read,
      Hexadecimal.digit?_digit .lower hhigh, Option.bind_some, Hexadecimal.read,
      Hexadecimal.digit?_digit .lower hlow, Option.bind_some, Hexadecimal.read, toNat_high, hworth]

/-- A dump is sent character by character. -/
theorem events_dump (bytes : List UInt8) :
    (dump bytes).events = (bytes.flatMap group).map Event.char := by
  rw [List.map_flatMap]
  rfl

theorem content_dump (bytes : List UInt8) : (dump bytes).content = bytes.flatMap group := by
  rw [Rendering.content, events_dump, Rendering.flatMap_chars]

theorem length_groups (bytes : List UInt8) :
    (bytes.flatMap group).length = 3 * bytes.length := by
  induction bytes with
  | nil => rfl
  | cons b bytes ih =>
      rw [List.flatMap_cons, List.length_append, ih, List.length_cons]
      simp only [group, List.length_cons, List.length_nil]
      omega

/-- The groups of the bytes in front are skipped, all of them being of one length. -/
theorem group_at (bytes : List UInt8) (i : Nat) (h : i < bytes.length) :
    ((bytes.flatMap group).drop (3 * i)).take 3 = group bytes[i] := by
  induction bytes generalizing i with
  | nil => exact absurd h (Nat.not_lt_zero i)
  | cons b bytes ih =>
      rw [List.flatMap_cons]
      cases i with
      | zero => rfl
      | succ i => exact ih i (Nat.lt_of_succ_lt_succ h)

theorem bytes?_groups (bytes : List UInt8) : bytes? (bytes.flatMap group) = some bytes := by
  induction bytes with
  | nil => rfl
  -- The first group is read as its byte, and what is left is the dump of the others.
  | cons b bytes ih =>
      rcases spells_group b with ⟨high, low, hgroup, -, -, hworth⟩
      rw [List.flatMap_cons, hgroup]
      simp only [List.cons_append, List.nil_append]
      rw [bytes?, if_pos rfl, hworth, Option.bind_some, ih, Option.map_some, UInt8.ofNat_toNat]

/-- What is sent for a region with any spec is its dump. The dump has three characters
    for each byte, which stand where the byte stands and spell it, so that the bytes
    can be read back and no others have the same dump. Regions in a row have their
    dumps in a row. The count reported is three times the number of bytes, and that
    is what was sent: a sink hears the characters of the groups one by one. -/
theorem dump_reads_back (bytes : List UInt8) :
    (∀ spec {σ : Type} [Sink σ] (sink : σ),
        ((Value.region bytes).render spec).into sink = (dump bytes).into sink) ∧
      (dump bytes).content.length = 3 * bytes.length ∧
      (∀ i (h : i < bytes.length),
        Spells (((dump bytes).content.drop (3 * i)).take 3) bytes[i]) ∧
      bytes? (dump bytes).content = some bytes ∧
      (∀ other, (dump other).content = (dump bytes).content → other = bytes) ∧
      (∀ more, (dump (bytes ++ more)).content = (dump bytes).content ++ (dump more).content) ∧
      (dump bytes).outcome = .ok (Count.ofNat (3 * bytes.length)) ∧
      (dump bytes).sent = 3 * bytes.length ∧
      heard (fun trace => (dump bytes).into trace) = (bytes.flatMap group).map Event.char := by
  have hback : ∀ bs, bytes? (dump bs).content = some bs := by
    intro bs
    rw [content_dump, bytes?_groups]
  refine ⟨?_, ?_, ?_, hback bytes, ?_, ?_, ?_, ?_, ?_⟩
  · intro spec σ _ sink
    rw [Value.render, render]
  · rw [content_dump, length_groups]
  · intro i h
    rw [content_dump, group_at bytes i h]
    exact spells_group bytes[i]
  · intro other hsame
    -- Both are what is read from the one text.
    have hread := hback other
    rw [hsame, hback bytes] at hread
    exact (Option.some.inj hread).symm
  · intro more
    rw [content_dump, content_dump, content_dump, List.flatMap_append]
  · rw [Nat.mul_comm]
    rfl
  · rw [Rendering.sent_eq_byteLength, Nat.mul_comm]
    exact byteLength_entries bytes
  · rw [heard_into, events_dump]

end HexDump

end Stencil
