import Stencil.Sink.TextStore

/-!
# Text of Bounded Length

Text that may take up to a fixed number of bytes, kept as it is. It stores a
character or a run if there is room for all of it, and never holds part of a
character.

## Main definitions

* `BoundedText`: Text of at most `capacity` bytes.
* `BoundedText.append`: Storing a run at the end.

## Theorems

* `BoundedText.bounded`: It stores what has room, and nothing else.
-/

namespace Stencil

/-- Text of at most `capacity` bytes. -/
structure BoundedText (capacity : Nat) where
  text : Text
  byteLength_le : text.byteLength ≤ capacity

namespace BoundedText

variable {capacity : Nat}

def empty : BoundedText capacity := ⟨[], Nat.zero_le _⟩

/-- Store a run at the end, if it fits as a whole. -/
def append (b : BoundedText capacity) (t : Text) : BoundedText capacity × Bool :=
  if h : (b.text ++ t).byteLength ≤ capacity then (⟨b.text ++ t, h⟩, true) else (b, false)

/-- A character is a run of one. -/
instance : TextStore (BoundedText capacity) where
  empty := empty
  text := text
  push b c := b.append [c]
  append := append

theorem append_of_room {b : BoundedText capacity} {t : Text}
    (h : (b.text ++ t).byteLength ≤ capacity) :
    (b.append t).2 = true ∧ (b.append t).1.text = b.text ++ t := by
  simp [append, h]

theorem append_of_full {b : BoundedText capacity} {t : Text}
    (h : capacity < (b.text ++ t).byteLength) :
    (b.append t).2 = false ∧ (b.append t).1.text = b.text := by
  simp [append, Nat.not_le_of_lt h]

theorem bounded (capacity : Nat) : TextStore.Bounded (BoundedText capacity) capacity where
  text_empty := rfl
  byteLength_le b := b.byteLength_le
  push_of_room _ _ h := append_of_room h
  push_of_full _ _ h := append_of_full h
  append_of_room _ _ h := append_of_room h
  append_of_full _ _ h := append_of_full h

end BoundedText

end Stencil
