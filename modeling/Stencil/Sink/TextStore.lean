import Stencil.Sink

/-!
# Text That Is Kept Elsewhere

Output can go to a text that somebody else keeps. Nothing is known of how it is
kept. It can be read, and a character or a run can be stored at its end, which it
does or refuses to do.

A sink makes the most of such a text. A character is stored if the text takes it.
A run is stored as a whole, and if it is refused then character by character up to
the first that is refused too. Nothing is remembered of what was refused.

What is relied on is that a text takes up to a fixed number of bytes: it stores
what still has room as a whole, and refuses the rest and stays as it is.

## Main definitions

* `TextStore`: What can be done with a text that is kept elsewhere.
* `TextStore.pushWhile`: Storing a run up to the first character that is refused.
* `TextStore.Bounded`: The text stores what has room, and nothing else.
-/

namespace Stencil

/-- What can be done with a text that is kept elsewhere. Storing something gives the
    text as it is afterwards, and whether it was stored. -/
class TextStore (τ : Type) where
  empty : τ
  text : τ → Text
  push : τ → Char → τ × Bool
  append : τ → Text → τ × Bool

namespace TextStore

variable {τ : Type} [TextStore τ]

/-- Store characters up to the first that is refused. -/
def pushWhile (store : τ) : Text → τ
  | [] => store
  | c :: rest =>
    match push store c with
    | (stored, true) => pushWhile stored rest
    | (refused, false) => refused

instance (priority := low) : Sink τ where
  writeChar store c := (push store c).1
  writeText store t :=
    match append store t with
    | (stored, true) => stored
    | (refused, false) => pushWhile refused t

/-- A text of at most `capacity` bytes. It stores what has room as a whole, and
    refuses what has not. -/
structure Bounded (τ : Type) [TextStore τ] (capacity : Nat) : Prop where
  text_empty : text (empty : τ) = []
  byteLength_le : ∀ store : τ, (text store).byteLength ≤ capacity
  push_of_room : ∀ (store : τ) (c : Char), (text store ++ [c]).byteLength ≤ capacity →
    (push store c).2 = true ∧ text (push store c).1 = text store ++ [c]
  push_of_full : ∀ (store : τ) (c : Char), capacity < (text store ++ [c]).byteLength →
    (push store c).2 = false ∧ text (push store c).1 = text store
  append_of_room : ∀ (store : τ) (t : Text), (text store ++ t).byteLength ≤ capacity →
    (append store t).2 = true ∧ text (append store t).1 = text store ++ t
  append_of_full : ∀ (store : τ) (t : Text), capacity < (text store ++ t).byteLength →
    (append store t).2 = false ∧ text (append store t).1 = text store

end TextStore

end Stencil
