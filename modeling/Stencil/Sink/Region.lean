import Stencil.Text
import Stencil.Utf8

/-!
# Byte Regions

A fixed stretch of bytes and a cursor in it. The bytes before the cursor have
been written; those from the cursor on are whatever stood there before.

Every write is given the place where it has to stop, and two kinds of write
differ in what they do when they reach it. A run of bytes is cut there, even in
the middle of a character. A single character is written whole or not at all.
Writing replaces bytes and never moves any, so the region keeps its length.

## Main definitions

* `Region`: Bytes and a cursor.
* `Region.put`: Writing a run, cut at a limit.
* `Region.putChar`: Writing a character that fits before a limit.
* `Region.terminate`: Writing a zero at the cursor.

## Theorems

* `Region.length_put`, `Region.length_putChar`, `Region.length_terminate`: No
  write changes the length of the region.
-/

namespace Stencil

/-- Bytes, and how many of them have been written. -/
structure Region where
  bytes : List UInt8
  cursor : Nat

namespace Region

def fresh (bytes : List UInt8) : Region := ⟨bytes, 0⟩

def capacity (r : Region) : Nat := r.bytes.length

/-- The bytes before the cursor. -/
def written (r : Region) : List UInt8 := r.bytes.take r.cursor

/-- The written bytes as far as they are text. -/
def text (r : Region) : Text := Utf8.validPrefix r.written

/-- Replace the bytes from a place on by others, as far as the region goes. -/
def overwrite (bytes : List UInt8) (place : Nat) (new : List UInt8) : List UInt8 :=
  bytes.take place ++ new.take (bytes.length - place) ++ bytes.drop (place + new.length)

/-- Write as many of some bytes as there is room for before the limit, and move
    the cursor past them. -/
def put (r : Region) (limit : Nat) (new : List UInt8) : Region :=
  let fitting := new.take (limit - r.cursor)
  ⟨overwrite r.bytes r.cursor fitting, r.cursor + fitting.length⟩

/-- Write a character if all of its bytes have room before the limit. -/
def putChar (r : Region) (limit : Nat) (c : Char) : Region :=
  if c.utf8Size ≤ limit - r.cursor then r.put limit (String.utf8EncodeChar c) else r

/-- Write a zero at the cursor, if the region reaches that far, and leave the
    cursor before it. -/
def terminate (r : Region) : Region := ⟨r.bytes.set r.cursor 0, r.cursor⟩

/-- Move the cursor back to the start. The bytes stay. -/
def rewind (r : Region) : Region := ⟨r.bytes, 0⟩

theorem length_overwrite (bytes : List UInt8) (place : Nat) (new : List UInt8) :
    (overwrite bytes place new).length = bytes.length := by
  simp only [overwrite, List.length_append, List.length_take, List.length_drop]
  omega

theorem length_put (r : Region) (limit : Nat) (new : List UInt8) :
    (r.put limit new).bytes.length = r.bytes.length :=
  length_overwrite _ _ _

theorem length_putChar (r : Region) (limit : Nat) (c : Char) :
    (r.putChar limit c).bytes.length = r.bytes.length := by
  rw [putChar]
  split
  · exact length_put r limit _
  · rfl

theorem length_terminate (r : Region) : r.terminate.bytes.length = r.bytes.length :=
  List.length_set

end Region

end Stencil
