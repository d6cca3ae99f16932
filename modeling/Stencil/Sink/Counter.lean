import Stencil.Sink

/-!
# Counters

A sink that keeps nothing. It counts the bytes that go by, which tells how large
a buffer a rendering needs, and how often it hears that the output is complete.

## Main definitions

* `Counter`: Bytes and completions counted.
-/

namespace Stencil

/-- What a counter has seen. -/
structure Counter where
  bytes : Count
  /-- How often the output was completed. -/
  completions : Nat

namespace Counter

def zero : Counter := ⟨0, 0⟩

instance : Sink Counter where
  writeChar k c := { k with bytes := k.bytes + Count.ofNat c.utf8Size }
  writeText k t := { k with bytes := k.bytes + t.count }
  finish k := { k with completions := k.completions + 1 }

end Counter

end Stencil
