/-!
# Byte Counts

How many bytes a rendering produced, as a 64-bit word that sticks at its top.

A renderer reports a length and a template adds lengths up. The sum must not
wrap round: a caller that sizes a buffer from a count would rather learn that
the count is too large to tell than read a small number. So addition stops at
`Count.limit`, and a count is the minimum of that limit and a true length.

Stopping at the top is a homomorphism: adding first and capping afterwards is
the same as capping first (`ofNat_add`). Associativity and the neutral element
follow from it, so the order in which a template adds its parts never shows.

## Main definitions

* `Count`: A byte count that saturates.
* `Count.ofNat`: The count of a true length.

## Theorems

* `Count.ofNat_add`: The count of a sum is the sum of the counts.
* `Count.add_assoc`, `Count.add_comm`, `Count.zero_add`, `Count.add_zero`: Counts form
  a commutative monoid.
-/

namespace Stencil

/-- The largest count: the largest 64-bit word. -/
def Count.limit : Nat := UInt64.size - 1

/-- A number of bytes, never above `Count.limit`. -/
structure Count where
  toNat : Nat
  le_limit : toNat ≤ Count.limit

namespace Count

instance : DecidableEq Count := fun a b =>
  if h : a.toNat = b.toNat then
    isTrue (by cases a; cases b; cases h; rfl)
  else
    isFalse (fun e => h (congrArg Count.toNat e))

/-- The count of a true length: the length, or the limit if that is smaller. -/
def ofNat (n : Nat) : Count := ⟨min n limit, Nat.min_le_right n limit⟩

instance : Zero Count := ⟨ofNat 0⟩

instance : Inhabited Count := ⟨0⟩

/-- Addition stops at the limit. -/
instance : Add Count := ⟨fun a b => ofNat (a.toNat + b.toNat)⟩

/-- Two counts of one number are equal, the bound being a proof. -/
theorem toNat_injective {a b : Count} (h : a.toNat = b.toNat) : a = b := by
  cases a
  cases b
  cases h
  rfl

theorem toNat_ofNat (n : Nat) : (ofNat n).toNat = min n limit := rfl

theorem toNat_zero : (0 : Count).toNat = 0 := rfl

theorem toNat_add (a b : Count) : (a + b).toNat = min (a.toNat + b.toNat) limit := rfl

/-- Capping a sum is adding the capped parts: once a part is at the limit, so
    is every sum it enters. -/
theorem ofNat_add (m n : Nat) : ofNat (m + n) = ofNat m + ofNat n := by
  apply toNat_injective
  rw [toNat_add, toNat_ofNat, toNat_ofNat, toNat_ofNat]
  omega

theorem ofNat_toNat (a : Count) : ofNat a.toNat = a :=
  toNat_injective (Nat.min_eq_left a.le_limit)

theorem zero_add (a : Count) : 0 + a = a := by
  apply toNat_injective
  rw [toNat_add, toNat_zero, Nat.zero_add]
  exact Nat.min_eq_left a.le_limit

theorem add_zero (a : Count) : a + 0 = a := by
  apply toNat_injective
  rw [toNat_add, toNat_zero, Nat.add_zero]
  exact Nat.min_eq_left a.le_limit

theorem add_comm (a b : Count) : a + b = b + a := by
  apply toNat_injective
  rw [toNat_add, toNat_add, Nat.add_comm]

theorem add_assoc (a b c : Count) : a + b + c = a + (b + c) := by
  apply toNat_injective
  simp only [toNat_add]
  omega

end Count

end Stencil
