import Stencil.CString
import Stencil.Format
import Stencil.HexDump
import Stencil.Number.FloatText
import Stencil.Number.Integer

/-!
# Values

The values that a template can be given, and how each is rendered.

Wrappers pass the spec on to what they hold, so a field of `{:x}` shows an
integer in hexadecimal however deep it is wrapped. A failed result is marked in
front. A fault is the exception: it has a layout of its own, a template with
the place and the code, and ignores the spec of the field it stands in. That
template is rendered without completing the output, and the unnumbered fields
in it are counted among themselves, so the template around it never notices.

Programs can bring renderers of their own. They are values too, and nothing is
assumed of them.

## Main definitions

* `Address`: An address of some machine.
* `Value`: What a template can be given.
* `Value.render`: The renderer of a value.
* `Value.checked`: The result of a check that may fail with a fault.
* `Value.enumerated`: A member of an enumeration.
-/

namespace Stencil

/-- An address, as wide as addresses are on its machine. -/
structure Address where
  size : AddressSize
  pattern : BitVec (Width.address size).bits

/-- Most machines take eight bytes for an address. -/
instance : Coe (BitVec 64) Address := ⟨fun pattern => ⟨.eight, pattern⟩⟩

/-- A value for a field. -/
inductive Value
  | integer (n : Integer)
  | float (x : Binary64)
  | char (c : Char)
  | text (t : Text)
  | bool (b : Bool)
  | unit
  | cString (bytes : List UInt8)
  | region (bytes : List UInt8)
  | pointer (address : Address)
  | ok (v : Value)
  | error (v : Value)
  | some (v : Value)
  | none
  | reference (v : Value)
  /-- An error code, and the place where it was raised. -/
  | fault (location : Text) (code : Value)
  | nested (template : Text) (args : List Value)
  /-- A renderer brought from outside. -/
  | custom (renderer : Renderer)

namespace Value

/-- What stands in front of a failed result. -/
def errorMarker : Text := ['E', ':']

/-- The layout of a fault: the place, then the code. The first brace is text,
    and so is the last. -/
def faultTemplate : Text := "::Err\\\x7bat \x7b\x7d: \x7b\x7d\x7d".toList

/-- Place a failed result behind its marker. -/
def markError (r : Rendering) : Rendering := (Rendering.text errorMarker).andThen r

/-- The integer that an address is rendered as. -/
def addressInteger (address : Address) : Integer := ⟨.address address.size, false, address.pattern⟩

mutual

/-- The renderer of a value. -/
def render : Value → Renderer
  | integer n, spec => n.render spec
  | float x, spec => FloatText.render x spec
  | char c, _ => .char c
  | text t, _ => .text t
  | bool b, _ => .text (if b then ['t', 'r', 'u', 'e'] else ['f', 'a', 'l', 's', 'e'])
  | unit, _ => .done
  | cString bytes, spec => CString.render bytes spec
  | region bytes, spec => HexDump.render bytes spec
  | pointer address, spec => (addressInteger address).render spec
  | ok v, spec => v.render spec
  | error v, spec => markError (v.render spec)
  | some v, spec => v.render spec
  | none, _ => .done
  | reference v, spec => v.render spec
  | fault location code, _ => fields faultTemplate [fun _ => .text location, code.render]
  | nested template args, _ => fields template (arguments args)
  | custom renderer, spec => renderer spec

/-- The renderers of a list of values. -/
def arguments : List Value → Arguments
  | [] => []
  | v :: rest => v.render :: arguments rest

end

/-- The result of a check: nothing to say, or a fault with the given code. -/
def checked (location : Text) (code : Value) (good : Bool) : Value :=
  if good then ok unit else error (fault location code)

/-- A member of an enumeration, which is rendered as its discriminant cast to
    an integer type. -/
def enumerated (width : Width) (signed : Bool) (discriminant : Int) : Value :=
  integer (Integer.ofInt width signed discriminant)

end Value

end Stencil
