/-!
# Refused calls

Every checked call refuses for one of these reasons. Ranges are told in the caller's own units.
-/

namespace Fingerprint
set_option autoImplicit false

inductive Refusal where
  | outOfBounds (offset len : UInt64) (size : Nat)
  | resultTooShort (required actual : Nat)
  | unknownName
deriving DecidableEq

namespace Refusal

def message : Refusal → String
  | outOfBounds offset len size =>
    "range " ++ toString offset.toNat ++ "+" ++ toString len.toNat ++
      " is out of bounds for input of size " ++ toString size
  | resultTooShort required actual =>
    "result buffer holds " ++ toString actual ++ " words, digest needs " ++ toString required
  | unknownName => "unknown hash function name"

end Refusal

/-- Accepts the range if its end, taken without wrapping, lies within `size`. -/
def checkRange (size : Nat) (offset len : UInt64) : Except Refusal Unit :=
  if offset.toNat + len.toNat ≤ size then .ok () else .error (.outOfBounds offset len size)

/-- Accepts a result of `actual` words if the `required` ones fit. -/
def checkResult (required actual : Nat) : Except Refusal Unit :=
  if required ≤ actual then .ok () else .error (.resultTooShort required actual)

end Fingerprint
