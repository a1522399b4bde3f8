/-
# JSON values

The values of `serde_json`, with the look-ups that the program makes.  A number is
kept as an integer when it is written as one and fits; every other number is a float.
-/
import Mathlib

/-- `serde_json::Number`. -/
inductive JsonNumber
  | posInt (n : UInt64)
  | negInt (z : ℤ)
  | float (value : ℚ)
deriving DecidableEq

/-- `serde_json::Value`. -/
inductive Json
  | null
  | bool (b : Bool)
  | number (n : JsonNumber)
  | string (s : String)
  | array (items : List Json)
  | object (fields : List (String × Json))

namespace Json

/-- The member of an object; nothing on other values. -/
def get (v : Json) (key : String) : Option Json :=
  match v with
  | object fields => fields.lookup key
  | _ => none

def asStr : Json → Option String
  | string s => some s
  | _ => none

/-- The value as an unsigned 64-bit integer, when it is kept as one. -/
def asU64 : Json → Option UInt64
  | number (.posInt n) => some n
  | _ => none

/-- A number written as a non-negative integer. -/
def ofNat (n : UInt64) : Json := number (.posInt n)

theorem asStr_eq_some {v : Json} {s : String} : v.asStr = some s ↔ v = string s := by
  cases v <;> simp [asStr]

theorem asU64_eq_some {v : Json} {n : UInt64} : v.asU64 = some n ↔ v = ofNat n := by
  constructor
  · intro h
    match v, h with
    | number (.posInt m), h =>
        rw [asU64, Option.some.injEq] at h
        rw [ofNat, h]
  · rintro rfl
    rfl

end Json
