/-
# JSON Schema

Which values meet a schema, for the keywords `type`, `enum`, `required` and `properties`.
Every other keyword is an annotation here (`description`, `default`, `format`), which
constrains nothing.  A schema is itself a JSON value.
-/
import Serica.Json

namespace JsonSchema

/-- The value of a number, however it is written. -/
def numberValue : JsonNumber → ℚ
  | .posInt n => n.toNat
  | .negInt z => z
  | .float value => value

/-- The names of types.  A number without a fraction is an integer, however it is
written. -/
def hasType (type : String) : Json → Bool
  | .null => type = "null"
  | .bool _ => type = "boolean"
  | .number n => type = "number" || type = "integer" && (numberValue n).den = 1
  | .string _ => type = "string"
  | .array _ => type = "array"
  | .object _ => type = "object"

/-- Scalars with the same value. -/
def sameScalar : Json → Json → Bool
  | .null, .null => true
  | .bool b, .bool b' => b = b'
  | .number n, .number n' => numberValue n = numberValue n'
  | .string s, .string s' => s = s'
  | _, _ => false

/-- An object has the members that are listed. -/
def hasMembers (names : List Json) : Json → Bool
  | .object fields => names.all fun name => (name.asStr.bind (Json.object fields).get).isSome
  | _ => true

mutual

/-- A value meets a schema: all the keywords of it. -/
def validates : Json → Json → Bool
  | .object keywords, v => meetsAll keywords v
  | .bool b, _ => b
  | _, _ => false

def meetsAll : List (String × Json) → Json → Bool
  | [], _ => true
  | (keyword, arg) :: keywords, v => meets keyword arg v && meetsAll keywords v

/-- A value meets one keyword with its argument. -/
def meets (keyword : String) : Json → Json → Bool
  | .string arg, v => if keyword = "type" then hasType arg v else true
  | .array args, v =>
      if keyword = "enum" then args.any (sameScalar v)
      else if keyword = "required" then hasMembers args v
      else true
  | .object schemas, v => if keyword = "properties" then meetsProperties schemas v else true
  | _, _ => true

/-- The members of an object meet their own schemas, when they are there. -/
def meetsProperties : List (String × Json) → Json → Bool
  | [], _ => true
  | (name, schema) :: schemas, v =>
      ((v.get name).all fun member => validates schema member) && meetsProperties schemas v

end

theorem meetsAll_iff {keywords : List (String × Json)} {v : Json} :
    meetsAll keywords v = true ↔ ∀ p ∈ keywords, meets p.1 p.2 v = true := by
  induction keywords with
  | nil => simp [meetsAll]
  | cons p keywords ih => rw [meetsAll, Bool.and_eq_true, ih, List.forall_mem_cons]

theorem meetsProperties_iff {schemas : List (String × Json)} {v : Json} :
    meetsProperties schemas v = true
      ↔ ∀ p ∈ schemas, ∀ member, v.get p.1 = some member → validates p.2 member = true := by
  induction schemas with
  | nil => simp [meetsProperties]
  | cons p schemas ih =>
      rw [meetsProperties, Bool.and_eq_true, ih, List.forall_mem_cons]
      refine and_congr_left' ?_
      rw [Option.all_eq_true]

theorem sameScalar_number {v : Json} {n : JsonNumber} :
    sameScalar v (.number n) = true ↔ ∃ m, v = .number m ∧ numberValue m = numberValue n := by
  cases v <;> simp [sameScalar]

end JsonSchema
