/-
# Errors

The error type of the program and what a client sees of it.
-/
import Mathlib

/-- A sequence fails in its first part or in its second. -/
theorem except_bind_eq_error {ε α β : Type} {x : Except ε α} {f : α → Except ε β} {e : ε} :
    (x >>= f) = .error e ↔ x = .error e ∨ ∃ a, x = .ok a ∧ f a = .error e := by
  cases x <;> simp [bind, Except.bind]

/-- `AppError`.  The texts of `config` and `bind` stand for the wrapped library
errors. -/
inductive AppError
  | invalidQuery (msg : String)
  | invalidPage (msg : String)
  | invalidSafeSearch (value : UInt8)
  | invalidLanguage (msg : String)
  | rateLimited
  | unauthorized (msg : String)
  | contentTooLarge (msg : String)
  | internal (msg : String)
  | serviceUnavailable (msg : String)
  | extractTimeout (msg : String)
  | config (error : String)
  | bind (error : String)
  | redis (msg : String)
deriving DecidableEq, Repr

namespace AppError

/-- `e.to_string()`. -/
def display : AppError → String
  | invalidQuery msg => "Invalid query: " ++ msg
  | invalidPage msg => "Invalid page: " ++ msg
  | invalidSafeSearch value => "Invalid safe search value: " ++ toString value.toNat
  | invalidLanguage msg => "Invalid language code: " ++ msg
  | rateLimited => "Rate limited"
  | unauthorized msg => "Unauthorized: " ++ msg
  | contentTooLarge msg => "Content too large: " ++ msg
  | internal msg => "Internal error: " ++ msg
  | serviceUnavailable msg => "Service unavailable: " ++ msg
  | extractTimeout msg => "Extract timeout: " ++ msg
  | config error => "Config error: " ++ error
  | bind error => "Port bind error: " ++ error
  | redis msg => "Redis error: " ++ msg

/-- The status, the code and the message of the HTTP response.  The texts of the last
three errors stay inside the process. -/
def toHttpParts : AppError → ℕ × String × String
  | invalidQuery msg => (400, "INVALID_QUERY", msg)
  | invalidPage msg => (400, "INVALID_PAGE", msg)
  | invalidSafeSearch value =>
      (400, "INVALID_SAFE_SEARCH", "Invalid safe search value: " ++ toString value.toNat)
  | invalidLanguage msg => (400, "INVALID_LANGUAGE", msg)
  | rateLimited => (429, "RATE_LIMITED", "Rate limit exceeded. Try again later.")
  | unauthorized msg => (401, "UNAUTHORIZED", msg)
  | contentTooLarge msg => (413, "CONTENT_TOO_LARGE", msg)
  | internal msg => (500, "INTERNAL_ERROR", msg)
  | serviceUnavailable msg => (503, "SERVICE_UNAVAILABLE", msg)
  | extractTimeout msg => (504, "EXTRACT_TIMEOUT", msg)
  | config _ => (500, "CONFIG_ERROR", "Configuration error")
  | bind _ => (500, "BIND_ERROR", "Server failed to bind")
  | redis _ => (500, "REDIS_ERROR", "Cache backend error")

/-- Every error is answered with an error status. -/
theorem toHttpParts_status (e : AppError) : 400 ≤ e.toHttpParts.1 ∧ e.toHttpParts.1 < 600 := by
  cases e <;> simp [toHttpParts]

end AppError
