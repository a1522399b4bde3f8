/-
# The gate of the statistics

`/api/v1/stats` may be gated by a key, which a request carries in one of two headers.

* `constantTimeEq_iff`: the comparison without early exit is equality.
* `checkApiKey_admits`: the requests that are admitted.
-/
import Serica.Ssrf
import Serica.StartUp

namespace StatsGate

/-! ## The source -/

/-- The headers of a request: names in lower case, with their values. -/
abbrev HeaderMap := List (String × List UInt8)

/-- `headers.get(name)`: the first value of the name. -/
def HeaderMap.get (headers : HeaderMap) (name : String) : Option (List UInt8) :=
  headers.lookup name

/-- The text of the first value of a header, if it is one. -/
def HeaderMap.text (headers : HeaderMap) (name : String) : Option String :=
  (headers.get name).bind Ssrf.headerToStr

/-- A bearer token, or else the other header. -/
def extractProvidedKey (headers : HeaderMap) : Option String :=
  match (headers.text "authorization").bind (RustStr.stripPrefix "Bearer ") with
  | some token => some token
  | none => headers.text "x-api-key"

def constantTimeEq (a b : String) : Bool :=
  let (a, b) := (RustStr.asBytes a, RustStr.asBytes b)
  if a.length ≠ b.length then false
  else (a.zip b).foldl (fun acc p => acc ||| (p.1 ^^^ p.2)) 0 == 0

def checkApiKey (configuredKey : Option String) (headers : HeaderMap) : Except AppError Unit :=
  match configuredKey.filter (· ≠ "") with
  | none => .ok ()
  | some configuredKey =>
      match extractProvidedKey headers with
      | some provided =>
          if constantTimeEq provided configuredKey then .ok ()
          else .error (.unauthorized "Missing or invalid API key")
      | none => .error (.unauthorized "Missing or invalid API key")

/-! ## The comparison -/

/-- The differences that are gathered are none exactly when there is none. -/
theorem foldl_differences (ps : List (UInt8 × UInt8)) (acc : UInt8) :
    ps.foldl (fun acc p => acc ||| (p.1 ^^^ p.2)) acc = 0
      ↔ acc = 0 ∧ ∀ p ∈ ps, p.1 = p.2 := by
  induction ps generalizing acc with
  | nil => simp
  | cons p ps ih =>
      rw [List.foldl_cons, ih, UInt8.or_eq_zero_iff, UInt8.xor_eq_zero_iff, List.forall_mem_cons,
        and_assoc]

theorem constantTimeEq_iff (a b : String) : constantTimeEq a b = true ↔ a = b := by
  have hzip : RustStr.asBytes a = RustStr.asBytes b
      ↔ (RustStr.asBytes a).length = (RustStr.asBytes b).length
        ∧ ∀ p ∈ (RustStr.asBytes a).zip (RustStr.asBytes b), p.1 = p.2 := by
    rw [← List.forall₂_eq_eq_eq, List.forall₂_iff_zip, Prod.forall]
  rw [← RustStr.asBytes_injective.eq_iff, hzip]
  unfold constantTimeEq
  dsimp only
  split_ifs with hlength
  · exact iff_of_false not_false fun h => hlength h.1
  · rw [beq_iff_eq, foldl_differences, and_iff_right rfl, and_iff_right (not_not.mp hlength)]

/-! ## The gate -/

/-- The gate asks what start-up says it asks, of the key in the headers. -/
theorem checkApiKey_eq (key : Option String) (headers : HeaderMap) :
    checkApiKey key headers = StartUp.checkApiKey key (extractProvidedKey headers) := by
  unfold checkApiKey StartUp.checkApiKey StartUp.configuredKey
  cases key.filter (· ≠ "") with
  | none => rfl
  | some configured =>
      cases extractProvidedKey headers with
      | none => rfl
      | some provided => simp only [constantTimeEq_iff, Option.some.injEq]

/-- No key that is not blank is configured. -/
def GateOff (key : Option String) : Prop := ∀ k ∈ key, k = ""

/-- The header that carries a key in the one way, and in the other. -/
def BearerIs (headers : HeaderMap) (k : String) : Prop :=
  headers.get "authorization" = some (RustStr.asBytes ("Bearer " ++ k))

def ApiKeyIs (headers : HeaderMap) (k : String) : Prop :=
  headers.get "x-api-key" = some (RustStr.asBytes k)

/-- The authorization is a text that starts as a bearer token does. -/
def HasBearer (headers : HeaderMap) : Prop :=
  ∃ token, headers.text "authorization" = some ("Bearer " ++ token)

/-- A text that a header can hold and that is read from it. -/
def IsHeaderText (s : String) : Prop := ∀ c ∈ s.toList, Utf8.ascii Ssrf.isHeaderByte c = true

theorem bearer_isHeaderText : IsHeaderText "Bearer " :=
  List.all_eq_true.mp (by decide +kernel)

theorem text_eq_some_iff {headers : HeaderMap} {name s : String} :
    headers.text name = some s
      ↔ headers.get name = some (RustStr.asBytes s) ∧ IsHeaderText s := by
  unfold HeaderMap.text IsHeaderText
  rw [Option.bind_eq_some_iff]
  constructor
  · rintro ⟨value, hvalue, htext⟩
    obtain ⟨rfl, hclass⟩ := Ssrf.headerToStr_eq_some_iff.mp htext
    exact ⟨hvalue, hclass⟩
  · rintro ⟨hvalue, hclass⟩
    exact ⟨_, hvalue, Ssrf.headerToStr_eq_some_iff.mpr ⟨rfl, hclass⟩⟩

/-- The key that a request provides. -/
theorem extractProvidedKey_eq_some_iff {headers : HeaderMap} {k : String} :
    extractProvidedKey headers = some k
      ↔ headers.text "authorization" = some ("Bearer " ++ k)
        ∨ ¬ HasBearer headers ∧ headers.text "x-api-key" = some k := by
  have htoken : ∀ token, (headers.text "authorization").bind (RustStr.stripPrefix "Bearer ")
        = some token
      ↔ headers.text "authorization" = some ("Bearer " ++ token) := by
    intro token
    simp only [Option.bind_eq_some_iff, RustStr.stripPrefix_eq_some_iff, exists_eq_right]
  unfold extractProvidedKey
  cases hbearer : (headers.text "authorization").bind (RustStr.stripPrefix "Bearer ") with
  | some token =>
      have hhas : HasBearer headers := ⟨token, (htoken token).mp hbearer⟩
      rw [← htoken, hbearer, or_iff_left (fun h => h.1 hhas)]
  | none =>
      have hnone : ¬ HasBearer headers := by
        rintro ⟨token, h⟩
        rw [(htoken token).mpr h] at hbearer
        exact nomatch hbearer
      rw [← htoken, hbearer, and_iff_right hnone, or_iff_right (fun h => nomatch h)]

/-- The gate in terms of the key that is provided. -/
theorem checkApiKey_eq_ok_iff (key : Option String) (headers : HeaderMap) :
    checkApiKey key headers = .ok ()
      ↔ GateOff key ∨ ∃ k, key = some k ∧ extractProvidedKey headers = some k := by
  rw [checkApiKey_eq, StartUp.checkApiKey, StartUp.configuredKey, GateOff]
  cases key with
  | none => simp
  | some k =>
      by_cases hblank : k = ""
      · rw [Option.filter_some, if_neg (by simp [hblank])]
        exact iff_of_true rfl (Or.inl fun k' hk' => (Option.some.inj hk').symm.trans hblank)
      · have hgate : ¬ ∀ k' ∈ some k, k' = "" := fun h => hblank (h k rfl)
        rw [Option.filter_some, if_pos (by simp [hblank]), or_iff_right hgate]
        simp only [Option.some.injEq, exists_eq_left']
        split_ifs with hprovided
        · exact iff_of_true rfl hprovided
        · exact iff_of_false (fun h => nomatch h) hprovided

/-- The key in one of the headers: in the second only when the first is no bearer token. -/
def Admitted (key : Option String) (headers : HeaderMap) : Prop :=
  GateOff key ∨ ∃ k, key = some k ∧ (BearerIs headers k ∨ ¬ HasBearer headers ∧ ApiKeyIs headers k)

/-- **The requests that are admitted** carry the key, and a bearer token goes before the other
header.  A key that a header can hold as a text admits every such request. -/
theorem checkApiKey_admits :
    (∀ a b, constantTimeEq a b = true ↔ a = b)
    ∧ ∀ (key : Option String) (headers : HeaderMap),
      (checkApiKey key headers = .ok () → Admitted key headers)
        ∧ ((∀ k ∈ key, IsHeaderText k) →
          (checkApiKey key headers = .ok () ↔ Admitted key headers)) := by
  refine ⟨constantTimeEq_iff, fun key headers => ?_⟩
  have hsound : checkApiKey key headers = .ok () → Admitted key headers := by
    rw [checkApiKey_eq_ok_iff]
    rintro (hoff | ⟨k, hkey, hprovided⟩)
    · exact Or.inl hoff
    · refine Or.inr ⟨k, hkey, (extractProvidedKey_eq_some_iff.mp hprovided).imp ?_ ?_⟩
      · exact fun htext => (text_eq_some_iff.mp htext).1
      · exact And.imp_right fun htext => (text_eq_some_iff.mp htext).1
  refine ⟨hsound, fun hheld => ⟨hsound, ?_⟩⟩
  rw [checkApiKey_eq_ok_iff]
  rintro (hoff | ⟨k, hkey, hcarried⟩)
  · exact Or.inl hoff
  · have htext : IsHeaderText k := hheld k hkey
    refine Or.inr ⟨k, hkey, extractProvidedKey_eq_some_iff.mpr (hcarried.imp ?_ ?_)⟩
    · intro hbearer
      refine text_eq_some_iff.mpr ⟨hbearer, fun c hc => ?_⟩
      rw [String.toList_append, List.mem_append] at hc
      rcases hc with hc | hc
      · exact bearer_isHeaderText c hc
      · exact htext c hc
    · exact And.imp_right fun hkeyIs => text_eq_some_iff.mpr ⟨hkeyIs, htext⟩

/-- The key in one of the headers, whatever the other one holds. -/
def CarriesKey (key : Option String) (headers : HeaderMap) : Prop :=
  GateOff key ∨ ∃ k, key = some k ∧ (BearerIs headers k ∨ ApiKeyIs headers k)

/-- The key beside a wrong token. -/
def wrongTokenHeaders : HeaderMap :=
  [("authorization", RustStr.asBytes "Bearer wrong"), ("x-api-key", RustStr.asBytes "secret")]

theorem wrong_token_first :
    ¬ (checkApiKey (some "secret") wrongTokenHeaders = .ok ()
      ↔ CarriesKey (some "secret") wrongTokenHeaders) := by
  have hcarries : CarriesKey (some "secret") wrongTokenHeaders :=
    Or.inr ⟨"secret", rfl, Or.inr rfl⟩
  have hprovided : extractProvidedKey wrongTokenHeaders = some "wrong" := by decide +kernel
  intro h
  have hok := h.mpr hcarries
  rw [checkApiKey_eq, hprovided] at hok
  exact absurd hok (by decide)

end StatsGate
