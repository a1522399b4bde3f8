/-
# Addresses as hosts

URLs whose host is an IP address, and what `validateExtractTarget` makes of them.

* `hostLiteral` is the host as the URL library writes it, an IPv6 address in brackets, and
  `lookupHost` the look-up of a host that may be an address.
* `ipv4_hostLiteral`: an IPv4 address is looked up without a resolver.
* `validateExtractTarget_bracketed`: nothing in brackets is.
* `literal_validated_iff`: which addresses are accepted and refused as they should be.
-/
import Serica.SocketAddrText
import Serica.Ssrf

namespace Ssrf

/-! ## Hosts -/

/-- `Ipv4Addr` as a text. -/
def ipv4Text (a : Ipv4Addr) : String :=
  ".".intercalate (a.octets.map fun o => toString o.toNat)

/-- A segment in lower-case hexadecimal digits. -/
def segmentText (s : UInt16) : String := String.ofList (Nat.toDigits 16 s.toNat)

/-- The first of the longest runs of zero segments, as its start and its length. -/
def longestZeroSequence (segments : List UInt16) : ℕ × ℕ :=
  (List.range 8).foldl (fun best i =>
    let length := ((segments.drop i).takeWhile (· == 0)).length
    if best.2 < length then (i, length) else best) (0, 0)

/-- `write_ipv6`: the longest run of zero segments is left out, unless it is a single one. -/
def ipv6Text (a : Ipv6Addr) : String :=
  let (start, length) := longestZeroSequence a.segments
  if length < 2 then ":".intercalate (a.segments.map segmentText)
  else ":".intercalate ((a.segments.take start).map segmentText) ++ "::"
    ++ ":".intercalate ((a.segments.drop (start + length)).map segmentText)

/-- The host of a URL that names an address. -/
def hostLiteral : IpAddr → String
  | .v4 a => ipv4Text a
  | .v6 a => "[" ++ ipv6Text a ++ "]"

/-- `tokio::net::lookup_host`: addresses are parsed, other hosts are resolved. -/
def lookupHost (resolver : String → UInt16 → Except String (List SocketAddr)) (host : String)
    (port : UInt16) : Except String (List SocketAddr) :=
  match SocketAddrText.ipv4 host.toList with
  | some a => .ok [⟨.v4 a, port⟩]
  | none =>
      match SocketAddrText.ipv6 host.toList with
      | some a => .ok [⟨.v6 a, port⟩]
      | none => resolver host port

/-- A resolver knows no name with a bracket in it. -/
def FailsOnBrackets (resolver : String → UInt16 → Except String (List SocketAddr)) : Prop :=
  ∀ host port, '[' ∈ host.toList ∨ ']' ∈ host.toList → ∃ e, resolver host port = .error e

/-- The network looks hosts up in this way; each time it may resolve a name differently. -/
def LooksUp (resolver : ℕ → String → UInt16 → Except String (List SocketAddr))
    (env : Env NetI) : Prop :=
  ∀ n host port, env n (.lookupHost host port) = lookupHost (resolver n) host port

example : hostLiteral (.v6 ⟨0x2606, 0x4700, 0, 0, 0, 0, 0, 0x1111⟩) = "[2606:4700::1111]" := by
  decide +kernel

/-! ## IPv4 -/

/-- An octet is written without leading zeros, and read again. -/
theorem octet_toString (o : UInt8) :
    SocketAddrText.octet (toString o.toNat).toList = some o
      ∧ ∀ c ∈ (toString o.toNat).toList, c ≠ '.' := by
  have hall : ∀ n < 256, SocketAddrText.octet (Nat.toDigits 10 n) = some (UInt8.ofNat n) := by
    decide +kernel
  have hdigits : (toString o.toNat).toList = Nat.toDigits 10 o.toNat := Nat.toList_repr
  rw [hdigits, hall o.toNat o.toNat_lt, UInt8.ofNat_toNat]
  refine ⟨rfl, ?_⟩
  rintro c hc rfl
  exact absurd (Nat.isDigit_of_mem_toDigits (by omega) (by omega) hc) (by decide)

/-- The host of an IPv4 address is read as the address. -/
theorem ipv4_hostLiteral (a : Ipv4Addr) :
    SocketAddrText.ipv4 (hostLiteral (.v4 a)).toList = some a := by
  obtain ⟨h0, hdot0⟩ := octet_toString a.o0
  obtain ⟨h1, hdot1⟩ := octet_toString a.o1
  obtain ⟨h2, hdot2⟩ := octet_toString a.o2
  obtain ⟨h3, hdot3⟩ := octet_toString a.o3
  have htext : (hostLiteral (.v4 a)).toList
      = (toString a.o0.toNat).toList ++ '.' :: ((toString a.o1.toNat).toList
        ++ '.' :: ((toString a.o2.toNat).toList ++ '.' :: (toString a.o3.toNat).toList)) := by
    rw [hostLiteral, ipv4Text, String.toList_intercalate]
    simp [Ipv4Addr.octets, List.intercalate]
  have hsplit : (hostLiteral (.v4 a)).toList.splitOn '.'
      = [(toString a.o0.toNat).toList, (toString a.o1.toNat).toList,
        (toString a.o2.toNat).toList, (toString a.o3.toNat).toList] := by
    rw [htext, List.splitOn_eq_splitOnP,
      List.splitOnP_append_cons_of_forall_mem (by simpa using hdot0) '.' (by decide),
      List.splitOnP_append_cons_of_forall_mem (by simpa using hdot1) '.' (by decide),
      List.splitOnP_append_cons_of_forall_mem (by simpa using hdot2) '.' (by decide),
      List.splitOnP_eq_singleton (by simpa using hdot3)]
  rw [SocketAddrText.ipv4, hsplit]
  simp only [h0, h1, h2, h3, Option.bind_eq_bind, Option.bind_some]

/-! ## Brackets -/

theorem group_bracket (part : List Char) : SocketAddrText.group ('[' :: part) = none := by
  have hdigit : SocketAddrText.hexDigit '[' = none := by decide
  rw [SocketAddrText.group, List.mapM_cons, hdigit]
  split_ifs <;> rfl

theorem octet_bracket (part : List Char) : SocketAddrText.octet ('[' :: part) = none := by
  have hdigit : Char.isDigit '[' = false := by decide
  have hdecimal : SocketAddrText.decimal 256 ('[' :: part) = none := by
    rw [SocketAddrText.decimal, List.all_cons, hdigit, Bool.false_and, Bool.and_false]
    rfl
  rw [SocketAddrText.octet, hdecimal]
  split_ifs <;> rfl

/-- The first piece of a split starts as the text does. -/
theorem splitOn_bracket (sep : Char) (hsep : ('[' == sep) = false) (cs : List Char) :
    ∃ part parts, ('[' :: cs).splitOn sep = ('[' :: part) :: parts := by
  obtain ⟨part, parts, hsplit⟩ := List.exists_cons_of_ne_nil (List.splitOnP_ne_nil (· == sep) cs)
  refine ⟨part, parts, ?_⟩
  rw [List.splitOn_eq_splitOnP, List.splitOnP_cons_eq_if_modifyHead, hsep, hsplit]
  rfl

theorem ipv4_bracket (cs : List Char) : SocketAddrText.ipv4 ('[' :: cs) = none := by
  obtain ⟨part, parts, hsplit⟩ := splitOn_bracket '.' (by decide) cs
  rw [SocketAddrText.ipv4, hsplit]
  rcases parts with _ | ⟨b, _ | ⟨c, _ | ⟨d, _ | ⟨e, parts⟩⟩⟩⟩
  case cons.cons.cons.nil =>
    simp only [octet_bracket, Option.bind_eq_bind, Option.bind_none]
  all_goals rfl

theorem groups_bracket (v4 : Bool) (cs : List Char) :
    SocketAddrText.groups v4 (('[' :: cs).splitOn ':') = none := by
  obtain ⟨part, parts, hsplit⟩ := splitOn_bracket ':' (by decide) cs
  rw [hsplit]
  cases parts with
  | nil =>
      rw [SocketAddrText.groups, group_bracket]
      simp only [ipv4_bracket, Option.map_none, ite_self]
  | cons part' parts =>
      rw [SocketAddrText.groups, group_bracket]
      · rfl
      · simp

/-- No IPv6 address begins with a bracket. -/
theorem ipv6_bracket (cs : List Char) : SocketAddrText.ipv6 ('[' :: cs) = none := by
  have hfirst : SocketAddrText.splitDoubleColon ('[' :: cs)
      = (SocketAddrText.splitDoubleColon cs).map fun p => ('[' :: p.1, p.2) := rfl
  rw [SocketAddrText.ipv6, hfirst]
  cases SocketAddrText.splitDoubleColon cs with
  | none =>
      dsimp only [Option.map_none]
      rw [groups_bracket]
      rfl
  | some p =>
      have hside : SocketAddrText.side false ('[' :: p.1) = none := groups_bracket false p.1
      dsimp only [Option.map_some]
      rw [hside]
      rfl

/-- A host in brackets is left to the resolver, which does not know it. -/
theorem lookupHost_bracketed {resolver : String → UInt16 → Except String (List SocketAddr)}
    (hfails : FailsOnBrackets resolver) (text : String) (port : UInt16) :
    ∃ e, lookupHost resolver ("[" ++ text ++ "]") port = .error e := by
  have htext : ("[" ++ text ++ "]").toList = '[' :: (text.toList ++ [']']) := by
    rw [String.toList_append, String.toList_append]
    rfl
  rw [lookupHost, htext, ipv4_bracket, ipv6_bracket]
  exact hfails _ port (Or.inl (by rw [htext]; exact List.mem_cons_self))

/-! ## Validation -/

/-- An https URL whose host is an address, with or without a port. -/
def IsLiteralUrl (a : IpAddr) (url : Url) : Prop :=
  url.scheme = "https" ∧ url.hostStr = some (hostLiteral a)

/-- The port of an https URL. -/
def httpsPort (url : Url) : UInt16 := (url.authority.bind (·.port)).getD 443

/-- What validation should make of an address. -/
def addressOutcome (a : IpAddr) (port : UInt16) : Except AppError SocketAddr :=
  if isForbiddenTarget a then .error (.invalidQuery "URL resolves to a non-public address")
  else .ok ⟨a, port⟩

/-- A single candidate is refused or accepted by its address. -/
theorem checkCandidates_singleton (a : IpAddr) (port : UInt16) :
    checkCandidates none [⟨a, port⟩] = addressOutcome a port := by
  rw [checkCandidates, addressOutcome]
  split_ifs <;> rfl

/-- The validation of a host is a look-up. -/
theorem result_validateExtractTarget {url : Url} {host : String} (hscheme : url.scheme = "https")
    (hhost : url.hostStr = some host) (env : Env NetI) (n : ℕ) :
    (validateExtractTarget url).result env n
      = match env n (.lookupHost host (httpsPort url)) with
        | .error _ => .error (.invalidQuery "Host could not be resolved")
        | .ok candidates => checkCandidates none candidates := by
  have hport : url.portOrKnownDefault.getD 443 = httpsPort url := by
    have hdefault : Url.defaultPort "https" = some 443 := by decide
    rw [Url.portOrKnownDefault, httpsPort, hscheme, hdefault]
    cases url.authority.bind (·.port) <;> rfl
  rw [validateExtractTarget, if_neg (not_not.mpr hscheme), hhost]
  dsimp only
  rw [Prog.result_call, hport]
  cases env n (.lookupHost host (httpsPort url)) <;> rfl

section Network

variable {resolver : ℕ → String → UInt16 → Except String (List SocketAddr)} {env : Env NetI}
  {url : Url}

/-- A literal IPv4 address is refused or accepted by itself. -/
theorem validateExtractTarget_v4 (henv : LooksUp resolver env) {a : Ipv4Addr}
    (hurl : IsLiteralUrl (.v4 a) url) (n : ℕ) :
    (validateExtractTarget url).result env n = addressOutcome (.v4 a) (httpsPort url) := by
  rw [result_validateExtractTarget hurl.1 hurl.2, henv, lookupHost, ipv4_hostLiteral]
  exact checkCandidates_singleton (.v4 a) (httpsPort url)

/-- **No IPv6 address is accepted**, and none is refused as one. -/
theorem validateExtractTarget_v6 (hfails : ∀ n, FailsOnBrackets (resolver n))
    (henv : LooksUp resolver env) {a : Ipv6Addr} (hurl : IsLiteralUrl (.v6 a) url) (n : ℕ) :
    (validateExtractTarget url).result env n
      = .error (.invalidQuery "Host could not be resolved") := by
  obtain ⟨e, he⟩ := lookupHost_bracketed (hfails n) (ipv6Text a) (httpsPort url)
  rw [result_validateExtractTarget hurl.1 hurl.2, henv, hostLiteral, he]

/-- **The addresses that are validated as they should be** are those of IPv4. -/
theorem literal_validated_iff (hfails : ∀ n, FailsOnBrackets (resolver n))
    (henv : LooksUp resolver env) {a : IpAddr} (hurl : IsLiteralUrl a url) (n : ℕ) :
    (validateExtractTarget url).result env n = addressOutcome a (httpsPort url)
      ↔ ∃ v4, a = .v4 v4 := by
  cases a with
  | v4 a => exact iff_of_true (validateExtractTarget_v4 henv hurl n) ⟨a, rfl⟩
  | v6 a =>
      rw [validateExtractTarget_v6 hfails henv hurl n, addressOutcome]
      refine iff_of_false ?_ (fun ⟨_, h⟩ => nomatch h)
      split_ifs <;> simp

end Network

/-- The page at the root of an address. -/
def rootOf (a : IpAddr) : Url :=
  ⟨"https", some ⟨"", none, some (hostLiteral a), none⟩, "/", none, none⟩

/-- A network without a resolver. -/
def addressNet : Env NetI
  | _, .lookupHost host port => lookupHost (fun _ _ => .error "no resolver") host port
  | _, .parseProxy _ => none
  | _, .buildClient _ => none
  | _, .send _ _ _ => .error "no route"

theorem addressNet_looksUp : LooksUp (fun _ _ _ => .error "no resolver") addressNet :=
  fun _ _ _ => rfl

theorem literal_validated_one :
    (validateExtractTarget (rootOf (.v4 ⟨1, 1, 1, 1⟩))).result addressNet 0
        = addressOutcome (.v4 ⟨1, 1, 1, 1⟩) (httpsPort (rootOf (.v4 ⟨1, 1, 1, 1⟩)))
      ↔ ∃ v4, IpAddr.v4 ⟨1, 1, 1, 1⟩ = .v4 v4 :=
  literal_validated_iff (fun _ _ _ _ => ⟨_, rfl⟩) addressNet_looksUp ⟨rfl, rfl⟩ 0

/-- A public address of IPv6 is not accepted. -/
theorem public_v6_refused :
    isForbiddenTarget (.v6 ⟨0x2606, 0x4700, 0x4700, 0, 0, 0, 0, 0x1111⟩) = false
      ∧ (validateExtractTarget
          (rootOf (.v6 ⟨0x2606, 0x4700, 0x4700, 0, 0, 0, 0, 0x1111⟩))).result addressNet 0
        ≠ .ok ⟨.v6 ⟨0x2606, 0x4700, 0x4700, 0, 0, 0, 0, 0x1111⟩, 443⟩ := by
  refine ⟨by decide, ?_⟩
  rw [validateExtractTarget_v6 (fun _ _ _ _ => ⟨_, rfl⟩) addressNet_looksUp ⟨rfl, rfl⟩]
  exact fun h => nomatch h

end Ssrf
