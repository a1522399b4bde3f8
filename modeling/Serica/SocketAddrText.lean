/-
# Socket addresses as texts

The texts that the standard library parses as a socket address: an IPv4 address and a
port, or an IPv6 address in brackets and a port.

* `parseSocketAddr` is the parser, `hostAddr` its part in front of the port.
* `parseSocketAddr_hostPort`: `host:port` parses exactly when `host` is such an address.
-/
import Serica.IpAddr

namespace SocketAddrText

/-! ## Numbers -/

/-- A decimal number below a bound; leading zeros count as digits. -/
def decimal (bound : ℕ) (cs : List Char) : Option ℕ :=
  if !cs.isEmpty && cs.all Char.isDigit then
    let n := Nat.ofDigitChars 10 cs 0
    if n < bound then some n else none
  else none

/-- An octet: at most three digits, and no zero in front of others. -/
def octet (cs : List Char) : Option UInt8 :=
  if cs.length ≤ 3 && (cs.head? != some '0' || cs.length == 1) then
    (decimal 256 cs).map UInt8.ofNat
  else none

def hexDigit (c : Char) : Option ℕ :=
  if c.isDigit then some (c.toNat - '0'.toNat)
  else if 'a' ≤ c && c ≤ 'f' then some (c.toNat - 'a'.toNat + 10)
  else if 'A' ≤ c && c ≤ 'F' then some (c.toNat - 'A'.toNat + 10)
  else none

/-- A group of an IPv6 address: one to four hexadecimal digits. -/
def group (cs : List Char) : Option UInt16 :=
  if cs.isEmpty || 4 < cs.length then none
  else (cs.mapM hexDigit).map fun ds => UInt16.ofNat (ds.foldl (fun n d => 16 * n + d) 0)

/-! ## Addresses -/

/-- `Ipv4Addr::from_str`: four octets with dots between them. -/
def ipv4 (cs : List Char) : Option Ipv4Addr :=
  match cs.splitOn '.' with
  | [a, b, c, d] => do
      let a ← octet a
      let b ← octet b
      let c ← octet c
      let d ← octet d
      some ⟨a, b, c, d⟩
  | _ => none

/-- An IPv4 address as two groups. -/
def ipv4Groups (a : Ipv4Addr) : List UInt16 :=
  [a.o0.toUInt16 * 256 + a.o1.toUInt16, a.o2.toUInt16 * 256 + a.o3.toUInt16]

/-- The parts between colons as groups; the last may be an IPv4 address. -/
def groups (v4 : Bool) : List (List Char) → Option (List UInt16)
  | [] => some []
  | [part] =>
      match group part with
      | some g => some [g]
      -- A part with dots is no group, so the order of the two does not matter.
      | none => if v4 then (ipv4 part).map ipv4Groups else none
  | part :: parts => do
      let g ← group part
      let gs ← groups v4 parts
      some (g :: gs)

/-- The text before the first `::` and the text after it. -/
def splitDoubleColon : List Char → Option (List Char × List Char)
  | ':' :: ':' :: cs => some ([], cs)
  | c :: cs => (splitDoubleColon cs).map fun p => (c :: p.1, p.2)
  | [] => none

/-- The groups on one side of a `::`. -/
def side (v4 : Bool) (cs : List Char) : Option (List UInt16) :=
  if cs.isEmpty then some [] else groups v4 (cs.splitOn ':')

def ofSegments : List UInt16 → Option Ipv6Addr
  | [a, b, c, d, e, f, g, h] => some ⟨a, b, c, d, e, f, g, h⟩
  | _ => none

/-- `Ipv6Addr::from_str`: eight groups with colons between them, or fewer with a `::`
that stands for at least one group of zeros. -/
def ipv6 (cs : List Char) : Option Ipv6Addr :=
  match splitDoubleColon cs with
  | none => do
      let gs ← groups true (cs.splitOn ':')
      ofSegments gs
  | some (head, tail) => do
      -- An IPv4 address may not stand before `::`.
      let front ← side false head
      let back ← side true tail
      if front.length + back.length ≤ 7 then
        ofSegments (front ++ List.replicate (8 - front.length - back.length) 0 ++ back)
      else none

/-- An IPv6 address with an optional numeric scope. -/
def scopedIpv6 (cs : List Char) : Option Ipv6Addr :=
  match cs.dropWhile (· != '%') with
  | [] => ipv6 cs
  | _ :: scope => do
      let _ ← decimal (2 ^ 32) scope
      ipv6 (cs.takeWhile (· != '%'))

/-- The address in front of the port. -/
def hostAddr (cs : List Char) : Option IpAddr :=
  match ipv4 cs with
  | some a => some (.v4 a)
  | none =>
      match cs with
      | '[' :: rest =>
          if rest.getLast? = some ']' then (scopedIpv6 rest.dropLast).map .v6 else none
      | _ => none

/-- The text before the last colon and the text after it. -/
def splitLastColon (cs : List Char) : Option (List Char × List Char) :=
  match cs.reverse.dropWhile (· != ':') with
  | [] => none
  | _ :: front => some (front.reverse, (cs.reverse.takeWhile (· != ':')).reverse)

/-- `SocketAddr::from_str`. -/
def parseSocketAddr (s : String) : Option SocketAddr := do
  let (host, port) ← splitLastColon s.toList
  let n ← decimal 65536 port
  let ip ← hostAddr host
  some ⟨ip, UInt16.ofNat n⟩

/-! ## The last colon -/

theorem splitLastColon_append (host : List Char) {port : List Char} (h : ':' ∉ port) :
    splitLastColon (host ++ ':' :: port) = some (host, port) := by
  have hport : ∀ c ∈ port.reverse, (c != ':') = true := by
    intro c hc
    rw [bne_iff_ne]
    rintro rfl
    exact h (List.mem_reverse.mp hc)
  have hreverse : (host ++ ':' :: port).reverse = port.reverse ++ ':' :: host.reverse := by simp
  rw [splitLastColon, hreverse, List.dropWhile_append_of_pos hport,
    List.takeWhile_append_of_pos hport, List.dropWhile_cons_of_neg (by simp),
    List.takeWhile_cons_of_neg (by simp), List.append_nil, List.reverse_reverse]
  simp

/-- A number below the bound is parsed from its digits. -/
theorem decimal_toDigits {bound n : ℕ} (h : n < bound) :
    decimal bound (Nat.toDigits 10 n) = some n := by
  have hdigits : (Nat.toDigits 10 n).all Char.isDigit = true := by
    rw [List.all_eq_true]
    exact fun c hc => Nat.isDigit_of_mem_toDigits (by omega) (by omega) hc
  have hne : (Nat.toDigits 10 n).isEmpty = false := by
    rw [List.isEmpty_eq_false_iff]
    exact Nat.toDigits_ne_nil
  rw [decimal, hdigits, hne, Nat.ofDigitChars_ten_toDigits]
  simp [h]

/-- **The texts that parse**: `host:port` is a socket address exactly when its host is an
IPv4 address or an IPv6 address in brackets. -/
theorem parseSocketAddr_hostPort (host : String) (port : UInt16) :
    parseSocketAddr (host ++ ":" ++ toString port.toNat)
      = (hostAddr host.toList).map fun ip => ⟨ip, port⟩ := by
  have hdigits : (toString port.toNat).toList = Nat.toDigits 10 port.toNat := Nat.toList_repr
  have htext : (host ++ ":" ++ toString port.toNat).toList
      = host.toList ++ ':' :: Nat.toDigits 10 port.toNat := by
    rw [String.toList_append, String.toList_append, hdigits, List.append_assoc]
    rfl
  have hcolon : ':' ∉ Nat.toDigits 10 port.toNat := by
    intro hmem
    exact absurd (Nat.isDigit_of_mem_toDigits (by omega) (by omega) hmem) (by decide)
  have hport := decimal_toDigits port.toNat_lt
  -- The colon in front of the port is the last one, whatever the host is.
  rw [parseSocketAddr, htext, splitLastColon_append _ hcolon]
  simp only [Option.bind_eq_bind, Option.bind_some]
  rw [show (65536 : ℕ) = 2 ^ 16 from rfl, hport]
  cases hostAddr host.toList with
  | none => rfl
  | some ip => simp

example : parseSocketAddr "127.0.0.1:3000" = some ⟨.v4 ⟨127, 0, 0, 1⟩, 3000⟩ := by decide

example : parseSocketAddr "[::1]:3000" = some ⟨.v6 ⟨0, 0, 0, 0, 0, 0, 0, 1⟩, 3000⟩ := by decide

end SocketAddrText
