/-
# IP addresses

IPv4 and IPv6 addresses as octets and segments, with the predicates of the
standard library on them, and address blocks `base/len` read off the numeric value
of an address.  An address is a string of digits, so its blocks are those of
`DigitBlock`.  Each predicate is the membership in a block or in a few of them
(`isLoopback_iff`, `isPrivate_iff`, ...), so that a check assembled from the
predicates can be compared with a list of blocks.
-/
import Serica.DigitBlock

/-! ## IPv4 -/

structure Ipv4Addr where
  o0 : UInt8
  o1 : UInt8
  o2 : UInt8
  o3 : UInt8
deriving DecidableEq, Repr

namespace Ipv4Addr

def octets (a : Ipv4Addr) : List UInt8 := [a.o0, a.o1, a.o2, a.o3]

/-- The numeric value. -/
def toNat (a : Ipv4Addr) : ℕ :=
  a.o0.toNat * 2 ^ 24 + a.o1.toNat * 2 ^ 16 + a.o2.toNat * 2 ^ 8 + a.o3.toNat

/-- `127.0.0.0/8`. -/
def isLoopback (a : Ipv4Addr) : Bool := a.o0 == 127

/-- `10.0.0.0/8`, `172.16.0.0/12` and `192.168.0.0/16`. -/
def isPrivate (a : Ipv4Addr) : Bool :=
  a.o0 == 10 || (a.o0 == 172 && 16 ≤ a.o1 && a.o1 ≤ 31) || (a.o0 == 192 && a.o1 == 168)

/-- `169.254.0.0/16`. -/
def isLinkLocal (a : Ipv4Addr) : Bool := a.o0 == 169 && a.o1 == 254

def isBroadcast (a : Ipv4Addr) : Bool := a.octets == [255, 255, 255, 255]

/-- `192.0.2.0/24`, `198.51.100.0/24` and `203.0.113.0/24`. -/
def isDocumentation (a : Ipv4Addr) : Bool :=
  (a.o0 == 192 && a.o1 == 0 && a.o2 == 2) || (a.o0 == 198 && a.o1 == 51 && a.o2 == 100)
    || (a.o0 == 203 && a.o1 == 0 && a.o2 == 113)

def isUnspecified (a : Ipv4Addr) : Bool := a.octets == [0, 0, 0, 0]

end Ipv4Addr

/-- A block of IPv4 addresses: those that share the first `len` bits with `base`. -/
structure Ipv4Block where
  base : Ipv4Addr
  len : ℕ
deriving DecidableEq, Repr

namespace Ipv4Block

def Mem (b : Ipv4Block) (a : Ipv4Addr) : Prop :=
  a.toNat / 2 ^ (32 - b.len) = b.base.toNat / 2 ^ (32 - b.len)

instance : Membership Ipv4Addr Ipv4Block := ⟨Mem⟩

instance (a : Ipv4Addr) (b : Ipv4Block) : Decidable (a ∈ b) :=
  inferInstanceAs (Decidable (_ = _))

variable (a : Ipv4Addr)

/-- Octets are digits of eight bits. -/
theorem digits_octets : DigitBlock.Digits 8 (a.octets.map UInt8.toNat) := by
  intro d hd
  obtain ⟨o, -, rfl⟩ := List.mem_map.mp hd
  exact o.toNat_lt

/-- An address is the number that its octets write. -/
theorem toNat_eq : a.toNat = DigitBlock.value 8 (a.octets.map UInt8.toNat) := by
  simp only [Ipv4Addr.toNat, DigitBlock.value, Ipv4Addr.octets, List.map_cons, List.map_nil,
    List.reverse_cons, List.reverse_nil, List.nil_append, List.cons_append, Nat.ofDigits_cons,
    Nat.ofDigits_nil]
  ring

/-- An address of a block shares its first bits with the base. -/
theorem mem_def (b : Ipv4Block) :
    a ∈ b ↔ DigitBlock.SameBits 8 4 b.len (DigitBlock.value 8 (a.octets.map UInt8.toNat))
      (DigitBlock.value 8 (b.base.octets.map UInt8.toNat)) := by
  rw [← toNat_eq, ← toNat_eq]
  exact Iff.rfl

/-- A block that ends with an octet fixes the octets before its end. -/
theorem mem_octets {k : ℕ} (hk : k ≤ 4) (b : Ipv4Addr) :
    a ∈ Ipv4Block.mk b (8 * k) ↔ a.octets.take k = b.octets.take k := by
  have hinj : Function.Injective UInt8.toNat := fun x y h => UInt8.toNat_inj.mp h
  rw [mem_def]
  refine (DigitBlock.sameDigits_iff (by omega) (digits_octets a) (digits_octets b) rfl hk).trans ?_
  rw [← List.map_take, ← List.map_take, (List.map_injective_iff.mpr hinj).eq_iff]

/-- Between 8 and 16 bits, a block fixes the first octet and the top of the second. -/
theorem mem_of_second {k : ℕ} (hk : k ≤ 8) (b : Ipv4Addr) :
    a ∈ Ipv4Block.mk b (8 + k)
      ↔ a.o0 = b.o0 ∧ a.o1.toNat / 2 ^ (8 - k) = b.o1.toNat / 2 ^ (8 - k) := by
  rw [mem_def]
  refine (DigitBlock.sameBits_iff (by omega) [a.o0.toNat] [b.o0.toNat] (digits_octets a)
    (digits_octets b) rfl rfl hk).trans ?_
  rw [List.singleton_inj, UInt8.toNat_inj]

end Ipv4Block

namespace Ipv4Addr

variable (a : Ipv4Addr)

/-- Loopback addresses are those of `127.0.0.0/8`. -/
theorem isLoopback_iff : a.isLoopback = true ↔ a ∈ Ipv4Block.mk ⟨127, 0, 0, 0⟩ 8 := by
  rw [Ipv4Block.mem_octets a (k := 1) (by omega)]
  simp [isLoopback, octets]

/-- Private addresses are those of three blocks. -/
theorem isPrivate_iff :
    a.isPrivate = true ↔ a ∈ Ipv4Block.mk ⟨10, 0, 0, 0⟩ 8
      ∨ a ∈ Ipv4Block.mk ⟨172, 16, 0, 0⟩ 12 ∨ a ∈ Ipv4Block.mk ⟨192, 168, 0, 0⟩ 16 := by
  have hmid : (16 ≤ a.o1 ∧ a.o1 ≤ 31)
      ↔ a.o1.toNat / 2 ^ (8 - 4) = (16 : UInt8).toNat / 2 ^ (8 - 4) := by
    rw [UInt8.le_iff_toNat_le, UInt8.le_iff_toNat_le]
    simp only [UInt8.toNat_ofNat]
    omega
  rw [Ipv4Block.mem_octets a (k := 1) (by omega), Ipv4Block.mem_of_second a (k := 4) (by omega),
    Ipv4Block.mem_octets a (k := 2) (by omega), ← hmid]
  simp [isPrivate, octets, and_assoc, or_assoc]

/-- Link-local addresses are those of `169.254.0.0/16`. -/
theorem isLinkLocal_iff :
    a.isLinkLocal = true ↔ a ∈ Ipv4Block.mk ⟨169, 254, 0, 0⟩ 16 := by
  rw [Ipv4Block.mem_octets a (k := 2) (by omega)]
  simp [isLinkLocal, octets]

/-- The broadcast address is `255.255.255.255`. -/
theorem isBroadcast_iff :
    a.isBroadcast = true ↔ a ∈ Ipv4Block.mk ⟨255, 255, 255, 255⟩ 32 := by
  rw [Ipv4Block.mem_octets a (k := 4) (by omega)]
  simp [isBroadcast, octets]

/-- Addresses for documentation are those of three blocks. -/
theorem isDocumentation_iff :
    a.isDocumentation = true ↔ a ∈ Ipv4Block.mk ⟨192, 0, 2, 0⟩ 24
      ∨ a ∈ Ipv4Block.mk ⟨198, 51, 100, 0⟩ 24 ∨ a ∈ Ipv4Block.mk ⟨203, 0, 113, 0⟩ 24 := by
  rw [Ipv4Block.mem_octets a (k := 3) (by omega), Ipv4Block.mem_octets a (k := 3) (by omega),
    Ipv4Block.mem_octets a (k := 3) (by omega)]
  simp [isDocumentation, octets, and_assoc, or_assoc]

/-- The unspecified address is `0.0.0.0`. -/
theorem isUnspecified_iff :
    a.isUnspecified = true ↔ a ∈ Ipv4Block.mk ⟨0, 0, 0, 0⟩ 32 := by
  rw [Ipv4Block.mem_octets a (k := 4) (by omega)]
  simp [isUnspecified, octets]

end Ipv4Addr

/-! ## IPv6 -/

structure Ipv6Addr where
  s0 : UInt16
  s1 : UInt16
  s2 : UInt16
  s3 : UInt16
  s4 : UInt16
  s5 : UInt16
  s6 : UInt16
  s7 : UInt16
deriving DecidableEq, Repr

namespace Ipv6Addr

def segments (a : Ipv6Addr) : List UInt16 := [a.s0, a.s1, a.s2, a.s3, a.s4, a.s5, a.s6, a.s7]

/-- The numeric value. -/
def toNat (a : Ipv6Addr) : ℕ := a.segments.foldl (fun n s => n * 2 ^ 16 + s.toNat) 0

def isLoopback (a : Ipv6Addr) : Bool := a.segments == [0, 0, 0, 0, 0, 0, 0, 1]

def isUnspecified (a : Ipv6Addr) : Bool := a.segments == [0, 0, 0, 0, 0, 0, 0, 0]

/-- The IPv4 address in the last 32 bits. -/
def low32 (a : Ipv6Addr) : Ipv4Addr :=
  ⟨(a.s6 >>> 8).toUInt8, a.s6.toUInt8, (a.s7 >>> 8).toUInt8, a.s7.toUInt8⟩

/-- The IPv4 address of `::ffff:a.b.c.d`. -/
def toIpv4Mapped (a : Ipv6Addr) : Option Ipv4Addr :=
  if a.segments.take 6 == [0, 0, 0, 0, 0, 0xffff] then some a.low32 else none

end Ipv6Addr

/-- A block of IPv6 addresses: those that share the first `len` bits with `base`. -/
structure Ipv6Block where
  base : Ipv6Addr
  len : ℕ
deriving DecidableEq, Repr

namespace Ipv6Block

def Mem (b : Ipv6Block) (a : Ipv6Addr) : Prop :=
  a.toNat / 2 ^ (128 - b.len) = b.base.toNat / 2 ^ (128 - b.len)

instance : Membership Ipv6Addr Ipv6Block := ⟨Mem⟩

instance (a : Ipv6Addr) (b : Ipv6Block) : Decidable (a ∈ b) :=
  inferInstanceAs (Decidable (_ = _))

variable (a : Ipv6Addr)

/-- Segments are digits of sixteen bits. -/
theorem digits_segments : DigitBlock.Digits 16 (a.segments.map UInt16.toNat) := by
  intro d hd
  obtain ⟨s, -, rfl⟩ := List.mem_map.mp hd
  exact s.toNat_lt

/-- An address is the number that its segments write. -/
theorem toNat_eq : a.toNat = DigitBlock.value 16 (a.segments.map UInt16.toNat) := by
  simp only [Ipv6Addr.toNat, DigitBlock.value, Ipv6Addr.segments, List.foldl_cons, List.foldl_nil,
    List.map_cons, List.map_nil, List.reverse_cons, List.reverse_nil, List.nil_append,
    List.cons_append, Nat.ofDigits_cons, Nat.ofDigits_nil]
  ring

/-- An address of a block shares its first bits with the base. -/
theorem mem_def (b : Ipv6Block) :
    a ∈ b ↔ DigitBlock.SameBits 16 8 b.len (DigitBlock.value 16 (a.segments.map UInt16.toNat))
      (DigitBlock.value 16 (b.base.segments.map UInt16.toNat)) := by
  rw [← toNat_eq, ← toNat_eq]
  exact Iff.rfl

/-- A block that ends with a segment fixes the segments before its end. -/
theorem mem_segments {k : ℕ} (hk : k ≤ 8) (b : Ipv6Addr) :
    a ∈ Ipv6Block.mk b (16 * k) ↔ a.segments.take k = b.segments.take k := by
  have hinj : Function.Injective UInt16.toNat := fun x y h => UInt16.toNat_inj.mp h
  rw [mem_def]
  refine (DigitBlock.sameDigits_iff (by omega) (digits_segments a) (digits_segments b) rfl
    hk).trans ?_
  rw [← List.map_take, ← List.map_take, (List.map_injective_iff.mpr hinj).eq_iff]

/-- Up to 16 bits, a block fixes the top of the first segment. -/
theorem mem_of_first {k : ℕ} (hk : k ≤ 16) (b : Ipv6Addr) :
    a ∈ Ipv6Block.mk b k ↔ a.s0.toNat / 2 ^ (16 - k) = b.s0.toNat / 2 ^ (16 - k) := by
  rw [mem_def, ← Nat.zero_add k]
  refine (DigitBlock.sameBits_iff (by omega) [] [] (digits_segments a) (digits_segments b) rfl rfl
    hk).trans ?_
  rw [Nat.zero_add]
  exact and_iff_right rfl

end Ipv6Block

namespace Ipv6Addr

variable (a : Ipv6Addr)

/-- The loopback address is `::1`. -/
theorem isLoopback_iff :
    a.isLoopback = true ↔ a ∈ Ipv6Block.mk ⟨0, 0, 0, 0, 0, 0, 0, 1⟩ 128 := by
  rw [Ipv6Block.mem_segments a (k := 8) (by omega)]
  simp [isLoopback, segments]

/-- The unspecified address is `::`. -/
theorem isUnspecified_iff :
    a.isUnspecified = true ↔ a ∈ Ipv6Block.mk ⟨0, 0, 0, 0, 0, 0, 0, 0⟩ 128 := by
  rw [Ipv6Block.mem_segments a (k := 8) (by omega)]
  simp [isUnspecified, segments]

/-- Mapped addresses are those of `::ffff:0:0/96`, with the other one in the last 32 bits. -/
theorem toIpv4Mapped_iff (v : Ipv4Addr) :
    a.toIpv4Mapped = some v
      ↔ a ∈ Ipv6Block.mk ⟨0, 0, 0, 0, 0, 0xffff, 0, 0⟩ 96 ∧ a.low32 = v := by
  rw [Ipv6Block.mem_segments a (k := 6) (by omega), toIpv4Mapped, Option.ite_none_right_eq_some,
    beq_iff_eq, Option.some.injEq]
  rfl

/-- Masking with the top bits cuts the low bits off. -/
theorem and_mask_eq {x k m : ℕ} (hx : x < 2 ^ (k + m)) :
    x &&& ((2 ^ m - 1) * 2 ^ k) = x / 2 ^ k * 2 ^ k := by
  apply Nat.eq_of_testBit_eq
  intro i
  rw [Nat.testBit_and, Nat.testBit_mul_two_pow, Nat.testBit_mul_two_pow,
    Nat.testBit_two_pow_sub_one, Nat.testBit_div_two_pow]
  by_cases hki : k ≤ i
  · rw [Nat.sub_add_cancel hki]
    by_cases him : i - k < m
    · simp [hki, him]
    · have hbit : x.testBit i = false :=
        Nat.testBit_lt_two_pow (hx.trans_le (Nat.pow_le_pow_right (by omega) (by omega)))
      simp [hbit]
  · simp [hki]

/-- A masked comparison of the first segment is the membership in a block. -/
theorem and_mask_iff {k : ℕ} (hk : k ≤ 16) {mask s : UInt16}
    (hmask : mask.toNat = (2 ^ k - 1) * 2 ^ (16 - k))
    (hs : s.toNat = s.toNat / 2 ^ (16 - k) * 2 ^ (16 - k)) :
    a.s0 &&& mask = s ↔ a ∈ Ipv6Block.mk ⟨s, 0, 0, 0, 0, 0, 0, 0⟩ k := by
  have hlt : a.s0.toNat < 2 ^ (16 - k + k) := by
    rw [Nat.sub_add_cancel hk]
    exact a.s0.toNat_lt
  rw [Ipv6Block.mem_of_first a hk, ← UInt16.toNat_inj, UInt16.toNat_and, hmask, and_mask_eq hlt]
  constructor
  · intro h
    rw [← h, Nat.mul_div_cancel _ (by positivity)]
  · intro h
    rw [h, ← hs]

end Ipv6Addr

/-! ## Socket addresses -/

/-- `std::net::IpAddr`. -/
inductive IpAddr
  | v4 (a : Ipv4Addr)
  | v6 (a : Ipv6Addr)
deriving DecidableEq, Repr

structure SocketAddr where
  ip : IpAddr
  port : UInt16
deriving DecidableEq, Repr
