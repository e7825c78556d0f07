import DeftRpc.Foundation.Bytes
import DeftRpc.Foundation.Numeral
import DeftRpc.Foundation.Word
import DeftRpc.Log.FormatString
import Mathlib.Data.List.TakeWhile

/-!
# Addresses as text (Addr.h, Addr.cpp)

ToString joins address and port with a colon, the constructor splits at the first colon.
The text of an IPv6 address has colons of its own: what stands before the first one is no
address.
-/

namespace DeftRpc.Net
open DeftRpc.Foundation DeftRpc.Log

/-! ### Addresses -/

/-- `struct in_addr`, by bytes. -/
abbrev InAddr := Fin 4 → Byte

/-- `struct in6_addr`, by groups of 16 bits. -/
abbrev In6Addr := Fin 8 → Fin 65536

structure SockaddrIn where
  sinFamily : UInt16 := 0
  sinPort : UInt16 := 0
  sinAddr : InAddr := fun _ => 0
  deriving DecidableEq

structure SockaddrIn6 where
  sin6Family : UInt16 := 0
  sin6Port : UInt16 := 0
  sin6Flowinfo : UInt32 := 0
  sin6Addr : In6Addr := fun _ => 0
  sin6ScopeId : UInt32 := 0
  deriving DecidableEq

/-- `m_address_` -/
inductive Addr where
  | in6 (addr6 : SockaddrIn6)
  | in4 (addr : SockaddrIn)
  deriving DecidableEq

def afInet : UInt16 := 2

def afInet6 : UInt16 := 10

/-! ### The C library -/

/-- `inet_pton` has a value when it returns 1 and then leaves it in the destination, `inet_ntop` when
it does not return the null pointer: the C string in a buffer of INET_ADDRSTRLEN or
INET6_ADDRSTRLEN chars. -/
structure InetLib where
  pton4 : List Char → Option InAddr
  pton6 : List Char → Option In6Addr
  ntop4 : InAddr → Option (List Char)
  ntop6 : In6Addr → Option (List Char)

def isspace (c : Char) : Bool := c == ' ' || (9 ≤ c.toNat && c.toNat ≤ 13)

def digits (s : List Char) : ℤ := numeralVal 10 (s.takeWhile Char.isDigit)

/-- In base 10; a value that no `long` holds becomes the closest one. -/
def strtol (s : List Char) : ℤ :=
  match s.dropWhile isspace with
  | '-' :: s => max (-9223372036854775808) (-digits s)
  | '+' :: s => min 9223372036854775807 (digits s)
  | s => min 9223372036854775807 (digits s)

def atoi (s : List Char) : ℤ := int32 (strtol s)

namespace Addr

/-! ### The functions of Addr -/

/-- What it returns and what it leaves in `*addr`. -/
def fromString (lib : InetLib) (ip : List Char) (port : UInt16) : ℤ × SockaddrIn :=
  match lib.pton4 (cStr ip) with
  | none => (-1, { sinFamily := afInet })
  | some sinAddr => (0, { sinFamily := afInet, sinPort := htons port, sinAddr := sinAddr })

def fromString6 (lib : InetLib) (ip : List Char) (port : UInt16) : ℤ × SockaddrIn6 :=
  match lib.pton6 (cStr ip) with
  | none => (-1, { sin6Family := afInet6 })
  | some sin6Addr =>
    (0, { sin6Family := afInet6, sin6Port := htons port, sin6Addr := sin6Addr })

/-- The constructor from address and port in one string. -/
def ofIpPort (lib : InetLib) (ipPort : List Char) (ipv4 : Bool) : Addr :=
  match find ipPort ':' 0 with
  | none => .in6 {}
  | some pos =>
    let port := UInt16.ofInt (atoi (cStr (ipPort.drop (pos + 1))))
    if ipv4 then .in4 (fromString lib (ipPort.take pos) port).2
    else .in6 (fromString6 lib (ipPort.take pos) port).2

/-- The constructor from address and port apart. `std::get<1>` throws out of it, which ends the
program: the variant holds its first alternative. -/
def ofIp (lib : InetLib) (ip : List Char) (port : UInt16) (ipv4 : Bool) : Option Addr :=
  if ipv4 then none else some (.in6 (fromString6 lib ip port).2)

def toString (lib : InetLib) : Addr → List Char
  | .in4 addr =>
    match lib.ntop4 addr.sinAddr with
    | none => []
    | some buf => buf ++ ':' :: decimal (ntohs addr.sinPort).toNat
  | .in6 addr6 =>
    match lib.ntop6 addr6.sin6Addr with
    | none => []
    | some buf => buf ++ ':' :: decimal (ntohs addr6.sin6Port).toNat

end Addr

/-! ### The port -/

theorem isspace_of_isDigit {c : Char} (h : c.isDigit = true) : isspace c = false := by
  have hlow : 48 ≤ c.toNat := by
    simp only [Char.isDigit, Bool.and_eq_true, decide_eq_true_eq] at h
    exact h.1
  have hne : c ≠ ' ' := by
    rintro rfl
    exact absurd h (by decide)
  simp [isspace, hne]
  omega

theorem strtol_digits {s : List Char} (h : ∀ c ∈ s, c.isDigit = true) :
    strtol s = min 9223372036854775807 (numeralVal 10 s : ℤ) := by
  have hspace : s.dropWhile isspace = s := by
    cases s with
    | nil => rfl
    | cons c s =>
      have hc := isspace_of_isDigit (h c List.mem_cons_self)
      rw [List.dropWhile_cons, hc]
      rfl
  rw [strtol, hspace]
  split
  case h_1 => exact absurd (h _ List.mem_cons_self) (by decide)
  case h_2 => exact absurd (h _ List.mem_cons_self) (by decide)
  case h_3 => rw [digits, List.takeWhile_eq_self_iff.mpr h]

theorem atoi_decimal {n : ℕ} (h : n < 2147483648) : atoi (decimal n) = n := by
  have hdigit : ∀ c ∈ decimal n, c.isDigit = true :=
    fun c hc => Nat.isDigit_of_mem_toDigits (by decide) (by decide) hc
  have hval : numeralVal 10 (decimal n) = n := numeralVal_toDigits (by decide) (by decide) n
  rw [atoi, strtol_digits hdigit, hval, min_eq_right (by omega)]
  exact int32_of_lt h

theorem ofInt_toNat (port : UInt16) : UInt16.ofInt (port.toNat : ℤ) = port := by
  have hport := port.toNat_lt
  rw [UInt16.ofInt, Int.emod_eq_of_lt (by omega) (by omega), Int.toNat_natCast]
  exact UInt16.ofNat_toNat

namespace Addr

theorem ofIpPort_first (lib : InetLib) {ip : List Char} (h : ':' ∉ ip) (rest : List Char)
    (ipv4 : Bool) : ofIpPort lib (ip ++ ':' :: rest) ipv4
      = if ipv4 then .in4 (fromString lib ip (UInt16.ofInt (atoi (cStr rest)))).2
        else .in6 (fromString6 lib ip (UInt16.ofInt (atoi (cStr rest)))).2 := by
  have hrest : (ip ++ ':' :: rest).drop (ip.length + 1) = rest := by simp
  rw [ofIpPort, find_first h]
  dsimp only
  rw [hrest, List.take_left]

theorem port_decimal (port : UInt16) :
    UInt16.ofInt (atoi (cStr (decimal port.toNat))) = port := by
  have hport := port.toNat_lt
  rw [cStr_self (not_mem_decimal rfl _), atoi_decimal (by omega), ofInt_toNat]

end Addr

/-! ### Parsing what was printed -/

/-- The text of an address is read as this address; it is a C string, and has a colon only and
always when it is one of IPv6. -/
structure InetLib.Documented (lib : InetLib) : Prop where
  text4 : ∀ a, ∃ text, lib.ntop4 a = some text ∧ lib.pton4 text = some a ∧
    '\x00' ∉ text ∧ ':' ∉ text
  text6 : ∀ a, ∃ text, lib.ntop6 a = some text ∧ lib.pton6 text = some a ∧ '\x00' ∉ text
  colon6 : ∀ text a, lib.pton6 text = some a → ':' ∈ text

namespace Addr

def isIPv4 : Addr → Bool
  | .in6 _ => false
  | .in4 _ => true

def SameEndpoint : Addr → Addr → Prop
  | .in6 a, .in6 b => a.sin6Addr = b.sin6Addr ∧ a.sin6Port = b.sin6Port
  | .in4 a, .in4 b => a.sinAddr = b.sinAddr ∧ a.sinPort = b.sinPort
  | _, _ => False

theorem fromString_text {lib : InetLib} {a : InAddr} {text : List Char}
    (hread : lib.pton4 text = some a) (hterm : '\x00' ∉ text) (port : UInt16) :
    fromString lib text (ntohs port)
      = (0, { sinFamily := afInet, sinPort := port, sinAddr := a }) := by
  rw [fromString, cStr_self hterm, hread]
  dsimp only
  rw [htons_ntohs]

theorem fromString6_text {lib : InetLib} {a : In6Addr} {text : List Char}
    (hread : lib.pton6 text = some a) (hterm : '\x00' ∉ text) (port : UInt16) :
    fromString6 lib text (ntohs port)
      = (0, { sin6Family := afInet6, sin6Port := port, sin6Addr := a }) := by
  rw [fromString6, cStr_self hterm, hread]
  dsimp only
  rw [htons_ntohs]

section Documented
variable {lib : InetLib} (h : lib.Documented)
include h

theorem fromString6_prefix {ip : List Char} (hcolon : ':' ∉ ip) (port : UInt16) :
    fromString6 lib ip port = (-1, { sin6Family := afInet6 }) := by
  have hnone : lib.pton6 (cStr ip) = none := by
    rw [Option.eq_none_iff_forall_not_mem]
    intro a ha
    have hmem := h.colon6 _ _ ha
    exact hcolon (List.takeWhile_subset _ hmem)
  rw [fromString6, hnone]

theorem ofIpPort_in4 (addr : SockaddrIn) :
    SameEndpoint (.in4 addr) (ofIpPort lib (toString lib (.in4 addr)) true) := by
  obtain ⟨text, hwrite, hread, hterm, hcolon⟩ := h.text4 addr.sinAddr
  rw [toString, hwrite]
  dsimp only
  rw [ofIpPort_first lib hcolon, if_pos rfl, port_decimal, fromString_text hread hterm]
  exact ⟨rfl, rfl⟩

theorem ofIpPort_in6 (addr6 : SockaddrIn6) :
    ofIpPort lib (toString lib (.in6 addr6)) false = .in6 { sin6Family := afInet6 } := by
  obtain ⟨text, hwrite, hread, -⟩ := h.text6 addr6.sin6Addr
  obtain ⟨ip, rest, rfl, hcolon⟩ := List.eq_append_cons_of_mem (h.colon6 _ _ hread)
  rw [toString, hwrite]
  dsimp only
  rw [List.append_assoc, List.cons_append, ofIpPort_first lib hcolon, fromString6_prefix h hcolon]
  rfl

/-- The constructor that gets them apart keeps address and port. -/
theorem ofIp_in6 (addr6 : SockaddrIn6) : ∃ buf y, lib.ntop6 addr6.sin6Addr = some buf ∧
    ofIp lib buf (ntohs addr6.sin6Port) false = some y ∧ SameEndpoint (.in6 addr6) y := by
  obtain ⟨text, hwrite, hread, hterm⟩ := h.text6 addr6.sin6Addr
  have hsome : ofIp lib text (ntohs addr6.sin6Port) false
      = some (.in6 (fromString6 lib text (ntohs addr6.sin6Port)).2) := rfl
  rw [fromString6_text hread hterm] at hsome
  exact ⟨text, _, hwrite, hsome, rfl, rfl⟩

theorem ofIpPort_toString_iff (x : Addr) :
    SameEndpoint x (ofIpPort lib (toString lib x) x.isIPv4)
      ↔ ∀ addr6, x = .in6 addr6 → addr6.sin6Addr = (fun _ => 0) ∧ addr6.sin6Port = 0 := by
  cases x with
  | in6 addr6 =>
    rw [isIPv4, ofIpPort_in6 h addr6]
    constructor
    · intro hsame addr6' heq
      cases heq
      exact hsame
    · intro hzero
      exact hzero addr6 rfl
  | in4 addr =>
    constructor
    · intro _ addr6 heq
      cases heq
    · intro _
      exact ofIpPort_in4 h addr

end Documented

/-! ### Addresses in full -/

/-- Four decimals, or eight groups in base 16, as `inet_ntop` writes them unless two zero groups
meet. -/
def fullLib : InetLib where
  pton4 := readGroups 10 '.'
  pton6 := readGroups 16 ':'
  ntop4 a := some (printGroups 10 '.' a)
  ntop6 a := some (printGroups 16 ':' a)

theorem not_mem_groups {k m base : ℕ} {sep c : Char} (hb : 1 < base) (hsep : c ≠ sep)
    (hc : ∀ d < base, c ≠ Nat.digitChar d) (a : Fin k → Fin m) : c ∉ printGroups base sep a := by
  intro hmem
  obtain heq | ⟨d, hd, heq⟩ := mem_printGroups hb hmem
  · exact hsep heq
  · exact hc d hd heq

theorem fullLib_documented : fullLib.Documented where
  text4 a := ⟨_, rfl, (readGroups_eq_some_iff (by decide) (by decide) (by decide)).mpr rfl,
    not_mem_groups (by decide) (by decide) (by decide) a,
    not_mem_groups (by decide) (by decide) (by decide) a⟩
  text6 a := ⟨_, rfl, (readGroups_eq_some_iff (by decide) (by decide) (by decide)).mpr rfl,
    not_mem_groups (by decide) (by decide) (by decide) a⟩
  colon6 text a hread := by
    rw [← (readGroups_eq_some_iff (by decide) (by decide) (by decide)).mp hread]
    exact sep_mem_printGroups (by decide) (by decide) (by decide)

/-- 2001:db8:1:2:3:4:5:6, port 8080. -/
def eightGroups : SockaddrIn6 where
  sin6Family := afInet6
  sin6Port := htons 8080
  sin6Addr := ![0x2001, 0xdb8, 1, 2, 3, 4, 5, 6]

example : toString fullLib (.in6 eightGroups) = "2001:db8:1:2:3:4:5:6:8080".toList := by decide

theorem ofIpPort_toString_iff_in4 :
    SameEndpoint (.in4 { sinFamily := afInet, sinPort := htons 8080, sinAddr := ![192, 168, 1, 7] })
        (ofIpPort fullLib (toString fullLib (.in4
          { sinFamily := afInet, sinPort := htons 8080, sinAddr := ![192, 168, 1, 7] })) true)
      ↔ ∀ addr6, Addr.in4
          { sinFamily := afInet, sinPort := htons 8080, sinAddr := ![192, 168, 1, 7] } = .in6 addr6 →
        addr6.sin6Addr = (fun _ => 0) ∧ addr6.sin6Port = 0 :=
  ofIpPort_toString_iff fullLib_documented
    (.in4 { sinFamily := afInet, sinPort := htons 8080, sinAddr := ![192, 168, 1, 7] })

/-- Neither address nor port comes back. -/
theorem eightGroups_lost : fullLib.Documented ∧
    ofIpPort fullLib (toString fullLib (.in6 eightGroups)) false = .in6 { sin6Family := afInet6 } ∧
    ¬ SameEndpoint (.in6 eightGroups)
      (ofIpPort fullLib (toString fullLib (.in6 eightGroups)) false) := by
  have hblank := ofIpPort_in6 fullLib_documented eightGroups
  refine ⟨fullLib_documented, hblank, ?_⟩
  rw [hblank]
  intro hsame
  exact absurd hsame.2 (by decide)

end Addr

end DeftRpc.Net
