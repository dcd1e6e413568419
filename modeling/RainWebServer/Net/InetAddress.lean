import Mathlib.Data.List.TakeWhile
import RainWebServer.Net.TcpServer

/-!
# InetAddress: Text and Back

Embeds the constructor of `src/net/InetAddress.cc` that takes a text, and `toPort`. `toIp` and
`toIpPort` are in `TcpServer`.

The constructor hands its text to `inet_addr`, which reads more than `inet_ntop` writes: a number
that starts with `0` is octal and one that starts with `0x` is hexadecimal, an address may have
fewer than four numbers, and what follows a blank is ignored. A text that is none of this gives
`INADDR_NONE`, which is also the address `255.255.255.255`.

## Main result

`inetAddress_round_trip` : an address is read back from the text that `toIp` writes, and no two
addresses have the same `toIpPort`
-/

namespace RainWebServer.Net

/-! ## §1 `inet_addr` -/

/-- `isspace`. -/
def isSpace (c : Char) : Bool := c = ' ' || ('\t' ≤ c && c ≤ '\r')

/-- The value of a digit in a base of at most 16. -/
def digitValue (base : Nat) (c : Char) : Option Nat :=
  let value :=
    if c.isDigit then c.toNat - 48
    else if 'a' ≤ c ∧ c ≤ 'f' then c.toNat - 87
    else if 'A' ≤ c ∧ c ≤ 'F' then c.toNat - 55
    else base
  if value < base then some value else none

/-- The number that the digits write. -/
def readDigits (base : Nat) (cs : List Char) : Option Nat :=
  cs.foldlM (fun n c => (digitValue base c).map fun d => base * n + d) 0

/-- One number of an address, as `strtoul` reads it in base 0. -/
def readNumber : List Char → Option Nat
  | [] => none
  | '0' :: c :: cs =>
    if c = 'x' ∨ c = 'X' then if cs.isEmpty then none else readDigits 16 cs
    else readDigits 8 (c :: cs)
  | cs => readDigits 10 cs

/-- The numbers put together: the last one fills all the bytes that are left. -/
def joinNumbers : List Nat → Option Nat
  | [a] => if a < 2 ^ 32 then some a else none
  | [a, b] => if a < 256 ∧ b < 2 ^ 24 then some (a * 2 ^ 24 + b) else none
  | [a, b, c] => if a < 256 ∧ b < 256 ∧ c < 2 ^ 16 then some (a * 2 ^ 24 + b * 2 ^ 16 + c) else none
  | [a, b, c, d] =>
    if a < 256 ∧ b < 256 ∧ c < 256 ∧ d < 256 then
      some (a * 2 ^ 24 + b * 2 ^ 16 + c * 2 ^ 8 + d)
    else none
  | _ => none

def INADDR_NONE : Nat := 2 ^ 32 - 1

/-- The bytes in network order. -/
def networkBytes (addr : Nat) : UInt8 × UInt8 × UInt8 × UInt8 :=
  (.ofNat (addr / 2 ^ 24), .ofNat (addr / 2 ^ 16), .ofNat (addr / 2 ^ 8), .ofNat addr)

/-- `inet_addr`, on the characters before the first null or blank. -/
def inet_addr (cp : String) : UInt8 × UInt8 × UInt8 × UInt8 :=
  let text := cp.toList.takeWhile fun c => c ≠ '\x00' && !isSpace c
  networkBytes ((((text.splitOn '.').mapM readNumber).bind joinNumbers).getD INADDR_NONE)

namespace InetAddress

/-- The constructor `InetAddress(port, ip)`. -/
def new (port : UInt16) (ip : String) : InetAddress := ⟨inet_addr ip, port⟩

/-- `toPort`. -/
def toPort (addr : InetAddress) : UInt16 := addr.sin_port

/-! ## §2 Numbers of one byte -/

/-- A byte is read back from its numeral. The numeral of a number other than 0 does not start with
    `0`, so that it is not taken for an octal one. -/
theorem readNumber_byte : ∀ n < 256, readNumber (Nat.toDigits 10 n) = some n := by decide +kernel

/-- The four bytes are read back from their 32 bits. -/
theorem networkBytes_join (a b c d : UInt8) :
    networkBytes (a.toNat * 2 ^ 24 + b.toNat * 2 ^ 16 + c.toNat * 2 ^ 8 + d.toNat) =
      (a, b, c, d) := by
  have ha := a.toNat_lt
  have hb := b.toNat_lt
  have hc := c.toNat_lt
  have hd := d.toNat_lt
  simp only [networkBytes, Prod.mk.injEq, ← UInt8.toNat_inj, UInt8.toNat_ofNat']
  omega

/-- A digit is no dot, no colon, no null and no blank. -/
theorem digit_plain {c : Char} (hc : c.isDigit = true) :
    c ≠ '.' ∧ c ≠ ':' ∧ c ≠ '\x00' ∧ isSpace c = false := by
  have hlow : '0' ≤ c := by
    simp only [Char.isDigit, Bool.and_eq_true, decide_eq_true_eq] at hc
    exact hc.1
  have hne : ∀ x : Char, ¬ '0' ≤ x → c ≠ x := by
    rintro x hx rfl
    exact hx hlow
  refine ⟨hne _ (by decide), ?_, hne _ (by decide), ?_⟩
  · rintro rfl
    cases hc
  · -- the blanks come before the digits
    have hblank : ¬c ≤ '\r' := fun hle => absurd (Char.le_trans hlow hle) (by decide)
    simp [isSpace, hne ' ' (by decide), hblank]

/-! ## §3 The round trip -/

/-- The numerals that `toIp` writes. -/
def numerals (addr : InetAddress) : List (List Char) :=
  [Nat.toDigits 10 addr.sin_addr.1.toNat, Nat.toDigits 10 addr.sin_addr.2.1.toNat,
    Nat.toDigits 10 addr.sin_addr.2.2.1.toNat, Nat.toDigits 10 addr.sin_addr.2.2.2.toNat]

theorem digit_of_mem_numerals {addr : InetAddress} {ds : List Char} (hds : ds ∈ addr.numerals)
    {c : Char} (hc : c ∈ ds) : c.isDigit = true := by
  simp only [numerals, List.mem_cons, List.not_mem_nil, or_false] at hds
  rcases hds with rfl | rfl | rfl | rfl <;>
    exact Nat.isDigit_of_mem_toDigits (by decide) (by decide) hc

/-- `toIp` puts a dot between two numerals. -/
theorem toList_toIp (addr : InetAddress) : addr.toIp.toList = ['.'].intercalate addr.numerals := by
  obtain ⟨⟨a, b, c, d⟩, port⟩ := addr
  simp [InetAddress.toIp, numerals, List.intercalate]

/-- `toIp` writes digits and dots. -/
theorem mem_toIp {addr : InetAddress} {c : Char} (hc : c ∈ addr.toIp.toList) :
    c.isDigit = true ∨ c = '.' := by
  rw [toList_toIp] at hc
  have hc' : (∃ ds ∈ addr.numerals, c ∈ ds) ∨ c = '.' := by
    simp only [numerals, List.intercalate, List.intersperse, List.flatten_cons, List.flatten_nil,
      List.mem_append, List.mem_cons, List.not_mem_nil, or_false] at hc ⊢
    simp only [exists_eq_or_imp, exists_eq_left]
    tauto
  exact hc'.imp_left fun ⟨_, hds, hmem⟩ => digit_of_mem_numerals hds hmem

/-- The dots are where `toIp` has put them. -/
theorem splitOn_toIp (addr : InetAddress) : addr.toIp.toList.splitOn '.' = addr.numerals := by
  rw [toList_toIp]
  refine List.splitOn_intercalate '.' (fun ds hds hdot => ?_) (List.cons_ne_nil _ _)
  exact (digit_plain (digit_of_mem_numerals hds hdot)).1 rfl

/-- `inet_addr` reads what `inet_ntop` has written. -/
theorem inet_addr_toIp (addr : InetAddress) : inet_addr addr.toIp = addr.sin_addr := by
  have htext : (addr.toIp.toList.takeWhile fun c => c ≠ '\x00' && !isSpace c) =
      addr.toIp.toList := by
    rw [List.takeWhile_eq_self_iff]
    intro c hc
    rcases mem_toIp hc with hdigit | rfl
    · obtain ⟨-, -, hnull, hspace⟩ := digit_plain hdigit
      simp [hnull, hspace]
    · rfl
  have hread : ∀ a : UInt8, readNumber (Nat.toDigits 10 a.toNat) = some a.toNat :=
    fun a => readNumber_byte _ a.toNat_lt
  have hbyte : ∀ a : UInt8, a.toNat < 256 := fun a => a.toNat_lt
  simp only [inet_addr, htext, splitOn_toIp, numerals, List.mapM_cons, List.mapM_nil, hread,
    Option.pure_def, Option.bind_eq_bind, Option.bind_some, joinNumbers, hbyte, and_self, if_true,
    Option.getD_some]
  exact networkBytes_join ..

/-- The colon is the one before the port. -/
theorem toIp_inj_of_toIpPort {addr addr' : InetAddress} (h : addr.toIpPort = addr'.toIpPort) :
    addr.toIp = addr'.toIp ∧ addr.sin_port = addr'.sin_port := by
  have hcolon : ∀ addr : InetAddress, addr.toIpPort.toList.splitOn ':' =
      [addr.toIp.toList, Nat.toDigits 10 addr.sin_port.toNat] := by
    intro addr
    have hlist : addr.toIpPort.toList =
        [':'].intercalate [addr.toIp.toList, Nat.toDigits 10 addr.sin_port.toNat] := by
      simp [toIpPort, List.intercalate]
    rw [hlist]
    refine List.splitOn_intercalate ':' (fun ds hds hmem => ?_) (List.cons_ne_nil _ _)
    simp only [List.mem_cons, List.not_mem_nil, or_false] at hds
    rcases hds with rfl | rfl
    · rcases mem_toIp hmem with hdigit | hdot
      · exact (digit_plain hdigit).2.1 rfl
      · exact absurd hdot (by decide)
    · exact (digit_plain (Nat.isDigit_of_mem_toDigits (by decide) (by decide) hmem)).2.1 rfl
  have hsplit := hcolon addr
  rw [h, hcolon addr', List.cons.injEq, List.cons.injEq] at hsplit
  refine ⟨String.toList_inj.mp hsplit.1.symm, UInt16.toNat_inj.mp ?_⟩
  -- a number is read back from its digits
  rw [← Nat.ofDigitChars_ten_toDigits (n := addr.sin_port.toNat), ← hsplit.2.1,
    Nat.ofDigitChars_ten_toDigits]

/-- **An address survives its text.** The constructor makes every address from the text that `toIp`
    writes and the port; and two addresses have the same `toIpPort` only if they are the same. -/
theorem inetAddress_round_trip (addr : InetAddress) :
    InetAddress.new addr.toPort addr.toIp = addr ∧
      ∀ addr' : InetAddress, addr'.toIpPort = addr.toIpPort → addr' = addr := by
  refine ⟨?_, fun addr' h => ?_⟩
  · rw [InetAddress.new, inet_addr_toIp]
    rfl
  · obtain ⟨hip, hport⟩ := toIp_inj_of_toIpPort h
    have haddr := inet_addr_toIp addr'
    rw [hip, inet_addr_toIp] at haddr
    cases addr
    cases addr'
    simp only [InetAddress.mk.injEq]
    exact ⟨haddr.symm, hport⟩

/-- What else is read: octal and hexadecimal numbers, addresses of fewer numbers, and texts that
    are no address. -/
example : inet_addr "010.0x10.258" = (8, 16, 1, 2) ∧ inet_addr "127.1 and more" = (127, 0, 0, 1) ∧
    inet_addr "localhost" = (255, 255, 255, 255) ∧
    inet_addr "1.2.3.256" = (255, 255, 255, 255) := by
  decide +kernel

end InetAddress

end RainWebServer.Net
