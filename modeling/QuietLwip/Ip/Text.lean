import QuietLwip.Ip.Address

/-!
# Addresses in numbers and dots

`ipaddr_aton` and `ipaddr_addr` of `ip_addr.c`. A string is the list of its characters in front of the
NUL.
-/

namespace QuietLwip.Ip

def inRange (c lo up : UInt8) : Bool := lo ≤ c ∧ c ≤ up

def isdigit (c : UInt8) : Bool := inRange c 0x30 0x39
def isxdigit (c : UInt8) : Bool := isdigit c || inRange c 0x61 0x66 || inRange c 0x41 0x46
def islower (c : UInt8) : Bool := inRange c 0x61 0x7a

/-- Blank, form feed, newline, carriage return, tab or vertical tab. -/
def isspace (c : UInt8) : Bool := c == 0x20 || inRange c 0x09 0x0d

/-- `IPADDR_NONE`. -/
def IPADDR_NONE : IpAddr := 0xffffffff#32

/-- `c - '0'`, or the value of a hexadecimal digit. -/
def digit (c : UInt8) : ℕ :=
  if isdigit c then c.toNat - 0x30 else c.toNat + 10 - (if islower c then 0x61 else 0x41)

/-- The digits of a number in the base, after `val`, and the rest of the string. -/
def collectDigits (base : ℕ) (val : BitVec 32) : List UInt8 → BitVec 32 × List UInt8
  | [] => (val, [])
  | c :: cp =>
    if isdigit c ∨ base = 16 ∧ isxdigit c then
      collectDigits base (val * .ofNat 32 base + .ofNat 32 (digit c)) cp
    else (val, c :: cp)

/-- A number as in C: `0x` for hexadecimal, `0` for octal. -/
def collectNumber : List UInt8 → Option (BitVec 32 × List UInt8)
  | [] => none
  | c :: cp =>
    if !isdigit c then none
    else if c = 0x30 then
      match cp with
      | x :: cp' => if x = 0x78 ∨ x = 0x58 then some (collectDigits 16 0 cp')
        else some (collectDigits 8 0 cp)
      | [] => some (0, [])
    else some (collectDigits 10 0 (c :: cp))

/-- The numbers in front of the last dot, at most `k` of them, and the number behind it. -/
def collectParts : ℕ → List UInt8 → Option (List (BitVec 32) × BitVec 32 × List UInt8)
  | k, cp =>
    match collectNumber cp, k with
    | none, _ => none
    | some (val, cp), 0 => if cp.head? = some 0x2e then none else some ([], val, cp)
    | some (val, cp), k + 1 =>
      if cp.head? = some 0x2e then
        (collectParts k (cp.drop 1)).map fun (parts, last, cp) => (val :: parts, last, cp)
      else some ([], val, cp)

/-- `ipaddr_aton`. -/
def ipaddrAton (cp : List UInt8) : Option IpAddr := do
  let (parts, val, cp) ← collectParts 3 cp
  if cp.head?.any (!isspace ·) then none
  else match parts with
    | [] => some val
    | [a] => if 0xffffff#32 < val then none else some (val ||| a <<< 24)
    | [a, b] => if 0xffff#32 < val then none else some (val ||| (a <<< 24 ||| b <<< 16))
    | a :: b :: c :: _ =>
      if 0xff#32 < val then none else some (val ||| (a <<< 24 ||| b <<< 16 ||| c <<< 8))

/-- `ipaddr_addr`. -/
def ipaddrAddr (cp : List UInt8) : IpAddr := (ipaddrAton cp).getD IPADDR_NONE

/-- "1.2" -/
example : ipaddrAddr [0x31, 0x2e, 0x32] = 0x01000002#32 := by decide

end QuietLwip.Ip
