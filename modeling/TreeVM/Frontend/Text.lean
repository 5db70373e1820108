import Mathlib.Algebra.Group.Int.Defs
import Mathlib.Algebra.Group.Nat.Defs
import Mathlib.Data.List.Basic

/-!
# Source text

The tokens of `frontend.c`.

* `Text`: the bytes from a pointer up to the end of the source; a zero byte ends it, too;
* `whitespaceLen`, `scanToken`: `frontend_whitespace_len` and the scanner of `next_token`;
* `strtoll`: decimal numbers, as the C library reads them.
-/

namespace TreeVM

abbrev Text := List UInt8

def byteAt (p : Text) (k : Nat) : UInt8 :=
  p.getD k 0

/-- `frontend_whitespace_len` -/
def whitespaceLen (p : Text) : Nat :=
  let b := byteAt p
  if b 0 = 0x20 ∨ (0x09 ≤ b 0 ∧ b 0 ≤ 0x0d) then 1
  else if b 0 = 0xc2 ∧ (b 1 = 0x85 ∨ b 1 = 0xa0) then 2
  else if b 0 = 0xe1 ∧ b 1 = 0x9a ∧ b 2 = 0x80 then 3
  else if b 0 = 0xe2 ∧ b 1 = 0x80 ∧
      ((0x80 ≤ b 2 ∧ b 2 ≤ 0x8a) ∨ b 2 = 0xa8 ∨ b 2 = 0xa9 ∨ b 2 = 0xaf) then 3
  else if b 0 = 0xe2 ∧ b 1 = 0x81 ∧ b 2 = 0x9f then 3
  else if b 0 = 0xe3 ∧ b 1 = 0x80 ∧ b 2 = 0x80 then 3
  else 0

/-- The loop of `next_token` over whitespace; a round for each byte is enough. -/
def skipWhitespace : Nat → Text → Text
  | 0, p => p
  | rounds + 1, p => if whitespaceLen p = 0 then p else skipWhitespace rounds (p.drop (whitespaceLen p))

def isOpening (b : UInt8) : Bool :=
  b = 0x28

def isClosing (b : UInt8) : Bool :=
  b = 0x29

/-- The bytes up to whitespace, a parenthesis or the end. -/
def wordLen : Text → Nat
  | [] => 0
  | b :: rest =>
      if b = 0 ∨ whitespaceLen (b :: rest) ≠ 0 ∨ isOpening b ∨ isClosing b then 0
      else wordLen rest + 1

/-- `FrontendName`: the source from the token on, and its length. -/
structure Token where
  data : Text
  len : Nat
  deriving DecidableEq, Repr

namespace Token

def bytes (t : Token) : Text :=
  t.data.take t.len

/-- A parenthesis on its own. -/
def isParen (t : Token) : Bool :=
  t.len = 1 && (isOpening (byteAt t.data 0) || isClosing (byteAt t.data 0))

end Token

/-- The token and the place of the cursor behind it. -/
def scanToken (cursor : Text) : Option (Token × Text) :=
  let p := skipWhitespace cursor.length cursor
  let b := byteAt p 0
  if b = 0 then none
  else
    let len := if isOpening b ∨ isClosing b then 1 else wordLen p
    some (⟨p, len⟩, p.drop len)

/-! ## Numbers -/

def isDigit (b : UInt8) : Bool :=
  0x30 ≤ b && b ≤ 0x39

/-- The value of the digits so far, and how many there are. -/
def readDigits : Text → Nat × Nat → Nat × Nat
  | [], acc => acc
  | b :: rest, (value, count) =>
      if isDigit b then readDigits rest (value * 10 + (b.toNat - 0x30), count + 1)
      else (value, count)

/-- `value`, clamped, with the bytes that were read and `errno = ERANGE`. -/
structure Number where
  value : Int
  len : Nat
  range : Bool
  deriving DecidableEq, Repr

/-- `strtoll` with base 10, on a text that does not begin with whitespace -/
def strtoll (p : Text) : Number :=
  let negative := byteAt p 0 = 0x2d
  let signed := byteAt p 0 = 0x2d ∨ byteAt p 0 = 0x2b
  let sign := if signed then 1 else 0
  let (magnitude, count) := readDigits (p.drop sign) (0, 0)
  let value : Int := if negative then -(magnitude : Int) else magnitude
  if count = 0 then ⟨0, 0, false⟩
  else if value < -(2 ^ 63) then ⟨-(2 ^ 63), sign + count, true⟩
  else if 2 ^ 63 - 1 < value then ⟨2 ^ 63 - 1, sign + count, true⟩
  else ⟨value, sign + count, false⟩

end TreeVM
