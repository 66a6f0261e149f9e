/-
This file models the text functions the programs take from the C library, the
C++ library and libhv's `hstring` and `hbase`, over byte strings: reading lines,
trimming, searching, and reading numbers and switches.
-/
import Mathlib.Data.List.DropRight
import Netmt.Lib.CMem

namespace Netmt

open CMem

/-- The bytes of an ASCII text, without a terminator. -/
def text (characters : String) : List UInt8 := characters.toList.map Char.toUInt8

/-- `LF`. -/
def LF : UInt8 := 10

/-- `CR`. -/
def CR : UInt8 := 13

/-! ### Lines and blanks -/

/-- `std::getline` until it fails: a last line needs no line end. -/
def getlines : List UInt8 → List (List UInt8)
  | [] => []
  | byte :: rest =>
    if byte = LF then [] :: getlines rest
    else
      match getlines rest with
      | [] => [[byte]]
      | line :: lines => (byte :: line) :: lines

/-- `SPACE_CHARS`. -/
def spaceChars : List UInt8 := text " \t\r\n"

/-- `trimL`. -/
def trimL (str : List UInt8) : List UInt8 := str.dropWhile (· ∈ spaceChars)

/-- `trimR`. -/
def trimR (str : List UInt8) : List UInt8 := str.rdropWhile (· ∈ spaceChars)

/-- `trim`. -/
def trim (str : List UInt8) : List UInt8 := trimR (trimL str)

/-- `strrchr`: the index of the last occurrence. -/
def strrchr (byte : UInt8) : List UInt8 → Option Nat
  | [] => none
  | first :: rest =>
    match strrchr byte rest with
    | some index => some (index + 1)
    | none => if first = byte then some 0 else none

/-! ### Numbers -/

/-- `isspace`. -/
def isSpace (byte : UInt8) : Bool := byte = 32 ∨ 9 ≤ byte ∧ byte ≤ 13

/-- `isdigit`. -/
def isDigit (byte : UInt8) : Bool := 48 ≤ byte ∧ byte ≤ 57

/-- The number that the digits a string starts with continue. -/
def readDigits (read : Nat) : List UInt8 → Nat
  | [] => read
  | byte :: rest => if isDigit byte then readDigits (10 * read + (byte.toNat - 48)) rest else read

/-- `strtol(str, NULL, 10)`, which saturates. -/
def strtol (str : List UInt8) : Int :=
  match str.dropWhile (isSpace ·) with
  | [] => 0
  | sign :: rest =>
    if sign = 45 then max (-2 ^ 63) (-(readDigits 0 rest))
    else if sign = 43 then min (2 ^ 63 - 1) (readDigits 0 rest)
    else min (2 ^ 63 - 1) (readDigits 0 (sign :: rest))

/-- `atoi`, which is `(int)strtol`. -/
def atoi (str : List UInt8) : Int := toInt32 (strtol str)

example : atoi (text " -12x") = -12 := by decide

/-- `LIMIT`. -/
def limit (lower value upper : Int) : Int :=
  if value < lower then lower else if value > upper then upper else value

/-! ### Switches -/

/-- `tolower`. -/
def toLower (byte : UInt8) : UInt8 := if 65 ≤ byte ∧ byte ≤ 90 then byte + 32 else byte

/-- `stricmp(str, word) == 0`. -/
def stricmpEq (str word : List UInt8) : Bool := str.map toLower = word.map toLower

/-- `getboolean`. -/
def getboolean (str : List UInt8) : Bool :=
  match str.length with
  | 1 => str = text "1" ∨ str = text "y" ∨ str = text "Y"
  | 2 => stricmpEq str (text "on")
  | 3 => stricmpEq str (text "yes")
  | 4 => stricmpEq str (text "true")
  | 6 => stricmpEq str (text "enable")
  | _ => false

end Netmt
