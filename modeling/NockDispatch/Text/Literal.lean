/-!
# Atom literals

A decimal literal consists of runs of decimal digits, separated by single dots that mean
nothing. A hexadecimal literal begins with `0x`; after that dots mean nothing and may stand
anywhere, a plus sign may come first, and from the second digit on there may be underscores,
which mean nothing either.
-/

namespace NockDispatch.Text

def decimalDigit? (c : Char) : Option Nat :=
  if '0' ≤ c ∧ c ≤ '9' then some (c.toNat - '0'.toNat) else none

def hexDigit? (c : Char) : Option Nat :=
  if '0' ≤ c ∧ c ≤ '9' then some (c.toNat - '0'.toNat)
  else if 'a' ≤ c ∧ c ≤ 'f' then some (c.toNat - 'a'.toNat + 10)
  else if 'A' ≤ c ∧ c ≤ 'F' then some (c.toNat - 'A'.toNat + 10)
  else none

namespace Decimal

/-- Digits from the first on, in groups between single dots. `value` is that of the digits so
far, and `inGroup` says that the last character was one of them. -/
def groups (value : Nat) (inGroup : Bool) : List Char → Option Nat
  | [] => if inGroup then some value else none
  | c :: rest =>
    if c = '.' then
      if inGroup then groups value false rest else none
    else
      match decimalDigit? c with
      | some digit => groups (10 * value + digit) true rest
      | none => none

def digits (value : Nat) : List Char → Option Nat
  | [] => some value
  | c :: rest =>
    match decimalDigit? c with
    | some digit => digits (10 * value + digit) rest
    | none => none

/-- One or more digits, behind a plus sign or not. -/
def number? (text : List Char) : Option Nat :=
  match text with
  | [] => none
  | ['+'] => none
  | '+' :: rest => digits 0 rest
  | text => digits 0 text

end Decimal

namespace Hexadecimal

def digits (value : Nat) : List Char → Option Nat
  | [] => some value
  | c :: rest =>
    if c = '_' then digits value rest
    else
      match hexDigit? c with
      | some digit => digits (16 * value + digit) rest
      | none => none

/-- A digit, and more of them among underscores. -/
def number? : List Char → Option Nat
  | [] => none
  | c :: rest =>
    match hexDigit? c with
    | some digit => digits digit rest
    | none => none

/-- What follows `0x`, without its dots. This is an assumption: it stands for the way in which a
library of large numbers, which is not part of the program, parses a number in base 16. -/
def unsigned? : List Char → Option Nat
  | '+' :: rest => number? rest
  | text => number? text

end Hexadecimal

def literal? (word : String) : Option Nat :=
  match word.toList with
  | '0' :: 'x' :: rest => Hexadecimal.unsigned? (rest.filter (· != '.'))
  | text => Decimal.groups 0 false text

end NockDispatch.Text
