/-
SearchQuery/Json/Number.lean

Numbers as JSON writes them.

A number is kept as it was written.  Nothing here reckons with numbers, and
a text keeps what no type of numbers of one size could: `1e400` is as good
as `1`.
-/
namespace SearchQuery.Json

/-! ### The grammar -/

/-- One digit or more, and nothing else. -/
def isDigits : List Char → Bool
  | [] => false
  | d :: ds => d.isDigit && ds.all Char.isDigit

/-- An exponent, or nothing at all. -/
def isExponent : List Char → Bool
  | [] => true
  | e :: rest =>
    (e == 'e' || e == 'E') &&
      match rest with
      | '+' :: ds | '-' :: ds => isDigits ds
      | ds => isDigits ds

/-- A point and digits, or neither; then an exponent or none. -/
def isFraction : List Char → Bool
  | '.' :: d :: rest => d.isDigit && isExponent (rest.dropWhile Char.isDigit)
  | rest => isExponent rest

/-- A zero, or digits that begin with another; then a fraction or none. -/
def isUnsigned : List Char → Bool
  | '0' :: rest => isFraction rest
  | d :: rest => d.isDigit && isFraction (rest.dropWhile Char.isDigit)
  | [] => false

/-- A number: a minus sign or none, digits, a fraction, an exponent. -/
def isNumber : List Char → Bool
  | '-' :: rest => isUnsigned rest
  | rest => isUnsigned rest

/-! ### Numbers -/

/-- A number in its written form. -/
structure Number where
  written : List Char
  isNumber_written : isNumber written = true
  deriving DecidableEq

end SearchQuery.Json
