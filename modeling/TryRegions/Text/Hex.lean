/-! Hexadecimal text of integers: a minus sign where the number is negative, then lower-case
digits of its size, filled with zeros on the left. -/

namespace TryRegions.Text

/-- The digits of `n` to base 16. -/
def hexDigits (n : Nat) : String := String.ofList (Nat.toDigits 16 n)

/-- The text of `n`, filled with zeros to `width` characters, the sign included. -/
def hexPadded (width : Nat) (n : Int) : String :=
  let sign := if n < 0 then "-" else ""
  let digits := hexDigits n.natAbs
  sign ++ String.ofList (List.replicate (width - (sign.length + digits.length)) '0') ++ digits

def hex (n : Int) : String := hexPadded 0 n

/-- The texts with `sep` between them. -/
def joined (sep : String) (texts : List String) : String := sep.intercalate texts

end TryRegions.Text
