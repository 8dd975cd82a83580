import LenientJson.Number.Integer

/-! Calendar dates and their written forms. -/
namespace LenientJson

structure Date where
  year : Nat
  month : Nat
  day : Nat
deriving DecidableEq

namespace Date

private def digitsOf (width n : Nat) : Text :=
  let digits := decimalText n
  List.replicate (width - digits.length) Symbol.zero ++ digits

def text (d : Date) : Text :=
  digitsOf 4 d.year ++ [Symbol.minus] ++ digitsOf 2 d.month ++ [Symbol.minus] ++ digitsOf 2 d.day

def literal (d : Date) : Text :=
  let parts := [d.year, d.month, d.day].map decimalText
  Text.ofString "datetime.date(" ++ Text.joinWith (Text.ofString ", ") parts ++ [Symbol.rightParen]

def read? (t : Text) : Option Date :=
  match (t.splitOn Symbol.minus).map (readDigits 10 decimalValue? false 0) with
  | [some year, some month, some day] => some { year, month, day }
  | _ => none

end Date
end LenientJson
