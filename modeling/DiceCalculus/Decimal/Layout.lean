import DiceCalculus.Decimal.Shortest

set_option autoImplicit false
set_option relaxedAutoImplicit false

/-!
# Decimal text of doubles

How the shortest decimal of a double is written down: with or without a power of ten, and with or
without a point.

## Main definitions

* `Decimal.Layout` — the decisions of a format.
* `Decimal.Layout.write` — the text of a double in a format.
* `Decimal.Layout.plain` — the format of masses: digits only, as many zeros as it takes.
* `Decimal.Layout.marked` — the format of the reals among the numbers. Its texts are never those
  of an integer: they have a point or a power of ten.
-/

namespace DiceCalculus

namespace Decimal

/-- The decisions of a format for doubles. -/
structure Layout where
  /-- Whether a whole number gets the ending `.0`. -/
  markWhole : Bool
  /-- The least and the greatest number of digits before the point with which a decimal is
  written out; beyond them it is written with a power of ten. -/
  writtenOut : Option (Int × Int)

namespace Layout

/-- The format of masses. -/
def plain : Layout := ⟨false, none⟩

/-- The format of the reals among the numbers: written out from `0.0001` to below `10 ^ 16`. -/
def marked : Layout := ⟨true, some (-3, 16)⟩

/-- A decimal written out. -/
def positional (format : Layout) (d : Decimal) : String :=
  let whole := if format.markWhole then ".0" else ""
  let zeros (n : Int) := List.replicate n.toNat '0'
  if d.point ≤ 0 then "0." ++ String.ofList (zeros (-d.point) ++ d.digits)
  else if d.digits.length ≤ d.point then
    String.ofList (d.digits ++ zeros (d.point - d.digits.length)) ++ whole
  else
    String.ofList (d.digits.take d.point.toNat) ++ "." ++ String.ofList (d.digits.drop d.point.toNat)

/-- A decimal written with one digit before the point and a power of ten. -/
def scientific (d : Decimal) : String :=
  let fraction := if d.digits.length ≤ 1 then "" else "." ++ String.ofList (d.digits.drop 1)
  String.ofList (d.digits.take 1) ++ fraction ++ "e" ++ toString (d.point - 1)

/-- The text of a positive magnitude. -/
def magnitude (format : Layout) (b : Binary) : String :=
  let d := b.shortest
  match format.writtenOut with
  | none => format.positional d
  | some (least, greatest) =>
    if least ≤ d.point ∧ d.point ≤ greatest then format.positional d else scientific d

/-- The text of a double. -/
def write (format : Layout) (x : Float) : String :=
  let bits := x.toBits
  let sign := if bits < 0x8000000000000000 then "" else "-"
  if x.isNaN then "NaN"
  else if x.isInf then sign ++ "inf"
  else if x == 0.0 then sign ++ if format.markWhole then "0.0" else "0"
  else sign ++ format.magnitude (.ofBits bits.toNat)

end Layout

end Decimal

end DiceCalculus
