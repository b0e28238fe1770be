/- Hexadecimal digits of either case. -/
namespace LockDiscipline.Text

/-- The value of a hexadecimal digit. -/
def hexDigit? (c : Char) : Option Nat :=
  if c.isDigit then some (c.toNat - '0'.toNat)
  else if 'a' ≤ c ∧ c ≤ 'f' then some (c.toNat - 'a'.toNat + 10)
  else if 'A' ≤ c ∧ c ≤ 'F' then some (c.toNat - 'A'.toNat + 10)
  else none

/-- The value of a run of hexadecimal digits behind `lead`. -/
def hexValue? (lead : Nat) : List Char → Option Nat
  | [] => some lead
  | c :: rest =>
    match hexDigit? c with
    | none => none
    | some d => hexValue? (16 * lead + d) rest

end LockDiscipline.Text
