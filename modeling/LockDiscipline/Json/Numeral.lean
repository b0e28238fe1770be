/- Numbers as a JSON text writes them. A numeral keeps what was written: `1`,
   `1.0` and `1e0` are three numerals, and only the first is a count. The
   second half of the module decides which numerals a double-precision number
   can hold. -/
namespace LockDiscipline.Json

/-- A number as written: sign, digits before the point, digits after it (none
    when there is no point) and the exponent, if there is one. -/
structure Numeral where
  negative : Bool
  whole : Nat
  fraction : List Char
  exponent : Option Int
deriving Repr, DecidableEq

namespace Numeral

/-- The numeral of a natural number: its digits and nothing else. -/
def ofNat (n : Nat) : Numeral := ⟨false, n, [], none⟩

/-- The natural number that a bare digit run denotes. -/
def toNat? : Numeral → Option Nat
  | ⟨false, n, [], none⟩ => some n
  | _ => none

theorem toNat?_ofNat (n : Nat) : (ofNat n).toNat? = some n := rfl

/-- The numbers below 2^32, which serve as ids, lines and columns. -/
def wordLimit : Nat := 4294967296

/-- The id, line or column that a numeral denotes. -/
def toWord? (n : Numeral) : Option Nat :=
  n.toNat?.filter (· < wordLimit)

/-! ## Reading digits -/

/-- The value of a run of decimal digits. -/
def digitsValue (ds : List Char) : Nat := Nat.ofDigitChars 10 ds 0

/-- The leading digits of a text, and what follows them. -/
def digits (cs : List Char) : List Char × List Char :=
  (cs.takeWhile Char.isDigit, cs.dropWhile Char.isDigit)

/-- The digits before the point: one zero, or digits that start with another. -/
def scanWhole? (cs : List Char) : Option (Nat × List Char) :=
  match digits cs with
  | ([], _) => none
  | ('0' :: _ :: _, _) => none
  | (ds, rest) => some (digitsValue ds, rest)

/-- The point and at least one digit after it, or nothing. -/
def scanFraction? : List Char → Option (List Char × List Char)
  | '.' :: rest =>
    match digits rest with
    | ([], _) => none
    | (ds, rest) => some (ds, rest)
  | rest => some ([], rest)

/-- The digits of an exponent, at least one, under the sign `negative`. -/
def scanPower? (negative : Bool) (cs : List Char) : Option (Option Int × List Char) :=
  match digits cs with
  | ([], _) => none
  | (ds, rest) =>
    let power : Int := digitsValue ds
    some (some (if negative then -power else power), rest)

/-- The exponent with its optional sign, or nothing. -/
def scanExponent? : List Char → Option (Option Int × List Char)
  | 'e' :: '-' :: rest | 'E' :: '-' :: rest => scanPower? true rest
  | 'e' :: '+' :: rest | 'E' :: '+' :: rest => scanPower? false rest
  | 'e' :: rest | 'E' :: rest => scanPower? false rest
  | rest => some (none, rest)

/-- The numeral at the start of a text, its minus sign already read. -/
def scan? (negative : Bool) (cs : List Char) : Option (Numeral × List Char) := do
  let (whole, cs) ← scanWhole? cs
  let (fraction, cs) ← scanFraction? cs
  let (exponent, cs) ← scanExponent? cs
  return (⟨negative, whole, fraction, exponent⟩, cs)

theorem digits_length (cs : List Char) : (digits cs).2.length ≤ cs.length := by
  simpa [digits] using (List.dropWhile_suffix Char.isDigit).length_le

theorem length_digits (cs : List Char) :
    (digits cs).1.length + (digits cs).2.length = cs.length := by
  rw [← List.length_append, digits, List.takeWhile_append_dropWhile]

theorem scanWhole?_length {cs r : List Char} {n : Nat} (h : scanWhole? cs = some (n, r)) :
    r.length < cs.length := by
  have hd := length_digits cs
  unfold scanWhole? at h
  split at h
  · simp at h
  · simp at h
  · rename_i ds rest hne _ he
    have hpos := List.length_pos_iff.2 hne
    obtain ⟨_, rfl⟩ := Prod.mk.inj (Option.some.inj h)
    rw [he] at hd
    simp only at hd
    omega

theorem scanFraction?_length {cs ds r : List Char} (h : scanFraction? cs = some (ds, r)) :
    r.length ≤ cs.length := by
  unfold scanFraction? at h
  split at h
  · rename_i rest
    have hd := digits_length rest
    split at h
    · simp at h
    · simp_all
      omega
  · simp_all

theorem scanPower?_length {neg : Bool} {cs r : List Char} {e : Option Int}
    (h : scanPower? neg cs = some (e, r)) : r.length ≤ cs.length := by
  have hd := digits_length cs
  unfold scanPower? at h
  split at h <;> simp_all

theorem scanExponent?_length {cs r : List Char} {e : Option Int}
    (h : scanExponent? cs = some (e, r)) : r.length ≤ cs.length := by
  unfold scanExponent? at h
  split at h
  case h_7 => simp_all
  all_goals
    have := scanPower?_length h
    simp only [List.length_cons]
    omega

theorem scan?_length {neg : Bool} {cs r : List Char} {n : Numeral}
    (h : scan? neg cs = some (n, r)) : r.length < cs.length := by
  simp only [scan?, Option.bind_eq_bind, Option.bind_eq_some_iff, Prod.exists] at h
  obtain ⟨w, c₁, h₁, f, c₂, h₂, e, c₃, h₃, h⟩ := h
  have l₁ := scanWhole?_length h₁
  have l₂ := scanFraction?_length h₂
  have l₃ := scanExponent?_length h₃
  obtain ⟨rfl, rfl⟩ := Prod.mk.inj (Option.some.inj h)
  omega

/-! ## Magnitude -/

/-- The leading digits of a natural number that fit 64 bits, and how many
    digits follow them. -/
def leadingDigits (n : Nat) : Nat × Nat :=
  if n < Nat.pow 2 64 then (n, 0)
  else
    let (lead, dropped) := leadingDigits (n / 10)
    (lead, dropped + 1)
termination_by n
decreasing_by
  have hpos : 0 < Nat.pow 2 64 := by decide
  omega

/-- Continues `lead` with further digits while 64 bits hold the result. Each
    digit taken lowers the power of ten by one. -/
def extend (lead : Nat) (power : Int) : List Char → Nat × Int
  | [] => (lead, power)
  | d :: ds =>
    let next := 10 * lead + digitsValue [d]
    if next < Nat.pow 2 64 then extend next (power - 1) ds else (lead, power)

/-- The numeral without its sign as a 64-bit integer times a power of ten;
    digits that do not fit are dropped. -/
def scaled (n : Numeral) : Nat × Int :=
  let (lead, dropped) := leadingDigits n.whole
  let (lead, power) := extend lead dropped n.fraction
  (lead, power + n.exponent.getD 0)

/-- A natural number rounded to 53 significant bits, a tie going to the even
    neighbour. -/
def round53 (n : Nat) : Nat :=
  let unit := Nat.pow 2 (n.log2 - 52)
  let lower := n / unit
  let twice := 2 * (n % unit)
  let up := unit < twice || (twice == unit && lower % 2 == 1)
  (if up then lower + 1 else lower) * unit

/-- The least natural number that rounds to infinity in double precision. -/
def infinityBound : Nat := Nat.pow 2 1024 - Nat.pow 2 970

/-- The number is too large for double precision. The leading digits and the
    power of ten are rounded before they are multiplied. -/
def overflows (n : Numeral) : Bool :=
  match n.scaled with
  | (0, _) => false
  | (lead, .ofNat power) =>
    308 < power || infinityBound ≤ round53 lead * round53 (Nat.pow 10 power)
  | (_, .negSucc _) => false

end Numeral
end LockDiscipline.Json
