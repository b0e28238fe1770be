import LockDiscipline.Text.Hex

/- The spelling of TOML numbers and dates. Only whether a text is one of them
   is decided here. -/
namespace LockDiscipline.Toml

/-- Digits in groups: underscores may stand between two digits. -/
def digitGroups (isDigit : Char → Bool) : List Char → Bool
  | [] => false
  | [c] => isDigit c
  | c :: '_' :: rest => isDigit c && digitGroups isDigit rest
  | c :: rest => isDigit c && digitGroups isDigit rest

/-- The text behind an optional sign. -/
def unsigned : List Char → List Char
  | '+' :: rest => rest
  | '-' :: rest => rest
  | rest => rest

/-- Decimal digits in groups without a leading zero. -/
def isWhole (cs : List Char) : Bool :=
  cs == ['0'] || (cs.head? != some '0' && digitGroups Char.isDigit cs)

/-- The value of digits in groups. -/
def groupsValue (base : Nat) (cs : List Char) : Nat :=
  (cs.filter (· != '_')).foldl (fun n c => base * n + (Text.hexDigit? c).getD 0) 0

/-- An integer of 64 bits. -/
def isInteger (cs : List Char) : Bool :=
  match cs with
  | '0' :: 'x' :: ds =>
    digitGroups (fun c => (Text.hexDigit? c).isSome) ds && groupsValue 16 ds < Nat.pow 2 63
  | '0' :: 'o' :: ds =>
    digitGroups (fun c => '0' ≤ c && c ≤ '7') ds && groupsValue 8 ds < Nat.pow 2 63
  | '0' :: 'b' :: ds =>
    digitGroups (fun c => c == '0' || c == '1') ds && groupsValue 2 ds < Nat.pow 2 63
  | '-' :: ds => isWhole ds && groupsValue 10 ds ≤ Nat.pow 2 63
  | cs => isWhole (unsigned cs) && groupsValue 10 (unsigned cs) < Nat.pow 2 63

/-- A number with a point, an exponent or both: its digits before the point,
    those behind it, and the exponent. -/
structure FloatParts where
  whole : List Char
  fraction : List Char
  power : List Char

namespace FloatParts

/-- The parts of a number without sign, if it is spelled well. -/
def ofText? (cs : List Char) : Option FloatParts :=
  let mantissa := cs.takeWhile fun c => c != 'e' && c != 'E'
  let power := (cs.dropWhile fun c => c != 'e' && c != 'E').drop 1
  let whole := mantissa.takeWhile (· != '.')
  let fraction := (mantissa.dropWhile (· != '.')).drop 1
  let hasPoint := mantissa.contains '.'
  let hasPower := mantissa.length < cs.length
  if (hasPoint || hasPower) && isWhole whole
      && (!hasPoint || digitGroups Char.isDigit fraction)
      && (!hasPower || digitGroups Char.isDigit (unsigned power)) then
    some ⟨whole, fraction, power⟩
  else none

/-- The exponent when all digits stand before the point. -/
def scale (p : FloatParts) : Int :=
  let power : Int := groupsValue 10 (unsigned p.power)
  (if p.power.head? == some '-' then -power else power)
    - (p.fraction.filter (· != '_')).length

/-- The number rounds to infinity in double precision. -/
def isInfinite (p : FloatParts) : Bool :=
  let digits := groupsValue 10 (p.whole ++ p.fraction)
  let bound := Nat.pow 2 1024 - Nat.pow 2 970
  digits != 0 &&
    match p.scale with
    | .ofNat up => 308 < up || bound ≤ digits * Nat.pow 10 up
    | .negSucc down =>
      down < (p.whole ++ p.fraction).length && bound * Nat.pow 10 (down + 1) ≤ digits

end FloatParts

/-- A number with a point or an exponent, or one of the special names. Above
    the range of double precision only negative numbers count. -/
def isFloat (cs : List Char) : Bool :=
  match FloatParts.ofText? (unsigned cs) with
  | some parts => cs.head? == some '-' || !parts.isInfinite
  | none => unsigned cs == ['i', 'n', 'f'] || unsigned cs == ['n', 'a', 'n']

/-- Two decimal digits as a number. -/
def pair? (a b : Char) : Option Nat :=
  if a.isDigit && b.isDigit then some (groupsValue 10 [a, b]) else none

/-- The number is there and at most `limit`. -/
def isUpTo (limit : Nat) (n : Option Nat) : Bool :=
  match n with
  | some n => n ≤ limit
  | none => false

/-- Hour, minute and second with an optional fraction. -/
def isTime : List Char → Bool
  | a :: b :: ':' :: c :: d :: ':' :: e :: f :: rest =>
    isUpTo 23 (pair? a b) && isUpTo 59 (pair? c d) && isUpTo 60 (pair? e f) &&
      match rest with
      | [] => true
      | '.' :: ds => !ds.isEmpty && ds.all Char.isDigit
      | _ => false
  | _ => false

/-- The length of a month. -/
def monthLength (year month : Nat) : Nat :=
  if month == 2 then
    if year % 4 == 0 && (year % 100 != 0 || year % 400 == 0) then 29 else 28
  else if month == 4 || month == 6 || month == 9 || month == 11 then 30
  else 31

/-- Year, month and day. -/
def isDate : List Char → Bool
  | [a, b, c, d, '-', e, f, '-', g, h] =>
    match pair? a b, pair? c d, pair? e f, pair? g h with
    | some century, some year, some month, some day =>
      1 ≤ month && month ≤ 12 && 1 ≤ day && day ≤ monthLength (100 * century + year) month
    | _, _, _, _ => false
  | _ => false

/-- A time with an optional offset: `Z`, or a sign, hours and minutes. -/
def isOffsetTime (cs : List Char) : Bool :=
  let time := cs.takeWhile fun c => c.isDigit || c == ':' || c == '.'
  isTime time &&
    match cs.drop time.length with
    | [] => true
    | ['Z'] => true
    | ['z'] => true
    | [sign, a, b, ':', c, d] =>
      (sign == '+' || sign == '-') && isUpTo 23 (pair? a b) && isUpTo 59 (pair? c d)
    | _ => false

/-- A date, a time, or both with a letter or a blank between them. -/
def isMoment (cs : List Char) : Bool :=
  isTime cs || isDate cs ||
    (isDate (cs.take 10) &&
      match cs.drop 10 with
      | 'T' :: time => isOffsetTime time
      | 't' :: time => isOffsetTime time
      | ' ' :: time => isOffsetTime time
      | _ => false)

/-- A character that may stand in a number or a date. -/
def isScalarChar (c : Char) : Bool :=
  c.isAlphanum || c == '+' || c == '-' || c == '_' || c == '.' || c == ':'

/-- What follows the number or date at the start of a text. -/
def afterScalar? (cs : List Char) : Option (List Char) :=
  let word := cs.takeWhile isScalarChar
  let rest := cs.dropWhile isScalarChar
  let long := word ++ ' ' :: (rest.drop 1).takeWhile isScalarChar
  if isDate word && rest.head? == some ' ' && isMoment long then
    some ((rest.drop 1).dropWhile isScalarChar)
  else if isInteger word || isFloat word || isMoment word then some rest
  else none

end LockDiscipline.Toml
