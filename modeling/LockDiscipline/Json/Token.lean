import LockDiscipline.Json.Basic
import LockDiscipline.Text.Hex

/- The tokens of a JSON text. `Token.scan?` cuts a text into tokens and refuses
   it when some part is no token; between tokens only the four JSON spaces may
   stand. -/
namespace LockDiscipline.Json

/-- A token of a JSON text. -/
inductive Token where
  | braceOpen | braceClose | bracketOpen | bracketClose | comma | colon
  | null
  | bool (value : Bool)
  | num (numeral : Numeral)
  | str (string : Quoted)
deriving Repr

/-- The four characters that may stand between tokens. -/
def isSpace (c : Char) : Bool := c == ' ' || c == '\t' || c == '\n' || c == '\r'

/-! ## Quoted strings -/

/-- What a backslash and one character stand for. -/
def escaped? : Char → Option Char
  | '"' => some '"'
  | '\\' => some '\\'
  | '/' => some '/'
  | 'b' => some '\x08'
  | 'f' => some '\x0c'
  | 'n' => some '\n'
  | 'r' => some '\r'
  | 't' => some '\t'
  | _ => none

/-- The code units of a quoted string up to its closing quote, `units` being
    those already read in reverse, and what follows the quote. -/
def scanUnits? (units : List Nat) : List Char → Option (List Nat × List Char)
  | [] => none
  | '"' :: rest => some (units.reverse, rest)
  | '\\' :: 'u' :: a :: b :: c :: d :: rest =>
    match Text.hexValue? 0 [a, b, c, d] with
    | none => none
    | some unit => scanUnits? (unit :: units) rest
  | '\\' :: c :: rest =>
    match escaped? c with
    | none => none
    | some e => scanUnits? (e.toNat :: units) rest
  | c :: rest => if c.toNat < 0x20 || c == '\\' then none else scanUnits? (c.toNat :: units) rest

theorem scanUnits?_length {units : List Nat} {cs : List Char} {us : List Nat} {r : List Char}
    (h : scanUnits? units cs = some (us, r)) : r.length ≤ cs.length := by
  fun_induction scanUnits? units cs with
  | case1 => simp at h
  | case2 => simp at h; simp [h.2]
  | case3 => simp at h
  | case4 units a b c d rest unit hu ih => have := ih h; simp only [List.length_cons]; omega
  | case5 => simp at h
  | case6 units c rest _ e he ih => have := ih h; simp only [List.length_cons]; omega
  | case7 => simp at h
  | case8 units c rest _ _ _ hc ih => have := ih h; simp only [List.length_cons]; omega

/-- The first half of a surrogate pair. -/
def isHighHalf (unit : Nat) : Bool := 0xd800 ≤ unit && unit < 0xdc00

/-- The second half of a surrogate pair. -/
def isLowHalf (unit : Nat) : Bool := 0xdc00 ≤ unit && unit < 0xe000

/-- The characters that code units denote: two matching halves make one
    character, and a half that stands alone denotes none. -/
def joinHalves? : List Nat → Option (List Char)
  | [] => some []
  | [unit] => if isHighHalf unit || isLowHalf unit then none else some [Char.ofNat unit]
  | unit :: next :: rest =>
    if isHighHalf unit then
      if isLowHalf next then
        (joinHalves? rest).map
          (Char.ofNat (0x10000 + 0x400 * (unit - 0xd800) + (next - 0xdc00)) :: ·)
      else none
    else if isLowHalf unit then none
    else (joinHalves? (next :: rest)).map (Char.ofNat unit :: ·)

/-- The string that code units denote. -/
def Quoted.ofUnits (units : List Nat) : Quoted :=
  match joinHalves? units with
  | some cs => .text (String.ofList cs)
  | none => .unpaired

/-! ## Tokens -/

namespace Token

/-- The token that starts with `c`, and what follows it. -/
def next? (c : Char) (rest : List Char) : Option (Token × List Char) :=
  match c, rest with
  | '\x7b', rest => some (.braceOpen, rest)
  | '\x7d', rest => some (.braceClose, rest)
  | '[', rest => some (.bracketOpen, rest)
  | ']', rest => some (.bracketClose, rest)
  | ',', rest => some (.comma, rest)
  | ':', rest => some (.colon, rest)
  | 'n', 'u' :: 'l' :: 'l' :: rest => some (.null, rest)
  | 't', 'r' :: 'u' :: 'e' :: rest => some (.bool true, rest)
  | 'f', 'a' :: 'l' :: 's' :: 'e' :: rest => some (.bool false, rest)
  | '"', rest => (scanUnits? [] rest).map fun (units, rest) => (.str (.ofUnits units), rest)
  | '-', rest => (Numeral.scan? true rest).map fun (n, rest) => (.num n, rest)
  | c, rest =>
    if c.isDigit then (Numeral.scan? false (c :: rest)).map fun (n, rest) => (.num n, rest)
    else none

theorem next?_length {c : Char} {rest r : List Char} {t : Token}
    (h : next? c rest = some (t, r)) : r.length ≤ rest.length := by
  unfold next? at h
  split at h
  case h_10 =>
    obtain ⟨⟨us, r'⟩, hs, hr⟩ := Option.map_eq_some_iff.1 h
    have := scanUnits?_length hs
    simp_all
  case h_11 =>
    obtain ⟨⟨n, r'⟩, hs, hr⟩ := Option.map_eq_some_iff.1 h
    obtain ⟨_, rfl⟩ := Prod.mk.inj hr
    exact Nat.le_of_lt (Numeral.scan?_length hs)
  case h_12 =>
    split at h
    · obtain ⟨⟨n, r'⟩, hs, hr⟩ := Option.map_eq_some_iff.1 h
      obtain ⟨_, rfl⟩ := Prod.mk.inj hr
      exact Nat.le_of_lt_succ (Numeral.scan?_length hs)
    · simp at h
  all_goals
    simp only [Option.some.injEq, Prod.mk.injEq] at h
    obtain ⟨_, rfl⟩ := h
    simp
    try omega

/-- The tokens of a text, `done` being those already cut off in reverse. -/
def scanFrom? (done : List Token) : List Char → Option (List Token)
  | [] => some done.reverse
  | c :: rest =>
    if isSpace c then scanFrom? done rest
    else
      match h : next? c rest with
      | none => none
      | some (token, rest') =>
        have : rest'.length ≤ rest.length := next?_length h
        scanFrom? (token :: done) rest'
termination_by cs => cs.length

/-- The tokens of a text. -/
def scan? (cs : List Char) : Option (List Token) := scanFrom? [] cs

end Token
end LockDiscipline.Json
