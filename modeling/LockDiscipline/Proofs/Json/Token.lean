import LockDiscipline.Json.Printer
import LockDiscipline.Json.Token

/- Scanning what was written. A quoted text is scanned as the text
   (`Token.scanFrom?_quote`), since every character is escaped so that it reads
   as itself and no character is half of a pair. The digits of a number are
   scanned as the number (`Token.scanFrom?_toDigits`), unless the text behind
   them goes on with the numeral. -/
namespace LockDiscipline.Json

/-! ## Quoted strings -/

theorem hexValue?_hexChar : ∀ n < 32,
    Text.hexValue? 0 ['0', '0', hexChar (n / 16), hexChar (n % 16)] = some n := by
  decide

/-- An escaped character is read as itself. -/
theorem scanUnits?_escape (units : List Nat) (c : Char) (rest : List Char) :
    scanUnits? units (escape c ++ rest) = scanUnits? (c.toNat :: units) rest := by
  by_cases hletter : c ∈ ['"', '\\', '\x08', '\t', '\n', '\x0c', '\r']
  · simp only [List.mem_cons, List.not_mem_nil, or_false] at hletter
    rcases hletter with rfl | rfl | rfl | rfl | rfl | rfl | rfl <;> rfl
  · simp only [List.mem_cons, List.not_mem_nil, or_false, not_or] at hletter
    obtain ⟨hquote, hbackslash, h₁, h₂, h₃, h₄, h₅⟩ := hletter
    simp only [escape, beq_iff_eq, hquote, hbackslash, h₁, h₂, h₃, h₄, h₅, if_false]
    by_cases hcontrol : c.toNat < 0x20
    · rw [if_pos hcontrol, List.cons_append, List.cons_append, List.cons_append, List.cons_append,
        List.cons_append, List.cons_append, List.nil_append, scanUnits?,
        hexValue?_hexChar c.toNat hcontrol]
    · rw [if_neg hcontrol, List.singleton_append, scanUnits?]
      · simp [hcontrol, hbackslash]
      all_goals simp [hquote, hbackslash]

theorem scanUnits?_flatMap_escape (units : List Nat) (cs rest : List Char) :
    scanUnits? units (cs.flatMap escape ++ '"' :: rest) =
      some (units.reverse ++ cs.map Char.toNat, rest) := by
  induction cs generalizing units with
  | nil => simp [scanUnits?]
  | cons c cs ih =>
    rw [List.flatMap_cons, List.append_assoc, scanUnits?_escape, ih, List.reverse_cons,
      List.append_assoc, List.map_cons, List.singleton_append]

theorem isHalf_toNat (c : Char) : (isHighHalf c.toNat || isLowHalf c.toNat) = false := by
  have hvalid : c.toNat < 0xd800 ∨ 0xdfff < c.toNat ∧ c.toNat < 0x110000 := c.valid
  simp only [isHighHalf, isLowHalf]
  grind

/-- Characters are no halves of pairs. -/
theorem joinHalves?_map_toNat (cs : List Char) : joinHalves? (cs.map Char.toNat) = some cs := by
  induction cs with
  | nil => rfl
  | cons c cs ih =>
    have hhalf := isHalf_toNat c
    cases cs with
    | nil => simp [joinHalves?, hhalf]
    | cons d ds =>
      rw [List.map_cons] at ih
      obtain ⟨hhigh, hlow⟩ := Bool.or_eq_false_iff.mp hhalf
      rw [List.map_cons, List.map_cons, joinHalves?, hhigh, hlow, ih]
      simp

theorem ofUnits_map_toNat (s : String) : Quoted.ofUnits (s.toList.map Char.toNat) = .text s := by
  simp only [Quoted.ofUnits, joinHalves?_map_toNat, String.ofList_toList]

/-! ## Numerals -/

namespace Numeral

/-- No numeral goes on with this text. -/
def isOver : List Char → Bool
  | [] => true
  | c :: _ => !c.isDigit && c != '.' && c != 'e' && c != 'E'

theorem digits_append {ds rest : List Char} (hds : ∀ c ∈ ds, c.isDigit = true)
    (hrest : isOver rest = true) : digits (ds ++ rest) = (ds, rest) := by
  rw [digits, List.takeWhile_append_of_pos hds, List.dropWhile_append_of_pos hds]
  cases rest with
  | nil => simp
  | cons c rest =>
    have hc : c.isDigit = false := by
      simp only [isOver, Bool.and_eq_true, Bool.not_eq_true'] at hrest
      exact hrest.1.1.1
    simp [hc]

/-- Only zero is written with a leading zero. -/
theorem eq_zero_of_head?_toDigits {n : Nat} (h : (Nat.toDigits 10 n).head? = some '0') : n = 0 := by
  induction n using Nat.strongRecOn with
  | ind n ih =>
    by_cases hn : n < 10
    · have hdigit : ∀ m < 10, [Nat.digitChar m].head? = some '0' → m = 0 := by decide
      rw [Nat.toDigits_of_lt_base hn] at h
      exact hdigit n hn h
    · obtain ⟨c, cs, hcs⟩ := List.exists_cons_of_ne_nil (Nat.toDigits_ne_nil (n := n / 10) (b := 10))
      rw [Nat.toDigits_of_base_le (by omega) (by omega), hcs] at h
      have hzero := ih (n / 10) (by omega) (by rw [hcs]; exact h)
      omega

theorem scanWhole?_toDigits (n : Nat) {rest : List Char} (hrest : isOver rest = true) :
    scanWhole? (Nat.toDigits 10 n ++ rest) = some (n, rest) := by
  have hdigits : ∀ c ∈ Nat.toDigits 10 n, c.isDigit = true :=
    fun c hc => Nat.isDigit_of_mem_toDigits (by decide) (by decide) hc
  rw [scanWhole?, digits_append hdigits hrest]
  split
  · next heq => exact absurd (Prod.mk.inj heq).1 Nat.toDigits_ne_nil
  · next heq =>
    -- more than one digit, and the first is zero
    obtain ⟨heq, -⟩ := Prod.mk.inj heq
    have hzero := eq_zero_of_head?_toDigits (n := n) (by rw [heq]; rfl)
    rw [hzero] at heq
    cases heq
  · next heq =>
    obtain ⟨rfl, rfl⟩ := Prod.mk.inj heq
    rw [digitsValue, Nat.ofDigitChars_ten_toDigits]

theorem scan?_toDigits (n : Nat) {rest : List Char} (hrest : isOver rest = true) :
    scan? false (Nat.toDigits 10 n ++ rest) = some (ofNat n, rest) := by
  have hrest' : scanFraction? rest = some ([], rest) ∧ scanExponent? rest = some (none, rest) := by
    cases rest with
    | nil => exact ⟨rfl, rfl⟩
    | cons c rest =>
      simp only [isOver, Bool.and_eq_true, bne_iff_ne, ne_eq] at hrest
      obtain ⟨⟨⟨-, hpoint⟩, he⟩, hE⟩ := hrest
      constructor
      · rw [scanFraction?]
        simp [hpoint]
      · rw [scanExponent?] <;> simp [he, hE]
  simp [scan?, scanWhole?_toDigits n hrest, hrest', ofNat]

end Numeral

/-! ## Tokens -/

namespace Token

theorem scanFrom?_cons {done : List Token} {c : Char} {rest rest' : List Char} {t : Token}
    (hspace : isSpace c = false) (h : next? c rest = some (t, rest')) :
    scanFrom? done (c :: rest) = scanFrom? (t :: done) rest' := by
  rw [scanFrom?, if_neg (by simp [hspace])]
  split
  · next hnone =>
    rw [h] at hnone
    cases hnone
  · next hsome =>
    rw [h] at hsome
    cases hsome
    rfl

theorem scanFrom?_quote (done : List Token) (s : String) (rest : List Char) :
    scanFrom? done (quote s ++ rest) = scanFrom? (.str (.text s) :: done) rest := by
  have hunits : scanUnits? [] (s.toList.flatMap escape ++ ['"'] ++ rest) =
      some (s.toList.map Char.toNat, rest) := by
    rw [List.append_assoc]
    exact scanUnits?_flatMap_escape [] s.toList rest
  refine scanFrom?_cons rfl ?_
  show (scanUnits? [] (s.toList.flatMap escape ++ ['"'] ++ rest)).map _ = _
  rw [hunits, ← ofUnits_map_toNat]
  rfl

theorem ne_of_isDigit {c d : Char} (hc : c.isDigit = true) (hd : d.isDigit = false) : c ≠ d := by
  intro heq
  rw [heq, hd] at hc
  cases hc

/-- A digit starts a numeral and nothing else. -/
theorem next?_of_isDigit {c : Char} {rest rest' : List Char} {n : Numeral} (hc : c.isDigit = true)
    (h : Numeral.scan? false (c :: rest) = some (n, rest')) :
    next? c rest = some (.num n, rest') := by
  rw [next?, if_pos hc, h]
  · rfl
  all_goals
    intros
    exact absurd ‹_› (ne_of_isDigit hc rfl)

theorem isSpace_of_isDigit {c : Char} (hc : c.isDigit = true) : isSpace c = false := by
  simp [isSpace, ne_of_isDigit hc]

theorem scanFrom?_toDigits (done : List Token) (n : Nat) {rest : List Char}
    (hrest : Numeral.isOver rest = true) :
    scanFrom? done (Nat.toDigits 10 n ++ rest) = scanFrom? (.num (.ofNat n) :: done) rest := by
  obtain ⟨c, cs, hcs⟩ := List.exists_cons_of_ne_nil (Nat.toDigits_ne_nil (n := n) (b := 10))
  have hdigit : c.isDigit = true :=
    Nat.isDigit_of_mem_toDigits (by decide) (by decide) (hcs ▸ List.mem_cons_self)
  have hscan := Numeral.scan?_toDigits n hrest
  rw [hcs, List.cons_append] at hscan ⊢
  exact scanFrom?_cons (isSpace_of_isDigit hdigit) (next?_of_isDigit hdigit hscan)

end Token
end LockDiscipline.Json
