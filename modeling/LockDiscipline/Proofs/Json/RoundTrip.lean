import LockDiscipline.Json.Parser
import LockDiscipline.Proofs.Json.Token

/- Reading what was written. A tree is plain when its strings and keys are texts
   and its numbers are words. The text of a plain tree is cut into the tokens of
   the tree (`Plain.scans`), and these tokens are read as the tree
   (`Plain.reads`); so its text reads back as the tree (`parse?_render`). Both
   steps are by induction on the tree and hold whatever follows it. -/
namespace LockDiscipline.Json

/-- Strings and keys are texts, and numbers are words. -/
inductive Plain : Json → Prop
  | null : Plain .null
  | bool (b : Bool) : Plain (.bool b)
  | num {n : Nat} (lt : n < Numeral.wordLimit) : Plain (ofNat n)
  | str (s : String) : Plain (ofText s)
  | arr {items : List Json} (plain : ∀ item ∈ items, Plain item) : Plain (.arr items)
  | obj {members : List (String × Json)} (plain : ∀ m ∈ members, Plain m.2) :
      Plain (object members)

/-! ## Tokens of a tree -/

mutual

/-- The tokens of a tree's text. -/
def tokens : Json → List Token
  | .null => [.null]
  | .bool b => [.bool b]
  | .num n => [.num n]
  | .str s => [.str s]
  | .arr [] => [.bracketOpen, .bracketClose]
  | .arr (item :: items) => .bracketOpen :: (tokens item ++ itemTokens items)
  | .obj [] => [.braceOpen, .braceClose]
  | .obj ((key, value) :: members) =>
    .braceOpen :: .str key :: .colon :: (tokens value ++ memberTokens members)

/-- The tokens of the later items of an array and of its closing bracket. -/
def itemTokens : List Json → List Token
  | [] => [.bracketClose]
  | item :: items => .comma :: (tokens item ++ itemTokens items)

/-- The tokens of the later members of an object and of its closing brace. -/
def memberTokens : List (Quoted × Json) → List Token
  | [] => [.braceClose]
  | (key, value) :: members =>
    .comma :: .str key :: .colon :: (tokens value ++ memberTokens members)

end

/-- The members of an object whose keys are texts. -/
def textMembers (members : List (String × Json)) : List (Quoted × Json) :=
  members.map fun m => (.text m.1, m.2)

theorem textMembers_nil : textMembers [] = [] := rfl

theorem textMembers_cons (key : String) (value : Json) (members : List (String × Json)) :
    textMembers ((key, value) :: members) = (.text key, value) :: textMembers members := rfl

theorem object_eq (members : List (String × Json)) : object members = .obj (textMembers members) :=
  rfl

/-! ## From text to tokens -/

/-- The text of the tree is cut into the tokens of the tree, unless a numeral goes
    on behind it. -/
def Scans (j : Json) : Prop :=
  ∀ done rest, Numeral.isOver rest = true →
    Token.scanFrom? done (j.write ++ rest) = Token.scanFrom? (j.tokens.reverse ++ done) rest

theorem isOver_writeItems (items : List Json) (rest : List Char) :
    Numeral.isOver (writeItems items ++ rest) = true := by
  cases items <;> rfl

theorem isOver_writeMembers (members : List (Quoted × Json)) (rest : List Char) :
    Numeral.isOver (writeMembers members ++ rest) = true := by
  cases members <;> rfl

open Token in
theorem scanFrom?_writeItems {items : List Json} (hitems : ∀ item ∈ items, item.Scans)
    (done : List Token) (rest : List Char) :
    scanFrom? done (writeItems items ++ rest) =
      scanFrom? ((itemTokens items).reverse ++ done) rest := by
  induction items generalizing done with
  | nil => exact scanFrom?_cons rfl rfl
  | cons item items ih =>
    obtain ⟨hitem, hitems⟩ := List.forall_mem_cons.mp hitems
    rw [writeItems, List.cons_append, List.cons_append, List.append_assoc,
      scanFrom?_cons (c := ',') (t := .comma) rfl rfl, hitem _ _ (isOver_writeItems items rest),
      ih hitems]
    simp [itemTokens]

open Token in
/-- A mark, a key, a colon and a value. -/
theorem scanFrom?_member {c : Char} {t : Token} {value : Json} (hspace : isSpace c = false)
    (hmark : ∀ rest, next? c rest = some (t, rest)) (hvalue : value.Scans) (done : List Token)
    (key : String) {rest : List Char} (hrest : Numeral.isOver rest = true) :
    scanFrom? done (c :: quote key ++ ':' :: value.write ++ rest) =
      scanFrom? (value.tokens.reverse ++ .colon :: .str (.text key) :: t :: done) rest := by
  have hsplit : c :: quote key ++ ':' :: value.write ++ rest =
      c :: (quote key ++ ':' :: (value.write ++ rest)) := by
    simp only [List.cons_append, List.append_assoc]
  rw [hsplit, scanFrom?_cons hspace (hmark _), scanFrom?_quote,
    scanFrom?_cons (c := ':') (t := .colon) rfl rfl, hvalue _ _ hrest]

open Token in
theorem scanFrom?_writeMembers {members : List (String × Json)}
    (hmembers : ∀ m ∈ members, m.2.Scans) (done : List Token) (rest : List Char) :
    scanFrom? done (writeMembers (textMembers members) ++ rest) =
      scanFrom? ((memberTokens (textMembers members)).reverse ++ done) rest := by
  induction members generalizing done with
  | nil => exact scanFrom?_cons rfl rfl
  | cons m members ih =>
    obtain ⟨key, value⟩ := m
    obtain ⟨hvalue, hmembers⟩ := List.forall_mem_cons.mp hmembers
    show scanFrom? done
      (',' :: quote key ++ ':' :: value.write ++ writeMembers (textMembers members) ++ rest) = _
    rw [List.append_assoc, scanFrom?_member (t := .comma) rfl (fun _ => rfl) hvalue _ _
      (isOver_writeMembers _ rest), ih hmembers]
    simp [textMembers_cons, memberTokens]

open Token in
/-- The text of a plain tree is cut into the tokens of the tree. -/
theorem Plain.scans {j : Json} (h : j.Plain) : j.Scans := by
  induction h with
  | null => exact fun _ _ _ => scanFrom?_cons rfl rfl
  | bool b => cases b <;> exact fun _ _ _ => scanFrom?_cons rfl rfl
  | @num n _ =>
    intro done rest hrest
    have hwrite : (Numeral.ofNat n).write = Nat.toDigits 10 n := by
      simp [Numeral.write, Numeral.ofNat]
    show scanFrom? done ((Numeral.ofNat n).write ++ rest) = scanFrom? (.num (.ofNat n) :: done) rest
    rw [hwrite, scanFrom?_toDigits done n hrest]
  | str s => exact fun done rest _ => scanFrom?_quote done s rest
  -- containers end with a mark of their own, so what follows does not matter
  | @arr items _ ih =>
    intro done rest _
    cases items with
    | nil =>
      show scanFrom? done ('[' :: ']' :: rest) = _
      rw [scanFrom?_cons (c := '[') (t := .bracketOpen) rfl rfl]
      exact scanFrom?_cons rfl rfl
    | cons item items =>
      obtain ⟨hitem, hitems⟩ := List.forall_mem_cons.mp ih
      show scanFrom? done ('[' :: item.write ++ writeItems items ++ rest) = _
      rw [List.cons_append, List.cons_append, List.append_assoc,
        scanFrom?_cons (c := '[') (t := .bracketOpen) rfl rfl,
        hitem _ _ (isOver_writeItems items rest), scanFrom?_writeItems hitems]
      simp [tokens]
  | @obj members _ ih =>
    intro done rest _
    cases members with
    | nil =>
      show scanFrom? done ('\x7b' :: '\x7d' :: rest) = _
      rw [scanFrom?_cons (c := '\x7b') (t := .braceOpen) rfl rfl]
      exact scanFrom?_cons rfl rfl
    | cons m members =>
      obtain ⟨key, value⟩ := m
      obtain ⟨hvalue, hmembers⟩ := List.forall_mem_cons.mp ih
      show scanFrom? done
        ('\x7b' :: quote key ++ ':' :: value.write ++ writeMembers (textMembers members) ++ rest) = _
      rw [List.append_assoc, scanFrom?_member (t := .braceOpen) rfl (fun _ => rfl) hvalue _ _
        (isOver_writeMembers _ rest), scanFrom?_writeMembers hmembers]
      simp [object_eq, textMembers_cons, tokens]

/-! ## From tokens to the tree -/

/-- The tokens of the tree are read as the tree, whatever follows them. -/
def Reads (j : Json) : Prop :=
  ∀ stack rest, parseTokens? none stack (j.tokens ++ rest) = parseTokens? (some j) stack rest

/-- No tree starts with a closing bracket, so an array with items is not taken for an
    empty one. -/
theorem exists_tokens_eq_cons (j : Json) : ∃ t ts, j.tokens = t :: ts ∧ t ≠ .bracketClose := by
  cases j with
  | arr items => cases items <;> exact ⟨_, _, rfl, by simp⟩
  | obj members => cases members <;> exact ⟨_, _, rfl, by simp⟩
  | _ => exact ⟨_, _, rfl, by simp⟩

theorem parseTokens?_bracketOpen (j : Json) (stack : List Frame) (rest : List Token) :
    parseTokens? none stack (.bracketOpen :: (j.tokens ++ rest)) =
      parseTokens? none (.items [] :: stack) (j.tokens ++ rest) := by
  obtain ⟨t, ts, hts, ht⟩ := exists_tokens_eq_cons j
  rw [hts, List.cons_append]
  cases t with
  | bracketClose => exact absurd rfl ht
  | _ => rfl

theorem parseTokens?_itemTokens {items : List Json} (hitems : ∀ item ∈ items, item.Reads)
    (value : Json) (done : List Json) (stack : List Frame) (rest : List Token) :
    parseTokens? (some value) (.items done :: stack) (itemTokens items ++ rest) =
      parseTokens? (some (.arr (done.reverse ++ value :: items))) stack rest := by
  induction items generalizing value done with
  | nil =>
    show parseTokens? (some (.arr (value :: done).reverse)) stack rest = _
    rw [List.reverse_cons]
  | cons item items ih =>
    obtain ⟨hitem, hitems⟩ := List.forall_mem_cons.mp hitems
    show parseTokens? none (.items (value :: done) :: stack)
      (item.tokens ++ itemTokens items ++ rest) = _
    rw [List.append_assoc, hitem, ih hitems, List.reverse_cons, List.append_assoc,
      List.singleton_append]

theorem parseTokens?_memberTokens {members : List (String × Json)}
    (hmembers : ∀ m ∈ members, m.2.Reads) (key : Quoted) (value : Json)
    (done : List (Quoted × Json)) (stack : List Frame) (rest : List Token) :
    parseTokens? (some value) (.members done key :: stack)
        (memberTokens (textMembers members) ++ rest) =
      parseTokens? (some (.obj (done.reverse ++ (key, value) :: textMembers members))) stack
        rest := by
  induction members generalizing key value done with
  | nil =>
    show parseTokens? (some (.obj ((key, value) :: done).reverse)) stack rest = _
    rw [List.reverse_cons, textMembers_nil]
  | cons m members ih =>
    obtain ⟨hm, hmembers⟩ := List.forall_mem_cons.mp hmembers
    show parseTokens? none (.members ((key, value) :: done) (.text m.1) :: stack)
      (m.2.tokens ++ memberTokens (textMembers members) ++ rest) = _
    rw [List.append_assoc, hm, ih hmembers, List.reverse_cons, List.append_assoc,
      List.singleton_append, textMembers_cons]

/-- The tokens of a plain tree are read as the tree. -/
theorem Plain.reads {j : Json} (h : j.Plain) : j.Reads := by
  induction h with
  | null | bool | num | str => exact fun _ _ => rfl
  | @arr items _ ih =>
    intro stack rest
    cases items with
    | nil => rfl
    | cons item items =>
      obtain ⟨hitem, hitems⟩ := List.forall_mem_cons.mp ih
      rw [tokens, List.cons_append, List.append_assoc, parseTokens?_bracketOpen, hitem,
        parseTokens?_itemTokens hitems]
      rfl
  | @obj members _ ih =>
    intro stack rest
    cases members with
    | nil => rfl
    | cons m members =>
      obtain ⟨hm, hmembers⟩ := List.forall_mem_cons.mp ih
      show parseTokens? none (.members [] (.text m.1) :: stack)
        (m.2.tokens ++ memberTokens (textMembers members) ++ rest) = _
      rw [List.append_assoc, hm, parseTokens?_memberTokens hmembers]
      rfl

/-- The text of a plain tree reads back as the tree. -/
theorem parse?_render {j : Json} (h : j.Plain) : parse? j.render = some j := by
  have hscan : Token.scan? j.write = some j.tokens := by
    have hj := h.scans [] [] rfl
    rw [List.append_nil, List.append_nil] at hj
    rw [Token.scan?, hj]
    simp [Token.scanFrom?]
  have hread : parseTokens? none [] j.tokens = some j := by
    have hj := h.reads [] []
    rw [List.append_nil] at hj
    rw [hj]
    rfl
  rw [parse?, render, String.toList_ofList, hscan]
  exact hread

end LockDiscipline.Json
