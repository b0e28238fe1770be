import LockDiscipline.Json.Record
import LockDiscipline.Program.Decode
import LockDiscipline.Program.Encode
import LockDiscipline.Proofs.Json.RoundTrip

/- Records and lists that were written by their encoders. A tree is readable in
   a given room when it is plain and nests no deeper than the room; then it fits
   (`Readable.fits`), a record opens as the members that were written
   (`record?_object`), and a list is decoded item by item (`Inverts.list`). -/
namespace LockDiscipline.Json

/-! ## Depth -/

mutual

/-- How many containers are nested in each other at most. -/
def depth : Json → Nat
  | .null => 0
  | .bool _ => 0
  | .num _ => 0
  | .str _ => 0
  | .arr items => itemsDepth items + 1
  | .obj members => membersDepth members + 1

/-- The greatest depth of an item. -/
def itemsDepth : List Json → Nat
  | [] => 0
  | item :: items => max (depth item) (itemsDepth items)

/-- The greatest depth of a member's value. -/
def membersDepth : List (Quoted × Json) → Nat
  | [] => 0
  | (_, value) :: members => max (depth value) (membersDepth members)

end

theorem itemsDepth_le_iff {items : List Json} {room : Nat} :
    itemsDepth items ≤ room ↔ ∀ item ∈ items, item.depth ≤ room := by
  induction items with
  | nil => simp [itemsDepth]
  | cons item items ih => rw [itemsDepth, Nat.max_le, ih, List.forall_mem_cons]

theorem membersDepth_le_iff {members : List (String × Json)} {room : Nat} :
    membersDepth (textMembers members) ≤ room ↔ ∀ m ∈ members, m.2.depth ≤ room := by
  induction members with
  | nil => simp [textMembers_nil, membersDepth]
  | cons m members ih =>
    obtain ⟨key, value⟩ := m
    rw [textMembers_cons, membersDepth, Nat.max_le, ih, List.forall_mem_cons]

/-! ## Readable trees -/

/-- The tree is plain and nests no deeper than `room`. -/
structure Readable (room : Nat) (j : Json) : Prop where
  plain : j.Plain
  depth_le : j.depth ≤ room

@[simp] theorem plain_null : Plain .null := .null

@[simp] theorem plain_bool (b : Bool) : (bool b).Plain := .bool b

@[simp] theorem plain_ofText (s : String) : (ofText s).Plain := .str s

@[simp] theorem plain_ofNat {n : Nat} : (ofNat n).Plain ↔ n < Numeral.wordLimit := by
  constructor
  · intro h
    cases h with
    | num lt => exact lt
  · exact Plain.num

theorem plain_arr {items : List Json} : (arr items).Plain ↔ ∀ item ∈ items, item.Plain := by
  constructor
  · intro h
    cases h with
    | arr plain => exact plain
  · exact Plain.arr

@[simp] theorem plain_ofList {α : Type} {encode : α → Json} {xs : List α} :
    (ofList encode xs).Plain ↔ ∀ x ∈ xs, (encode x).Plain := by
  rw [ofList, plain_arr, List.forall_mem_map]

@[simp] theorem plain_ofOption {α : Type} {encode : α → Json} {a : Option α} :
    (ofOption encode a).Plain ↔ ∀ x ∈ a, (encode x).Plain := by
  cases a <;> simp [ofOption]

theorem textMembers_injective {ms ns : List (String × Json)} (h : textMembers ms = textMembers ns) :
    ms = ns := by
  refine (List.map_inj_right ?_).mp h
  rintro ⟨k, v⟩ ⟨k', v'⟩ h
  simpa using h

@[simp] theorem plain_object {members : List (String × Json)} :
    (object members).Plain ↔ ∀ m ∈ members, m.2.Plain := by
  constructor
  · intro h
    -- an object is no constructor, so its tree is given a name before the cases
    generalize hj : object members = j at h
    cases h with
    | @obj ms plain => exact textMembers_injective (Json.obj.inj hj) ▸ plain
    | _ => cases hj
  · exact Plain.obj

@[simp] theorem readable_ofNat {room n : Nat} : Readable room (ofNat n) ↔ n < Numeral.wordLimit :=
  ⟨fun h => plain_ofNat.mp h.plain, fun h => ⟨.num h, Nat.zero_le _⟩⟩

theorem readable_arr {room : Nat} {items : List Json} :
    Readable room (.arr items) ↔
      ∃ inner, room = inner + 1 ∧ ∀ item ∈ items, Readable inner item := by
  constructor
  · rintro ⟨hplain, hdepth⟩
    rw [depth] at hdepth
    obtain ⟨inner, rfl⟩ := Nat.exists_eq_add_of_le' (Nat.le_of_add_left_le hdepth)
    have hitems := itemsDepth_le_iff.mp (Nat.le_of_succ_le_succ hdepth)
    exact ⟨inner, rfl, fun item hitem => ⟨plain_arr.mp hplain item hitem, hitems item hitem⟩⟩
  · rintro ⟨inner, rfl, h⟩
    refine ⟨.arr fun item hitem => (h item hitem).plain, Nat.succ_le_succ ?_⟩
    exact itemsDepth_le_iff.mpr fun item hitem => (h item hitem).depth_le

theorem readable_object {room : Nat} {members : List (String × Json)} :
    Readable room (object members) ↔
      ∃ inner, room = inner + 1 ∧ ∀ m ∈ members, Readable inner m.2 := by
  constructor
  · rintro ⟨hplain, hdepth⟩
    rw [object_eq, depth] at hdepth
    obtain ⟨inner, rfl⟩ := Nat.exists_eq_add_of_le' (Nat.le_of_add_left_le hdepth)
    have hmembers := membersDepth_le_iff.mp (Nat.le_of_succ_le_succ hdepth)
    exact ⟨inner, rfl, fun m hm => ⟨plain_object.mp hplain m hm, hmembers m hm⟩⟩
  · rintro ⟨inner, rfl, h⟩
    refine ⟨.obj fun m hm => (h m hm).plain, Nat.succ_le_succ ?_⟩
    exact membersDepth_le_iff.mpr fun m hm => (h m hm).depth_le

theorem object_singleton (key : String) (value : Json) :
    object [(key, value)] = .obj [(.text key, value)] := rfl

theorem readable_singleton {room : Nat} {key : String} {value : Json} :
    Readable room (object [(key, value)]) ↔ ∃ inner, room = inner + 1 ∧ Readable inner value := by
  simp [readable_object]

/-! ## Values that are held -/

theorem Numeral.round53_of_lt {n : Nat} (h : n < wordLimit) : round53 n = n := by
  have hlog : n.log2 - 52 = 0 := by
    by_cases hn : n = 0
    · subst hn
      rfl
    · have := (Nat.log2_lt hn).mpr (show n < 2 ^ 52 from Nat.lt_trans h (by decide))
      omega
  simp [round53, hlog, Nat.mod_one]

/-- A word is far below the bound of double precision. -/
theorem Numeral.overflows_ofNat {n : Nat} (h : n < wordLimit) : (ofNat n).overflows = false := by
  have hlead : leadingDigits n = (n, 0) := by
    rw [leadingDigits, if_pos (Nat.lt_trans h (by decide))]
  have hscaled : (ofNat n).scaled = (n, 0) := by
    simp [scaled, ofNat, hlead, extend]
  have hbound : n < infinityBound := Nat.lt_trans h (by decide +kernel)
  have hone : round53 (Nat.pow 10 0) = 1 := by decide
  cases n with
  | zero => simp [overflows, hscaled]
  | succ n =>
    rw [overflows, hscaled]
    show (decide (308 < 0) ||
      decide (infinityBound ≤ round53 (n + 1) * round53 (Nat.pow 10 0))) = false
    rw [hone, round53_of_lt h, Nat.mul_one, decide_eq_false (Nat.not_le.mpr hbound)]
    rfl

theorem itemsFit_iff {items : List Json} {room : Nat} :
    itemsFit room items = true ↔ ∀ item ∈ items, item.fits room = true := by
  induction items with
  | nil => simp [itemsFit]
  | cons item items ih => simp [itemsFit, ih]

theorem membersFit_iff {members : List (String × Json)} {room : Nat} :
    membersFit room (textMembers members) = true ↔ ∀ m ∈ members, m.2.fits room = true := by
  induction members with
  | nil => simp [textMembers_nil, membersFit]
  | cons m members ih =>
    obtain ⟨key, value⟩ := m
    rw [textMembers_cons, membersFit, Bool.and_eq_true, ih, List.forall_mem_cons]

/-- A readable tree can be held. -/
theorem Readable.fits {room : Nat} {j : Json} (h : Readable room j) : j.fits room = true := by
  have hplain := h.plain
  induction hplain generalizing room with
  | null | bool | str => rfl
  | num lt => simp [ofNat, Json.fits, Numeral.overflows_ofNat lt]
  | arr _ ih =>
    obtain ⟨inner, rfl, hitems⟩ := readable_arr.mp h
    exact itemsFit_iff.mpr fun item hitem => ih item hitem (hitems item hitem)
  | obj _ ih =>
    obtain ⟨inner, rfl, hmembers⟩ := readable_object.mp h
    exact membersFit_iff.mpr fun m hm => ih m hm (hmembers m hm)

theorem membersFit_of_readable {room : Nat} {members : List (String × Json)}
    (h : ∀ m ∈ members, Readable room m.2) : membersFit room (textMembers members) = true :=
  membersFit_iff.mpr fun m hm => (h m hm).fits

/-! ## Members by name -/

theorem lookup_eq_none {key : String} {fields : Fields} (h : key ∉ fields.map Prod.fst) :
    fields.lookup key = none := by
  refine List.lookup_eq_none_iff.mpr fun m hm => ?_
  have hne : key ≠ m.1 := fun heq => h (heq ▸ List.mem_map_of_mem hm)
  simpa using hne

/-- Members with known and different names are found, in writing order. -/
theorem knownMembers?_textMembers {names : List String} {members : List (String × Json)}
    (hnodup : ((members.filter fun m => names.contains m.1).map Prod.fst).Nodup) :
    knownMembers? names (textMembers members) =
      some (members.filter fun m => names.contains m.1) := by
  induction members with
  | nil => rfl
  | cons m members ih =>
    obtain ⟨key, value⟩ := m
    rw [textMembers_cons, knownMembers?, List.filter_cons]
    rw [List.filter_cons] at hnodup
    by_cases hkey : names.contains key = true
    · rw [if_pos hkey] at hnodup ⊢
      -- the name is none of the later ones
      obtain ⟨hnew, hnodup⟩ := List.nodup_cons.mp hnodup
      rw [ih hnodup]
      show (if _ then (if _ then none else _) else _) = _
      rw [if_pos hkey, lookup_eq_none hnew]
      rfl
    · rw [if_neg hkey] at hnodup ⊢
      rw [ih hnodup]
      exact if_neg hkey

theorem otherMembers_textMembers (names : List String) (members : List (String × Json)) :
    otherMembers names (textMembers members) =
      textMembers (members.filter fun m => !names.contains m.1) := by
  rw [otherMembers, textMembers, textMembers, List.filter_map]
  rfl

section Parts

variable {names : List String} {own other : List (String × Json)}
  (hown : ∀ m ∈ own, names.contains m.1 = true) (hother : ∀ m ∈ other, names.contains m.1 = false)

include hown hother

/-- Members are told apart by name. -/
theorem knownMembers?_append (hnodup : (own.map Prod.fst).Nodup) :
    knownMembers? names (textMembers (own ++ other)) = some own := by
  have hfilter : ((own ++ other).filter fun m => names.contains m.1) = own := by
    rw [List.filter_append, List.filter_eq_self.mpr hown,
      List.filter_eq_nil_iff.mpr fun m hm => Bool.eq_false_iff.mp (hother m hm), List.append_nil]
  rw [knownMembers?_textMembers (hfilter.symm ▸ hnodup), hfilter]

theorem otherMembers_append :
    otherMembers names (textMembers (own ++ other)) = textMembers other := by
  have hnone : (own.filter fun m => !names.contains m.1) = [] :=
    List.filter_eq_nil_iff.mpr fun m hm => by simp [List.contains_iff_mem.mp (hown m hm)]
  have hall : (other.filter fun m => !names.contains m.1) = other :=
    List.filter_eq_self.mpr fun m hm => by rw [hother m hm]; rfl
  rw [otherMembers_textMembers, List.filter_append, hnone, hall, List.nil_append]

end Parts

theorem fields?_object {names : List String} {members : List (String × Json)}
    (hnames : members.map Prod.fst = names) (hnodup : names.Nodup) :
    fields? names (object members) = some members := by
  subst hnames
  have hall : (members.filter fun m => (members.map Prod.fst).contains m.1) = members :=
    List.filter_eq_self.mpr fun m hm => List.contains_iff_mem.mpr (List.mem_map_of_mem hm)
  show knownMembers? (members.map Prod.fst) (textMembers members) = some members
  rw [knownMembers?_textMembers (hall.symm ▸ hnodup), hall]

/-- A record opens as the members that were written. -/
@[simp] theorem record?_object {room : Nat} {names : List String} {members : List (String × Json)}
    (hnames : members.map Prod.fst = names) (hnodup : names.Nodup) :
    record? (room + 1) names (object members) = some (room, members) := by
  rw [record?, fields?_object hnames hnodup]
  rfl

namespace Fields

variable {α : Type} (decode : Json → Option α) (key : String) (value : Json) (fields : Fields)
  (name : String)

theorem lookup_cons :
    List.lookup name ((key, value) :: fields) =
      if name = key then some value else fields.lookup name := by
  rw [List.lookup_cons]
  split
  · next h => rw [if_pos (beq_iff_eq.mp h)]
  · next h => rw [if_neg (beq_eq_false_iff_ne.mp h)]

@[simp] theorem required?_cons :
    required? ((key, value) :: fields) name decode =
      if name = key then decode value else fields.required? name decode := by
  by_cases h : name = key <;> simp [required?, lookup_cons, h]

@[simp] theorem withDefault?_cons (default : α) :
    withDefault? ((key, value) :: fields) name default decode =
      if name = key then decode value else fields.withDefault? name default decode := by
  by_cases h : name = key <;> simp [withDefault?, lookup_cons, h]

@[simp] theorem optional?_nil : optional? [] name decode = some none := rfl

@[simp] theorem optional?_cons_of_ne (h : name ≠ key) :
    optional? ((key, value) :: fields) name decode = fields.optional? name decode := by
  rw [optional?, lookup_cons, if_neg h, optional?]

theorem optional?_cons_self (h : value ≠ .null) :
    optional? ((name, value) :: fields) name decode = (decode value).map some := by
  rw [optional?, lookup_cons, if_pos rfl]
  cases value with
  | null => exact absurd rfl h
  | _ => rfl

theorem optional?_ofOption {encode : α → Json} (hnull : ∀ a, encode a ≠ .null) {a : Option α}
    (h : ∀ x ∈ a, decode (encode x) = some x) :
    optional? ((name, ofOption encode a) :: fields) name decode = some a := by
  cases a with
  | none => rw [optional?, lookup_cons, if_pos rfl, ofOption]
  | some x =>
    rw [ofOption, optional?_cons_self _ _ _ _ (hnull x), h x rfl]
    rfl

@[simp] theorem optional?_ofText (a : Option String) :
    optional? ((name, ofOption ofText a) :: fields) name toText? = some a :=
  optional?_ofOption _ _ _ (fun s => by simp [ofText]) fun _ _ => rfl

end Fields

/-! ## Decoders that undo encoders -/

/-- In every room where the encoding of `a` is readable, it is decoded as `a`. -/
def Inverts {α : Type} (decode : Nat → Json → Option α) (encode : α → Json) (a : α) : Prop :=
  ∀ room, Readable room (encode a) → decode room (encode a) = some a

theorem toWord?_ofNat {n : Nat} (h : n < Numeral.wordLimit) : (ofNat n).toWord? = some n := by
  simp [ofNat, toWord?, Numeral.toWord?, Numeral.toNat?_ofNat, h]

theorem ofNat_ne_null (n : Nat) : ofNat n ≠ .null := by simp [ofNat]

@[simp] theorem toText?_ofText (s : String) : (ofText s).toText? = some s := rfl

theorem Inverts.list {α : Type} {decode : Nat → Json → Option α} {encode : α → Json} {xs : List α}
    (h : ∀ x ∈ xs, Inverts decode encode x) :
    Inverts (fun room => list? room decode) (ofList encode) xs := by
  intro room hread
  obtain ⟨inner, rfl, hitems⟩ := readable_arr.mp hread
  show (xs.map encode).mapM (decode inner) = some xs
  have hstep : ∀ x ∈ xs, decode inner (encode x) = some x := fun x hx =>
    h x hx inner (hitems _ (List.mem_map_of_mem hx))
  -- the room is the same for all items
  clear hread h hitems
  induction xs with
  | nil => rfl
  | cons x xs ih =>
    obtain ⟨hx, hxs⟩ := List.forall_mem_cons.mp hstep
    simp [hx, ih hxs]

theorem texts?_ofList {room : Nat} {xs : List String} (h : Readable room (ofList ofText xs)) :
    texts? room (ofList ofText xs) = some xs := by
  have htexts : ∀ x ∈ xs, Inverts (fun _ => toText?) ofText x := fun _ _ _ _ => rfl
  exact Inverts.list htexts room h

end LockDiscipline.Json
