import LockDiscipline.Report.Basic
import LockDiscipline.Text.Lines
import Mathlib.Data.List.Induction

/- What a list of recorded violations comes to. An insertion by the index of a
   report is one that goes through its violations (`violations_insert`), and
   `collect` records violations one after the other. Of each key it keeps one:
   the first that was recorded, with the positions of the later ones added
   (`collect_collected`). -/
namespace LockDiscipline

/-! ## First occurrences -/

namespace Text

variable {α : Type} [BEq α] [LawfulBEq α]

theorem mem_distinct {x : α} {xs : List α} : x ∈ distinct xs ↔ x ∈ xs := by
  induction xs using List.reverseRecOn with
  | nil => rfl
  | append_singleton xs y ih =>
    rw [distinct, List.foldl_append, ← distinct, List.foldl_cons, List.foldl_nil, List.mem_append,
      List.mem_singleton]
    by_cases hy : (distinct xs).contains y = true
    · rw [if_pos hy, ih]
      have hy : y ∈ distinct xs := List.contains_iff_mem.mp hy
      constructor
      · exact .inl
      · intro h
        rcases h with h | rfl
        · exact h
        · exact ih.mp hy
    · rw [if_neg hy, List.mem_append, List.mem_singleton, ih]

theorem distinct_concat_of_mem {x : α} {xs : List α} (h : x ∈ xs) :
    distinct (xs ++ [x]) = distinct xs := by
  rw [distinct, List.foldl_append]
  exact if_pos (List.contains_iff_mem.mpr (mem_distinct.mpr h))

theorem distinct_concat_of_not_mem {x : α} {xs : List α} (h : x ∉ xs) :
    distinct (xs ++ [x]) = distinct xs ++ [x] := by
  rw [distinct, List.foldl_append]
  exact if_neg fun hx => h (mem_distinct.mp (List.contains_iff_mem.mp hx))

theorem distinct_distinct (xs : List α) : distinct (distinct xs) = distinct xs := by
  induction xs using List.reverseRecOn with
  | nil => rfl
  | append_singleton xs x ih =>
    by_cases hx : x ∈ xs
    · rw [distinct_concat_of_mem hx, ih]
    · rw [distinct_concat_of_not_mem hx, distinct_concat_of_not_mem (fun h => hx (mem_distinct.mp h)),
        ih]

end Text

/-! ## Positions -/

namespace Violation

/-- The violations are recorded as one. -/
def sameKey (v w : Violation) : Bool := v.key == w.key

theorem sameKey_iff {v w : Violation} : v.sameKey w = true ↔ v.key = w.key := by
  simp [sameKey]

/-- `w` is `v` with more positions after its own. -/
structure Extends (w v : Violation) : Prop where
  discipline : w.discipline = v.discipline
  location : w.location = v.location
  path : w.path = v.path
  signature : w.signature = v.signature
  positions : v.positions <+: w.positions

@[simp]
theorem key_addPositions (v : Violation) (more : List Position) :
    (v.addPositions more).key = v.key := rfl

theorem mem_addPositions {v : Violation} {more : List Position} {pos : Position} :
    pos ∈ (v.addPositions more).positions ↔ pos ∈ v.positions ∨ pos ∈ more := by
  change pos ∈ more.foldl _ v.positions ↔ _
  generalize v.positions = kept
  induction more generalizing kept with
  | nil => simp
  | cons q more ih =>
    rw [List.foldl_cons, ih]
    by_cases hq : kept.contains q = true
    · rw [if_pos hq, List.mem_cons]
      have hq : q ∈ kept := by simpa using hq
      constructor
      · exact Or.imp_right .inr
      · rintro (h | rfl | h)
        · exact .inl h
        · exact .inl hq
        · exact .inr h
    · rw [if_neg hq, List.mem_append, List.mem_singleton, List.mem_cons, or_assoc]

theorem addPositions_append (v : Violation) (ps qs : List Position) :
    v.addPositions (ps ++ qs) = (v.addPositions ps).addPositions qs := by
  simp only [addPositions, List.foldl_append]

/-- What is added is each further position, once and in order. -/
theorem positions_addPositions (v : Violation) (more : List Position) :
    (v.addPositions more).positions =
      v.positions ++ Text.distinct (more.filter (· ∉ v.positions)) := by
  induction more using List.reverseRecOn with
  | nil => exact (List.append_nil _).symm
  | append_singleton more pos ih =>
    have hstep : (v.addPositions (more ++ [pos])).positions =
        if pos ∈ v.positions ∨ pos ∈ more then (v.addPositions more).positions
        else (v.addPositions more).positions ++ [pos] := by
      simp only [← mem_addPositions, addPositions_append]
      simp [addPositions]
    rw [hstep, ih, List.filter_append]
    by_cases hfirst : pos ∈ v.positions
    · simp [hfirst]
    · have hkeep : [pos].filter (· ∉ v.positions) = [pos] := by simp [hfirst]
      have hmem : pos ∈ more.filter (· ∉ v.positions) ↔ pos ∈ more := by simp [hfirst]
      rw [hkeep]
      by_cases hmore : pos ∈ more
      · rw [if_pos (.inr hmore), Text.distinct_concat_of_mem (hmem.mpr hmore)]
      · rw [if_neg (by simp [hfirst, hmore]),
          Text.distinct_concat_of_not_mem (fun h => hmore (hmem.mp h)), List.append_assoc]

theorem addPositions_extends (v : Violation) (more : List Position) :
    (v.addPositions more).Extends v := by
  refine ⟨rfl, rfl, rfl, rfl, ?_⟩
  rw [positions_addPositions]
  exact List.prefix_append _ _

end Violation

/-! ## Recorded violations -/

namespace Report

open Violation

/-- Adds a violation to a list: to the one of the same key, or at the end. -/
def insertViolation (v : Violation) : List Violation → List Violation
  | [] => [v]
  | w :: rest =>
    if v.sameKey w then w.addPositions v.positions :: rest else w :: insertViolation v rest

theorem lookup_zipIdx (k : Discipline × String) (ks : List (Discipline × String)) (n : Nat) :
    (ks.zipIdx n).lookup k = (ks.findIdx? (k == ·)).map (· + n) := by
  induction ks generalizing n with
  | nil => rfl
  | cons x ks ih =>
    rw [List.zipIdx_cons, List.lookup_cons, List.findIdx?_cons]
    cases k == x with
    | true => simp
    | false =>
      have hshift : (fun i => i + (n + 1)) = (· + n) ∘ (· + 1) := by
        funext i
        exact (Nat.succ_add_eq_add_succ i n).symm
      rw [if_neg Bool.false_ne_true, Option.map_map, ← hshift]
      exact ih (n + 1)

/-- A look-up in the index goes through the keys of the violations. -/
theorem indexOf?_eq_findIdx? (r : Report) (d : Discipline) (signature : String) :
    r.indexOf? d signature = r.violations.findIdx? fun w => (d, signature) == w.key := by
  rw [indexOf?, r.index_eq, lookup_zipIdx, List.findIdx?_map]
  exact Option.map_id'

theorem insertViolation_eq (v : Violation) (kept : List Violation) :
    insertViolation v kept = (kept.findIdx? v.sameKey).elim (kept ++ [v])
      fun place => kept.modify place (·.addPositions v.positions) := by
  induction kept with
  | nil => rfl
  | cons w kept ih =>
    rw [insertViolation, List.findIdx?_cons, ih]
    cases v.sameKey w with
    | true => rfl
    | false => cases kept.findIdx? v.sameKey <;> rfl

theorem violations_insert (r : Report) (v : Violation) :
    (r.insert v).violations = insertViolation v r.violations := by
  have hplace : r.indexOf? v.discipline v.signature = r.violations.findIdx? v.sameKey :=
    r.indexOf?_eq_findIdx? v.discipline v.signature
  rw [insertViolation_eq, ← hplace, insert]
  cases r.indexOf? v.discipline v.signature <;> rfl

/-- The violations that are kept of those recorded, in this order. -/
def collect (vs : List Violation) : List Violation :=
  vs.foldl (fun kept v => insertViolation v kept) []

theorem collect_concat (vs : List Violation) (v : Violation) :
    collect (vs ++ [v]) = insertViolation v (collect vs) := by
  rw [collect, List.foldl_append]
  rfl

/-- The kept violation `w` when `v` is recorded. -/
def absorb (v w : Violation) : Violation :=
  if v.sameKey w then w.addPositions v.positions else w

theorem key_absorb (v w : Violation) : (absorb v w).key = w.key := by
  unfold absorb
  split <;> rfl

theorem absorb_of_eq {v w : Violation} (h : v.key = w.key) :
    absorb v w = w.addPositions v.positions := by
  rw [absorb, if_pos (sameKey_iff.mpr h)]

theorem absorb_of_ne {v w : Violation} (h : v.key ≠ w.key) : absorb v w = w := by
  rw [absorb, if_neg fun hs => h (sameKey_iff.mp hs)]

theorem mem_absorb {v w : Violation} {pos : Position} :
    pos ∈ (absorb v w).positions ↔ pos ∈ w.positions ∨ v.key = w.key ∧ pos ∈ v.positions := by
  by_cases h : v.key = w.key
  · rw [absorb_of_eq h, mem_addPositions]
    simp [h]
  · rw [absorb_of_ne h]
    simp [h]

theorem insertViolation_of_new {v : Violation} {kept : List Violation}
    (h : ∀ w ∈ kept, v.key ≠ w.key) : insertViolation v kept = kept ++ [v] := by
  induction kept with
  | nil => rfl
  | cons w kept ih =>
    obtain ⟨hw, hkept⟩ := List.forall_mem_cons.mp h
    rw [insertViolation, if_neg fun hs => hw (sameKey_iff.mp hs), ih hkept, List.cons_append]

theorem insertViolation_of_known {v : Violation} {kept : List Violation}
    (hnodup : (kept.map key).Nodup) (h : ∃ w ∈ kept, v.key = w.key) :
    insertViolation v kept = kept.map (absorb v) := by
  induction kept with
  | nil =>
    obtain ⟨w, hw, -⟩ := h
    cases hw
  | cons w kept ih =>
    rw [List.map_cons, List.nodup_cons] at hnodup
    rw [insertViolation, List.map_cons]
    by_cases hw : v.key = w.key
    · -- no later violation has this key
      have hrest : kept.map (absorb v) = kept := by
        rw [List.map_congr_left (g := id), List.map_id]
        intro u hu
        refine absorb_of_ne fun he => hnodup.1 ?_
        rw [← hw, he]
        exact List.mem_map_of_mem hu
      rw [if_pos (sameKey_iff.mpr hw), hrest, absorb_of_eq hw]
    · rw [if_neg fun hs => hw (sameKey_iff.mp hs), absorb_of_ne hw]
      obtain ⟨u, hu, he⟩ := h
      rcases List.mem_cons.mp hu with rfl | hu
      · exact absurd he hw
      · rw [ih hnodup.2 ⟨u, hu, he⟩]

/-- The positions that are recorded under a key, in this order. -/
def positionsOf (k : Discipline × String) (vs : List Violation) : List Position :=
  (vs.filter (·.key = k)).flatMap positions

theorem positionsOf_concat_of_eq {k : Discipline × String} {v : Violation} (h : v.key = k)
    (vs : List Violation) : positionsOf k (vs ++ [v]) = positionsOf k vs ++ v.positions := by
  simp [positionsOf, h]

theorem positionsOf_concat_of_ne {k : Discipline × String} {v : Violation} (h : v.key ≠ k)
    (vs : List Violation) : positionsOf k (vs ++ [v]) = positionsOf k vs := by
  simp [positionsOf, h]

/-- The violations `kept` are what recording `vs` comes to. -/
structure Collected (vs kept : List Violation) : Prop where
  nodup : (kept.map key).Nodup
  covered : ∀ v ∈ vs, ∃ w ∈ kept, w.key = v.key
  origin : ∀ w ∈ kept, ∃ before v after, vs = before ++ v :: after ∧
    (∀ u ∈ before, u.key ≠ v.key) ∧ w = v.addPositions (positionsOf v.key after)
  positions : ∀ w ∈ kept, ∀ pos,
    pos ∈ w.positions ↔ ∃ v ∈ vs, v.key = w.key ∧ pos ∈ v.positions

namespace Collected

variable {vs kept : List Violation} {v : Violation}

theorem append_of_new (h : Collected vs kept) (hv : ∀ w ∈ kept, v.key ≠ w.key) :
    Collected (vs ++ [v]) (kept ++ [v]) := by
  -- a key that is not kept has not been recorded
  have hvs : ∀ u ∈ vs, u.key ≠ v.key := by
    intro u hu he
    obtain ⟨w, hw, hwu⟩ := h.covered u hu
    exact hv w hw (by rw [hwu, he])
  refine ⟨?_, ?_, ?_, ?_⟩
  · rw [List.map_append, List.map_singleton, List.nodup_append]
    refine ⟨h.nodup, List.pairwise_singleton _ _, ?_⟩
    intro a ha b hb
    obtain ⟨w, hw, rfl⟩ := List.mem_map.mp ha
    rw [List.mem_singleton.mp hb]
    exact Ne.symm (hv w hw)
  · intro u hu
    rcases List.mem_append.mp hu with hu | hu
    · obtain ⟨w, hw, hk⟩ := h.covered u hu
      exact ⟨w, List.mem_append_left _ hw, hk⟩
    · rw [List.mem_singleton.mp hu]
      exact ⟨v, by simp, rfl⟩
  · intro w hw
    rcases List.mem_append.mp hw with hw | hw
    · obtain ⟨before, u, after, rfl, hbefore, rfl⟩ := h.origin w hw
      have hne := hv _ hw
      rw [key_addPositions] at hne
      refine ⟨before, u, after ++ [v], by simp, hbefore, ?_⟩
      rw [positionsOf_concat_of_ne hne]
    · rw [List.mem_singleton.mp hw]
      exact ⟨vs, v, [], rfl, hvs, rfl⟩
  · intro w hw pos
    simp only [List.mem_append, List.mem_singleton, or_and_right, exists_or, exists_eq_left]
    rcases List.mem_append.mp hw with hw | hw
    · rw [← h.positions w hw]
      simp [hv w hw]
    · rw [List.mem_singleton.mp hw]
      constructor
      · exact fun hp => .inr ⟨rfl, hp⟩
      · rintro (⟨u, hu, he, -⟩ | hp)
        · exact absurd he (hvs u hu)
        · exact hp.2

theorem append_of_known (h : Collected vs kept) (hv : ∃ w ∈ kept, v.key = w.key) :
    Collected (vs ++ [v]) (kept.map (absorb v)) := by
  refine ⟨?_, ?_, ?_, ?_⟩
  · have hkeys : (kept.map (absorb v)).map key = kept.map key := by
      rw [List.map_map]
      exact List.map_congr_left fun w _ => key_absorb v w
    rw [hkeys]
    exact h.nodup
  · intro u hu
    have hw : ∃ w ∈ kept, w.key = u.key := by
      rcases List.mem_append.mp hu with hu | hu
      · exact h.covered u hu
      · obtain ⟨w, hw, he⟩ := hv
        exact ⟨w, hw, by rw [List.mem_singleton.mp hu, he]⟩
    obtain ⟨w, hw, he⟩ := hw
    exact ⟨absorb v w, List.mem_map_of_mem hw, by rw [key_absorb, he]⟩
  · intro w' hw'
    obtain ⟨w, hw, rfl⟩ := List.mem_map.mp hw'
    obtain ⟨before, u, after, rfl, hbefore, hfirst⟩ := h.origin w hw
    have hkey : w.key = u.key := by rw [hfirst, key_addPositions]
    refine ⟨before, u, after ++ [v], by simp, hbefore, ?_⟩
    by_cases hk : v.key = w.key
    · rw [absorb_of_eq hk, positionsOf_concat_of_eq (hk.trans hkey), addPositions_append, ← hfirst]
    · rw [absorb_of_ne hk, positionsOf_concat_of_ne (hkey ▸ hk), ← hfirst]
  · intro w' hw' pos
    obtain ⟨w, hw, rfl⟩ := List.mem_map.mp hw'
    simp only [List.mem_append, List.mem_singleton, or_and_right, exists_or, exists_eq_left]
    rw [mem_absorb, h.positions w hw, key_absorb]

theorem append (h : Collected vs kept) (v : Violation) :
    Collected (vs ++ [v]) (insertViolation v kept) := by
  by_cases hv : ∃ w ∈ kept, v.key = w.key
  · rw [insertViolation_of_known h.nodup hv]
    exact h.append_of_known hv
  · have hv : ∀ w ∈ kept, v.key ≠ w.key := fun w hw he => hv ⟨w, hw, he⟩
    rw [insertViolation_of_new hv]
    exact h.append_of_new hv

end Collected

theorem collect_collected (vs : List Violation) : Collected vs (collect vs) := by
  induction vs using List.reverseRecOn with
  | nil => exact ⟨List.nodup_nil, by simp, by simp [collect], by simp [collect]⟩
  | append_singleton vs v ih =>
    rw [collect_concat]
    exact ih.append v

end Report
end LockDiscipline
