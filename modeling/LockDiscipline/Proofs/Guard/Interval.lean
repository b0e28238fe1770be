import LockDiscipline.Guard.Discipline
import Mathlib.Data.List.Basic

/- What becomes of intervals when a body gets one more instruction. A line is
   covered when some acquire before it is not followed by a release up to it
   (`anyCovers_iff`); only a release can end an interval, so any other event
   leaves all covered lines covered (`anyCovers_insert`), and an instruction
   that neither uses a location nor releases its lock adds no unprotected use
   (`unprotected_insert`). Nothing but a release uncovers a use
   (`only_release_uncovers`). -/
namespace LockDiscipline

namespace HeldInterval

theorem releaseLine?_cons (e : LockEvent) (later : List LockEvent) :
    releaseLine? (e :: later) =
      if e.kind = .acquire then none
      else if e.kind = .release then some e.pos.line else releaseLine? later := by
  unfold releaseLine?
  cases hkind : e.kind <;> simp [hkind]

/-- An event that is no release brings no new end. -/
theorem releaseLine?_insert {before after : List LockEvent} {e : LockEvent} {stop : Nat}
    (he : e.kind ≠ .release) (h : releaseLine? (before ++ e :: after) = some stop) :
    releaseLine? (before ++ after) = some stop := by
  induction before with
  | nil =>
    rw [List.nil_append, releaseLine?_cons, if_neg he] at h
    split at h
    · cases h
    · exact h
  | cons x before ih =>
    rw [List.cons_append, releaseLine?_cons] at h ⊢
    split at h
    · cases h
    · next hacquire =>
      rw [if_neg hacquire]
      split at h
      · next hrelease => rw [if_pos hrelease, h]
      · next hrelease => rw [if_neg hrelease, ih h]

theorem mem_paired {i : HeldInterval} {events : List LockEvent} :
    i ∈ paired events ↔ ∃ earlier e later, events = earlier ++ e :: later ∧ e.kind = .acquire ∧
      i = ⟨e.pos.line, releaseLine? later⟩ := by
  induction events with
  | nil => simp [paired]
  | cons x events ih =>
    have htail : i ∈ paired events ↔ ∃ earlier e later,
        x :: events = x :: earlier ++ e :: later ∧ e.kind = .acquire ∧
          i = ⟨e.pos.line, releaseLine? later⟩ := by
      simpa using ih
    rw [paired]
    constructor
    · intro h
      split at h
      · next hx =>
        rcases List.mem_cons.mp h with rfl | h
        · exact ⟨[], x, events, rfl, by simpa using hx, rfl⟩
        · obtain ⟨earlier, e, later, hsplit, he⟩ := htail.mp h
          exact ⟨x :: earlier, e, later, hsplit, he⟩
      · obtain ⟨earlier, e, later, hsplit, he⟩ := htail.mp h
        exact ⟨x :: earlier, e, later, hsplit, he⟩
    · rintro ⟨earlier, e, later, hsplit, he, rfl⟩
      cases earlier with
      | nil =>
        obtain ⟨rfl, rfl⟩ := List.cons.inj hsplit
        simp [he]
      | cons y earlier =>
        obtain ⟨rfl, -⟩ := List.cons.inj hsplit
        have hmem := htail.mpr ⟨earlier, e, later, hsplit, he, rfl⟩
        split
        · exact List.mem_cons_of_mem _ hmem
        · exact hmem

/-- Some deferred release is among the events. -/
def Deferred (events : List LockEvent) : Prop := ∃ e ∈ events, e.kind = .deferredRelease

/-- A line is covered when it comes after an acquire and, if nothing defers the
    release, before the release that ends the interval. -/
theorem anyCovers_iff {events : List LockEvent} {line : Nat} :
    anyCovers (ofEvents events) line = true ↔
      ∃ earlier e later, events = earlier ++ e :: later ∧ e.kind = .acquire ∧ e.pos.line < line ∧
        (Deferred events ∨ ∀ stop, releaseLine? later = some stop → line < stop) := by
  have hdeferred : events.any (·.kind == .deferredRelease) = true ↔ Deferred events := by
    simp [Deferred]
  have hcovers : ∀ start stop?, (⟨start, stop?⟩ : HeldInterval).covers line = true ↔
      start < line ∧ ∀ stop, stop? = some stop → line < stop := by
    intro start stop?
    cases stop? <;> simp [covers]
  rw [anyCovers, List.any_eq_true, ofEvents]
  split
  · next h =>
    have h := hdeferred.mp h
    constructor
    · rintro ⟨i, hi, hcover⟩
      obtain ⟨e, he, rfl⟩ := List.mem_map.mp hi
      obtain ⟨hmem, hkind⟩ := List.mem_filter.mp he
      obtain ⟨earlier, later, rfl⟩ := List.append_of_mem hmem
      exact ⟨earlier, e, later, rfl, beq_iff_eq.mp hkind, ((hcovers _ _).mp hcover).1, .inl h⟩
    · rintro ⟨earlier, e, later, rfl, hkind, hlt, -⟩
      refine ⟨⟨e.pos.line, none⟩, List.mem_map.mpr ⟨e, ?_, rfl⟩, (hcovers _ _).mpr ⟨hlt, by simp⟩⟩
      exact List.mem_filter.mpr ⟨by simp, beq_iff_eq.mpr hkind⟩
  · next h =>
    have h : ¬ Deferred events := fun hd => h (hdeferred.mpr hd)
    simp only [mem_paired, h, false_or]
    constructor
    · rintro ⟨_, ⟨earlier, e, later, hsplit, hkind, rfl⟩, hcover⟩
      obtain ⟨hlt, hstop⟩ := (hcovers _ _).mp hcover
      exact ⟨earlier, e, later, hsplit, hkind, hlt, hstop⟩
    · rintro ⟨earlier, e, later, hsplit, hkind, hlt, hstop⟩
      exact ⟨_, ⟨earlier, e, later, hsplit, hkind, rfl⟩, (hcovers _ _).mpr ⟨hlt, hstop⟩⟩

/-- An event that is no release uncovers nothing. -/
theorem anyCovers_insert {before after : List LockEvent} {e : LockEvent} {line : Nat}
    (he : e.kind ≠ .release) (h : anyCovers (ofEvents (before ++ after)) line = true) :
    anyCovers (ofEvents (before ++ e :: after)) line = true := by
  obtain ⟨earlier, a, later, hsplit, hkind, hlt, hstop⟩ := anyCovers_iff.mp h
  have hdeferred : Deferred (before ++ after) → Deferred (before ++ e :: after) := by
    rintro ⟨x, hx, hxkind⟩
    refine ⟨x, ?_, hxkind⟩
    rcases List.mem_append.mp hx with hx | hx
    · exact List.mem_append_left _ hx
    · exact List.mem_append_right _ (List.mem_cons_of_mem _ hx)
  -- the new event comes before the acquire or after it
  have hnew : ∃ earlier' later', before ++ e :: after = earlier' ++ a :: later' ∧
      ∀ stop, releaseLine? later' = some stop → releaseLine? later = some stop := by
    rcases List.append_eq_append_iff.mp hsplit with ⟨middle, rfl, rfl⟩ | ⟨middle, rfl, hmiddle⟩
    · exact ⟨before ++ e :: middle, later, by simp, fun _ => id⟩
    · cases middle with
      | nil =>
        rw [List.nil_append] at hmiddle
        exact ⟨earlier ++ [e], later, by simp [← hmiddle], fun _ => id⟩
      | cons x middle =>
        obtain ⟨rfl, rfl⟩ := List.cons.inj hmiddle
        exact ⟨earlier, middle ++ e :: after, by simp, fun _ => releaseLine?_insert he⟩
  obtain ⟨earlier', later', hsplit', hlater⟩ := hnew
  refine anyCovers_iff.mpr ⟨earlier', a, later', hsplit', hkind, hlt, ?_⟩
  exact hstop.imp hdeferred fun hstop stop hs => hstop stop (hlater stop hs)

end HeldInterval

namespace Discipline

variable (d : Discipline) (lock l : Location)

theorem events_append (before after : List Instruction) :
    d.events (before ++ after) lock = d.events before lock ++ d.events after lock := by
  rw [events, List.filter_append, List.filterMap_append]
  rfl

theorem events_cons (i : Instruction) (after : List Instruction) :
    d.events (i :: after) lock = d.events after lock ∨
      ∃ kind, d.event? i lock = some kind ∧
        d.events (i :: after) lock = ⟨i.pos, kind⟩ :: d.events after lock := by
  cases hknown : i.pos.isKnown with
  | false =>
    left
    simp [events, hknown]
  | true =>
    cases hevent : d.event? i lock with
    | none =>
      left
      simp [events, hknown, hevent]
    | some kind => exact .inr ⟨kind, rfl, by simp [events, hknown, hevent]⟩

/-- An instruction that does not release the lock uncovers no line. -/
theorem intervals_insert {before after : List Instruction} {i : Instruction}
    (hi : d.event? i lock ≠ some .release) {line : Nat}
    (h : HeldInterval.anyCovers (d.intervals (before ++ after) lock) line = true) :
    HeldInterval.anyCovers (d.intervals (before ++ i :: after) lock) line = true := by
  rw [intervals, events_append] at h ⊢
  rcases d.events_cons lock i after with hnone | ⟨kind, hkind, hsome⟩
  · rwa [hnone]
  · rw [hsome]
    refine HeldInterval.anyCovers_insert ?_ h
    rintro rfl
    exact hi hkind

/-- An instruction that neither uses the location nor releases its lock leaves
    some or all of the unprotected uses. -/
theorem unprotected_insert {before after : List Instruction} {i : Instruction}
    (huses : d.uses i l = false) (hi : d.event? i lock ≠ some .release) :
    (d.unprotected (before ++ i :: after) lock l).Sublist
      (d.unprotected (before ++ after) lock l) := by
  have huses : (before ++ i :: after).filter (fun j => j.pos.isKnown && d.uses j l) =
      (before ++ after).filter fun j => j.pos.isKnown && d.uses j l := by
    simp [List.filter_append, huses]
  simp only [unprotected, huses]
  apply List.monotone_filter_right
  intro pos hpos
  rw [Bool.not_eq_true'] at hpos ⊢
  rw [Bool.eq_false_iff] at hpos ⊢
  exact fun hcover => hpos (d.intervals_insert lock hi hcover)

end Discipline

/-- Only a release uncovers a line. Any other event, put anywhere into a list of
    events, leaves all covered lines covered; and an instruction that is neither a
    use of a location nor a release of its lock, put anywhere into a body, leaves
    no use unprotected that was protected. -/
theorem only_release_uncovers :
    (∀ (before after : List LockEvent) (e : LockEvent), e.kind ≠ .release → ∀ line,
      HeldInterval.anyCovers (HeldInterval.ofEvents (before ++ after)) line = true →
        HeldInterval.anyCovers (HeldInterval.ofEvents (before ++ e :: after)) line = true) ∧
    ∀ (d : Discipline) (lock l : Location) (before after : List Instruction) (i : Instruction),
      d.uses i l = false → d.event? i lock ≠ some .release →
        (d.unprotected (before ++ i :: after) lock l).Sublist
          (d.unprotected (before ++ after) lock l) := by
  refine ⟨?_, ?_⟩
  · intro before after e he line hcover
    exact HeldInterval.anyCovers_insert he hcover
  · intro d lock l before after i huses hi
    exact d.unprotected_insert lock l huses hi

/-- The lock is given back on line 6, before the second use of the field. -/
def briefLock : List Instruction :=
  [⟨.ofLine 0 2, none, .call ⟨.external "Lock", true, [.field ⟨0, 0⟩]⟩⟩,
   ⟨.ofLine 0 4, some 1, .fieldAddr (.value 0) ⟨0, 1⟩⟩,
   ⟨.ofLine 0 6, none, .call ⟨.external "Unlock", true, [.field ⟨0, 0⟩]⟩⟩,
   ⟨.ofLine 0 8, some 2, .fieldAddr (.value 0) ⟨0, 1⟩⟩]

def unlockLater : Instruction :=
  ⟨.ofLine 0 7, none, .defer ⟨.external "Unlock", true, [.field ⟨0, 0⟩]⟩⟩

/-- Another acquire, on a line that is out of order, ends the search for the release
    of the first; a deferred release keeps the lock to the end of the body. -/
theorem only_release_uncovers_brief :
    HeldInterval.anyCovers (HeldInterval.ofEvents
      ([⟨.ofLine 0 2, .acquire⟩] ++ ⟨.ofLine 0 9, .acquire⟩ :: [⟨.ofLine 0 6, .release⟩])) 4 = true ∧
    Discipline.fields.event? unlockLater (.field ⟨0, 0⟩) = some .deferredRelease ∧
    Discipline.fields.unprotected (briefLock ++ [unlockLater]) (.field ⟨0, 0⟩) (.field ⟨0, 1⟩) = [] ∧
    Discipline.fields.unprotected briefLock (.field ⟨0, 0⟩) (.field ⟨0, 1⟩) = [.ofLine 0 8] ∧
    (Discipline.fields.unprotected (briefLock ++ [unlockLater]) (.field ⟨0, 0⟩)
        (.field ⟨0, 1⟩)).Sublist
      (Discipline.fields.unprotected briefLock (.field ⟨0, 0⟩) (.field ⟨0, 1⟩)) := by
  obtain ⟨hevents, hbodies⟩ := only_release_uncovers
  refine ⟨?_, by decide, by decide, by decide, ?_⟩
  · exact hevents [_] [_] _ (by decide) 4 (by decide)
  · have h := hbodies .fields (.field ⟨0, 0⟩) (.field ⟨0, 1⟩) briefLock [] unlockLater rfl (by decide)
    rwa [List.append_nil] at h

end LockDiscipline
