import LockDiscipline.Proofs.Guard.Interval

/- Pairing and replaying. The intervals come from a search for a release behind
   each acquire. Replaying the events line by line gives another account of the
   lock: it is held on a line when the last acquire or release before the line
   is an acquire. In a body whose lines do not go down the two agree, but for
   two things that the pairing does on purpose: a deferred release keeps every
   acquire to the end, and so does a second acquire without a release between.

   What carries the proof is the event that comes next after an acquire and
   takes the lock or gives it back (`releaseLine?_eq_some_iff`). Since lines do
   not go down, nothing before that event, or after it, lies on the other side
   of the line that is asked about. -/
namespace LockDiscipline

/-- The event takes the lock or gives it back. -/
def LockEvent.isSwitch (e : LockEvent) : Bool := e.kind == .acquire || e.kind == .release

theorem LockEvent.isSwitch_iff {e : LockEvent} :
    e.isSwitch = true ↔ e.kind = .acquire ∨ e.kind = .release := by
  simp [isSwitch]

namespace HeldInterval

variable {events earlier later : List LockEvent} {e s : LockEvent} {line stop : Nat}

/-- No event is on a lower line than one before it. -/
def Ascending (events : List LockEvent) : Prop :=
  events.Pairwise fun a b => a.pos.line ≤ b.pos.line

/-- The last event on the lines before `line` that takes the lock or gives it back. -/
def lastSwitch? (events : List LockEvent) (line : Nat) : Option LockEvent :=
  (events.filter fun e => e.isSwitch && e.pos.line < line).getLast?

/-- Replayed line by line, the lock is held on `line`: nothing happens to it there,
    and what happened last before is an acquire. -/
def Replayed (events : List LockEvent) (line : Nat) : Prop :=
  (∀ e ∈ events, e.isSwitch = true → e.pos.line ≠ line) ∧
    ∃ e, lastSwitch? events line = some e ∧ e.kind = .acquire

/-- After an acquire on a line before `line` there is another one, and no release
    between the two. -/
def Reacquired (events : List LockEvent) (line : Nat) : Prop :=
  ∃ earlier e between e' later, events = earlier ++ e :: (between ++ e' :: later) ∧
    e.kind = .acquire ∧ e.pos.line < line ∧ e'.kind = .acquire ∧ ∀ s ∈ between, s.kind ≠ .release

/-! ## The next switch -/

theorem split_at_switch (h : later.find? LockEvent.isSwitch = some s) :
    (s.kind = .acquire ∨ s.kind = .release) ∧
      ∃ between rest, later = between ++ s :: rest ∧ ∀ x ∈ between, x.isSwitch = false := by
  obtain ⟨hs, between, rest, hsplit, hquiet⟩ := List.find?_eq_some_iff_append.mp h
  refine ⟨LockEvent.isSwitch_iff.mp hs, between, rest, hsplit, ?_⟩
  intro x hx
  simpa using hquiet x hx

theorem releaseLine?_append_of_quiet (h : ∀ s ∈ earlier, s.isSwitch = false) :
    releaseLine? (earlier ++ later) = releaseLine? later := by
  induction earlier with
  | nil => rfl
  | cons s earlier ih =>
    obtain ⟨hs, hrest⟩ := List.forall_mem_cons.mp h
    have hkind : ¬ (s.kind = .acquire ∨ s.kind = .release) := by
      rw [← LockEvent.isSwitch_iff, hs]
      simp
    rw [List.cons_append, releaseLine?_cons, if_neg fun ha => hkind (.inl ha),
      if_neg fun hr => hkind (.inr hr), ih hrest]

/-- The end of an interval is the line of a release that comes before all other
    switches. -/
theorem releaseLine?_eq_some_iff :
    releaseLine? later = some stop ↔ ∃ s, later.find? LockEvent.isSwitch = some s ∧
      s.kind = .release ∧ s.pos.line = stop := by
  cases hnext : later.find? LockEvent.isSwitch with
  | none =>
    have hquiet : ∀ s ∈ later, s.isSwitch = false := by
      intro s hs
      simpa using List.find?_eq_none.mp hnext s hs
    have hnone : releaseLine? later = none := by
      rw [← List.append_nil later, releaseLine?_append_of_quiet hquiet]
      rfl
    simp [hnone]
  | some s =>
    obtain ⟨hkind, between, rest, rfl, hquiet⟩ := split_at_switch hnext
    rw [releaseLine?_append_of_quiet hquiet, releaseLine?_cons]
    rcases hkind with hkind | hkind
    · simp [hkind]
    · simp [hkind]

theorem releaseLine?_eq_none_of_reacquired {between : List LockEvent} (he : e.kind = .acquire)
    (hbetween : ∀ s ∈ between, s.kind ≠ .release) : releaseLine? (between ++ e :: later) = none := by
  induction between with
  | nil => rw [List.nil_append, releaseLine?_cons, if_pos he]
  | cons s between ih =>
    obtain ⟨hs, hrest⟩ := List.forall_mem_cons.mp hbetween
    rw [List.cons_append, releaseLine?_cons, if_neg hs, ih hrest]
    split <;> rfl

theorem filter_switch_eq_nil_iff :
    events.filter (fun e => e.isSwitch && e.pos.line < line) = [] ↔
      ∀ s ∈ events, s.isSwitch = true → line ≤ s.pos.line := by
  simp only [List.filter_eq_nil_iff, Bool.and_eq_true, decide_eq_true_eq, not_and, Nat.not_lt]

/-- The last switch before a line is followed by switches on or behind the line only. -/
theorem lastSwitch?_eq_some_iff :
    lastSwitch? events line = some e ↔ ∃ earlier later, events = earlier ++ e :: later ∧
      e.isSwitch = true ∧ e.pos.line < line ∧
        ∀ s ∈ later, s.isSwitch = true → line ≤ s.pos.line := by
  rw [lastSwitch?, List.getLast?_eq_some_iff]
  constructor
  · intro h
    obtain ⟨_, h⟩ := h
    obtain ⟨earlier, rest, rfl, -, hrest⟩ := List.filter_eq_append_iff.mp h
    obtain ⟨quiet, later, rfl, -, he, hlater⟩ := List.filter_eq_cons_iff.mp hrest
    simp only [Bool.and_eq_true, decide_eq_true_eq] at he
    exact ⟨earlier ++ quiet, later, by simp, he.1, he.2, filter_switch_eq_nil_iff.mp hlater⟩
  · intro h
    obtain ⟨earlier, later, rfl, he, hlt, hlater⟩ := h
    refine ⟨earlier.filter fun e => e.isSwitch && e.pos.line < line, ?_⟩
    simp [he, hlt, filter_switch_eq_nil_iff.mpr hlater]

/-! ## Covered lines -/

/-- An acquire before a line holds there if all later switches lie behind the line. -/
theorem replayed_of_acquire (hlines : Ascending (earlier ++ e :: later)) (he : e.kind = .acquire)
    (hlt : e.pos.line < line) (hlater : ∀ s ∈ later, s.isSwitch = true → line < s.pos.line) :
    Replayed (earlier ++ e :: later) line := by
  have hearlier : ∀ s ∈ earlier, s.pos.line ≤ e.pos.line := by
    intro s hs
    exact (List.pairwise_append.mp hlines).2.2 s hs e List.mem_cons_self
  refine ⟨?_, e, ?_, he⟩
  · intro s hs hswitch
    rcases List.mem_append.mp hs with hs | hs
    · have := hearlier s hs
      omega
    · rcases List.mem_cons.mp hs with rfl | hs
      · omega
      · have := hlater s hs hswitch
        omega
  · refine lastSwitch?_eq_some_iff.mpr ⟨earlier, later, rfl, ?_, hlt, ?_⟩
    · exact LockEvent.isSwitch_iff.mpr (.inl he)
    · intro s hs hswitch
      exact Nat.le_of_lt (hlater s hs hswitch)

theorem replayed_or_reacquired (hlines : Ascending (earlier ++ e :: later))
    (he : e.kind = .acquire) (hlt : e.pos.line < line)
    (hstop : ∀ stop, releaseLine? later = some stop → line < stop) :
    Replayed (earlier ++ e :: later) line ∨ Reacquired (earlier ++ e :: later) line := by
  -- the next switch is missing, another acquire, or the release that ends the interval
  cases hnext : later.find? LockEvent.isSwitch with
  | none =>
    left
    apply replayed_of_acquire hlines he hlt
    intro s hs hswitch
    exact absurd hswitch (List.find?_eq_none.mp hnext s hs)
  | some s =>
    obtain ⟨hkind, between, rest, hsplit, hquiet⟩ := split_at_switch hnext
    rcases hkind with hkind | hkind
    · right
      refine ⟨earlier, e, between, s, rest, by rw [hsplit], he, hlt, hkind, ?_⟩
      intro x hx hrelease
      have hswitch := LockEvent.isSwitch_iff.mpr (.inr hrelease)
      simp [hquiet x hx] at hswitch
    · left
      have hline : line < s.pos.line :=
        hstop _ (releaseLine?_eq_some_iff.mpr ⟨s, hnext, hkind, rfl⟩)
      apply replayed_of_acquire hlines he hlt
      intro x hx hswitch
      rw [hsplit] at hx hlines
      rcases List.mem_append.mp hx with hx | hx
      · simp [hquiet x hx] at hswitch
      · rcases List.mem_cons.mp hx with rfl | hx
        · exact hline
        · -- what comes after the release is on no lower line
          have hrest := (List.pairwise_append.mp hlines).2.1
          have hrest := (List.pairwise_append.mp (List.pairwise_cons.mp hrest).2).2.1
          exact Nat.lt_of_lt_of_le hline ((List.pairwise_cons.mp hrest).1 x hx)

theorem anyCovers_of_replayed (h : Replayed events line) : anyCovers (ofEvents events) line = true := by
  obtain ⟨hline, e, hlast, he⟩ := h
  obtain ⟨earlier, later, rfl, -, hlt, hlater⟩ := lastSwitch?_eq_some_iff.mp hlast
  refine anyCovers_iff.mpr ⟨earlier, e, later, rfl, he, hlt, .inr ?_⟩
  intro stop hstop
  obtain ⟨s, hnext, -, rfl⟩ := releaseLine?_eq_some_iff.mp hstop
  have hs : s ∈ later := List.mem_of_find?_eq_some hnext
  have hswitch : s.isSwitch = true := List.find?_some hnext
  have hle := hlater s hs hswitch
  have hne := hline s (by simp [hs]) hswitch
  omega

theorem anyCovers_of_reacquired (h : Reacquired events line) :
    anyCovers (ofEvents events) line = true := by
  obtain ⟨earlier, e, between, e', later, rfl, he, hlt, he', hbetween⟩ := h
  refine anyCovers_iff.mpr ⟨earlier, e, _, rfl, he, hlt, .inr ?_⟩
  intro stop hstop
  rw [releaseLine?_eq_none_of_reacquired he' hbetween] at hstop
  cases hstop

theorem anyCovers_iff_of_deferred (h : Deferred events) :
    anyCovers (ofEvents events) line = true ↔
      ∃ e ∈ events, e.kind = .acquire ∧ e.pos.line < line := by
  rw [anyCovers_iff]
  constructor
  · intro hcover
    obtain ⟨earlier, e, later, rfl, he, hlt, -⟩ := hcover
    exact ⟨e, by simp, he, hlt⟩
  · intro hacquire
    obtain ⟨e, hmem, he, hlt⟩ := hacquire
    obtain ⟨earlier, later, rfl⟩ := List.append_of_mem hmem
    exact ⟨earlier, e, later, rfl, he, hlt, .inl h⟩

/-- The intervals agree with the replayed lock. With a deferred release, the lock
    is held on all lines behind an acquire. Without one it is held on the lines
    on which the replay holds it, and behind an acquire that another one follows
    before any release. -/
theorem covers_as_replayed (events : List LockEvent) (hlines : Ascending events) (line : Nat) :
    (Deferred events → (anyCovers (ofEvents events) line = true ↔
      ∃ e ∈ events, e.kind = .acquire ∧ e.pos.line < line)) ∧
    (¬ Deferred events → (anyCovers (ofEvents events) line = true ↔
      Replayed events line ∨ Reacquired events line)) := by
  refine ⟨anyCovers_iff_of_deferred, ?_⟩
  intro hdeferred
  constructor
  · intro hcover
    obtain ⟨earlier, e, later, rfl, he, hlt, hstop⟩ := anyCovers_iff.mp hcover
    have hstop := hstop.resolve_left hdeferred
    exact replayed_or_reacquired hlines he hlt hstop
  · intro h
    rcases h with h | h
    · exact anyCovers_of_replayed h
    · exact anyCovers_of_reacquired h

/-- A stray release on line 1, three switches on line 6, and a second acquire on
    line 9. -/
def tangled : List LockEvent :=
  [⟨.ofLine 0 1, .release⟩, ⟨.ofLine 0 3, .acquire⟩, ⟨.ofLine 0 4, .other⟩,
   ⟨.ofLine 0 6, .release⟩, ⟨.ofLine 0 6, .acquire⟩, ⟨.ofLine 0 6, .release⟩,
   ⟨.ofLine 0 8, .acquire⟩, ⟨.ofLine 0 9, .acquire⟩, ⟨.ofLine 0 12, .release⟩]

/-- Line 5 is held as replayed, line 7 is not held, and line 20 is held because the
    lock is taken twice. -/
theorem tangled_covers_as_replayed :
    Ascending tangled ∧ ¬ Deferred tangled ∧
    (anyCovers (ofEvents tangled) 5 = true ∧ (Replayed tangled 5 ∨ Reacquired tangled 5)) ∧
    (anyCovers (ofEvents tangled) 7 = false ∧ ¬ (Replayed tangled 7 ∨ Reacquired tangled 7)) ∧
    (anyCovers (ofEvents tangled) 20 = true ∧ (Replayed tangled 20 ∨ Reacquired tangled 20)) := by
  have hlines : Ascending tangled := by
    unfold Ascending
    decide
  have hdeferred : ¬ Deferred tangled := by
    unfold Deferred
    decide
  have hcovers : ∀ line, anyCovers (ofEvents tangled) line = true ↔
      Replayed tangled line ∨ Reacquired tangled line := by
    intro line
    exact (covers_as_replayed tangled hlines line).2 hdeferred
  refine ⟨hlines, hdeferred, ⟨by decide, ?_⟩, ⟨by decide, ?_⟩, by decide, ?_⟩
  · exact (hcovers 5).mp (by decide)
  · rw [← hcovers 7]
    decide
  · exact (hcovers 20).mp (by decide)

end HeldInterval
end LockDiscipline
