import LockDiscipline.Proofs.Report.History

/- Signatures as names of chains. Where function names contain no space, what
   stands behind a name in a signature is empty or begins with a space. So the
   name is read off up to there, and the character behind the space tells an
   arrow from the mark of a loop. Hence chains with one signature are one chain
   (`render_eq_iff`), whatever the names are otherwise, and a report merges
   findings by their chains (`signatures_identify_paths`). -/
namespace LockDiscipline

/-! ## Chains and their signatures -/

/-- The names tell the functions apart, and no name contains a space. -/
structure Program.NamesApart (p : Program) : Prop where
  distinct : (p.snapshot.functions.toList.map Function.name).Nodup
  spaceless : ∀ f ∈ p.snapshot.functions.toList, ' ' ∉ f.name.toList

/-- The chain leads over at least one function, and over functions of the program
    only. -/
structure CallPath.IsOn (p : Program) (path : CallPath) : Prop where
  nonempty : path.nodes ≠ []
  nodes : ∀ n ∈ path.nodes, p.hasNode n = true

namespace Program

variable {p : Program} {m n : Nat}

theorem getElem?_names (hn : p.hasNode n = true) :
    (p.snapshot.functions.toList.map Function.name)[n]? = some (p.nodeName n) := by
  have hlt : n < p.snapshot.functions.size := of_decide_eq_true hn
  have hf : p.snapshot.functions[n]? = some p.snapshot.functions[n] := Array.getElem?_eq_getElem hlt
  rw [List.getElem?_map, Array.getElem?_toList, nodeName, hf, Option.map_some]

theorem NamesApart.nodeName_inj (h : p.NamesApart) (hm : p.hasNode m = true)
    (hn : p.hasNode n = true) (heq : p.nodeName m = p.nodeName n) : m = n := by
  have hlt : m < (p.snapshot.functions.toList.map Function.name).length :=
    (List.getElem?_eq_some_iff.mp (getElem?_names hm)).1
  apply (List.getElem?_inj hlt h.distinct).mp
  rw [getElem?_names hm, getElem?_names hn, heq]

theorem NamesApart.space_not_mem (h : p.NamesApart) (hn : p.hasNode n = true) :
    ' ' ∉ (p.nodeName n).toList := by
  obtain ⟨f, hf, hname⟩ := List.mem_map.mp (List.mem_of_getElem? (getElem?_names hn))
  rw [← hname]
  exact h.spaceless f hf

/-- What stands behind the first name in the signature of a chain, `rest` being the
    other functions. -/
def signatureTail (p : Program) (looped : Bool) : List Nat → List Char
  | [] => if looped then [' ', '[', 'L', 'O', 'O', 'P', ']'] else []
  | n :: rest =>
    [' ', '-', '-', '>', ' '] ++ ((p.nodeName n).toList ++ signatureTail p looped rest)

theorem toList_render (p : Program) (looped : Bool) (n : Nat) (rest : List Nat) :
    (CallPath.render p ⟨n :: rest, looped⟩).toList =
      (p.nodeName n).toList ++ signatureTail p looped rest := by
  induction rest generalizing n with
  | nil =>
    rw [CallPath.render, String.toList_append, signatureTail]
    cases looped <;> simp
  | cons m rest ih =>
    have hstep : (CallPath.render p ⟨n :: m :: rest, looped⟩).toList = (p.nodeName n).toList ++
        (" --> ".toList ++ (CallPath.render p ⟨m :: rest, looped⟩).toList) := by
      rw [CallPath.render, CallPath.render, List.map_cons, List.map_cons,
        String.intercalate_cons_cons]
      simp only [String.toList_append, List.append_assoc]
    rw [hstep, ih]
    rfl

theorem head_signatureTail (p : Program) (looped : Bool) (rest : List Nat) :
    ∀ c ∈ (signatureTail p looped rest).head?, c = ' ' := by
  intro c hc
  cases rest with
  | nil =>
    cases looped with
    | false => simp [signatureTail] at hc
    | true => simpa [signatureTail] using hc.symm
  | cons n rest => simpa [signatureTail] using hc.symm

end Program

/-- A name without spaces ends where the first space stands. -/
theorem Text.append_inj_of_space {a b s t : List Char} (ha : ' ' ∉ a) (hb : ' ' ∉ b)
    (hs : ∀ c ∈ s.head?, c = ' ') (ht : ∀ c ∈ t.head?, c = ' ') (h : a ++ s = b ++ t) :
    a = b ∧ s = t := by
  induction a generalizing b with
  | nil =>
    cases b with
    | nil => exact ⟨rfl, h⟩
    | cons x b =>
      have hx : x = ' ' := hs x (by simp [show s = x :: b ++ t from h])
      exact absurd (by simp [hx]) hb
  | cons x a ih =>
    cases b with
    | nil =>
      have hx : x = ' ' := ht x (by simp [show t = x :: a ++ s from h.symm])
      exact absurd (by simp [hx]) ha
    | cons y b =>
      obtain ⟨rfl, hrest⟩ := List.cons.inj h
      obtain ⟨rfl, hst⟩ := ih (fun hm => ha (List.mem_cons_of_mem x hm))
        (fun hm => hb (List.mem_cons_of_mem x hm)) hrest
      exact ⟨rfl, hst⟩

namespace Program

variable {p : Program}

theorem NamesApart.append_inj (h : p.NamesApart) {m n : Nat} {ms ns : List Nat}
    {looped looped' : Bool} (hm : p.hasNode m = true) (hn : p.hasNode n = true)
    (heq : (p.nodeName m).toList ++ signatureTail p looped ms =
      (p.nodeName n).toList ++ signatureTail p looped' ns) :
    m = n ∧ signatureTail p looped ms = signatureTail p looped' ns := by
  obtain ⟨hname, htail⟩ := Text.append_inj_of_space (h.space_not_mem hm) (h.space_not_mem hn)
    (head_signatureTail p looped ms) (head_signatureTail p looped' ns) heq
  exact ⟨h.nodeName_inj hm hn (String.toList_inj.mp hname), htail⟩

theorem NamesApart.signatureTail_inj (h : p.NamesApart) {ms ns : List Nat} {looped looped' : Bool}
    (hms : ∀ n ∈ ms, p.hasNode n = true) (hns : ∀ n ∈ ns, p.hasNode n = true)
    (heq : signatureTail p looped ms = signatureTail p looped' ns) :
    ms = ns ∧ looped = looped' := by
  induction ms generalizing ns with
  | nil =>
    cases ns with
    | nil => cases looped <;> cases looped' <;> simp_all [signatureTail]
    | cons n ns => cases looped <;> simp [signatureTail] at heq
  | cons m ms ih =>
    cases ns with
    | nil => cases looped' <;> simp [signatureTail] at heq
    | cons n ns =>
      obtain ⟨hm, hms⟩ := List.forall_mem_cons.mp hms
      obtain ⟨hn, hns'⟩ := List.forall_mem_cons.mp hns
      rw [signatureTail, signatureTail, List.append_cancel_left_eq] at heq
      obtain ⟨rfl, htail⟩ := h.append_inj hm hn heq
      obtain ⟨rfl, hlooped⟩ := ih hms hns' htail
      exact ⟨rfl, hlooped⟩

end Program

/-- Chains of a program with distinct names are told apart by their signatures. -/
theorem Program.NamesApart.render_eq_iff {p : Program} (h : p.NamesApart) {a b : CallPath}
    (ha : a.IsOn p) (hb : b.IsOn p) :
    a.render p = b.render p ↔ a.nodes = b.nodes ∧ a.looped = b.looped := by
  obtain ⟨ms, looped⟩ := a
  obtain ⟨ns, looped'⟩ := b
  refine ⟨?_, ?_⟩
  · intro heq
    obtain ⟨m, ms, rfl⟩ := List.exists_cons_of_ne_nil ha.nonempty
    obtain ⟨n, ns, rfl⟩ := List.exists_cons_of_ne_nil hb.nonempty
    obtain ⟨hm, hms⟩ := List.forall_mem_cons.mp ha.nodes
    obtain ⟨hn, hns⟩ := List.forall_mem_cons.mp hb.nodes
    have hlist := congrArg String.toList heq
    rw [toList_render, toList_render] at hlist
    obtain ⟨rfl, htail⟩ := h.append_inj hm hn hlist
    obtain ⟨rfl, rfl⟩ := h.signatureTail_inj hms hns htail
    exact ⟨rfl, rfl⟩
  · intro heq
    obtain ⟨rfl, rfl⟩ := heq
    rfl

/-! ## Findings -/

/-- The violation has the signature of its chain, a chain of the program. -/
structure Violation.IsNamed (p : Program) (v : Violation) : Prop where
  signature : v.signature = v.path.render p
  path : v.path.IsOn p

theorem Program.NamesApart.key_eq_iff {p : Program} (h : p.NamesApart) {v w : Violation}
    (hv : v.IsNamed p) (hw : w.IsNamed p) :
    v.key = w.key ↔ w.discipline = v.discipline ∧ w.path = v.path := by
  have hpath : w.path = v.path ↔ w.path.nodes = v.path.nodes ∧ w.path.looped = v.path.looped := by
    cases w.path
    cases v.path
    rw [CallPath.mk.injEq]
  rw [hpath, ← h.render_eq_iff hw.path hv.path, ← hv.signature, ← hw.signature, eq_comm]
  exact Prod.mk.injEq .. ▸ Iff.rfl

namespace Report

/-- In `r'`, the positions are added to one violation of `r`, which has the
    discipline and the chain; nothing else is different. -/
def Joins (r r' : Report) (d : Discipline) (path : CallPath) (positions : List Position) : Prop :=
  ∃ before w after, r.violations = before ++ w :: after ∧ w.discipline = d ∧ w.path = path ∧
    r'.violations = before ++ w.addPositions positions :: after

theorem exists_split_of_known {v : Violation} {kept : List Violation}
    (h : ∃ w ∈ kept, v.key = w.key) :
    ∃ before w after, kept = before ++ w :: after ∧ v.key = w.key ∧
      insertViolation v kept = before ++ w.addPositions v.positions :: after := by
  induction kept with
  | nil =>
    obtain ⟨w, hw, -⟩ := h
    cases hw
  | cons u kept ih =>
    by_cases hu : v.key = u.key
    · exact ⟨[], u, kept, rfl, hu, insertViolation_cons_of_eq hu⟩
    · obtain ⟨w, hw, hkey⟩ := h
      have hmem : w ∈ kept := (List.mem_cons.mp hw).resolve_left fun heq => hu (heq ▸ hkey)
      obtain ⟨before, x, after, rfl, hx, hinsert⟩ := ih ⟨w, hmem, hkey⟩
      refine ⟨u :: before, x, after, rfl, hx, ?_⟩
      rw [insertViolation_cons_of_ne hu, hinsert, List.cons_append]

end Report

namespace ReportStep

open Report

mutual

theorem signature_recordings (p : Program) : ∀ step : ReportStep,
    ∀ v ∈ recordings p step, v.signature = v.path.render p
  | .violation d l path positions => by
    intro v hv
    rw [recordings, List.mem_singleton] at hv
    rw [hv]
  | .escape e => by simp [recordings]
  | .warning w => by simp [recordings]
  | .merge steps => by
    rw [recordings]
    exact signature_allRecordings p steps

theorem signature_allRecordings (p : Program) : ∀ steps : List ReportStep,
    ∀ v ∈ allRecordings p steps, v.signature = v.path.render p
  | [] => by simp [allRecordings]
  | step :: steps => by
    intro v hv
    rw [allRecordings] at hv
    rcases List.mem_append.mp hv with hv | hv
    · exact signature_recordings p step v hv
    · exact signature_allRecordings p steps v hv

end

variable {p : Program} {steps : List ReportStep} {r : Report}

theorem collected_of_nextAll? (hrun : nextAll? p .empty steps = some r) :
    Collected (allRecordings p steps) r.violations ∧
      ∀ v ∈ allRecordings p steps, ∀ n ∈ v.path.nodes, p.hasNode n = true := by
  have hviolations := violations_nextAll? p .empty steps
  rw [hrun, Option.map_some] at hviolations
  cases hknown : (allRecordings p steps).all (onProgram p) with
  | false =>
    rw [hknown, if_neg Bool.false_ne_true] at hviolations
    cases hviolations
  | true =>
    rw [hknown, if_pos rfl] at hviolations
    have hcollect : r.violations = collect (allRecordings p steps) := Option.some.inj hviolations
    exact ⟨hcollect ▸ collect_collected _, allRecordings_onProgram_iff.mp hknown⟩

theorem isNamed_of_mem_recordings (hrun : nextAll? p .empty steps = some r)
    (hne : ∀ v ∈ allRecordings p steps, v.path.nodes ≠ []) :
    ∀ v ∈ allRecordings p steps, v.IsNamed p := by
  intro v hv
  exact ⟨signature_allRecordings p steps v hv, hne v hv, (collected_of_nextAll? hrun).2 v hv⟩

theorem isNamed_of_mem_violations (hrun : nextAll? p .empty steps = some r)
    (hne : ∀ v ∈ allRecordings p steps, v.path.nodes ≠ []) :
    ∀ w ∈ r.violations, w.IsNamed p := by
  intro w hw
  obtain ⟨before, v, after, hsplit, -, rfl⟩ := (collected_of_nextAll? hrun).1.origin w hw
  have hv := isNamed_of_mem_recordings hrun hne v (by simp [hsplit])
  exact ⟨hv.signature, hv.path⟩

/-- The key of a finding is known exactly when its chain has been recorded. -/
theorem exists_key_iff (h : p.NamesApart) (hrun : nextAll? p .empty steps = some r)
    (hne : ∀ v ∈ allRecordings p steps, v.path.nodes ≠ []) {v : Violation} (hv : v.IsNamed p) :
    (∃ w ∈ r.violations, v.key = w.key) ↔
      ∃ u ∈ allRecordings p steps, u.discipline = v.discipline ∧ u.path = v.path := by
  have hcollected := (collected_of_nextAll? hrun).1
  have hnamed := isNamed_of_mem_recordings hrun hne
  refine ⟨?_, ?_⟩
  · intro hknown
    obtain ⟨w, hw, hkey⟩ := hknown
    obtain ⟨before, u, after, hsplit, -, rfl⟩ := hcollected.origin w hw
    have hu : u ∈ allRecordings p steps := by simp [hsplit]
    exact ⟨u, hu, (h.key_eq_iff hv (hnamed u hu)).mp hkey⟩
  · intro hknown
    obtain ⟨u, hu, hsame⟩ := hknown
    obtain ⟨w, hw, hkey⟩ := hcollected.covered u hu
    refine ⟨w, hw, ?_⟩
    rw [hkey]
    exact (h.key_eq_iff hv (hnamed u hu)).mpr hsame

/-- A finding either joins a violation of its chain or becomes one of its own. -/
theorem insert_cases (h : p.NamesApart) (hrun : nextAll? p .empty steps = some r)
    (hne : ∀ v ∈ allRecordings p steps, v.path.nodes ≠ []) {v : Violation} (hv : v.IsNamed p) :
    if ∃ u ∈ allRecordings p steps, u.discipline = v.discipline ∧ u.path = v.path then
      r.Joins (r.insert v) v.discipline v.path v.positions
    else (r.insert v).violations = r.violations ++ [v] := by
  rw [Report.Joins, violations_insert]
  split
  · next hknown =>
    obtain ⟨before, w, after, hsplit, hw, hjoined⟩ :=
      exists_split_of_known ((exists_key_iff h hrun hne hv).mpr hknown)
    have hwnamed := isNamed_of_mem_violations hrun hne w (by simp [hsplit])
    obtain ⟨hd, hpath⟩ := (h.key_eq_iff hv hwnamed).mp hw
    exact ⟨before, w, after, hsplit, hd, hpath, hjoined⟩
  · next hnew =>
    rw [← exists_key_iff h hrun hne hv] at hnew
    exact insertViolation_of_new fun w hw hkey => hnew ⟨w, hw, hkey⟩

end ReportStep

/-- What joins a violation is not appended. -/
theorem Report.Joins.not_append {r r' : Report} {d : Discipline} {path : CallPath}
    {positions : List Position} (h : r.Joins r' d path positions) (v : Violation) :
    r'.violations ≠ r.violations ++ [v] := by
  intro happend
  obtain ⟨before, w, after, hsplit, -, -, hjoined⟩ := h
  have hlength := congrArg List.length (hjoined.symm.trans happend)
  simp [hsplit] at hlength

open ReportStep in
/-- Where function names are distinct and have no spaces, chains have the same
    signature exactly when they are the same. So a finding joins a violation exactly
    when an earlier one of its discipline has the same chain, and becomes a
    violation of its own exactly when none has. -/
theorem signatures_identify_paths (p : Program) (h : p.NamesApart) :
    (∀ a b : CallPath, a.IsOn p → b.IsOn p →
      (a.render p = b.render p ↔ a.nodes = b.nodes ∧ a.looped = b.looped)) ∧
    ∀ steps r, nextAll? p .empty steps = some r →
      (∀ v ∈ allRecordings p steps, v.path.nodes ≠ []) →
      ∀ d l path positions, path.IsOn p →
        (r.Joins (r.recordViolation p d l path positions) d path positions ↔
          ∃ v ∈ allRecordings p steps, v.discipline = d ∧ v.path = path) ∧
        ((r.recordViolation p d l path positions).violations =
            r.violations ++ [⟨d, l, path, path.render p, positions⟩] ↔
          ¬ ∃ v ∈ allRecordings p steps, v.discipline = d ∧ v.path = path) := by
  refine ⟨fun a b ha hb => h.render_eq_iff ha hb, ?_⟩
  intro steps r hrun hne d l path positions hpath
  have hcases := insert_cases h hrun hne (v := ⟨d, l, path, path.render p, positions⟩) ⟨rfl, hpath⟩
  split at hcases
  · next hknown =>
    exact ⟨iff_of_true hcases hknown, iff_of_false (hcases.not_append _) (not_not_intro hknown)⟩
  · next hnew =>
    exact ⟨iff_of_false (fun hjoins => hjoins.not_append _ hcases) hnew, iff_of_true hcases hnew⟩

/-- Functions with an empty name and with names that look like the parts of a
    signature. -/
def oddNames : Program where
  snapshot :=
    { modulePath := none, buildFlags := [], packages := #[⟨"example.com/app", []⟩], files := #[],
      globals := #[], structs := #[],
      functions := #[⟨"", 0, false, []⟩, ⟨"-->", 0, false, []⟩, ⟨"[LOOP]", 0, false, []⟩],
      edges := [], comments := [] }
  sound := by decide
  graph := _
  graph_eq := rfl
  scope := none

/-- A chain that loops, and one that ends in the function `[LOOP]`. -/
def oddLoop : CallPath := ⟨[0, 1], true⟩

def oddEnd : CallPath := ⟨[0, 1, 2], false⟩

/-- Both chains are recorded, the second in a report that is merged in. -/
def oddSteps : List ReportStep :=
  [.violation .globals (.global 0) oddLoop [.ofLine 0 7],
   .merge [.violation .fields (.field ⟨0, 1⟩) oddEnd [.ofLine 0 8]]]

theorem oddNames_paths_identified :
    oddNames.NamesApart ∧ oddLoop.IsOn oddNames ∧ oddEnd.IsOn oddNames ∧
    oddLoop.render oddNames = " --> --> [LOOP]" ∧
    oddEnd.render oddNames = " --> --> --> [LOOP]" ∧
    (oddLoop.render oddNames = oddEnd.render oddNames ↔
      oddLoop.nodes = oddEnd.nodes ∧ oddLoop.looped = oddEnd.looped) ∧
    ∃ r, ReportStep.nextAll? oddNames .empty oddSteps = some r ∧
      r.Joins (r.recordViolation oddNames .fields (.field ⟨0, 2⟩) oddEnd [.ofLine 0 9])
        .fields oddEnd [.ofLine 0 9] ∧
      (r.recordViolation oddNames .globals (.global 0) oddEnd [.ofLine 0 9]).violations =
        r.violations ++ [⟨.globals, .global 0, oddEnd, oddEnd.render oddNames, [.ofLine 0 9]⟩] := by
  have hnames : oddNames.NamesApart := ⟨by decide, by decide⟩
  have hloop : oddLoop.IsOn oddNames := ⟨by decide, by decide⟩
  have hend : oddEnd.IsOn oddNames := ⟨by decide, by decide⟩
  obtain ⟨hrender, hrecord⟩ := signatures_identify_paths oddNames hnames
  refine ⟨hnames, hloop, hend, by decide, by decide, hrender _ _ hloop hend, _, rfl, ?_, ?_⟩
  · exact (hrecord oddSteps _ rfl (by decide) .fields (.field ⟨0, 2⟩) _ _ hend).1.mpr (by decide)
  · exact (hrecord oddSteps _ rfl (by decide) .globals (.global 0) _ _ hend).2.mpr (by decide)

end LockDiscipline
