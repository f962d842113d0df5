import LoxLang.Proofs.Binding.Notes
import LoxLang.Proofs.Execution.Steps
import LoxLang.Proofs.Source.Rounds
import LoxLang.Session

/-!
# Histories of a session

A session goes from state to state by running sources, whatever comes of each run, and by handing
over its output. `Leads` keeps the programs whose names were bound on the way. Identities go on from
run to run, so no two of these programs share one, and a distance that was noted once is never
changed (`identities_never_collide`).
-/
namespace LoxLang
namespace Session

variable {s t u : Session} {fuel : Nat} {source : String} {report : Report}

def parsed (source : String) (s : Session) : Program :=
  Program.ofTokens (scannedTokens (scan source)) s.nextId

/-- The faults that keep a source from being bound. -/
def readingFaults (source : String) (s : Session) : List StaticFault :=
  sourceFaults (scan source) (s.parsed source)

/-- The faults that keep a source that could be read from being executed. -/
def scopeFaults (source : String) (s : Session) : List ScopeFault :=
  (encountersOf (s.parsed source).statements).filterMap Encounter.fault?

def loaded (source : String) (s : Session) : Machine :=
  { s.machine with
    distances := s.machine.distances.noteAll (encountersOf (s.parsed source).statements) }

/-- The programs whose names are bound when a source is run: one, or none if it cannot be read. -/
def bound (source : String) (s : Session) : List (List Stmt) :=
  if s.readingFaults source = [] then [(s.parsed source).statements] else []

theorem load_eq (source : String) (s : Session) :
    s.load source =
      if s.readingFaults source ≠ [] then
        (.error (s.readingFaults source), ⟨s.machine, (s.parsed source).nextId⟩)
      else if s.scopeFaults source ≠ [] then
        (.error ((s.scopeFaults source).map .scope), ⟨s.loaded source, (s.parsed source).nextId⟩)
      else (.ok (s.parsed source).statements, ⟨s.loaded source, (s.parsed source).nextId⟩) := by
  unfold load read bind readingFaults scopeFaults loaded parsed
  simp only [resolve_eq]
  cases hread : sourceFaults (scan source)
      (Program.ofTokens (scannedTokens (scan source)) s.nextId) with
  | cons fault faults => simp
  | nil =>
    cases hscope : (encountersOf (Program.ofTokens (scannedTokens (scan source))
        s.nextId).statements).filterMap Encounter.fault? with
    | cons fault faults => simp [hscope]
    | nil => simp [hscope]

theorem load_eq_ok_iff {statements : List Stmt} :
    s.load source = (.ok statements, t) ↔
      (s.readingFaults source = [] ∧ s.scopeFaults source = []) ∧
        statements = (s.parsed source).statements ∧
          t = ⟨s.loaded source, (s.parsed source).nextId⟩ := by
  rw [load_eq]
  by_cases hread : s.readingFaults source = [] <;> by_cases hscope : s.scopeFaults source = []
  all_goals simp [hread, hscope, eq_comm]

/-- What a run comes to, from reading to execution. -/
theorem run_eq (fuel : Nat) (source : String) (s : Session) :
    s.run fuel source =
      if s.readingFaults source ≠ [] then
        some (⟨s.readingFaults source, none⟩, ⟨s.machine, (s.parsed source).nextId⟩)
      else if s.scopeFaults source ≠ [] then
        some (⟨(s.scopeFaults source).map .scope, none⟩,
          ⟨s.loaded source, (s.parsed source).nextId⟩)
      else
        match Run.program fuel (s.parsed source).statements (s.loaded source) with
        | .done () machine => some (.clean, ⟨machine, (s.parsed source).nextId⟩)
        | .failed fault machine =>
          some (⟨[], some fault⟩, ⟨machine, (s.parsed source).nextId⟩)
        | .exhausted => none := by
  unfold run
  rw [load_eq]
  by_cases hread : s.readingFaults source = []
  · by_cases hscope : s.scopeFaults source = []
    · cases hx : Run.program fuel (s.parsed source).statements (s.loaded source) <;>
        simp [hread, hscope, hx]
    · simp [hread, hscope]
  · simp [hread]

/-- From one session to another by runs, through the programs whose names were bound. -/
inductive Leads : Session → List (List Stmt) → Session → Prop
  | refl (s : Session) : Leads s [] s
  | run {s t u : Session} {programs : List (List Stmt)} {fuel : Nat} {source : String}
    {report : Report} : Leads s programs t → t.run fuel source = some (report, u) →
      Leads s (programs ++ t.bound source) u
  | drain {s t : Session} {programs : List (List Stmt)} :
    Leads s programs t → Leads s programs t.drain.2

/-- Executing a program leaves the distances alone. -/
theorem stable_distances : Machine.Stable fun m m' => m'.distances = m.distances where
  refl _ := rfl
  trans h h' := h'.trans h
  heap _ _ _ := rfl
  sink _ _ _ _ := rfl
  taken _ := rfl
  inFrame _ _ _ h := h
  deeper _ _ h := h

theorem ids_flatMap_encountersOf (programs : List (List Stmt)) :
    (Encounter.ids (programs.flatMap encountersOf)).Perm (programs.flatMap Stmt.idsAll) := by
  induction programs with
  | nil => exact .refl _
  | cons program programs ih =>
    rw [List.flatMap_cons, List.flatMap_cons, Encounter.ids_append]
    exact (Stmt.ids_encountersAll [] false false program).append ih

/-- A run uses up the identities of the source, and notes its distances if it can be read. -/
theorem run_accounts (h : s.run fuel source = some (report, t)) :
    t.nextId = (s.parsed source).nextId ∧
      t.machine.distances =
        s.machine.distances.noteAll ((s.bound source).flatMap encountersOf) := by
  rw [run_eq] at h
  split_ifs at h with hread hscope
  · cases h
    simp [bound, hread]
  · cases h
    simp_all [bound, loaded]
  · have hkeep := Run.preserves_program stable_distances fuel (s.parsed source).statements
      (s.loaded source)
    split at h
    · next hdone =>
      cases h
      exact ⟨rfl, by simp_all [bound, loaded, hkeep.of_done hdone]⟩
    · next hfailed =>
      cases h
      exact ⟨rfl, by simp_all [bound, loaded, hkeep.of_failed hfailed]⟩
    · cases h

theorem distinctWithin_append_bound {first : Nat} {ids : List Nat} (source : String)
    (hle : first ≤ s.nextId) (hids : DistinctWithin first s.nextId ids) :
    s.nextId ≤ (s.parsed source).nextId ∧ DistinctWithin first (s.parsed source).nextId
      (ids ++ (s.bound source).flatMap Stmt.idsAll) := by
  obtain ⟨hle', hids'⟩ := Program.distinctWithin_ofTokens (scannedTokens (scan source)) s.nextId
  have hbound : DistinctWithin s.nextId (s.parsed source).nextId
      ((s.bound source).flatMap Stmt.idsAll) := by
    unfold bound
    split
    · simpa [parsed] using hids'
    · simp
  exact ⟨hle', hids.append hbound hle hle'⟩

/-- The identities of the programs that were bound on the way are distinct and were not in use
before, and the distances are what was noted for them. -/
theorem Leads.accounts {programs : List (List Stmt)} (h : Leads s programs t) :
    s.nextId ≤ t.nextId ∧ DistinctWithin s.nextId t.nextId (programs.flatMap Stmt.idsAll) ∧
      t.machine.distances = s.machine.distances.noteAll (programs.flatMap encountersOf) := by
  induction h with
  | refl => simp
  | @run t u programs fuel source report _ hrun ih =>
    obtain ⟨hle, hids, hdist⟩ := ih
    obtain ⟨hnext, hnotes⟩ := run_accounts hrun
    obtain ⟨hle', hids'⟩ := distinctWithin_append_bound source hle hids
    rw [hnext, List.flatMap_append]
    refine ⟨hle.trans hle', hids', ?_⟩
    rw [hnotes, hdist, List.flatMap_append, Distances.noteAll_append]
  | drain _ ih => exact ih

theorem Leads.distinctWithin_met {programs : List (List Stmt)} (h : Leads s programs t) :
    DistinctWithin s.nextId t.nextId (Encounter.ids (programs.flatMap encountersOf)) :=
  h.accounts.2.1.of_subperm (ids_flatMap_encountersOf programs).subperm

theorem Leads.nodup_met_bound {programs : List (List Stmt)} (h : Leads s programs t)
    (source : String) :
    (Encounter.ids ((programs ++ t.bound source).flatMap encountersOf)).Nodup := by
  obtain ⟨hle, hids, -⟩ := h.accounts
  have hnodup := (distinctWithin_append_bound source hle hids).2.1
  rw [← List.flatMap_append] at hnodup
  exact (ids_flatMap_encountersOf _).nodup_iff.mpr hnodup

/-- An identity of a program that was bound keeps its distance in all later runs. -/
theorem Leads.getElem?_distances {programs later : List (List Stmt)} {id : Nat}
    (h : Leads s programs t) (h' : Leads t later u) (hid : id ∈ programs.flatMap Stmt.idsAll) :
    u.machine.distances[id]? = t.machine.distances[id]? := by
  rw [h'.accounts.2.2]
  apply Distances.getElem?_noteAll_of_notMem
  intro hmem
  have hold := (h.accounts.2.1.2 id hid).2
  have hnew := (h'.distinctWithin_met.2 id hmem).1
  omega

/-- Identities never collide. In what is read from any tokens they are distinct and lie between the
first one and the next free one. In any history of a session, each distance is noted when there is
none for its identity yet, and no later run changes the distance of an earlier program. -/
theorem identities_never_collide :
    (∀ tokens firstId, DistinctWithin firstId (Program.ofTokens tokens firstId).nextId
      (Stmt.idsAll (Program.ofTokens tokens firstId).statements)) ∧
    ∀ sink readings programs s, Leads (start sink readings) programs s →
      s.machine.distances = Distances.noteAll ∅ (programs.flatMap encountersOf) ∧
      (∀ before x after, programs.flatMap encountersOf = before ++ x :: after →
        ∀ id distance, x.note? = some (id, distance) → (Distances.noteAll ∅ before)[id]? = none) ∧
      (((programs.flatMap encountersOf).filterMap Encounter.note?).map Prod.fst).Nodup ∧
      ∀ later t, Leads s later t → ∀ id ∈ programs.flatMap Stmt.idsAll,
        t.machine.distances[id]? = s.machine.distances[id]? := by
  refine ⟨fun tokens firstId => (Program.distinctWithin_ofTokens tokens firstId).2, ?_⟩
  intro sink readings programs s h
  have hnodup := h.distinctWithin_met.1
  refine ⟨h.accounts.2.2, ?_, Encounter.nodup_noted hnodup, ?_⟩
  · intro before x after hmet id distance hnote
    rw [hmet] at hnodup
    rw [Distances.getElem?_noteAll_of_notMem (Encounter.notMem_ids_before hnodup hnote)]
    rfl
  · intro later t hlater id hid
    exact h.getElem?_distances hlater hid

theorem identities_never_collide_block :
    ∃ report s, (start .unlimited fun _ => 0).run 9 "{ var a; print a; }" = some (report, s) ∧
      ∀ later t, Leads s later t → t.machine.distances[0]? = some 0 := by
  have hsome : ((start .unlimited fun _ => 0).run 9 "{ var a; print a; }").isSome := by
    decide +kernel
  obtain ⟨⟨report, s⟩, hrun⟩ := Option.isSome_iff_exists.mp hsome
  obtain ⟨htable, -, -, hlater⟩ :=
    identities_never_collide.2 .unlimited _ _ s ((Leads.refl _).run hrun)
  refine ⟨report, s, hrun, fun later t h => ?_⟩
  rw [hlater later t h 0 (by decide +kernel), htable]
  decide +kernel

end Session
end LoxLang
