import LoxLang.Proofs.Binding.Renumbering
import LoxLang.Proofs.Execution.Viewing
import LoxLang.Proofs.Reading.Joining
import LoxLang.Proofs.Session.Lookup
import LoxLang.Proofs.Source.Joining

/-!
# Sources in one piece

Two sources can be run one after the other in a session, or in one piece with a newline between
them. It comes to the same (`run_joined`): the second source stands on later lines, and nothing else
tells the two ways apart.
-/
namespace LoxLang

theorem stable_flushFails : Machine.Stable fun m m' => m'.sink.flushFails = m.sink.flushFails where
  refl _ := rfl
  trans h h' := h'.trans h
  heap _ _ _ := rfl
  sink m piece sink h := by
    unfold Sink.write at h
    split_ifs at h <;> cases h <;> rfl
  taken _ := rfl
  inFrame _ _ _ h := h
  deeper _ _ h := h

/-- Two programs in one piece, where the flush between them does not fail. -/
theorem Run.program_append (fuel : Nat) (left right : List Stmt) {m : Machine}
    (h : m.sink.flushFails = false) :
    program fuel (left ++ right) m = (program fuel left >>= fun _ => program fuel right) m := by
  unfold program
  induction left generalizing m with
  | nil =>
    have hflush : flush m = .done () m := by simp [flush, Sink.flush, h]
    simp [programWith, Action.bind_apply, hflush]
  | cons stmt left ih =>
    have hkeep := (preserves_eval_exec stable_flushFails fuel).2 stmt m
    simp only [List.cons_append, programWith, Action.bind_apply]
    cases hx : exec fuel stmt m with
    | done flow m' => exact ih ((hkeep.of_done hx).trans h)
    | failed fault m' => rfl
    | exhausted => rfl

def Report.renumber (f : Nat → Nat) (r : Report) : Report :=
  { r with halt := r.halt.map (RunFault.renumber f) }

namespace Session

def renumber (f : Nat → Nat) (s : Session) : Session :=
  { s with machine := { s.machine with heap := s.machine.heap.renumber f } }

/-- The same session with pieces that were printed earlier. -/
def behind (earlier : List String) (s : Session) : Session :=
  { s with machine := { s.machine with
    sink := { s.machine.sink with pending := s.machine.sink.pending ++ earlier } } }

@[simp] theorem behind_nil (s : Session) : s.behind [] = s := by
  simp [behind]

theorem text_behind (s t : Session) :
    (s.behind t.machine.sink.pending).drain.1 = t.drain.1 ++ s.drain.1 := by
  simp [behind, drain, Sink.drain, Sink.text, String.join_append]

theorem drain_behind (earlier : List String) (s : Session) :
    (s.behind earlier).drain.2 = s.drain.2 := rfl

@[simp] theorem text_renumber (f : Nat → Nat) (s : Session) :
    (s.renumber f).drain.1 = s.drain.1 := rfl

variable {s t : Session} {first second : String}

/-- Nothing keeps the source from being executed. -/
def Loads (source : String) (s : Session) : Prop :=
  s.readingFaults source = [] ∧ s.scopeFaults source = []

def after (source : String) (s : Session) : Session := ⟨s.loaded source, (s.parsed source).nextId⟩

theorem readingFaults_eq_nil_iff {source : String} :
    s.readingFaults source = [] ↔
      scannedFaults (scan source) = [] ∧ (s.parsed source).faults = [] := by
  simp [readingFaults, sourceFaults]

section Loading

variable (h : s.Loads first) (h' : (s.after first).Loads second)

include h h'

theorem parsed_joined : s.parsed (first ++ "\n" ++ second) =
    ⟨(s.parsed first).statements ++ Stmt.renumberAll (· + (1 + newlinesIn first))
      ((s.after first).parsed second).statements, [], ((s.after first).parsed second).nextId⟩ := by
  obtain ⟨hscan, hparse⟩ := readingFaults_eq_nil_iff.mp h.1
  obtain ⟨hscan', hparse'⟩ := readingFaults_eq_nil_iff.mp h'.1
  unfold parsed at hparse hparse' ⊢
  rw [scannedTokens_scan] at hparse hparse'
  simp only [scannedTokens_scan, tokensOf_joined second hscan]
  have hafter : (s.after first).nextId = (Program.ofTokens (tokensOf first ++
      [⟨.eof, "", 1 + newlinesIn first⟩]) s.nextId).nextId := by
    rw [after, parsed, scannedTokens_scan]
  rw [hafter] at hparse' ⊢
  exact Program.ofTokens_append (fun _ => kind_ne_eof_of_mem_tokensOf)
    (fun _ => kind_ne_eof_of_mem_tokensOf) rfl rfl rfl hparse hparse'

theorem encounters_joined : encountersOf (s.parsed (first ++ "\n" ++ second)).statements =
    encountersOf (s.parsed first).statements ++
      (encountersOf ((s.after first).parsed second).statements).map
        (Encounter.renumber (· + (1 + newlinesIn first))) := by
  rw [parsed_joined h h']
  exact encountersOf_append_renumber _ _ _

theorem Loads.joined : s.Loads (first ++ "\n" ++ second) := by
  obtain ⟨hscan, -⟩ := readingFaults_eq_nil_iff.mp h.1
  obtain ⟨hscan', -⟩ := readingFaults_eq_nil_iff.mp h'.1
  constructor
  · rw [readingFaults_eq_nil_iff, parsed_joined h h']
    exact ⟨scannedFaults_joined second hscan hscan', rfl⟩
  · rw [scopeFaults, encounters_joined h h', List.filterMap_append]
    rw [← scopeFaults, h.2, List.nil_append]
    exact filterMap_fault?_renumber_eq_nil _ h'.2

/-- In one piece or in two, the same distances are noted and the same identities are used up. -/
theorem after_joined : s.after (first ++ "\n" ++ second) = (s.after first).after second := by
  have hnotes := congrArg s.machine.distances.noteAll (encounters_joined h h')
  rw [Distances.noteAll_append, Distances.noteAll_map_renumber] at hnotes
  unfold after loaded
  rw [hnotes, parsed_joined h h']
  rfl

end Loading

section First

variable {sink : Sink} {readings : Nat → Float} {programs : List (List Stmt)}

/-- The expressions of a run are older than the identities of the next source. -/
theorem Leads.id_lt (h : Leads (start sink readings) programs s) {source : String}
    {scopes : List Scope} {inClass : Bool} {expr : Expr}
    (hmet : MetIn (programs ++ s.bound source) (.expression scopes inClass expr)) :
    expr.id < (s.parsed source).nextId := by
  obtain ⟨hle, hids, -⟩ := h.accounts
  have hwithin := (distinctWithin_append_bound source hle hids).2.2
  rw [← List.flatMap_append] at hwithin
  have hmem : expr.id ∈ Encounter.ids ((programs ++ s.bound source).flatMap encountersOf) :=
    List.mem_filterMap.mpr ⟨_, hmet.1, rfl⟩
  exact (hwithin _ ((ids_flatMap_encountersOf _).mem_iff.mp hmem)).2

/-- The first source, where the second one is loaded already. -/
def beforeSecond (first second : String) (s : Session) : Viewing :=
  ⟨fun line => line, fun id => id, (s.loaded first).distances,
    ((s.after first).loaded second).distances, [], 0,
    fun expr _ => ((s.after first).loaded second).distances[expr.id]? ≠
      (s.loaded first).distances[expr.id]?⟩

theorem not_differs_of_lt {id : Nat} (hid : id < (s.parsed first).nextId) :
    ((s.after first).loaded second).distances[id]? = (s.loaded first).distances[id]? := by
  apply Distances.getElem?_noteAll_of_notMem
  intro hmem
  have hids := Program.distinctWithin_ofTokens (scannedTokens (scan second)) (s.after first).nextId
  have hmem' := (Stmt.ids_encountersAll [] false false _).mem_iff.mp hmem
  have hle := (hids.2.2 id hmem').1
  exact absurd hid (Nat.not_lt.mpr hle)

/-- To load the second source before the first one is run makes no difference to the first. -/
theorem Leads.program_first (hleads : Leads (start sink readings) programs s) (h : s.Loads first)
    (fuel : Nat) :
    Run.program fuel (s.parsed first).statements ((s.after first).loaded second) =
      (s.beforeSecond first second).outcome
        (Run.program fuel (s.parsed first).statements (s.loaded first)) := by
  have hview : (s.beforeSecond first second).machine (s.loaded first) =
      (s.after first).loaded second := by
    rw [Viewing.machine_eq_of_key rfl]
    simp only [beforeSecond, Viewing.sink, Heap.renumber_id, List.append_nil]
    rfl
  have hpass : ∀ m', Run.programWith (Run.execUntil (s.beforeSecond first second).stop fuel)
      (s.parsed first).statements (s.loaded first) ≠ .failed .stopped m' := by
    intro m' hstopped
    have hvisits := hleads.visits_until h.1 h.2 (s.beforeSecond first second).stop fuel
    obtain ⟨-, -, hseen⟩ := Action.Ensures.of_failed hvisits hstopped
    obtain ⟨expr, m, scopes, inClass, hdiffers, hmet, -⟩ := hseen rfl
    exact hdiffers (not_differs_of_lt (hleads.id_lt hmet))
  have heq := Viewing.program_eq_outcome (fun _ _ hdiffers => hdiffers) rfl hpass (.inl rfl)
  rw [hview, Viewing.stmts_eq_of_key rfl] at heq
  simpa [beforeSecond, Stmt.renumberAll_id] using heq

end First

section Marks

/-- Lines with a mark: even ones are those of older code, odd ones those of the source that is
run. -/
def olderLine (line : Nat) : Nat := 2 * line

def newerLine (line : Nat) : Nat := 2 * line + 1

def unmarked (line : Nat) : Nat := line / 2

/-- The line without its mark, where the source that is run stands `k` lines further down. -/
def moved (k line : Nat) : Nat := if line % 2 = 1 then line / 2 + k else line / 2

@[simp] theorem unmarked_olderLine (line : Nat) : unmarked (olderLine line) = line := by
  unfold unmarked olderLine
  omega

@[simp] theorem unmarked_newerLine (line : Nat) : unmarked (newerLine line) = line := by
  unfold unmarked newerLine
  omega

@[simp] theorem moved_olderLine (k line : Nat) : moved k (olderLine line) = line := by
  unfold moved olderLine
  split_ifs <;> omega

@[simp] theorem moved_newerLine (k line : Nat) : moved k (newerLine line) = line + k := by
  unfold moved newerLine
  split_ifs <;> omega

end Marks

/-- What a run leaves, and how it is reported. -/
def ended (nextId : Nat) : Outcome Machine RunFault Unit → Option (Report × Session)
  | .done () machine => some (.clean, ⟨machine, nextId⟩)
  | .failed fault machine => some (⟨[], some fault⟩, ⟨machine, nextId⟩)
  | .exhausted => none

theorem run_eq_ended {source : String} (h : s.Loads source) (fuel : Nat) :
    s.run fuel source = ended (s.parsed source).nextId
      (Run.program fuel (s.parsed source).statements (s.loaded source)) := by
  rw [run_eq, if_neg (not_not.mpr h.1), if_neg (not_not.mpr h.2)]
  cases Run.program fuel (s.parsed source).statements (s.loaded source) <;> rfl

theorem run_mono {source : String} {fuel fuel' : Nat} {report : Report} (h : s.Loads source)
    (hle : fuel ≤ fuel') (hrun : s.run fuel source = some (report, t)) :
    s.run fuel' source = some (report, t) := by
  rw [run_eq_ended h] at hrun ⊢
  rw [Viewing.program_mono hle, hrun]
  intro hexhausted
  rw [hexhausted] at hrun
  cases hrun

/-- The outcome of a source whose lines are marked as newer, in a session whose lines are marked as
older. -/
def markedOutcome (fuel : Nat) (source : String) (s : Session) :
    Outcome Machine RunFault Unit :=
  Run.program fuel (Stmt.renumberAll newerLine (s.parsed source).statements)
    { s.loaded source with heap := (s.loaded source).heap.renumber olderLine }

/-- Runs a source that can be loaded; every line tells by its mark whether it is one of the source
or of older code. -/
def runMarked (fuel : Nat) (source : String) (s : Session) : Option (Report × Session) :=
  ended (s.parsed source).nextId (s.markedOutcome fuel source)

/-- What a marked session is seen as, if marked lines are seen as `line` tells, behind this
output. -/
def unmarking (line : Nat → Nat) (earlier : List String) (source : String) (s : Session) :
    Viewing :=
  ⟨line, fun id => id, (s.loaded source).distances, (s.loaded source).distances, earlier, 0,
    fun _ _ => False⟩

theorem outcome_unmarking {line : Nat → Nat} (hline : ∀ l, line (olderLine l) = l)
    (earlier : List String) (fuel : Nat) (source : String) (s : Session) :
    (s.unmarking line earlier source).outcome (s.markedOutcome fuel source) =
      Run.program fuel
        (Stmt.renumberAll (fun l => line (newerLine l)) (s.parsed source).statements)
        { s.loaded source with
          sink := (s.unmarking line earlier source).sink s.machine.sink } := by
  have hold : (fun l => line (olderLine l)) = fun l => l := funext hline
  have heq := (s.unmarking line earlier source).program_eq_outcome_of_same (fun _ => rfl) rfl fuel
    (Stmt.renumberAll newerLine (s.parsed source).statements)
    (m := { s.loaded source with heap := (s.loaded source).heap.renumber olderLine })
    rfl (.inl rfl)
  rw [markedOutcome, ← heq, Viewing.machine_eq_of_key rfl, Viewing.stmts_eq_of_key rfl]
  simp only [unmarking, Heap.renumber_renumber, hold, Heap.renumber_id,
    Stmt.renumberAll_renumberAll, Nat.add_zero]
  rfl

theorem ended_unmarking (line : Nat → Nat) (earlier : List String) (fuel : Nat) (source : String)
    (s : Session) :
    ended (s.parsed source).nextId
        ((s.unmarking line earlier source).outcome (s.markedOutcome fuel source)) =
      (s.runMarked fuel source).map fun r =>
        (r.1.renumber line, (r.2.renumber line).behind earlier) := by
  have hstable := Run.preserves_program stable_distances fuel
    (Stmt.renumberAll newerLine (s.parsed source).statements)
    { s.loaded source with heap := (s.loaded source).heap.renumber olderLine }
  unfold runMarked
  cases hx : s.markedOutcome fuel source with
  | done _ m =>
    have hdistances : m.distances = (s.loaded source).distances := hstable.of_done hx
    rw [Viewing.outcome, Viewing.machine_eq_of_key rfl]
    simp only [ended, unmarking, ← hdistances]
    rfl
  | failed fault m =>
    have hdistances : m.distances = (s.loaded source).distances := hstable.of_failed hx
    rw [Viewing.outcome, Viewing.machine_eq_of_key rfl]
    simp only [ended, unmarking, ← hdistances]
    rfl
  | exhausted => rfl

/-- A run is the marked run without its marks. -/
theorem run_eq_map_runMarked {source : String} (h : s.Loads source) (fuel : Nat) :
    s.run fuel source = (s.runMarked fuel source).map fun r =>
      (r.1.renumber unmarked, r.2.renumber unmarked) := by
  have hended := s.ended_unmarking unmarked [] fuel source
  rw [outcome_unmarking unmarked_olderLine] at hended
  simp only [unmarked_newerLine, Stmt.renumberAll_id, behind_nil] at hended
  rw [run_eq_ended h, ← hended]
  simp only [Viewing.sink, unmarking, List.append_nil]
  rfl

section Second

variable {sink : Sink} {readings : Nat → Float} {programs : List (List Stmt)}

/-- Two sources in one piece come to what the first one comes to, if it fails, and else to what the
second one comes to, on later lines and behind the output of the first. -/
theorem Leads.run_joined_eq (hleads : Leads (start sink readings) programs s)
    (hflush : s.machine.sink.flushFails = false) (h : s.Loads first)
    (h' : (s.after first).Loads second) (fuel : Nat) :
    s.run fuel (first ++ "\n" ++ second) = (s.run fuel first).bind fun r =>
      match r.1.halt with
      | some fault => some (⟨[], some fault⟩, ⟨(s.beforeSecond first second).machine r.2.machine,
        ((s.after first).parsed second).nextId⟩)
      | none => (r.2.drain.2.runMarked fuel second).map fun r' =>
        (r'.1.renumber (moved (1 + newlinesIn first)),
          (r'.2.renumber (moved (1 + newlinesIn first))).behind r.2.machine.sink.pending) := by
  have hloaded : s.loaded (first ++ "\n" ++ second) = (s.after first).loaded second :=
    congrArg Session.machine (after_joined h h')
  have hflush' : ((s.after first).loaded second).sink.flushFails = false := hflush
  have hstable := Run.preserves_program stable_distances fuel (s.parsed first).statements
    (s.loaded first)
  rw [run_eq_ended (h.joined h'), parsed_joined h h', hloaded, run_eq_ended h]
  dsimp only
  rw [Run.program_append fuel _ _ hflush', Action.bind_apply, hleads.program_first h]
  cases hx : Run.program fuel (s.parsed first).statements (s.loaded first) with
  | done _ m =>
    have hview : (s.beforeSecond first second).machine m =
        (⟨m, (s.parsed first).nextId⟩ : Session).loaded second := by
      rw [Viewing.machine_eq_of_key rfl]
      simp only [beforeSecond, Viewing.sink, Heap.renumber_id, List.append_nil, loaded,
        hstable.of_done hx]
      rfl
    dsimp only [ended, Option.bind_some, Report.clean]
    rw [← ended_unmarking, outcome_unmarking (moved_olderLine _), Viewing.outcome, hview]
    simp only [moved_newerLine]
    rfl
  | failed fault m => simp [Viewing.outcome, ended, beforeSecond]
  | exhausted => rfl

theorem Loads.of_run {fuel : Nat} {report : Report} (h' : (s.after first).Loads second)
    (hrun : s.run fuel first = some (report, t)) : t.drain.2.Loads second := by
  have hnext : t.drain.2.nextId = (s.after first).nextId := (run_accounts hrun).1
  have hparsed : t.drain.2.parsed second = (s.after first).parsed second := by
    unfold parsed
    rw [hnext]
  unfold Loads readingFaults scopeFaults at h' ⊢
  rw [hparsed]
  exact h'

/-- Two sources in one piece come to an end with the fuel that suffices for both. -/
theorem Leads.isSome_run_joined_iff (hleads : Leads (start sink readings) programs s)
    (hflush : s.machine.sink.flushFails = false) (h : s.Loads first)
    (h' : (s.after first).Loads second) (fuel : Nat) :
    (s.run fuel (first ++ "\n" ++ second)).isSome ↔
      ∃ report t, s.run fuel first = some (report, t) ∧
        (report.halt = none → (t.drain.2.run fuel second).isSome) := by
  rw [hleads.run_joined_eq hflush h h']
  cases hfirst : s.run fuel first with
  | none => simp
  | some r =>
    obtain ⟨report, t⟩ := r
    rw [Option.bind_some]
    cases hhalt : report.halt with
    | some fault => simp [hhalt]
    | none => simp [hhalt, run_eq_map_runMarked (h'.of_run hfirst)]

/-- Prompt and file agree. Let a source be loaded after another, both without a fault, and let the
output be flushed without a failure. Then they are loaded in one piece, too, and the piece comes to
an end with just the fuel with which both do. If the first one fails, the piece fails in the same
way with the same output. Else the piece prints the output of the first and then that of the second,
and it ends and leaves the session in the same way as the second does, up to lines: where a marked
run of the second has a line of this source, the piece has a line that is further down by the
newlines before it, and every line of older code is the same. -/
theorem run_joined {statements statements' : List Stmt} {t₁ t₂ : Session}
    (hleads : Leads (start sink readings) programs s)
    (hflush : s.machine.sink.flushFails = false)
    (hfirst : s.load first = (.ok statements, t₁))
    (hsecond : t₁.load second = (.ok statements', t₂)) :
    (∃ both u, s.load (first ++ "\n" ++ second) = (.ok both, u)) ∧
    (∀ fuel, (s.run fuel (first ++ "\n" ++ second)).isSome ↔
      ∃ report t, s.run fuel first = some (report, t) ∧
        (report.halt = none → (t.drain.2.run fuel second).isSome)) ∧
    ∀ fuel₁ fuel, fuel₁ ≤ fuel →
      (∀ fault t, s.run fuel₁ first = some (⟨[], some fault⟩, t) →
        ∃ u, s.run fuel (first ++ "\n" ++ second) = some (⟨[], some fault⟩, u) ∧
          u.drain.1 = t.drain.1) ∧
      ∀ t, s.run fuel₁ first = some (.clean, t) → ∀ fuel₂ ≤ fuel, ∀ report u,
        t.drain.2.run fuel₂ second = some (report, u) →
        ∃ marked v w, t.drain.2.runMarked fuel second = some (marked, v) ∧
          report = marked.renumber unmarked ∧ u = v.renumber unmarked ∧
          s.run fuel (first ++ "\n" ++ second) =
            some (marked.renumber (moved (1 + newlinesIn first)), w) ∧
          w.drain.1 = t.drain.1 ++ u.drain.1 ∧
          w.drain.2 = (v.renumber (moved (1 + newlinesIn first))).drain.2 := by
  obtain ⟨h, rfl, rfl⟩ := load_eq_ok_iff.mp hfirst
  obtain ⟨h', rfl, rfl⟩ := load_eq_ok_iff.mp hsecond
  have hrun := hleads.run_joined_eq hflush h h'
  refine ⟨⟨_, _, load_eq_ok_iff.mpr ⟨Loads.joined h h', rfl, rfl⟩⟩,
    hleads.isSome_run_joined_iff hflush h h', ?_⟩
  intro fuel₁ fuel hle
  constructor
  · intro fault t hfails
    rw [hrun fuel, run_mono h hle hfails]
    refine ⟨_, rfl, ?_⟩
    simp [beforeSecond, drain, Viewing.machine, Viewing.sink]
  · intro t hclean fuel₂ hle₂ report u hnext
    have hloads := Loads.of_run h' hclean
    have hmarked := run_mono hloads hle₂ hnext
    rw [run_eq_map_runMarked hloads, Option.map_eq_some_iff] at hmarked
    obtain ⟨⟨marked, v⟩, hmarked, heq⟩ := hmarked
    cases heq
    refine ⟨marked, v, _, hmarked, rfl, rfl, ?_, ?_, drain_behind t.machine.sink.pending _⟩
    · rw [hrun fuel, run_mono h hle hclean]
      simp only [Option.bind_some, Report.clean, hmarked, Option.map_some]
    · rw [text_behind, text_renumber, text_renumber]

end Second

def firstPiece : String := "fun f() \x7b\n  return -nil;\n\x7d\nprint true;"

/-- Fails on its second line. -/
def secondPiece : String := "print false;\n-true;"

/-- The marked line 5 is the second line of the second piece. -/
theorem runMarked_secondPiece : ∃ t v,
    (start .unlimited fun _ => 0).run 9 firstPiece = some (.clean, t) ∧
    t.drain.2.runMarked 9 secondPiece =
      some (⟨[], some (.operation ⟨.minus, "-", 5⟩ .operandNotNumber)⟩, v) := by
  have hfirst : ((start .unlimited fun _ => 0).run 9 firstPiece).map
      (fun r => (r.1.faults, r.1.halt)) = some ([], none) := by decide +kernel
  have hsecond : (((start .unlimited fun _ => 0).run 9 firstPiece).bind fun r =>
      (r.2.drain.2.runMarked 9 secondPiece).map fun r' => (r'.1.faults, r'.1.halt)) =
        some ([], some (.operation ⟨.minus, "-", 5⟩ .operandNotNumber)) := by decide +kernel
  obtain ⟨⟨⟨_, _⟩, t⟩, hrun, hreport⟩ := Option.map_eq_some_iff.mp hfirst
  rw [hrun, Option.bind_some] at hsecond
  obtain ⟨⟨⟨_, _⟩, v⟩, hmarked, hreport'⟩ := Option.map_eq_some_iff.mp hsecond
  cases hreport
  cases hreport'
  exact ⟨t, v, hrun, hmarked⟩

theorem run_joined_pieces : ∃ t u w,
    (start .unlimited fun _ => 0).run 9 firstPiece = some (.clean, t) ∧
    t.drain.2.run 9 secondPiece =
      some (⟨[], some (.operation ⟨.minus, "-", 2⟩ .operandNotNumber)⟩, u) ∧
    (start .unlimited fun _ => 0).run 9 (firstPiece ++ "\n" ++ secondPiece) =
      some (⟨[], some (.operation ⟨.minus, "-", 6⟩ .operandNotNumber)⟩, w) ∧
    w.drain.1 = t.drain.1 ++ u.drain.1 ∧ w.nextId = u.nextId := by
  have hloads : (start .unlimited fun _ => 0).readingFaults firstPiece = [] ∧
      (start .unlimited fun _ => 0).scopeFaults firstPiece = [] := by decide +kernel
  have hloads' : ((start .unlimited fun _ => 0).after firstPiece).readingFaults secondPiece = [] ∧
      ((start .unlimited fun _ => 0).after firstPiece).scopeFaults secondPiece = [] := by
    decide +kernel
  obtain ⟨t, v, hclean, hmarked⟩ := runMarked_secondPiece
  have hrun := run_eq_map_runMarked (Loads.of_run hloads' hclean) 9
  rw [hmarked, Option.map_some] at hrun
  obtain ⟨-, -, hruns⟩ := run_joined (Leads.refl (start .unlimited fun _ => 0)) rfl
    (load_eq_ok_iff.mpr ⟨hloads, rfl, rfl⟩) (load_eq_ok_iff.mpr ⟨hloads', rfl, rfl⟩)
  obtain ⟨marked, v', w, hmarked', -, -, hjoined, htext, hleft⟩ :=
    (hruns 9 9 le_rfl).2 t hclean 9 le_rfl _ _ hrun
  rw [hmarked] at hmarked'
  cases hmarked'
  have hlines : 1 + newlinesIn firstPiece = 4 := by decide +kernel
  rw [hlines] at hjoined
  have hnext := congrArg Session.nextId hleft
  exact ⟨t, _, w, hclean, hrun, hjoined, htext, hnext⟩

end Session
end LoxLang
