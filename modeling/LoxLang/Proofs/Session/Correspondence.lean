import LoxLang.Proofs.Lexical.Evaluation
import LoxLang.Proofs.Session.Lookup

/-!
# Sessions with frames and with persistent scopes

A meaning of programs in persistent scopes gives a meaning of sessions: sources are read and their
names are bound as in every session, and what is not rejected is executed with that meaning. If
programs agree in both meanings, so do the transcripts of sessions (`Alike.transcriptWith_eq`).
-/
namespace LoxLang

namespace Lexical

/-- The program agrees with what a machine does, if all that was met in it is allowed. -/
def Follows (allowed : Encounter → Prop) (program : Nat → List Stmt → Run Unit) : Prop :=
  ∀ {V : Encounter → Prop}, (∀ x, V x → x.fault? = none ∧ allowed x) →
    ∀ (fuel : Nat) {c : Config V} {stmts : List Stmt}, c.machine.current = Heap.globals →
      Stmt.FormedAll Token.TellsThis stmts → (∀ x ∈ encountersOf stmts, V x) →
        Agree true c (LoxLang.Run.program fuel stmts) (program fuel stmts) fun _ _ _ => True

namespace Session

/-- Runs a source; what is not rejected is executed by `program`. -/
def runWith (program : List Stmt → Run Unit) (source : String) (s : Session) :
    Option (Report × Session) :=
  let items := scan source
  let parsed := Program.ofTokens (scannedTokens items) s.nextId
  match sourceFaults items parsed with
  | [] =>
    match (resolve parsed.statements ∅).2 with
    | [] =>
      match program parsed.statements s.store with
      | .done () store => some (.clean, ⟨store, parsed.nextId⟩)
      | .failed fault store => some (⟨[], some fault⟩, ⟨store, parsed.nextId⟩)
      | .exhausted => none
    | faults => some (⟨faults.map .scope, none⟩, ⟨s.store, parsed.nextId⟩)
  | faults => some (⟨faults, none⟩, ⟨s.store, parsed.nextId⟩)

def transcriptWith (program : Nat → List Stmt → Run Unit) (s : Session) :
    List (Nat × String) → List (Option (Report × String))
  | [] => []
  | (fuel, source) :: runs =>
    match s.runWith (program fuel) source with
    | none => [none]
    | some (report, s) => some (report, s.drain.1) :: s.drain.2.transcriptWith program runs

theorem transcript_eq_transcriptWith (s : Session) (runs : List (Nat × String)) :
    s.transcript runs = s.transcriptWith Run.program runs := by
  induction runs generalizing s with
  | nil => rfl
  | cons run runs ih =>
    obtain ⟨fuel, source⟩ := run
    have hrun : s.run fuel source = s.runWith (Run.program fuel) source := rfl
    rw [transcript, transcriptWith, hrun]
    cases s.runWith (Run.program fuel) source with
    | none => rfl
    | some outcome => simp only [ih]

end Session
end Lexical

namespace Session

variable {s : Session} {t : Lexical.Session} {sink : Sink} {readings : Nat → Float}
  {programs : List (List Stmt)} {source : String} {fuel : Nat} {allowed : Encounter → Prop}
  {program : Nat → List Stmt → Lexical.Run Unit}

/-- What was met in these programs without a fault, and is allowed. -/
def AllowedIn (allowed : Encounter → Prop) (programs : List (List Stmt)) (x : Encounter) : Prop :=
  MetIn programs x ∧ allowed x

theorem AllowedIn.append {x : Encounter} (h : AllowedIn allowed programs x)
    (more : List (List Stmt)) : AllowedIn allowed (programs ++ more) x :=
  ⟨h.1.append more, h.2⟩

/-- All that is met in the source is allowed, whichever identities its expressions have. -/
def Allows (allowed : Encounter → Prop) (source : String) : Prop :=
  ∀ firstId, ∀ x ∈ encountersOf
    (Program.ofTokens (scannedTokens (scan source)) firstId).statements, allowed x

structure Alike (allowed : Encounter → Prop) (programs : List (List Stmt)) (s : Session)
    (t : Lexical.Session) : Prop where
  nextId : t.nextId = s.nextId
  sim : ∃ places, Lexical.Sim (AllowedIn allowed programs) places s.machine t.store

theorem alike_start (allowed : Encounter → Prop) (sink : Sink) (readings : Nat → Float) :
    Alike allowed [] (start sink readings) (Lexical.Session.start sink readings) := by
  refine ⟨rfl, [], ?_, .empty, .empty, rfl, rfl, rfl, rfl, rfl, rfl, ?_⟩
  · constructor
    case globals => exact fun name => rfl
    case globals_lt => exact Nat.zero_lt_one
    case bound =>
      intro frame name hlocal hbound
      simp only [start, Machine.initial, Heap.initial, Frames.getHere?_push] at hbound
      split at hbound
      · next heq => exact absurd heq hlocal
      · simp [Frames.getHere?, Frames.empty] at hbound
    all_goals simp [start, Machine.initial, Heap.initial, Lexical.Session.start,
      Lexical.Store.initial]
  · intro scopes inClass expr hmet
    simp [AllowedIn, MetIn] at hmet

/-- What a run with persistent scopes comes to, from reading to execution. -/
theorem runWith_eq (hnext : t.nextId = s.nextId) (program : List Stmt → Lexical.Run Unit)
    (source : String) :
    t.runWith program source =
      if s.readingFaults source ≠ [] then
        some (⟨s.readingFaults source, none⟩, ⟨t.store, (s.parsed source).nextId⟩)
      else if s.scopeFaults source ≠ [] then
        some (⟨(s.scopeFaults source).map .scope, none⟩, ⟨t.store, (s.parsed source).nextId⟩)
      else
        match program (s.parsed source).statements t.store with
        | .done () store => some (.clean, ⟨store, (s.parsed source).nextId⟩)
        | .failed fault store => some (⟨[], some fault⟩, ⟨store, (s.parsed source).nextId⟩)
        | .exhausted => none := by
  unfold Lexical.Session.runWith readingFaults scopeFaults parsed
  simp only [resolve_eq, hnext]
  cases hread : sourceFaults (scan source)
      (Program.ofTokens (scannedTokens (scan source)) s.nextId) with
  | cons fault faults => simp
  | nil =>
    cases hscope : (encountersOf (Program.ofTokens (scannedTokens (scan source))
        s.nextId).statements).filterMap Encounter.fault? with
    | cons fault faults => simp
    | nil => rfl

/-- One run: both sessions report the same, and hold the same afterwards. -/
theorem Alike.runWith (h : Alike allowed programs s t)
    (hleads : Leads (start sink readings) programs s) (hprogram : Lexical.Follows allowed program)
    (hsource : Allows allowed source) (fuel : Nat) :
    Option.Rel (fun x y => y.1 = x.1 ∧ Alike allowed (programs ++ s.bound source) x.2 y.2)
      (s.run fuel source) (t.runWith (program fuel) source) := by
  obtain ⟨places, hsim⟩ := h.sim
  rw [run_eq, runWith_eq h.nextId]
  by_cases hread : s.readingFaults source = []
  · -- the names of the source are bound, whether it is executed or not
    have hloaded : Lexical.Sim (AllowedIn allowed (programs ++ s.bound source)) places
        (s.loaded source) t.store := by
      apply hsim.withNotes fun x hx => hx.append _
      intro scopes inClass expr hmet
      exact hleads.distance?_loaded hread hmet.1
    by_cases hscope : s.scopeFaults source = []
    · have hmet : ∀ x ∈ encountersOf (s.parsed source).statements,
          AllowedIn allowed (programs ++ s.bound source) x :=
        fun x hx => ⟨metIn_bound hread hscope x hx, hsource s.nextId x hx⟩
      have hagree := hprogram (fun x hx => ⟨hx.1.2, hx.2⟩) fuel (c := ⟨places, _, _, hloaded⟩)
        hleads.sound.2.1 (formedAll_parsed source s) hmet
      simp only [hread, hscope, ne_eq, not_true_eq_false, if_false]
      unfold Lexical.Agree Action.Related at hagree
      cases hx : Run.program fuel (s.parsed source).statements (s.loaded source) <;>
        cases hy : program fuel (s.parsed source).statements t.store <;>
        simp only [hx, hy] at hagree
      case done.done =>
        obtain ⟨c, rfl, rfl, -⟩ := hagree
        exact .some ⟨rfl, rfl, c.places, c.sim⟩
      case failed.failed =>
        obtain ⟨rfl, c, rfl, rfl, -⟩ := hagree
        exact .some ⟨rfl, rfl, c.places, c.sim⟩
      case exhausted.exhausted => exact .none
    · simp only [hread, hscope, ne_eq, not_true_eq_false, not_false_eq_true, if_false, if_true]
      exact .some ⟨rfl, rfl, places, hloaded⟩
  · simp only [hread, ne_eq, not_false_eq_true, if_true]
    refine .some ⟨rfl, rfl, places, ?_⟩
    simpa [bound, hread] using hsim

theorem Alike.drain (h : Alike allowed programs s t) :
    t.drain.1 = s.drain.1 ∧ Alike allowed programs s.drain.2 t.drain.2 := by
  obtain ⟨places, hsim⟩ := h.sim
  refine ⟨?_, h.nextId, places, ?_⟩
  · simp [Lexical.Session.drain, Session.drain, hsim.sink]
  · exact { hsim with sink := by simp [Lexical.Session.drain, Session.drain, hsim.sink] }

theorem Alike.transcriptWith_eq {runs : List (Nat × String)} (h : Alike allowed programs s t)
    (hleads : Leads (start sink readings) programs s) (hprogram : Lexical.Follows allowed program)
    (hruns : ∀ run ∈ runs, Allows allowed run.2) :
    s.transcript runs = t.transcriptWith program runs := by
  induction runs generalizing s t programs with
  | nil => rfl
  | cons run runs ih =>
    obtain ⟨fuel, source⟩ := run
    rw [List.forall_mem_cons] at hruns
    rw [transcript, Lexical.Session.transcriptWith]
    rcases Lexical.rel_cases (h.runWith hleads hprogram hruns.1 fuel) with
      ⟨hrun, hrun'⟩ | ⟨⟨report, s'⟩, ⟨_, t'⟩, hrun, hrun', rfl, halike⟩
    · rw [hrun, hrun']
    · obtain ⟨htext, halike'⟩ := halike.drain
      rw [hrun, hrun']
      simp only [htext, ih halike' (hleads.run hrun).drain hruns.2]

end Session
end LoxLang
