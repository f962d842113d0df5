import LoxLang.Proofs.Execution.Conduct
import LoxLang.Proofs.Reading.Soundness
import LoxLang.Proofs.Session.Lookup

/-!
# What the code of a session was read from

All code that a session can run was read from the sources that were run in it. `Runs` keeps these
sources, and between its runs a session is `Idle`: its heap holds code of that origin only, and no
call is running. What a run of such code can do was said for any origin; here it is said of the runs
of a session, with any native function in the place of the clock.
-/
namespace LoxLang

def Origin.ofSources (sources : List String) (natives : Array Native) : Origin where
  IsToken token := ∃ source ∈ sources, token ∈ scannedTokens (scan source)
  natives := natives
  tellsThis := fun ⟨_, _, htoken⟩ => tellsThis_of_scannedTokens htoken

/-- The code in the heap is of this origin, and no call is running. -/
structure Machine.Idle (o : Origin) (m : Machine) : Prop where
  heap : m.heap.Proper o
  depth : m.depth = 0

namespace Session

variable {s t : Session} {clock : Native} {sink : Sink} {readings : Nat → Float}
  {sources : List String} {fuel : Nat} {source : String} {report : Report} {o : Origin}

/-- A new session with another native function in the place of the clock. -/
def startWith (clock : Native) (sink : Sink) (readings : Nat → Float) : Session :=
  ⟨{ Machine.initial sink readings with heap := { Heap.initial with natives := #[clock] } }, 0⟩

theorem startWith_clock (sink : Sink) (readings : Nat → Float) :
    startWith .clock sink readings = start sink readings := rfl

/-- From one session to another by running these sources. -/
inductive Runs : Session → List String → Session → Prop
  | refl (s : Session) : Runs s [] s
  | run {s t u : Session} {sources : List String} {fuel : Nat} {source : String}
    {report : Report} : Runs s sources t → t.run fuel source = some (report, u) →
      Runs s (sources ++ [source]) u
  | drain {s t : Session} {sources : List String} : Runs s sources t → Runs s sources t.drain.2

/-- The source consists of tokens of this origin. -/
def ReadFrom (o : Origin) (source : String) : Prop :=
  ∀ token ∈ scannedTokens (scan source), o.IsToken token

theorem readFrom_ofSources (natives : Array Native) :
    ∀ source ∈ sources, ReadFrom (.ofSources sources natives) source :=
  fun source hsource _ htoken => ⟨source, hsource, htoken⟩

theorem properAll_parsed (hsource : ReadFrom o source) (hread : s.readingFaults source = []) :
    Stmt.ProperAll o (s.parsed source).statements := by
  have hfaults : (s.parsed source).faults = [] := by
    obtain ⟨-, hgrammar⟩ := List.append_eq_nil_iff.mp hread
    exact List.map_eq_nil_iff.mp hgrammar
  exact ⟨Program.formedAll_ofTokens hsource s.nextId,
    (Program.spelled_of_faults_eq_nil hfaults).canonical⟩

theorem idle_startWith (hnatives : o.natives = #[clock]) :
    (startWith clock sink readings).machine.Idle o where
  heap := ⟨nofun, nofun, hnatives.symm⟩
  depth := rfl

theorem idle_loaded (hs : s.machine.Idle o) (source : String) : (s.loaded source).Idle o :=
  ⟨hs.heap, hs.depth⟩

theorem idle_of_load {statements : List Stmt} (hs : s.machine.Idle o)
    (hsource : ReadFrom o source) (h : s.load source = (.ok statements, t)) :
    t.machine.Idle o ∧ Stmt.ProperAll o statements := by
  obtain ⟨⟨hread, -⟩, rfl, rfl⟩ := load_eq_ok_iff.mp h
  exact ⟨idle_loaded hs source, properAll_parsed hsource hread⟩

/-- One run: the machine is idle again, what `this` was bound to is kept, and what stopped the run
can arise. -/
theorem idle_run (hs : s.machine.Idle o) (hsource : ReadFrom o source)
    (h : s.run fuel source = some (report, t)) :
    t.machine.Idle o ∧ s.machine.heap.frames.KeepsThis t.machine.heap.frames ∧
      ∀ fault, report.halt = some fault → fault.Arises o False := by
  have hloaded := idle_loaded hs source
  rw [run_eq] at h
  split_ifs at h with hread hscope
  · cases h
    exact ⟨⟨hs.heap, hs.depth⟩, .refl _, by simp⟩
  · cases h
    exact ⟨hloaded, .refl _, by simp⟩
  · have hrun := Run.minds_program hloaded.heap hloaded.depth
      (properAll_parsed hsource (not_not.mp hread)) fuel
    split at h
    · next hdone =>
      cases h
      obtain ⟨hheap, hretain, -⟩ := hrun.of_done hdone
      exact ⟨⟨hheap, hretain.depth.trans hloaded.depth⟩, hretain.frames, by simp [Report.clean]⟩
    · next hfailed =>
      cases h
      obtain ⟨hheap, hretain, harises⟩ := hrun.of_failed hfailed
      refine ⟨⟨hheap, hretain.depth.trans hloaded.depth⟩, hretain.frames, ?_⟩
      rintro fault ⟨⟩
      exact harises
    · cases h

/-- All runs: the origin holds the sources of the whole history from the start. -/
theorem Runs.idle (h : Runs s sources t) (hs : s.machine.Idle o)
    (hsources : ∀ source ∈ sources, ReadFrom o source) : t.machine.Idle o := by
  induction h with
  | refl => exact hs
  | @run t u sources fuel source report _ hrun ih =>
    have hbefore := ih fun other hother => hsources other (List.mem_append_left _ hother)
    exact (idle_run hbefore (hsources source (by simp)) hrun).1
  | drain _ ih =>
    obtain ⟨hheap, hdepth⟩ := ih hsources
    exact ⟨hheap, hdepth⟩

/-- What `this` is bound to is kept from run to run. -/
theorem Runs.keepsThis (h : Runs s sources t) (hs : s.machine.Idle o)
    (hsources : ∀ source ∈ sources, ReadFrom o source) :
    s.machine.heap.frames.KeepsThis t.machine.heap.frames := by
  induction h with
  | refl => exact .refl _
  | @run t u sources fuel source report hbefore hrun ih =>
    have hsources' : ∀ other ∈ sources, ReadFrom o other := fun other hother =>
      hsources other (List.mem_append_left _ hother)
    have hidle := hbefore.idle hs hsources'
    exact (ih hsources').trans (idle_run hidle (hsources source (by simp)) hrun).2.1
  | drain _ ih => exact ih hsources

/-- Before a source is run, the machine is idle, with the source as part of the origin. -/
theorem Runs.idle_ofSources (h : Runs (startWith clock sink readings) sources s)
    (source : String) : s.machine.Idle (.ofSources (sources ++ [source]) #[clock]) :=
  h.idle (idle_startWith rfl) fun other hother =>
    readFrom_ofSources _ other (List.mem_append_left _ hother)

/-- In a run of the source, this comes next in the state `m`, amid these calls. -/
def ReachesAmid (fuel : Nat) (source : String) (s : Session) (running : List Expr)
    (point : Run.Point) (m : Machine) : Prop :=
  ∃ statements t, s.load source = (.ok statements, t) ∧
    Run.ReachesAmid fuel statements t.machine running point m

/-- At each point of a run, what comes next is code of the sources, amid so many calls as the
machine counts. -/
theorem Runs.situated (h : Runs (startWith clock sink readings) sources s) {running : List Expr}
    {point : Run.Point} {m : Machine} (hreach : s.ReachesAmid fuel source running point m) :
    Run.Situated (.ofSources (sources ++ [source]) #[clock]) running point m := by
  obtain ⟨statements, t, hload, hrun⟩ := hreach
  have hsource : ReadFrom (.ofSources (sources ++ [source]) #[clock]) source :=
    readFrom_ofSources _ source (by simp)
  obtain ⟨hidle, hproper⟩ := idle_of_load (h.idle_ofSources source) hsource hload
  exact hrun.situated hidle.heap hidle.depth hproper

end Session
end LoxLang
