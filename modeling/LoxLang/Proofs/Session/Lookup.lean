import Mathlib
import LoxLang.Proofs.Execution.Visits
import LoxLang.Proofs.Session.History

/-!
# Local names are always found

Whatever has been run in a session before, at every point of a run the chain of frames has one frame
for each scope that was open around the expression when its names were bound, and then the frame of
the globals (`frames_mirror_scopes`). So a name with a distance is always found, and never among the
globals.
-/
namespace LoxLang

namespace Scopes

/-- The scope that a name is bound in has it ready, unless it is the innermost one and the name
waits for its own initializer. -/
theorem ready_of_distance? {scopes : List Scope} {name : String} {distance : Nat}
    (hscopes : Readable scopes) (hd : distance? scopes name = some distance)
    (hhead : scopes.head?.bind (·.get? name) ≠ some false) :
    ∃ scope, scopes[distance]? = some scope ∧ scope.get? name = some true := by
  obtain ⟨hlt, hcontains, -⟩ := List.findIdx?_eq_some_iff_getElem.mp hd
  obtain ⟨ready, hready⟩ := Option.isSome_iff_exists.mp hcontains
  have hsome : scopes[distance]? = some (scopes[distance]) := List.getElem?_eq_getElem hlt
  refine ⟨_, hsome, ?_⟩
  cases ready with
  | true => exact hready
  | false =>
    exfalso
    cases scopes with
    | nil => simp at hlt
    | cons scope outer =>
      cases distance with
      | zero => exact hhead hready
      | succ distance => exact hscopes.1 _ (List.getElem_mem _) name hready

end Scopes

theorem Encounter.exists_reference {scopes : List Scope} {inClass : Bool} {expr : Expr}
    {distance : Nat}
    (h : (Encounter.expression scopes inClass expr).note?.map Prod.snd = some distance) :
    ∃ name, expr.reference? inClass = some name ∧
      Scopes.distance? scopes name.lexeme = some distance := by
  obtain ⟨note, hnote, rfl⟩ := Option.map_eq_some_iff.mp h
  obtain ⟨name, href, hmap⟩ := Option.bind_eq_some_iff.mp hnote
  obtain ⟨distance, hdistance, rfl⟩ := Option.map_eq_some_iff.mp hmap
  exact ⟨name, href, hdistance⟩

theorem Expr.reference?_of_reads {inClass : Bool} {expr : Expr} {id : Nat} {name name' : Token}
    (h : expr = .var id name ∨ expr = .this id name) (href : expr.reference? inClass = some name') :
    name' = name := by
  rcases h with rfl | rfl <;> simp_all [Expr.reference?]

namespace Session

variable {s t : Session} {sink : Sink} {readings : Nat → Float} {programs : List (List Stmt)}

/-- In a run of the source, the expression is evaluated in the state `m`. -/
def Reaches (fuel : Nat) (source : String) (s : Session) (expr : Expr) (m : Machine) : Prop :=
  ∃ statements t, s.load source = (.ok statements, t) ∧
    Run.Reaches fuel statements t.machine expr m

/-- What was met in these programs without a fault. -/
def MetIn (programs : List (List Stmt)) (x : Encounter) : Prop :=
  x ∈ programs.flatMap encountersOf ∧ x.fault? = none

theorem MetIn.append {x : Encounter} (h : MetIn programs x) (more : List (List Stmt)) :
    MetIn (programs ++ more) x := by
  refine ⟨?_, h.2⟩
  rw [List.flatMap_append]
  exact List.mem_append_left _ h.1

theorem formedAll_parsed (source : String) (s : Session) :
    Stmt.FormedAll Token.TellsThis (s.parsed source).statements :=
  Program.formedAll_ofTokens (fun _ => tellsThis_of_scannedTokens) s.nextId

theorem metIn_bound {source : String} (hread : s.readingFaults source = [])
    (hscope : s.scopeFaults source = []) :
    ∀ x ∈ encountersOf (s.parsed source).statements, MetIn (programs ++ s.bound source) x := by
  intro x hx
  constructor
  · rw [List.flatMap_append]
    apply List.mem_append_right
    simpa [bound, hread] using hx
  · exact List.filterMap_eq_nil_iff.mp hscope x hx

theorem distance?_of_noteAll {m : Machine}
    (hnodup : (Encounter.ids (programs.flatMap encountersOf)).Nodup)
    (hnotes : m.distances = Distances.noteAll ∅ (programs.flatMap encountersOf))
    {scopes : List Scope} {inClass : Bool} {expr : Expr}
    (hmet : MetIn programs (.expression scopes inClass expr)) :
    m.distance? expr.id = (Encounter.expression scopes inClass expr).note?.map Prod.snd := by
  rw [Machine.distance?, hnotes]
  exact Distances.getElem?_noteAll_of_mem hnodup hmet.1 rfl rfl

theorem Leads.distance?_loaded (h : Leads (start sink readings) programs s) {source : String}
    (hread : s.readingFaults source = []) {scopes : List Scope} {inClass : Bool} {expr : Expr}
    (hmet : MetIn (programs ++ s.bound source) (.expression scopes inClass expr)) :
    (s.loaded source).distance? expr.id =
      (Encounter.expression scopes inClass expr).note?.map Prod.snd := by
  have hnotes : (s.loaded source).distances =
      Distances.noteAll ∅ ((programs ++ s.bound source).flatMap encountersOf) := by
    have hbefore : s.machine.distances = Distances.noteAll ∅ _ := h.accounts.2.2
    simp [loaded, bound, hread, hbefore, Distances.noteAll_append]
  exact distance?_of_noteAll (h.nodup_met_bound source) hnotes hmet

theorem Leads.fits_loaded (h : Leads (start sink readings) programs s) {source : String}
    (hread : s.readingFaults source = []) (hheap : s.machine.heap.Sound (MetIn programs))
    (hglobals : s.machine.heap.frames.Mirrors s.machine.current []) :
    (s.loaded source).Fits (MetIn (programs ++ s.bound source)) [] := by
  refine ⟨⟨hheap.weaken fun x hx => hx.append _, ?_⟩, hglobals⟩
  intro scopes inClass expr hmet
  exact h.distance?_loaded hread hmet

/-- After any history, all functions can be called and the frame of the globals is current. -/
theorem Leads.sound (h : Leads (start sink readings) programs s) :
    s.machine.heap.Sound (MetIn programs) ∧
      s.machine.heap.frames.Mirrors s.machine.current [] := by
  induction h with
  | refl =>
    refine ⟨⟨?_, ?_⟩, rfl, ?_⟩ <;> simp [start, Machine.initial, Heap.initial, Heap.globals]
  | drain _ ih => exact ih
  | @run t u programs fuel source report hleads hrun ih =>
    obtain ⟨hheap, hglobals⟩ := ih
    rw [run_eq] at hrun
    split_ifs at hrun with hread hscope
    · cases hrun
      exact ⟨hheap.weaken fun x hx => hx.append _, hglobals⟩
    · cases hrun
      exact ⟨hheap.weaken fun x hx => hx.append _, hglobals⟩
    · simp only [ne_eq, not_not] at hread hscope
      have hfits := hleads.fits_loaded hread hheap hglobals
      -- without breakpoints, a run with breakpoints is a run
      have hkeeps := Run.keeps_until (MetIn (programs ++ t.bound source)) (fun _ _ => False) fuel
      rw [(Run.evalUntil_execUntil_never fuel).1, (Run.evalUntil_execUntil_never fuel).2] at hkeeps
      have hvisits := hkeeps.programWith hfits (formedAll_parsed source t)
        (metIn_bound hread hscope)
      split at hrun
      · next hdone =>
        cases hrun
        obtain ⟨hsound, hgrow, -⟩ := Action.Ensures.of_done hvisits hdone
        exact ⟨hsound.heap, (hfits.mono hsound hgrow).mirrors⟩
      · next hfailed =>
        cases hrun
        obtain ⟨hsound, hgrow, -⟩ := Action.Ensures.of_failed hvisits hfailed
        exact ⟨hsound.heap, (hfits.mono hsound hgrow).mirrors⟩
      · cases hrun

/-- A source runs soundly up to any breakpoint. -/
theorem Leads.visits_until (h : Leads (start sink readings) programs s) {source : String}
    (hread : s.readingFaults source = []) (hscope : s.scopeFaults source = [])
    (stop : Expr → Machine → Prop) (fuel : Nat) :
    Run.Visits (MetIn (programs ++ s.bound source)) stop (s.loaded source)
      (Run.programWith (Run.execUntil stop fuel) (s.parsed source).statements) fun _ _ => True := by
  obtain ⟨hheap, hglobals⟩ := h.sound
  exact (Run.keeps_until _ stop fuel).programWith (h.fits_loaded hread hheap hglobals)
    (formedAll_parsed source s) (metIn_bound hread hscope)

/-- What is evaluated at a point of a run was met without a fault, under scopes that the current
frame mirrors. -/
theorem Leads.seen (h : Leads (start sink readings) programs s) {fuel : Nat} {source : String}
    {expr : Expr} {m : Machine} (hreach : s.Reaches fuel source expr m) :
    ∃ scopes inClass, MetIn (programs ++ s.bound source) (.expression scopes inClass expr) ∧
      expr.Formed Token.TellsThis ∧ Scopes.Readable scopes ∧
        m.Fits (MetIn (programs ++ s.bound source)) scopes := by
  obtain ⟨statements, t, hload, m', hstopped⟩ := hreach
  obtain ⟨⟨hread, hscope⟩, rfl, rfl⟩ := load_eq_ok_iff.mp hload
  have hvisits := h.visits_until hread hscope (fun e n => e = expr ∧ n = m) fuel
  obtain ⟨-, -, hseen⟩ := Action.Ensures.of_failed hvisits hstopped
  obtain ⟨_, _, scopes, inClass, ⟨rfl, rfl⟩, hmet, hform, hscopes, hfits⟩ := hseen rfl
  exact ⟨scopes, inClass, hmet, hform, hscopes, hfits⟩

/-- An expression is met under one stack of scopes only. -/
theorem Leads.scopes_unique (h : Leads (start sink readings) programs s) {source : String}
    {scopes scopes' : List Scope} {inClass inClass' : Bool} {expr : Expr}
    (hmet : .expression scopes inClass expr ∈ (programs ++ s.bound source).flatMap encountersOf)
    (hmet' : .expression scopes' inClass' expr ∈
      (programs ++ s.bound source).flatMap encountersOf) : scopes' = scopes := by
  have heq := Encounter.eq_of_id?_eq (h.nodup_met_bound source) hmet' hmet rfl rfl
  cases heq
  rfl

/-- Frames mirror scopes. At every point of a run the expression was met when names were bound. The
chain of frames consists of one frame for each scope under which it was met, and of the frame of the
globals behind them; each name that is ready in a scope is bound in its frame. The distance of an
expression ends at one of these frames, never at the globals, and if the expression reads a name,
the name is found there. -/
theorem frames_mirror_scopes {fuel : Nat} {source : String} {expr : Expr} {m : Machine}
    (h : Leads (start sink readings) programs s) (hreach : s.Reaches fuel source expr m) :
    (∃ scopes inClass, .expression scopes inClass expr ∈
      (programs ++ s.bound source).flatMap encountersOf) ∧
    ∀ scopes inClass, .expression scopes inClass expr ∈
        (programs ++ s.bound source).flatMap encountersOf →
      ∃ locals, m.heap.frames.chain m.current = locals ++ [Heap.globals] ∧
        locals.length = scopes.length ∧ Heap.globals ∉ locals ∧
        (∀ (i : Nat) scope frame, scopes[i]? = some scope → locals[i]? = some frame →
          ∀ name, scope.get? name = some true → (m.heap.frames.getHere? frame name).isSome) ∧
        ∀ distance, m.distance? expr.id = some distance →
          distance < scopes.length ∧
          (∃ frame ∈ locals, m.heap.frames.ancestor? m.current distance = some frame) ∧
          ∀ name, expr = .var expr.id name ∨ expr = .this expr.id name →
            ∃ value, m.heap.frames.getAt? m.current distance name.lexeme = some value ∧
              Run.readName expr.id name m = .done value m := by
  obtain ⟨scopes, inClass, hmet, hform, hscopes, hfits⟩ := h.seen hreach
  refine ⟨⟨scopes, inClass, hmet.1⟩, ?_⟩
  intro scopes' inClass' hmet'
  rw [h.scopes_unique hmet.1 hmet']
  obtain ⟨locals, hchain, hlength, hglobals, hbound⟩ := hfits.mirrors.exists_chain
  refine ⟨locals, hchain, hlength, hglobals, hbound, ?_⟩
  intro distance hdistance
  have hnote := hfits.sound.noted scopes inClass expr hmet
  rw [hdistance] at hnote
  obtain ⟨name, href, hd⟩ := Encounter.exists_reference hnote.symm
  have hlt : distance < scopes.length := (List.findIdx?_eq_some_iff_getElem.mp hd).1
  have hlt' : distance < locals.length := hlength ▸ hlt
  have hframe : m.heap.frames.ancestor? m.current distance = some locals[distance] := by
    rw [Frames.ancestor?_eq_getElem?_chain, hchain, List.getElem?_append_left hlt']
    exact List.getElem?_eq_getElem hlt'
  refine ⟨hlt, ⟨_, List.getElem_mem hlt', hframe⟩, ?_⟩
  intro name' hexpr
  rw [Expr.reference?_of_reads hexpr href] at hd
  have hready := Encounter.ready_of_reads hexpr hmet.2 hform hscopes
  obtain ⟨scope, hscope, hget⟩ := Scopes.ready_of_distance? hscopes hd hready
  have hsome := hbound distance scope _ hscope (List.getElem?_eq_getElem hlt') _ hget
  obtain ⟨value, hvalue⟩ := Option.isSome_iff_exists.mp hsome
  have hat : m.heap.frames.getAt? m.current distance name'.lexeme = some value := by
    rw [Frames.getAt?, hframe]
    exact hvalue
  refine ⟨value, hat, ?_⟩
  simp [Run.readName, Action.bind_apply, Action.view, Machine.valueOf?, hdistance, hat,
    Action.pure_apply]

/-- The machine of a new session in a block, with the distance of one name noted. -/
def blockEntered : Machine :=
  { Machine.initial .unlimited (fun _ => 0) with
    heap := (Heap.initial.addFrame (some Heap.globals) ∅).2
    current := 1
    distances := (∅ : Distances).insert 0 0 }

def blockDeclared : Machine :=
  { blockEntered with
    heap := { blockEntered.heap with frames := blockEntered.heap.frames.define 1 "a" .nil } }

theorem reaches_blockDeclared : (start .unlimited fun _ => 0).Reaches 3 "{ var a; print a; }"
    (.var 0 ⟨.identifier, "a", 1⟩) blockDeclared := by
  have hload : (start .unlimited fun _ => 0).load "{ var a; print a; }" =
      (.ok [.block [.varDecl ⟨.identifier, "a", 1⟩ none, .print (.var 0 ⟨.identifier, "a", 1⟩)]],
        ⟨{ blockEntered with heap := Heap.initial, current := Heap.globals }, 1⟩) := by
    rw [load, read, scan_eq]
    cbv
  refine ⟨_, _, hload, { blockDeclared with current := Heap.globals }, ?_⟩
  have hprint : Run.execUntil (fun e n => e = .var 0 ⟨.identifier, "a", 1⟩ ∧ n = blockDeclared) 2
      (.print (.var 0 ⟨.identifier, "a", 1⟩)) blockDeclared = .failed .stopped blockDeclared :=
    Run.execUntil_print_of_stop ⟨rfl, rfl⟩ 0
  have hvar : Run.execUntil (fun e n => e = .var 0 ⟨.identifier, "a", 1⟩ ∧ n = blockDeclared) 2
      (.varDecl ⟨.identifier, "a", 1⟩ none) blockEntered = .done .normal blockDeclared := rfl
  have hbody := Run.sequence_of_failed hprint []
  rw [← Run.sequence_of_normal hvar] at hbody
  simp only [Run.programWith, Action.bind_apply]
  rw [Run.execUntil_block_of_failed hbody]

theorem frames_mirror_scopes_block :
    (start .unlimited fun _ => 0).Reaches 3 "{ var a; print a; }"
        (.var 0 ⟨.identifier, "a", 1⟩) blockDeclared ∧
      blockDeclared.distance? 0 = some 0 ∧
        ∃ value, blockDeclared.heap.frames.getAt? blockDeclared.current 0 "a" = some value := by
  have hdistance : blockDeclared.distance? 0 = some 0 := by decide +kernel
  obtain ⟨⟨scopes, inClass, hmet⟩, hall⟩ :=
    frames_mirror_scopes (Leads.refl _) reaches_blockDeclared
  obtain ⟨locals, -, -, -, -, hread⟩ := hall scopes inClass hmet
  obtain ⟨-, -, hname⟩ := hread 0 hdistance
  obtain ⟨value, hvalue, -⟩ := hname _ (.inl rfl)
  exact ⟨reaches_blockDeclared, hdistance, value, hvalue⟩

end Session
end LoxLang
