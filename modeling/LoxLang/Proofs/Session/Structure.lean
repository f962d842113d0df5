import LoxLang.Proofs.Execution.Anchors
import LoxLang.Proofs.Session.Context
import LoxLang.Proofs.Session.Origins

/-!
# The structure of a session only grows

What a session has made it keeps: frames with their parents and names, instances with their classes
and fields, classes and functions as they were declared. Every chain of frames ends in the frame of
the globals, between runs and at each point of a run (`structure_only_grows`).
-/
namespace LoxLang
namespace Session

variable {s t : Session} {sink : Sink} {readings : Nat → Float} {programs : List (List Stmt)}

theorem anchored_startWith (clock : Native) (sink : Sink) (readings : Nat → Float) :
    (startWith clock sink readings).machine.Anchored where
  heap := ⟨Heap.anchored_initial.chain, nofun, nofun⟩
  current := Nat.zero_lt_one

theorem Leads.develops (h : Leads s programs t) :
    s.machine.Anchored → s.machine.Develops t.machine := by
  apply h.of_program (R := fun m m' => m.Anchored → m.Develops m')
  · intro m hm
    exact hm.develops
  · intro m m' m'' h h' hm
    exact (h hm).trans (h' (h hm).anchored)
  · intro fuel stmts m
    by_cases hm : m.Anchored
    · exact (Run.develops_program hm).mono (fun _ _ h _ => h) fun _ _ h _ => h
    · unfold Action.Ensures
      split
      · exact fun h => absurd h hm
      · exact fun h => absurd h hm
      · trivial
  · intro m distances hm
    exact ⟨⟨hm.heap, hm.current⟩, .refl _⟩
  · intro m hm
    exact ⟨⟨hm.heap, hm.current⟩, .refl _⟩

theorem ReachesAmid.develops {fuel : Nat} {source : String} {running : List Expr}
    {point : Run.Point} {n : Machine} (h : s.ReachesAmid fuel source running point n)
    (hs : s.machine.Anchored) : s.machine.Develops n := by
  obtain ⟨statements, t, hload, hreach⟩ := h
  obtain ⟨-, -, rfl⟩ := load_eq_ok_iff.mp hload
  have hloaded : (s.loaded source).Anchored := ⟨hs.heap, hs.current⟩
  have hdevelops := Run.ReachesAmid.develops hloaded hreach
  exact ⟨hdevelops.anchored, hdevelops.grows⟩

/-- The structure of a session only grows. From every machine, each evaluation, execution and call
and each program lets the heap grow, also if it fails. So does a run from any point where it is
stopped to any later one and to its end. A session grows with its heap from run to run and up to
each point of a run, and it is anchored there: chains of frames end in the frame of the globals. No
frame is around itself. A class declaration adds a class with the last method of each name. On a
heap that has grown, a field that was set is what a property read finds, whatever the methods are,
and a name that could be read or assigned from a frame still can. -/
theorem structure_only_grows :
    (∀ fuel,
      (∀ expr, Run.Preserves (fun m m' => m.heap.Grows m'.heap) (Run.eval fuel expr)) ∧
      (∀ stmt, Run.Preserves (fun m m' => m.heap.Grows m'.heap) (Run.exec fuel stmt)) ∧
      (∀ callee arguments, Run.Preserves (fun m m' => m.heap.Grows m'.heap)
        (Run.call (Run.exec fuel) callee arguments)) ∧
      (∀ value paren arguments, Run.Preserves (fun m m' => m.heap.Grows m'.heap)
        (Run.invoke (Run.exec fuel) value paren arguments)) ∧
      ∀ stmts, Run.Preserves (fun m m' => m.heap.Grows m'.heap) (Run.program fuel stmts)) ∧
    (∀ fuel stmts m (stop stop' : Run.Stops) n, stop'.Within stop →
      Run.programWith (Run.execAmid stop fuel []) stmts m = .failed .stopped n →
        (∃ running point k, stop running point k ∧ k.heap = n.heap) ∧ m.heap.Grows n.heap ∧
          Run.Grown n.heap (Run.programWith (Run.execAmid stop' fuel []) stmts m)) ∧
    (∀ clock sink readings programs s, Leads (startWith clock sink readings) programs s →
      s.machine.Anchored ∧
      (∀ programs' t, Leads s programs' t → s.machine.Develops t.machine) ∧
      ∀ fuel source running point n, s.ReachesAmid fuel source running point n →
        s.machine.Develops n) ∧
    (∀ (fs : Frames) i distance, fs.ancestor? i (distance + 1) ≠ some i) ∧
    (∀ fuel name methods (m : Machine), m.Anchored → ∃ m' cls,
      Run.exec (fuel + 1) (.classDecl name methods) m = .done .normal m' ∧
        m'.heap.classes = m.heap.classes.push cls ∧ cls.DeclaredBy name methods m.current ∧
          m'.heap.frames.getHere? m.current name.lexeme = some (.cls m.heap.classes.size)) ∧
    (∀ (m m' : Machine) place name v, place < m.heap.instances.size →
      Run.writeField place name v m = .done () m' → m'.heap.field? place name = some v) ∧
    ∀ m m' : Machine, m.heap.Grows m'.heap →
      (∀ place (name : Token), (m.heap.field? place name.lexeme).isSome → ∃ v,
        m'.heap.field? place name.lexeme = some v ∧
          Run.readProperty place name m' = .done v m') ∧
      m.heap.frames.KeepsAccess m'.heap.frames ∧
      ∀ id name, m'.current = m.current → m'.distance? id = m.distance? id →
        (∀ v, Run.readName id name m = .done v m → ∃ v', Run.readName id name m' = .done v' m') ∧
        ∀ v v' m₁, Run.writeName id name v m = .done () m₁ →
          ∃ m₁', Run.writeName id name v' m' = .done () m₁' := by
  have hstable := Machine.stable_heapGrows
  refine ⟨fun fuel => ?_, ?_, ?_, ?_, ?_, ?_, ?_⟩
  · obtain ⟨heval, hexec⟩ := Run.preserves_eval_exec hstable fuel
    exact ⟨heval, hexec, Run.preserves_call hstable hexec, Run.preserves_invoke hstable hexec,
      Run.preserves_program hstable fuel⟩
  · intro fuel stmts m stop stop' n hstop hstopped
    have hcontinues := Run.continues_program fuel stmts m
    have hgrown : Run.Grown m.heap (Run.programWith (Run.execAmid stop fuel []) stmts m) :=
      hcontinues.grows stop
    rw [hstopped] at hgrown
    exact ⟨hcontinues.halts hstopped, hgrown, hcontinues.later hstop hstopped⟩
  · intro clock sink readings programs s h
    have hs := (h.develops (anchored_startWith clock sink readings)).anchored
    exact ⟨hs, fun _ _ h' => h'.develops hs, fun _ _ _ _ _ hreach => hreach.develops hs⟩
  · intro fs i distance h
    exact lt_irrefl i (Frames.ancestor?_lt h)
  · intro fuel name methods m hm
    refine ⟨Run.withClass m name methods, _, ?_, rfl,
      Class.declaredBy_methodTable name methods m.current, ?_⟩
    · rw [Run.exec, Run.execWith, Action.bind_apply, Run.declareClass_apply hm.current]
      rfl
    · rw [Run.withClass, Frames.getHere?_define, Frames.next_define,
        if_pos ⟨rfl, rfl, hm.current⟩]
  · intro m m' place name v hplace hwrite
    cases hwrite
    exact Heap.field?_setField hplace name v
  · intro m m' hgrow
    refine ⟨fun place name hname => ?_, hgrow.frames.keepsAccess, ?_⟩
    · obtain ⟨v, hv⟩ := Option.isSome_iff_exists.mp (hgrow.isSome_field? hname)
      exact ⟨v, hv, Run.readProperty_of_field hv⟩
    · intro id name hcurrent hdistance
      exact ⟨fun v hread => Run.exists_readName_of_grows hgrow hcurrent hdistance hread,
        fun v v' m₁ hwrite => Run.exists_writeName_of_grows hgrow hcurrent hdistance hwrite⟩

/-- Sets a field with the name of a method that is declared twice. -/
def shadowing : String := "class A { m() {} m() { return 1; } } var a = A(); a.m = true;"

def shadowed : String := "print a.m;"

def tokenA : Token := ⟨.identifier, "a", 1⟩

def tokenM : Token := ⟨.identifier, "m", 1⟩

/-- The occurrence 99 of `a` is one of a global. -/
def Shadows (m m' : Machine) : Prop :=
  0 < m.heap.instances.size ∧ (m.heap.field? 0 "m").isSome ∧ (m'.heap.method? 0 "m").isSome ∧
    (m.valueOf? 99 "a").isSome ∧ (m.holderOf? 99 "a").isSome ∧ m'.current = m.current ∧
      m'.distance? 99 = m.distance? 99

instance (m m' : Machine) : Decidable (Shadows m m') := inferInstanceAs (Decidable (_ ∧ _))

theorem exists_shadows : ∃ report s report' t,
    (start .unlimited fun _ => 0).run 9 shadowing = some (report, s) ∧
      s.run 9 shadowed = some (report', t) ∧ Shadows s.machine t.machine := by
  have hruns : (((start .unlimited fun _ => 0).run 9 shadowing).bind fun r =>
      (r.2.run 9 shadowed).map fun r' => decide (Shadows r.2.machine r'.2.machine)) =
        some true := by
    decide +kernel
  obtain ⟨⟨report, s⟩, hfirst, hrest⟩ := Option.bind_eq_some_iff.mp hruns
  obtain ⟨⟨report', t⟩, hsecond, hshadows⟩ := Option.map_eq_some_iff.mp hrest
  exact ⟨report, s, report', t, hfirst, hsecond, of_decide_eq_true hshadows⟩

def nothing : Stmt := .expression (.literal 0 .nil)

theorem load_nothing : (start .unlimited fun _ => 0).load "nil;" =
    (.ok [nothing], ⟨Machine.initial .unlimited fun _ => 0, 1⟩) := by
  rw [load, read, scan_eq]
  cbv

theorem stopped_nothing (stop : Run.Stops)
    (h : stop [] (.statement nothing) (Machine.initial .unlimited fun _ => 0)) :
    Run.Stopped (Run.programWith (Run.execAmid stop 1 []) [nothing]
      (Machine.initial .unlimited fun _ => 0)) :=
  (Run.stopped_execAmid h 0).bind _

theorem structure_only_grows_shadowing :
    (∃ report s report' t, (start .unlimited fun _ => 0).run 9 shadowing = some (report, s) ∧
      s.run 9 shadowed = some (report', t) ∧ s.machine.Develops t.machine ∧
        (t.machine.heap.method? 0 "m").isSome ∧
        (∃ v, t.machine.heap.field? 0 "m" = some v ∧
          Run.readProperty 0 tokenM t.machine = .done v t.machine) ∧
        (∃ v, Run.readName 99 tokenA t.machine = .done v t.machine) ∧
        (∃ m', Run.writeName 99 tokenA .nil t.machine = .done () m') ∧
        (∃ m', Run.exec 1 (.classDecl tokenA []) t.machine = .done .normal m') ∧
        ∃ m', Run.writeField 0 "m" .nil s.machine = .done () m' ∧
          m'.heap.field? 0 "m" = some .nil) ∧
    (start .unlimited fun _ => 0).machine.Develops (Machine.initial .unlimited fun _ => 0) ∧
    ∃ n, Run.programWith (Run.execAmid (fun _ point _ => point = .statement nothing) 1 [])
        [nothing] (Machine.initial .unlimited fun _ => 0) = .failed .stopped n ∧
      Run.Grown n.heap (Run.programWith (Run.execAmid Run.never 1 []) [nothing]
        (Machine.initial .unlimited fun _ => 0)) := by
  obtain ⟨-, hlater, hsessions, -, hclass, hfield, hkeeps⟩ := structure_only_grows
  obtain ⟨hstart, -, hpoints⟩ := hsessions .clock .unlimited (fun _ => 0) [] _ (.refl _)
  refine ⟨?_, ?_, ?_⟩
  · obtain ⟨report, s, report', t, hfirst, hsecond, hplace, hset, hmethod, hvalue, hholder,
      hcurrent, hdistance⟩ := exists_shadows
    obtain ⟨-, hgrows, -⟩ :=
      hsessions .clock .unlimited (fun _ => 0) _ _ ((Leads.refl _).run hfirst)
    have hdevelops := hgrows _ t ((Leads.refl s).run hsecond)
    obtain ⟨hfields, -, hnames⟩ := hkeeps s.machine t.machine hdevelops.grows
    obtain ⟨hread, hwrite⟩ := hnames 99 tokenA hcurrent hdistance
    obtain ⟨v, hv⟩ : ∃ v, Run.readName 99 tokenA s.machine = .done v s.machine :=
      Run.exists_readName_iff.mpr hvalue
    obtain ⟨m₁, hm₁⟩ : ∃ m₁, Run.writeName 99 tokenA .nil s.machine = .done () m₁ :=
      Run.exists_writeName_iff.mpr hholder
    obtain ⟨m', _, hdeclared, -⟩ := hclass 0 tokenA [] t.machine hdevelops.anchored
    exact ⟨report, s, report', t, hfirst, hsecond, hdevelops, hmethod, hfields 0 tokenM hset,
      hread v hv, hwrite .nil .nil m₁ hm₁, ⟨m', hdeclared⟩, _, rfl,
      hfield s.machine _ 0 "m" .nil hplace rfl⟩
  · obtain ⟨m', hstopped⟩ := stopped_nothing (fun running point n => running = [] ∧
      point = .statement nothing ∧ n = Machine.initial .unlimited fun _ => 0) ⟨rfl, rfl, rfl⟩
    exact hpoints 1 "nil;" [] (.statement nothing) _ ⟨_, _, load_nothing, m', hstopped⟩
  · obtain ⟨n, hstopped⟩ := stopped_nothing (fun _ point _ => point = .statement nothing) rfl
    exact ⟨n, hstopped, (hlater _ _ _ _ _ _ (Run.never_within _) hstopped).2.2⟩

end Session
end LoxLang
