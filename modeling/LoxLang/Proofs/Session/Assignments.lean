import LoxLang.Proofs.Execution.Growth
import LoxLang.Proofs.Lexical.Initializers
import LoxLang.Proofs.Session.Context
import LoxLang.Proofs.Session.Lookup

/-!
# Assignments to local names

The walk that binds names finds the scope of an assigned name among the names that are declared,
ready or not. In a run the name is bound only when its initializer has been passed. So an assignment
with a distance finds its frame (`assignment_finds_frame`) unless it stands in the initializer of
the very variable that it assigns, where the name is still undefined
(`undefined_in_own_initializer`).
-/
namespace LoxLang

theorem Machine.stable_grows :
    Machine.Stable fun m m' => m.heap.frames.Grows m'.heap.frames where
  refl _ := .refl _
  trans h h' := h.trans h'
  heap _ _ hstep := hstep.grows.frames
  sink _ _ _ _ := .refl _
  taken _ := .refl _
  inFrame _ _ _ h := h
  deeper _ _ h := h

/-- The frame at the distance of a name binds it, unless the name waits for its initializer. -/
theorem Frames.Mirrors.exists_holderAt? {fs : Frames} {i distance : Nat} {scopes : List Scope}
    {name : String} (h : fs.Mirrors i scopes) (hscopes : Scopes.Readable scopes)
    (hdistance : Scopes.distance? scopes name = some distance)
    (hready : scopes.head?.bind (·.get? name) ≠ some false) :
    ∃ frame, fs.holderAt? i distance name = some frame := by
  obtain ⟨scope, hscope, hname⟩ := Scopes.ready_of_distance? hscopes hdistance hready
  obtain ⟨locals, hchain, hlength, -, hbound⟩ := h.exists_chain
  have hlt : distance < locals.length := by
    rw [hlength]
    exact (List.getElem?_eq_some_iff.mp hscope).1
  have hframe : fs.ancestor? i distance = some locals[distance] := by
    rw [ancestor?_eq_getElem?_chain, hchain, List.getElem?_append_left hlt]
    exact List.getElem?_eq_getElem hlt
  have hbinds := hbound distance scope _ hscope (List.getElem?_eq_getElem hlt) name hname
  exact ⟨_, Option.filter_eq_some_iff.mpr ⟨hframe, hbinds⟩⟩

namespace Run

variable {stop : Expr → Machine → Prop} {expr : Expr} {m : Machine}

theorem execUntil_expression_of_stop (h : stop expr m) (fuel : Nat) :
    execUntil stop (fuel + 2) (.expression expr) m = .failed .stopped m := by
  simp [execUntil, execWith, evalUntil, Action.bind_apply, checkpoint, h]

theorem execUntil_varDecl_of_stop (h : stop expr m) (name : Token) (fuel : Nat) :
    execUntil stop (fuel + 2) (.varDecl name (some expr)) m = .failed .stopped m := by
  simp [execUntil, execWith, evalOption, evalUntil, Action.bind_apply, checkpoint, h]

theorem writeName_of_holder {id frame : Nat} {name : Token}
    (h : m.holderOf? id name.lexeme = some frame) (v : Value) :
    writeName id name v m = .done () { m with
      heap := { m.heap with frames := m.heap.frames.define frame name.lexeme v } } := by
  simp [writeName, rebind, Action.bind_apply, Action.view, Action.change, h]

end Run

namespace Session

variable {s : Session} {sink : Sink} {readings : Nat → Float} {programs : List (List Stmt)}

/-- Local assignments find their names. At every point of a run, once the value of an assignment
with a distance has been evaluated, the frame at that distance binds the name, and the assignment
rebinds it there; provided that the name did not wait for its initializer where the assignment was
met. -/
theorem assignment_finds_frame {fuel fuel' : Nat} {source : String} {id distance : Nat}
    {name : Token} {value : Expr} {m m' : Machine} {v : Value} {scopes : List Scope}
    {inClass : Bool} (h : Leads (start sink readings) programs s)
    (hreach : s.Reaches fuel source (.assign id name value) m)
    (hdistance : m.distance? id = some distance)
    (hmet : .expression scopes inClass (.assign id name value) ∈
      (programs ++ s.bound source).flatMap encountersOf)
    (hready : scopes.head?.bind (·.get? name.lexeme) ≠ some false)
    (hvalue : Run.eval fuel' value m = .done v m') :
    ∃ frame, m'.heap.frames.holderAt? m'.current distance name.lexeme = some frame ∧
      Run.eval (fuel' + 1) (.assign id name value) m = .done v { m' with
        heap := { m'.heap with frames := m'.heap.frames.define frame name.lexeme v } } := by
  obtain ⟨scopes', inClass', hmet', -, hscopes, hfits⟩ := h.seen hreach
  obtain rfl := h.scopes_unique hmet'.1 hmet
  have hnote := hfits.sound.noted scopes inClass' _ hmet'
  simp only [Expr.id] at hnote
  rw [hdistance] at hnote
  obtain ⟨target, href, hd⟩ := Encounter.exists_reference hnote.symm
  obtain rfl : name = target := Option.some.inj href
  -- evaluating the value leaves the frame current and takes no name from any frame
  have hgrow := ((Run.preserves_eval_exec Machine.stable_grows fuel').1 value m).of_done hvalue
  have hcontext :=
    ((Run.preserves_eval_exec Machine.stable_sameContext fuel').1 value m).of_done hvalue
  have hsame := ((Run.preserves_eval_exec stable_distances fuel').1 value m).of_done hvalue
  obtain ⟨frame, hframe⟩ := (hfits.mirrors.mono hgrow).exists_holderAt? hscopes hd hready
  rw [← hcontext.current] at hframe
  refine ⟨frame, hframe, ?_⟩
  have hholder : m'.holderOf? id name.lexeme = some frame := by
    have hdistance' : m'.distance? id = some distance := by
      rw [Machine.distance?, hsame]
      exact hdistance
    simp [Machine.holderOf?, hdistance', hframe]
  simp only [Run.eval, Run.evalWith, Action.bind_apply, hvalue, Run.writeName_of_holder hholder,
    Action.pure_apply]

def trueAssigned : Expr := .assign 2 ⟨.identifier, "a", 1⟩ (.literal 1 (.bool true))

/-- The machine at this assignment behind the declaration of the variable. -/
def atAssignment : Machine := { blockDeclared with distances := (∅ : Distances).insert 2 0 }

theorem load_trueAssigned : (start .unlimited fun _ => 0).load "{ var a; a = true; }" =
    (.ok [.block [.varDecl ⟨.identifier, "a", 1⟩ none, .expression trueAssigned]],
      ⟨{ blockEntered with
        heap := Heap.initial
        current := Heap.globals
        distances := (∅ : Distances).insert 2 0 }, 3⟩) := by
  rw [load, read, scan_eq]
  cbv

theorem reaches_atAssignment :
    (start .unlimited fun _ => 0).Reaches 3 "{ var a; a = true; }" trueAssigned atAssignment := by
  refine ⟨_, _, load_trueAssigned, { atAssignment with current := Heap.globals }, ?_⟩
  have hassign : Run.execUntil (fun e n => e = trueAssigned ∧ n = atAssignment) 2
      (.expression trueAssigned) atAssignment = .failed .stopped atAssignment :=
    Run.execUntil_expression_of_stop ⟨rfl, rfl⟩ 0
  have hvar : Run.execUntil (fun e n => e = trueAssigned ∧ n = atAssignment) 2
      (.varDecl ⟨.identifier, "a", 1⟩ none)
      { blockEntered with distances := (∅ : Distances).insert 2 0 } =
        .done .normal atAssignment := rfl
  have hbody := Run.sequence_of_failed hassign []
  rw [← Run.sequence_of_normal hvar] at hbody
  simp only [Run.programWith, Action.bind_apply]
  rw [Run.execUntil_block_of_failed hbody]

theorem assignment_finds_frame_declared : ∃ frame,
    (start .unlimited fun _ => 0).Reaches 3 "{ var a; a = true; }" trueAssigned atAssignment ∧
      atAssignment.distance? 2 = some 0 ∧
        atAssignment.heap.frames.holderAt? atAssignment.current 0 "a" = some frame := by
  have hdistance : atAssignment.distance? 2 = some 0 := by decide +kernel
  have hmet : .expression [Table.set ∅ "a" true] false trueAssigned ∈
      ([] ++ (start .unlimited fun _ => 0).bound "{ var a; a = true; }").flatMap encountersOf := by
    obtain ⟨⟨hread, -⟩, hstatements, -⟩ := load_eq_ok_iff.mp load_trueAssigned
    rw [bound, if_pos hread, ← hstatements]
    simp [encountersOf, Stmt.encountersAll, Stmt.encounters, Stmt.scopesAfter, trueAssigned,
      Expr.encounters, Expr.encountersOption]
    rfl
  have hvalue : Run.eval 1 (.literal 1 (.bool true)) atAssignment =
      .done (.bool true) atAssignment := rfl
  obtain ⟨frame, hframe, -⟩ := assignment_finds_frame (Leads.refl _) reaches_atAssignment hdistance
    hmet (by decide) hvalue
  exact ⟨frame, reaches_atAssignment, hdistance, hframe⟩

/-- The machine at the same assignment inside the initializer of the variable. -/
def atOwnAssignment : Machine := { blockEntered with distances := (∅ : Distances).insert 2 0 }

/-- Inside the initializer of its variable an assignment has a distance, and the name is undefined
in the frame there. -/
theorem undefined_in_own_initializer :
    (start .unlimited fun _ => 0).Reaches 3 "{ var a = a = true; }" trueAssigned atOwnAssignment ∧
      atOwnAssignment.distance? 2 = some 0 ∧
        Run.eval 2 trueAssigned atOwnAssignment = .failed
          (.operation ⟨.identifier, "a", 1⟩ (.undefinedVariable "a")) atOwnAssignment ∧
        ((start .unlimited fun _ => 0).run 9 "{ var a = a = true; }").map (fun r => r.1.messages) =
          some ["Undefined variable 'a'.\n[line 1]"] := by
  have hload : (start .unlimited fun _ => 0).load "{ var a = a = true; }" =
      (.ok [.block [.varDecl ⟨.identifier, "a", 1⟩ (some trueAssigned)]],
        ⟨{ atOwnAssignment with heap := Heap.initial, current := Heap.globals }, 3⟩) := by
    rw [load, read, scan_eq]
    cbv
  refine ⟨⟨_, _, hload, { atOwnAssignment with current := Heap.globals }, ?_⟩, ?_, ?_, ?_⟩
  · have hvar : Run.execUntil (fun e n => e = trueAssigned ∧ n = atOwnAssignment) 2
        (.varDecl ⟨.identifier, "a", 1⟩ (some trueAssigned)) atOwnAssignment =
          .failed .stopped atOwnAssignment := Run.execUntil_varDecl_of_stop ⟨rfl, rfl⟩ _ 0
    simp only [Run.programWith, Action.bind_apply]
    rw [Run.execUntil_block_of_failed (Run.sequence_of_failed hvar [])]
  · decide +kernel
  · cbv
  · decide +kernel

end Session
end LoxLang
