import LoxLang.Proofs.Execution.Mirror

/-!
# Assignments inside initializers

A local variable may be assigned inside its own initializer, as in `{ var a = (a = 1); }`. The walk
over a program has the name in scope there, but in a run it is not bound yet. Programs without such
assignments are told by their text alone.
-/
namespace LoxLang

mutual

def Expr.assigns (name : String) : Expr → Bool
  | .literal _ _ | .var _ _ | .this _ _ => false
  | .grouping _ inner => inner.assigns name
  | .unary _ _ right => right.assigns name
  | .binary _ left _ right | .logical _ left _ right => left.assigns name || right.assigns name
  | .assign _ target value => target.lexeme == name || value.assigns name
  | .call _ callee _ arguments => callee.assigns name || Expr.assignsAny name arguments
  | .get _ object _ => object.assigns name
  | .set _ object _ value => object.assigns name || value.assigns name

def Expr.assignsAny (name : String) : List Expr → Bool
  | [] => false
  | expr :: exprs => expr.assigns name || Expr.assignsAny name exprs

end

mutual

/-- The statement assigns a local variable inside its own initializer; `isLocal` says whether it
stands in a function or block. -/
def Stmt.assignsOwn (isLocal : Bool) : Stmt → Bool
  | .expression _ | .print _ | .returnStmt _ _ | .varDecl _ none => false
  | .varDecl name (some initializer) => isLocal && initializer.assigns name.lexeme
  | .block body => Stmt.anyAssignsOwn true body
  | .ifThen _ thenBranch => thenBranch.assignsOwn isLocal
  | .ifElse _ thenBranch elseBranch =>
    thenBranch.assignsOwn isLocal || elseBranch.assignsOwn isLocal
  | .whileLoop _ body => body.assignsOwn isLocal
  | .funDecl declaration => declaration.assignsOwn
  | .classDecl _ methods => FunctionDecl.anyAssignsOwn methods

def Stmt.anyAssignsOwn (isLocal : Bool) : List Stmt → Bool
  | [] => false
  | stmt :: stmts => stmt.assignsOwn isLocal || Stmt.anyAssignsOwn isLocal stmts

def FunctionDecl.assignsOwn : FunctionDecl → Bool
  | ⟨_, _, body⟩ => Stmt.anyAssignsOwn true body

def FunctionDecl.anyAssignsOwn : List FunctionDecl → Bool
  | [] => false
  | declaration :: declarations =>
    declaration.assignsOwn || FunctionDecl.anyAssignsOwn declarations

end

/-- An assignment to a name that waits for its own initializer. -/
def Encounter.assignsWaiting : Encounter → Bool
  | .expression scopes _ (.assign _ name _) =>
    scopes.head?.bind (·.get? name.lexeme) = some false
  | _ => false

mutual

/-- An assignment to a waiting name is an assignment to a name of the innermost scope. -/
theorem Expr.exists_of_assignsWaiting {scopes : List Scope} {inClass : Bool} {x : Encounter} :
    ∀ expr : Expr, x ∈ expr.encounters scopes inClass → x.assignsWaiting = true →
      ∃ name, scopes.head?.bind (·.get? name) = some false ∧ expr.assigns name = true
  | .literal id value, hx, hwaits => by
    simp only [encounters, List.mem_singleton] at hx
    simp [hx, Encounter.assignsWaiting] at hwaits
  | .var id name, hx, hwaits => by
    simp only [encounters, List.mem_singleton] at hx
    simp [hx, Encounter.assignsWaiting] at hwaits
  | .this id keyword, hx, hwaits => by
    simp only [encounters, List.mem_singleton] at hx
    simp [hx, Encounter.assignsWaiting] at hwaits
  | .grouping id inner, hx, hwaits => by
    simp only [encounters, List.mem_append, List.mem_singleton] at hx
    rcases hx with hx | rfl
    · exact inner.exists_of_assignsWaiting hx hwaits
    · simp [Encounter.assignsWaiting] at hwaits
  | .unary id operator right, hx, hwaits => by
    simp only [encounters, List.mem_append, List.mem_singleton] at hx
    rcases hx with hx | rfl
    · exact right.exists_of_assignsWaiting hx hwaits
    · simp [Encounter.assignsWaiting] at hwaits
  | .binary id left operator right, hx, hwaits => by
    simp only [encounters, List.mem_append, List.mem_singleton] at hx
    rcases hx with (hx | hx) | rfl
    · obtain ⟨name, hname, hassigns⟩ := left.exists_of_assignsWaiting hx hwaits
      exact ⟨name, hname, by simp [assigns, hassigns]⟩
    · obtain ⟨name, hname, hassigns⟩ := right.exists_of_assignsWaiting hx hwaits
      exact ⟨name, hname, by simp [assigns, hassigns]⟩
    · simp [Encounter.assignsWaiting] at hwaits
  | .logical id left operator right, hx, hwaits => by
    simp only [encounters, List.mem_append, List.mem_singleton] at hx
    rcases hx with (hx | hx) | rfl
    · obtain ⟨name, hname, hassigns⟩ := left.exists_of_assignsWaiting hx hwaits
      exact ⟨name, hname, by simp [assigns, hassigns]⟩
    · obtain ⟨name, hname, hassigns⟩ := right.exists_of_assignsWaiting hx hwaits
      exact ⟨name, hname, by simp [assigns, hassigns]⟩
    · simp [Encounter.assignsWaiting] at hwaits
  | .assign id target value, hx, hwaits => by
    simp only [encounters, List.mem_append, List.mem_singleton] at hx
    rcases hx with hx | rfl
    · obtain ⟨name, hname, hassigns⟩ := value.exists_of_assignsWaiting hx hwaits
      exact ⟨name, hname, by simp [assigns, hassigns]⟩
    · simp only [Encounter.assignsWaiting, decide_eq_true_eq] at hwaits
      exact ⟨target.lexeme, hwaits, by simp [assigns]⟩
  | .call id callee paren arguments, hx, hwaits => by
    simp only [encounters, List.mem_append, List.mem_singleton] at hx
    rcases hx with (hx | hx) | rfl
    · obtain ⟨name, hname, hassigns⟩ := callee.exists_of_assignsWaiting hx hwaits
      exact ⟨name, hname, by simp [assigns, hassigns]⟩
    · obtain ⟨name, hname, hassigns⟩ := Expr.exists_of_assignsWaitingAny arguments hx hwaits
      exact ⟨name, hname, by simp [assigns, hassigns]⟩
    · simp [Encounter.assignsWaiting] at hwaits
  | .get id object name, hx, hwaits => by
    simp only [encounters, List.mem_append, List.mem_singleton] at hx
    rcases hx with hx | rfl
    · exact object.exists_of_assignsWaiting hx hwaits
    · simp [Encounter.assignsWaiting] at hwaits
  | .set id object name value, hx, hwaits => by
    simp only [encounters, List.mem_append, List.mem_singleton] at hx
    rcases hx with (hx | hx) | rfl
    · obtain ⟨name, hname, hassigns⟩ := value.exists_of_assignsWaiting hx hwaits
      exact ⟨name, hname, by simp [assigns, hassigns]⟩
    · obtain ⟨name, hname, hassigns⟩ := object.exists_of_assignsWaiting hx hwaits
      exact ⟨name, hname, by simp [assigns, hassigns]⟩
    · simp [Encounter.assignsWaiting] at hwaits

theorem Expr.exists_of_assignsWaitingAny {scopes : List Scope} {inClass : Bool} {x : Encounter} :
    ∀ exprs : List Expr, x ∈ Expr.encountersAll scopes inClass exprs → x.assignsWaiting = true →
      ∃ name, scopes.head?.bind (·.get? name) = some false ∧ Expr.assignsAny name exprs = true
  | [], hx, _ => by simp [encountersAll] at hx
  | expr :: exprs, hx, hwaits => by
    rw [encountersAll, List.mem_append] at hx
    rcases hx with hx | hx
    · obtain ⟨name, hname, hassigns⟩ := expr.exists_of_assignsWaiting hx hwaits
      exact ⟨name, hname, by simp [assignsAny, hassigns]⟩
    · obtain ⟨name, hname, hassigns⟩ := Expr.exists_of_assignsWaitingAny exprs hx hwaits
      exact ⟨name, hname, by simp [assignsAny, hassigns]⟩

end

namespace Scopes

/-- Where no name waits, none is assigned while it waits. -/
theorem Ready.not_assignsWaiting {scopes : List Scope} (h : Ready scopes) {inClass : Bool}
    {expr : Expr} {x : Encounter} (hx : x ∈ expr.encounters scopes inClass) :
    x.assignsWaiting = false := by
  by_contra hwaits
  obtain ⟨name, hname, -⟩ := expr.exists_of_assignsWaiting hx (by simpa using hwaits)
  cases scopes with
  | nil => simp at hname
  | cons scope outer => exact h scope List.mem_cons_self name hname

/-- In an initializer, only the name that it is for waits. -/
theorem Ready.eq_of_waits {scopes : List Scope} (h : Ready scopes) {name other : String}
    (hother : (Scopes.declare name scopes).head?.bind (·.get? other) = some false) :
    other = name := by
  by_contra hne
  cases scopes with
  | nil => simp [Scopes.declare] at hother
  | cons scope outer =>
    exact get?_declare (h scope List.mem_cons_self other) (Ne.symm hne) hother

theorem not_assignsWaiting_parameters (scopes : List Scope) (params : List Token) :
    ∀ x ∈ parameters scopes params, x.assignsWaiting = false := by
  induction params generalizing scopes with
  | nil => simp [parameters]
  | cons param params ih =>
    rw [parameters, List.forall_mem_cons]
    exact ⟨rfl, ih _⟩

end Scopes

mutual

/-- Without such an assignment in its text, the walk meets none in a statement. -/
theorem Stmt.not_assignsWaiting {scopes : List Scope} (hscopes : Scopes.Ready scopes)
    (inFunction inClass : Bool) {isLocal : Bool} (hlocal : scopes ≠ [] → isLocal = true) :
    ∀ stmt : Stmt, stmt.assignsOwn isLocal = false →
      ∀ x ∈ stmt.encounters scopes inFunction inClass, x.assignsWaiting = false
  | .expression expr, _ => fun x hx => hscopes.not_assignsWaiting hx
  | .print expr, _ => fun x hx => hscopes.not_assignsWaiting hx
  | .varDecl name none, _ => by
    simp [Stmt.encounters, Expr.encountersOption, Encounter.assignsWaiting]
  | .varDecl name (some initializer), hown => by
    simp only [Stmt.encounters, Expr.encountersOption, List.forall_mem_cons]
    refine ⟨rfl, fun x hx => ?_⟩
    by_contra hwaits
    obtain ⟨other, hother, hassigns⟩ :=
      initializer.exists_of_assignsWaiting hx (by simpa using hwaits)
    rw [hscopes.eq_of_waits hother] at hassigns
    have hinside : scopes ≠ [] := by
      rintro rfl
      simp [Scopes.declare] at hother
    simp [Stmt.assignsOwn, hlocal hinside, hassigns] at hown
  | .block body, hown =>
    Stmt.not_assignsWaitingAll hscopes.enter inFunction inClass (fun _ => rfl) body hown
  | .ifThen condition thenBranch, hown => by
    simp only [Stmt.encounters, List.forall_mem_append]
    exact ⟨fun x hx => hscopes.not_assignsWaiting hx,
      thenBranch.not_assignsWaiting hscopes inFunction inClass hlocal hown⟩
  | .ifElse condition thenBranch elseBranch, hown => by
    simp only [Stmt.assignsOwn, Bool.or_eq_false_iff] at hown
    have hlocal' : thenBranch.scopesAfter scopes ≠ [] → isLocal = true := by
      intro hne
      apply hlocal
      rintro rfl
      simp at hne
    simp only [Stmt.encounters, List.forall_mem_append]
    exact ⟨⟨fun x hx => hscopes.not_assignsWaiting hx,
      thenBranch.not_assignsWaiting hscopes inFunction inClass hlocal hown.1⟩,
      elseBranch.not_assignsWaiting (hscopes.scopesAfter thenBranch) inFunction inClass hlocal'
        hown.2⟩
  | .whileLoop condition body, hown => by
    simp only [Stmt.encounters, List.forall_mem_append]
    exact ⟨fun x hx => hscopes.not_assignsWaiting hx,
      body.not_assignsWaiting hscopes inFunction inClass hlocal hown⟩
  | .funDecl declaration, hown => by
    simp only [Stmt.encounters, List.forall_mem_cons]
    exact ⟨rfl, declaration.not_assignsWaiting (hscopes.introduce _) inClass hown⟩
  | .returnStmt keyword value, _ => by
    simp only [Stmt.encounters, List.forall_mem_cons]
    refine ⟨rfl, ?_⟩
    cases value with
    | none => simp [Expr.encountersOption]
    | some expr => exact fun x hx => hscopes.not_assignsWaiting hx
  | .classDecl name methods, hown => by
    simp only [Stmt.encounters, List.forall_mem_cons]
    exact ⟨rfl, FunctionDecl.not_assignsWaitingAll (hscopes.introduce _) methods hown⟩

theorem Stmt.not_assignsWaitingAll {scopes : List Scope} (hscopes : Scopes.Ready scopes)
    (inFunction inClass : Bool) {isLocal : Bool} (hlocal : scopes ≠ [] → isLocal = true) :
    ∀ stmts : List Stmt, Stmt.anyAssignsOwn isLocal stmts = false →
      ∀ x ∈ Stmt.encountersAll scopes inFunction inClass stmts, x.assignsWaiting = false
  | [], _ => by simp [Stmt.encountersAll]
  | stmt :: stmts, hown => by
    simp only [Stmt.anyAssignsOwn, Bool.or_eq_false_iff] at hown
    have hlocal' : stmt.scopesAfter scopes ≠ [] → isLocal = true := by
      intro hne
      apply hlocal
      rintro rfl
      simp at hne
    simp only [Stmt.encountersAll, List.forall_mem_append]
    exact ⟨stmt.not_assignsWaiting hscopes inFunction inClass hlocal hown.1,
      Stmt.not_assignsWaitingAll (hscopes.scopesAfter stmt) inFunction inClass hlocal' stmts
        hown.2⟩

theorem FunctionDecl.not_assignsWaiting {scopes : List Scope} (hscopes : Scopes.Ready scopes)
    (inClass : Bool) : ∀ declaration : FunctionDecl, declaration.assignsOwn = false →
      ∀ x ∈ declaration.encounters scopes inClass, x.assignsWaiting = false
  | ⟨name, params, body⟩, hown => by
    simp only [FunctionDecl.encounters, List.forall_mem_append]
    exact ⟨Scopes.not_assignsWaiting_parameters (∅ :: scopes) params,
      Stmt.not_assignsWaitingAll (hscopes.enter.introduceAll params) true inClass (fun _ => rfl)
        body hown⟩

theorem FunctionDecl.not_assignsWaitingAll {scopes : List Scope} (hscopes : Scopes.Ready scopes) :
    ∀ methods : List FunctionDecl, FunctionDecl.anyAssignsOwn methods = false →
      ∀ x ∈ FunctionDecl.encountersMethods scopes methods, x.assignsWaiting = false
  | [], _ => by simp [FunctionDecl.encountersMethods]
  | method :: methods, hown => by
    simp only [FunctionDecl.anyAssignsOwn, Bool.or_eq_false_iff] at hown
    simp only [FunctionDecl.encountersMethods, List.forall_mem_append]
    exact ⟨method.not_assignsWaiting hscopes.ofThis true hown.1,
      FunctionDecl.not_assignsWaitingAll hscopes methods hown.2⟩

end

end LoxLang
