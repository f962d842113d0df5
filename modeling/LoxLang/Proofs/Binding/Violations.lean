import LoxLang.Grammar.Statement
import LoxLang.Source.Scan
import LoxLang.Proofs.Binding.Encounters
import LoxLang.Proofs.Binding.Places

/-!
# The rules of scopes

Whether a node of a program violates a rule of scopes is read off its position alone: which
constructs surround it, and which names are declared earlier in the same scope. Binding the names of
a program walks it with a stack of tables and two flags, and reports exactly the nodes that violate
a rule (`resolve_reports_violations`). What connects the two is that the innermost table knows, at a
statement, the names that are declared earlier in its scope, all of them ready; only the initializer
of a variable that its declaration introduces is walked with one name that is not.
-/
namespace LoxLang

/-- The name that a statement declares in the scope that it stands in. -/
def Stmt.declared? : Stmt → Option String
  | .varDecl name _ | .classDecl name _ => some name.lexeme
  | .funDecl declaration => some declaration.name.lexeme
  | _ => none

namespace Position

def inRoutine (position : Position) : Bool :=
  position.any fun
    | .body _ _ | .parameter _ => true
    | _ => false

def inClass (position : Position) : Bool :=
  position.any fun
    | .method _ => true
    | _ => false

/-- The names that are declared earlier in the same local scope: the scope of a block, or the one
that the parameters of a function share with its body. There are none in the global scope. -/
def earlier? : Position → Option (List String)
  | .block before :: _ => some (before.filterMap Stmt.declared?)
  | .body params before :: _ =>
    some (params.map Token.lexeme ++ before.filterMap Stmt.declared?)
  | .parameter before :: _ => some (before.map Token.lexeme)
  | .initializer _ :: position | .part _ :: position => earlier? position
  | .program _ :: _ | .method _ :: _ | [] => none

/-- The variable whose initializer surrounds the position, with the position of its declaration. -/
def initialized? : Position → Option (Token × Position)
  | .initializer name :: position => some (name, position)
  | .part _ :: position => initialized? position
  | _ => none

/-- A declaration of this name at the position repeats an earlier one of the same local scope. -/
def repeats (position : Position) (name : String) : Bool :=
  position.earlier?.any (·.contains name)

/-- The position is in the initializer of a local variable of this name, which its declaration
introduces: it does not repeat an earlier one. -/
def initializes (position : Position) (name : String) : Bool :=
  position.initialized?.any fun (declared, declaration) =>
    declared.lexeme = name && declaration.earlier?.any fun names => !names.contains name

end Position

def Place.violation? : Place → Option ScopeFault
  | ⟨position, .returning keyword⟩ =>
    if position.inRoutine then none else some ⟨keyword, .topLevelReturn⟩
  | ⟨position, .expression (.this _ keyword)⟩ =>
    if position.inClass then none else some ⟨keyword, .thisOutsideClass⟩
  | ⟨position, .declaration name⟩ =>
    if position.repeats name.lexeme then some ⟨name, .redeclared⟩ else none
  | ⟨position, .expression (.var _ name)⟩ =>
    if position.initializes name.lexeme then some ⟨name, .ownInitializer⟩ else none
  | ⟨_, .expression _⟩ => none

/-! ### Tables and positions -/

namespace Position

variable {position : Position}

/-- The innermost scope has a name declared and not ready just where the position is in its
initializer. -/
structure Reads (position : Position) (scopes : List Scope) (inClass : Bool) : Prop where
  unready : ∀ name,
    scopes.head?.bind (·.get? name) = some false ↔ position.initializes name = true
  inClass : position.inClass = inClass

theorem Reads.part {scopes : List Scope} {inClass : Bool} (h : position.Reads scopes inClass)
    (index : Nat) : Reads (.part index :: position) scopes inClass where
  unready := h.unready
  inClass := h.inClass

/-- The innermost scope knows the names that are declared earlier in it, and all are ready. -/
def Lists : Option (List String) → List Scope → Prop
  | none, scopes => scopes = []
  | some names, scopes =>
    ∃ scope outer, scopes = scope :: outer ∧
      ∀ name, scope.get? name = if name ∈ names then some true else none

theorem Lists.head_ne {names : Option (List String)} {scopes : List Scope}
    (h : Lists names scopes) (name : String) :
    scopes.head?.bind (·.get? name) ≠ some false := by
  cases names with
  | none =>
    obtain rfl : scopes = [] := h
    simp
  | some names =>
    obtain ⟨scope, outer, rfl, hscope⟩ := h
    simp [hscope]

theorem Lists.contains_eq {names : Option (List String)} {scopes : List Scope}
    (h : Lists names scopes) (name : String) :
    scopes.head?.any (·.contains name) = names.any (·.contains name) := by
  cases names with
  | none =>
    obtain rfl : scopes = [] := h
    rfl
  | some names =>
    obtain ⟨scope, outer, rfl, hscope⟩ := h
    by_cases hmem : name ∈ names <;> simp [Table.contains, hscope, hmem]

theorem Lists.introduce {names : Option (List String)} {scopes : List Scope}
    (h : Lists names scopes) (name : String) :
    Lists (names.map (· ++ [name])) (Scopes.introduce name scopes) := by
  cases names with
  | none =>
    obtain rfl : scopes = [] := h
    rfl
  | some names =>
    obtain ⟨scope, outer, rfl, hscope⟩ := h
    refine ⟨_, outer, rfl, fun other => ?_⟩
    have hdeclared : ((if scope.contains name then scope else scope.set name false).set name
        true).get? other = if name = other then some true else scope.get? other := by
      split <;> by_cases hother : name = other <;> simp [Table.get?_set, hother]
    rw [hdeclared, hscope]
    by_cases hother : name = other
    · simp [hother]
    · simp [hother, Ne.symm hother]

/-- What is open at a statement, and what the position of the statement says about it. -/
structure Opens (position : Position) (scopes : List Scope) (inFunction inClass : Bool) :
    Prop where
  lists : Lists position.earlier? scopes
  outside : position.initialized? = none
  inRoutine : position.inRoutine = inFunction
  inClass : position.inClass = inClass

namespace Opens

variable {scopes : List Scope} {inFunction inClass : Bool}

theorem part (h : position.Opens scopes inFunction inClass) (index : Nat) :
    Opens (.part index :: position) scopes inFunction inClass where
  lists := h.lists
  outside := h.outside
  inRoutine := h.inRoutine
  inClass := h.inClass

theorem reads (h : position.Opens scopes inFunction inClass) :
    position.Reads scopes inClass where
  unready name := by simp [h.lists.head_ne, initializes, h.outside]
  inClass := h.inClass

/-- A local declaration that repeats no earlier one leaves its name unready until its initializer
has been passed. -/
theorem initializer (h : position.Opens scopes inFunction inClass) (name : Token) :
    Reads (.initializer name :: position) (Scopes.declare name.lexeme scopes) inClass where
  unready other := by
    simp only [initializes, initialized?, Option.any_some]
    have hlists := h.lists
    cases hearlier : position.earlier? with
    | none =>
      rw [hearlier] at hlists
      obtain rfl : scopes = [] := hlists
      simp [Scopes.declare]
    | some names =>
      rw [hearlier] at hlists
      obtain ⟨scope, outer, rfl, hscope⟩ := hlists
      by_cases hknown : name.lexeme ∈ names
      · have hother : name.lexeme = other → other ∈ names := fun heq => heq ▸ hknown
        simpa [Scopes.declare, Table.contains, hscope, hknown] using hother
      · by_cases hother : name.lexeme = other
        · simp [Scopes.declare, Table.contains, hscope, hknown, ← hother]
        · simp [Scopes.declare, Table.contains, Table.get?_set, hscope, hknown, hother]
  inClass := h.inClass

end Opens

/-- The statements of a list stand in one scope, which has `base` before the first of them. -/
structure Enters (position : Position) (enter : List Stmt → Step) (base : Option (List String))
    (inFunction inClass : Bool) : Prop where
  earlier : ∀ before, earlier? (enter before :: position) =
    base.map (· ++ before.filterMap Stmt.declared?)
  outside : ∀ before, initialized? (enter before :: position) = none
  inRoutine : ∀ before, inRoutine (enter before :: position) = inFunction
  inClass : ∀ before, Position.inClass (enter before :: position) = inClass

namespace Enters

variable {inFunction inClass : Bool}

theorem program : Enters [] .program none false false where
  earlier _ := rfl
  outside _ := rfl
  inRoutine _ := rfl
  inClass _ := rfl

theorem block (position : Position) :
    position.Enters .block (some []) position.inRoutine position.inClass where
  earlier _ := rfl
  outside _ := rfl
  inRoutine _ := rfl
  inClass _ := rfl

theorem body (position : Position) (params : List Token) :
    position.Enters (.body params) (some (params.map Token.lexeme)) true position.inClass where
  earlier _ := rfl
  outside _ := rfl
  inRoutine _ := rfl
  inClass _ := rfl

theorem opens {enter : List Stmt → Step} {base : Option (List String)} {scopes : List Scope}
    {before : List Stmt} (h : position.Enters enter base inFunction inClass)
    (hlists : Lists (base.map (· ++ before.filterMap Stmt.declared?)) scopes) :
    Opens (enter before :: position) scopes inFunction inClass where
  lists := h.earlier before ▸ hlists
  outside := h.outside before
  inRoutine := h.inRoutine before
  inClass := h.inClass before

end Enters

end Position

/-! ### What is met is what stands at the places -/

open Position

theorem Position.Reads.violation?_eq {position : Position} {scopes : List Scope} {inClass : Bool}
    (h : position.Reads scopes inClass) (expr : Expr) :
    (Encounter.expression scopes inClass expr).fault? =
      Place.violation? ⟨position, .expression expr⟩ := by
  have hclass := h.inClass
  cases expr
  case var id name =>
    have hunready := h.unready name.lexeme
    by_cases hinit : position.initializes name.lexeme = true
    · simp [Encounter.fault?, Place.violation?, hunready.mpr hinit, hinit]
    · simp [Encounter.fault?, Place.violation?, mt hunready.mp hinit, hinit]
  case this id keyword =>
    cases inClass <;> simp [Encounter.fault?, Place.violation?, hclass]
  all_goals rfl

section Agreement

variable {position : Position} {scopes : List Scope} {inFunction inClass : Bool}

mutual

theorem Expr.faults_eq_violations {position : Position} (h : position.Reads scopes inClass) :
    ∀ expr : Expr, (expr.encounters scopes inClass).filterMap Encounter.fault? =
      (expr.places position).filterMap Place.violation?
  | .literal id value => by simp [encounters, places, List.filterMap_cons, h.violation?_eq]
  | .grouping id inner => by
    simp [encounters, places, List.filterMap_append, List.filterMap_cons, h.violation?_eq,
      inner.faults_eq_violations (h.part 0)]
  | .unary id operator right => by
    simp [encounters, places, List.filterMap_append, List.filterMap_cons, h.violation?_eq,
      right.faults_eq_violations (h.part 0)]
  | .binary id left operator right | .logical id left operator right => by
    simp [encounters, places, List.filterMap_append, List.filterMap_cons, h.violation?_eq,
      left.faults_eq_violations (h.part 0), right.faults_eq_violations (h.part 1)]
  | .var id name => by simp [encounters, places, List.filterMap_cons, h.violation?_eq]
  | .assign id name value => by
    simp [encounters, places, List.filterMap_append, List.filterMap_cons, h.violation?_eq,
      value.faults_eq_violations (h.part 0)]
  | .call id callee paren arguments => by
    simp [encounters, places, List.filterMap_append, List.filterMap_cons, h.violation?_eq,
      callee.faults_eq_violations (h.part 0), Expr.faultsAll_eq_violations h arguments 1]
  | .get id object name => by
    simp [encounters, places, List.filterMap_append, List.filterMap_cons, h.violation?_eq,
      object.faults_eq_violations (h.part 0)]
  | .set id object name value => by
    simp [encounters, places, List.filterMap_append, List.filterMap_cons, h.violation?_eq,
      object.faults_eq_violations (h.part 0), value.faults_eq_violations (h.part 1)]
  | .this id keyword => by simp [encounters, places, List.filterMap_cons, h.violation?_eq]

theorem Expr.faultsAll_eq_violations {position : Position} (h : position.Reads scopes inClass) :
    ∀ (exprs : List Expr) (index : Nat),
      (Expr.encountersAll scopes inClass exprs).filterMap Encounter.fault? =
        (Expr.placesAll position index exprs).filterMap Place.violation?
  | [], _ => rfl
  | expr :: exprs, index => by
    simp [encountersAll, placesAll, List.filterMap_append,
      expr.faults_eq_violations (h.part index), Expr.faultsAll_eq_violations h exprs (index + 1)]

end

theorem Expr.faultsOption_eq_violations (h : position.Reads scopes inClass)
    (expr : Option Expr) :
    (Expr.encountersOption scopes inClass expr).filterMap Encounter.fault? =
      (Expr.placesOption position expr).filterMap Place.violation? := by
  cases expr with
  | none => rfl
  | some expr => exact expr.faults_eq_violations h

theorem Position.Lists.violation?_eq (h : Lists position.earlier? scopes) (name : Token) :
    (Encounter.declaration scopes name).fault? =
      Place.violation? ⟨position, .declaration name⟩ := by
  simp [Encounter.fault?, Place.violation?, Position.repeats, h.contains_eq]

theorem Scopes.faults_parameters (position : Position) (before params : List Token)
    (h : Lists (some (before.map Token.lexeme)) scopes) :
    (Scopes.parameters scopes params).filterMap Encounter.fault? =
      (position.parameters before params).filterMap Place.violation? := by
  induction params generalizing before scopes with
  | nil => rfl
  | cons name params ih =>
    have hname : (Encounter.declaration scopes name).fault? =
        Place.violation? ⟨.parameter before :: position, .declaration name⟩ := by
      refine Lists.violation?_eq ?_ name
      exact h
    have hnext : Lists (some ((before ++ [name]).map Token.lexeme))
        (Scopes.introduce name.lexeme scopes) := by
      simpa using h.introduce name.lexeme
    simp [Scopes.parameters, Position.parameters, List.filterMap_cons, hname,
      ih (before ++ [name]) hnext]

theorem Scopes.lists_introduceAll (params : List Token) {names : List String}
    (h : Lists (some names) scopes) :
    Lists (some (names ++ params.map Token.lexeme)) (Scopes.introduceAll params scopes) := by
  induction params generalizing names scopes with
  | nil => simpa [Scopes.introduceAll] using h
  | cons name params ih => simpa [Scopes.introduceAll] using ih (h.introduce name.lexeme)

/-- Behind a statement of a program its name is introduced, and nothing else has changed. -/
theorem Stmt.Formed.scopesAfter_eq {G : Token → Prop} {stmt : Stmt} (hformed : stmt.Formed G)
    (scopes : List Scope) :
    stmt.scopesAfter scopes = stmt.declared?.elim scopes (Scopes.introduce · scopes) := by
  cases hdecl : stmt.isDeclaration with
  | false =>
    have hnone : stmt.declared? = none := by cases stmt <;> simp_all [declared?, isDeclaration]
    rw [Stmt.IsStatement.scopesAfter_eq ⟨hdecl, hformed⟩, hnone]
    rfl
  | true => cases stmt <;> simp_all [declared?, isDeclaration, scopesAfter]

theorem Stmt.Formed.lists_scopesAfter {G : Token → Prop} {stmt : Stmt} (hformed : stmt.Formed G)
    {names : Option (List String)} (h : Lists names scopes) :
    Lists (names.map (· ++ stmt.declared?.toList)) (stmt.scopesAfter scopes) := by
  rw [hformed.scopesAfter_eq]
  cases stmt.declared? with
  | none => simpa using h
  | some name => exact h.introduce name

end Agreement

section Statements

variable {G : Token → Prop} {inFunction inClass : Bool}

mutual

theorem Stmt.faults_eq_violations :
    ∀ (stmt : Stmt) {position : Position} {scopes : List Scope} {inFunction inClass : Bool},
      stmt.Formed G → position.Opens scopes inFunction inClass →
      (stmt.encounters scopes inFunction inClass).filterMap Encounter.fault? =
        (stmt.places position).filterMap Place.violation?
  | .expression expr, _, _, _, _, _, h => expr.faults_eq_violations (h.part 0).reads
  | .print expr, _, _, _, _, _, h => expr.faults_eq_violations (h.part 0).reads
  | .varDecl name initializer, _, _, _, _, _, h => by
    simp [Stmt.encounters, Stmt.places, List.filterMap_cons, h.lists.violation?_eq,
      Expr.faultsOption_eq_violations (h.initializer name)]
  | .block body, position, scopes, _, _, hformed, h => by
    have henters : position.Enters .block (some []) _ _ := .block position
    rw [h.inRoutine, h.inClass] at henters
    have hlists : Lists (some []) (∅ :: scopes) := ⟨∅, scopes, rfl, fun name => by simp⟩
    exact Stmt.faultsAll_eq_violations body [] hformed henters hlists
  | .ifThen condition thenBranch, _, _, _, _, hformed, h => by
    simp [Stmt.encounters, Stmt.places, List.filterMap_append,
      condition.faults_eq_violations (h.part 0).reads,
      thenBranch.faults_eq_violations hformed.2.2 (h.part 1)]
  | .ifElse condition thenBranch elseBranch, _, scopes, _, _, hformed, h => by
    have hscopes : thenBranch.scopesAfter scopes = scopes :=
      Stmt.IsStatement.scopesAfter_eq hformed.2.1 scopes
    simp [Stmt.encounters, Stmt.places, List.filterMap_append, hscopes,
      condition.faults_eq_violations (h.part 0).reads,
      thenBranch.faults_eq_violations hformed.2.1.2 (h.part 1),
      elseBranch.faults_eq_violations hformed.2.2.2 (h.part 2)]
  | .whileLoop condition body, _, _, _, _, hformed, h => by
    simp [Stmt.encounters, Stmt.places, List.filterMap_append,
      condition.faults_eq_violations (h.part 0).reads,
      body.faults_eq_violations hformed.2.2 (h.part 1)]
  | .funDecl declaration, _, _, _, _, hformed, h => by
    simp [Stmt.encounters, Stmt.places, List.filterMap_cons, h.lists.violation?_eq,
      declaration.faults_eq_violations hformed h.inClass]
  | .returnStmt keyword value, _, _, inFunction, _, _, h => by
    have hreturn := h.inRoutine
    cases inFunction <;>
      simp [Stmt.encounters, Stmt.places, List.filterMap_cons, Encounter.fault?,
        Place.violation?, hreturn, Expr.faultsOption_eq_violations (h.part 0).reads]
  | .classDecl name methods, position, scopes, _, _, hformed, h => by
    have hmethods := FunctionDecl.faultsMethods_eq_violations methods [] position
      (Scopes.introduce name.lexeme scopes) hformed.2
    simp [Stmt.encounters, Stmt.places, List.filterMap_cons, h.lists.violation?_eq, hmethods]

theorem Stmt.faultsAll_eq_violations :
    ∀ (stmts before : List Stmt) {position : Position} {enter : List Stmt → Step}
      {base : Option (List String)} {scopes : List Scope} {inFunction inClass : Bool},
      Stmt.FormedAll G stmts → position.Enters enter base inFunction inClass →
      Lists (base.map (· ++ before.filterMap Stmt.declared?)) scopes →
      (Stmt.encountersAll scopes inFunction inClass stmts).filterMap Encounter.fault? =
        (Stmt.placesAll position enter before stmts).filterMap Place.violation?
  | [], _, _, _, _, _, _, _, _, _, _ => rfl
  | stmt :: stmts, before, _, _, base, scopes, _, _, hformed, henters, hlists => by
    have hnext : Lists (base.map (· ++ (before ++ [stmt]).filterMap Stmt.declared?))
        (stmt.scopesAfter scopes) := by
      have hbehind := hformed.1.lists_scopesAfter hlists
      cases base <;> cases hdecl : stmt.declared? <;>
        simp_all [List.filterMap_append]
    simp [Stmt.encountersAll, Stmt.placesAll, List.filterMap_append,
      stmt.faults_eq_violations hformed.1 (henters.opens hlists),
      Stmt.faultsAll_eq_violations stmts (before ++ [stmt]) hformed.2 henters hnext]

theorem FunctionDecl.faults_eq_violations :
    ∀ (declaration : FunctionDecl) {position : Position} {scopes : List Scope} {inClass : Bool},
      declaration.Formed G → position.inClass = inClass →
      (declaration.encounters scopes inClass).filterMap Encounter.fault? =
        (declaration.places position).filterMap Place.violation?
  | ⟨_, params, body⟩, position, scopes, _, hformed, hclass => by
    have hempty : Lists (some []) (∅ :: scopes) := ⟨∅, scopes, rfl, fun name => by simp⟩
    have henters : position.Enters (.body params) _ true _ := .body position params
    rw [hclass] at henters
    have hparams : Lists (some (params.map Token.lexeme))
        (Scopes.introduceAll params (∅ :: scopes)) := by
      simpa using Scopes.lists_introduceAll params hempty
    simp [FunctionDecl.encounters, FunctionDecl.places, List.filterMap_append,
      Scopes.faults_parameters position [] params hempty,
      Stmt.faultsAll_eq_violations body [] hformed.2.2 henters (by simpa using hparams)]

theorem FunctionDecl.faultsMethods_eq_violations :
    ∀ (methods before : List FunctionDecl) (position : Position) (scopes : List Scope),
      FunctionDecl.FormedAll G methods →
      (FunctionDecl.encountersMethods scopes methods).filterMap Encounter.fault? =
        (FunctionDecl.placesMethods position before methods).filterMap Place.violation?
  | [], _, _, _, _ => rfl
  | method :: methods, before, position, scopes, hformed => by
    have hclass : Position.inClass (.method before :: position) = true := rfl
    have hmethods := FunctionDecl.faultsMethods_eq_violations methods (before ++ [method])
      position scopes hformed.2
    simp [FunctionDecl.encountersMethods, FunctionDecl.placesMethods, List.filterMap_append,
      method.faults_eq_violations hformed.1 hclass, hmethods]

end

end Statements

/-! ### What is left as it was found -/

/-- The walk is with these scopes open where it was before. -/
structure Walk.ReturnsTo (w : Walk) (scopes : List Scope) (w' : Walk) : Prop where
  scopes : w'.scopes = scopes
  currentFunction : w'.currentFunction = w.currentFunction
  inClass : w'.inClass = w.inClass

theorem Walk.returnsTo_record (w : Walk) (encounters : List Encounter) (scopes : List Scope) :
    w.ReturnsTo scopes (w.record encounters scopes) :=
  ⟨rfl, rfl, rfl⟩

/-- Every construct leaves the stack of scopes and both flags as it found them, but for the name
that a declaration adds to the innermost scope. -/
structure RestoresContext (G : Token → Prop) : Prop where
  expression : ∀ (expr : Expr) (w : Walk), w.ReturnsTo w.scopes (expr.resolve w)
  routine : ∀ (declaration : FunctionDecl) (kind : Routine) (w : Walk),
    w.ReturnsTo w.scopes (declaration.resolve kind w)
  methods : ∀ (methods : List FunctionDecl) (w : Walk), w.inClass = true →
    w.ReturnsTo w.scopes (FunctionDecl.resolveMethods methods w)
  statement : ∀ stmt : Stmt, stmt.Formed G → ∀ w : Walk,
    w.ReturnsTo (stmt.declared?.elim w.scopes (Scopes.introduce · w.scopes)) (stmt.resolve w)

theorem restoresContext (G : Token → Prop) : RestoresContext G where
  expression expr w := by
    rw [expr.resolve_eq_record]
    exact w.returnsTo_record _ _
  routine declaration kind w := by
    rw [declaration.resolve_eq_record]
    exact w.returnsTo_record _ _
  methods methods w hclass := by
    rw [FunctionDecl.resolveMethods_eq_record w hclass]
    exact w.returnsTo_record _ _
  statement stmt hformed w := by
    rw [stmt.resolve_eq_record, hformed.scopesAfter_eq]
    exact w.returnsTo_record _ _

/-! ### Local scopes -/

namespace Position

def isLocal (position : Position) : Bool :=
  position.any fun
    | .block _ | .body _ _ | .parameter _ => true
    | _ => false

theorem isLocal_of_earlier? {position : Position} {names : List String}
    (h : position.earlier? = some names) : position.isLocal = true := by
  induction position with
  | nil => cases h
  | cons step position ih =>
    cases step <;> simp_all [earlier?, isLocal]

theorem isLocal_of_repeats {position : Position} {name : String}
    (h : position.repeats name = true) : position.isLocal = true := by
  obtain ⟨names, hnames, -⟩ := (Option.any_eq_true _ _).mp h
  exact isLocal_of_earlier? hnames

theorem isLocal_of_initialized? {position declaration : Position} {name : Token}
    (h : position.initialized? = some (name, declaration)) (hlocal : declaration.isLocal = true) :
    position.isLocal = true := by
  induction position with
  | nil => cases h
  | cons step position ih => cases step <;> simp_all [initialized?, isLocal]

theorem isLocal_of_initializes {position : Position} {name : String}
    (h : position.initializes name = true) : position.isLocal = true := by
  obtain ⟨⟨declared, declaration⟩, hinit, hcond⟩ := (Option.any_eq_true _ _).mp h
  simp only [Bool.and_eq_true] at hcond
  obtain ⟨names, hnames, -⟩ := (Option.any_eq_true _ _).mp hcond.2
  exact isLocal_of_initialized? hinit (isLocal_of_earlier? hnames)

end Position

/-- In the global scope every name may be declared again and read in its initializer. -/
theorem Place.cause_of_not_isLocal {place : Place} (hglobal : place.position.isLocal = false)
    {fault : ScopeFault} (h : place.violation? = some fault) :
    fault.cause = .topLevelReturn ∨ fault.cause = .thisOutsideClass := by
  obtain ⟨position, node⟩ := place
  have hrepeats : ∀ name, position.repeats name = false := fun name =>
    Bool.eq_false_iff.mpr fun h => by simp [isLocal_of_repeats h] at hglobal
  have hinitializes : ∀ name, position.initializes name = false := fun name =>
    Bool.eq_false_iff.mpr fun h => by simp [isLocal_of_initializes h] at hglobal
  cases node with
  | declaration name => simp [violation?, hrepeats] at h
  | returning keyword =>
    simp only [violation?] at h
    split at h <;> cases h
    exact .inl rfl
  | expression expr =>
    cases expr <;> simp [violation?, hinitializes] at h
    obtain ⟨-, rfl⟩ := h
    exact .inr rfl

/-- Binding the names of a program that was read reports one fault for each node that violates a
rule of scopes, in the order of the nodes, and no other. A rule speaks of the position of the node
alone, so that what was reported before plays no part. Names of the global scope are subject to the
first two rules only. Every construct restores the scopes and the two flags of the walk. -/
theorem resolve_reports_violations (tokens : List Token) (firstId : Nat) (distances : Distances) :
    let program := (Program.ofTokens tokens firstId).statements
    (resolve program distances).2 = (placesOf program).filterMap Place.violation? ∧
    ((placesOf program).map Place.position).Nodup ∧
    (∀ place ∈ placesOf program, place.position.isLocal = false →
      ∀ fault, place.violation? = some fault →
        fault.cause = .topLevelReturn ∨ fault.cause = .thisOutsideClass) ∧
    Stmt.FormedAll (· ∈ tokens) program ∧ RestoresContext (· ∈ tokens) := by
  intro program
  have hformed : Stmt.FormedAll (· ∈ tokens) program :=
    Program.formedAll_ofTokens (fun _ h => h) firstId
  refine ⟨?_, nodup_placesOf program, ?_, hformed, restoresContext _⟩
  · rw [resolve_eq]
    exact Stmt.faultsAll_eq_violations program [] hformed .program rfl
  · intro place _ hglobal fault hfault
    exact place.cause_of_not_isLocal hglobal hfault

/-- Every rule is violated once. The second declaration is no initializer of its own name, which the
first has introduced. -/
def unruly : List Token :=
  scannedTokens (scan "\x7b var a = a; var a = a; \x7d print this; return;")

theorem resolve_reports_violations_unruly :
    ((resolve (Program.ofTokens unruly 0).statements ∅).2.map ScopeFault.cause =
      [.ownInitializer, .redeclared, .thisOutsideClass, .topLevelReturn]) ∧
    ∃ place ∈ placesOf (Program.ofTokens unruly 0).statements,
      place.position.isLocal = false ∧ ∃ fault, place.violation? = some fault ∧
        (fault.cause = .topLevelReturn ∨ fault.cause = .thisOutsideClass) := by
  have hglobal : ((placesOf (Program.ofTokens unruly 0).statements).any fun place =>
      !place.position.isLocal && place.violation?.isSome) = true := by decide +kernel
  obtain ⟨place, hplace, hcond⟩ := List.any_eq_true.mp hglobal
  rw [Bool.and_eq_true, Bool.not_eq_true', Option.isSome_iff_exists] at hcond
  obtain ⟨hglobal, fault, hfault⟩ := hcond
  obtain ⟨-, -, hcause, -⟩ := resolve_reports_violations unruly 0 ∅
  refine ⟨by decide +kernel, place, hplace, hglobal, fault, hfault, ?_⟩
  exact hcause place hplace hglobal fault hfault

end LoxLang
