import Mathlib.Tactic
import LoxLang.Binding.Resolve
import LoxLang.Proofs.Reading.Identities
import LoxLang.Proofs.Reading.Form

/-!
# What the walk over a program meets

The scopes that are open at a point of a program depend on the program alone. So the walk that binds
names can be written as a list: every expression, declaration and `return`, together with the scopes
around it, in the order in which they are met. Each of them contributes at most one distance and at
most one fault, and the walk does nothing else (`Stmt.resolveAll_eq_record`).
-/
namespace LoxLang

namespace Scopes

def declare (name : String) : List Scope → List Scope
  | [] => []
  | scope :: outer => (if scope.contains name then scope else scope.set name false) :: outer

def define (name : String) : List Scope → List Scope
  | [] => []
  | scope :: outer => scope.set name true :: outer

def introduce (name : String) (scopes : List Scope) : List Scope :=
  define name (declare name scopes)

def introduceAll : List Token → List Scope → List Scope
  | [], scopes => scopes
  | name :: names, scopes => introduceAll names (introduce name.lexeme scopes)

theorem tail_introduce (name : String) (scopes : List Scope) :
    (introduce name scopes).tail = scopes.tail := by
  cases scopes <;> rfl

theorem tail_introduceAll (names : List Token) (scopes : List Scope) :
    (introduceAll names scopes).tail = scopes.tail := by
  induction names generalizing scopes with
  | nil => rfl
  | cons name names ih => rw [introduceAll, ih, tail_introduce]

def distance? (scopes : List Scope) (name : String) : Option Nat :=
  scopes.findIdx? (·.contains name)

/-- The scope around a method. -/
def ofThis : Scope := Table.set ∅ "this" true

end Scopes

/-- The name that an expression refers to; `this` refers to nothing outside classes. -/
def Expr.reference? (inClass : Bool) : Expr → Option Token
  | .var _ name => some name
  | .assign _ name _ => some name
  | .this _ keyword => if inClass then some keyword else none
  | _ => none

/-- What the walk meets, with the scopes that are open there. -/
inductive Encounter
  | expression (scopes : List Scope) (inClass : Bool) (expr : Expr)
  | declaration (scopes : List Scope) (name : Token)
  | returning (inFunction : Bool) (keyword : Token)

namespace Encounter

def id? : Encounter → Option Nat
  | expression _ _ expr => some expr.id
  | _ => none

def note? : Encounter → Option (Nat × Nat)
  | expression scopes inClass expr =>
    (expr.reference? inClass).bind fun name =>
      (Scopes.distance? scopes name.lexeme).map (expr.id, ·)
  | _ => none

@[simp] theorem note?_declaration (scopes : List Scope) (name : Token) :
    (declaration scopes name).note? = none := rfl

@[simp] theorem note?_returning (inFunction : Bool) (keyword : Token) :
    (returning inFunction keyword).note? = none := rfl

def fault? : Encounter → Option ScopeFault
  | expression scopes _ (.var _ name) =>
    if scopes.head?.bind (·.get? name.lexeme) = some false then some ⟨name, .ownInitializer⟩
    else none
  | expression _ false (.this _ keyword) => some ⟨keyword, .thisOutsideClass⟩
  | declaration scopes name =>
    if scopes.head?.any (·.contains name.lexeme) then some ⟨name, .redeclared⟩ else none
  | returning false keyword => some ⟨keyword, .topLevelReturn⟩
  | _ => none

end Encounter

mutual

def Expr.encounters (scopes : List Scope) (inClass : Bool) : Expr → List Encounter
  | .literal id value => [.expression scopes inClass (.literal id value)]
  | .grouping id inner =>
    inner.encounters scopes inClass ++ [.expression scopes inClass (.grouping id inner)]
  | .unary id operator right =>
    right.encounters scopes inClass ++ [.expression scopes inClass (.unary id operator right)]
  | .binary id left operator right =>
    left.encounters scopes inClass ++ right.encounters scopes inClass ++
      [.expression scopes inClass (.binary id left operator right)]
  | .logical id left operator right =>
    left.encounters scopes inClass ++ right.encounters scopes inClass ++
      [.expression scopes inClass (.logical id left operator right)]
  | .var id name => [.expression scopes inClass (.var id name)]
  | .assign id name value =>
    value.encounters scopes inClass ++ [.expression scopes inClass (.assign id name value)]
  | .call id callee paren arguments =>
    callee.encounters scopes inClass ++ Expr.encountersAll scopes inClass arguments ++
      [.expression scopes inClass (.call id callee paren arguments)]
  | .get id object name =>
    object.encounters scopes inClass ++ [.expression scopes inClass (.get id object name)]
  | .set id object name value =>
    value.encounters scopes inClass ++ object.encounters scopes inClass ++
      [.expression scopes inClass (.set id object name value)]
  | .this id keyword => [.expression scopes inClass (.this id keyword)]

def Expr.encountersAll (scopes : List Scope) (inClass : Bool) : List Expr → List Encounter
  | [] => []
  | expr :: exprs => expr.encounters scopes inClass ++ Expr.encountersAll scopes inClass exprs

end

def Expr.encountersOption (scopes : List Scope) (inClass : Bool) : Option Expr → List Encounter
  | none => []
  | some expr => expr.encounters scopes inClass

/-- The scopes behind a statement. -/
def Stmt.scopesAfter (scopes : List Scope) : Stmt → List Scope
  | .varDecl name _ => Scopes.introduce name.lexeme scopes
  | .funDecl declaration => Scopes.introduce declaration.name.lexeme scopes
  | .classDecl name _ => Scopes.introduce name.lexeme scopes
  | .ifThen _ thenBranch => thenBranch.scopesAfter scopes
  | .ifElse _ thenBranch elseBranch => elseBranch.scopesAfter (thenBranch.scopesAfter scopes)
  | .whileLoop _ body => body.scopesAfter scopes
  | .expression _ | .print _ | .block _ | .returnStmt _ _ => scopes

def Stmt.scopesAfterAll (scopes : List Scope) : List Stmt → List Scope
  | [] => scopes
  | stmt :: stmts => Stmt.scopesAfterAll (stmt.scopesAfter scopes) stmts

/-- The declarations of parameters. -/
def Scopes.parameters (scopes : List Scope) : List Token → List Encounter
  | [] => []
  | name :: names =>
    .declaration scopes name :: Scopes.parameters (introduce name.lexeme scopes) names

mutual

def Stmt.encounters (scopes : List Scope) (inFunction inClass : Bool) : Stmt → List Encounter
  | .expression expr => expr.encounters scopes inClass
  | .print expr => expr.encounters scopes inClass
  | .varDecl name initializer =>
    .declaration scopes name ::
      Expr.encountersOption (Scopes.declare name.lexeme scopes) inClass initializer
  | .block body => Stmt.encountersAll (∅ :: scopes) inFunction inClass body
  | .ifThen condition thenBranch =>
    condition.encounters scopes inClass ++ thenBranch.encounters scopes inFunction inClass
  | .ifElse condition thenBranch elseBranch =>
    condition.encounters scopes inClass ++ thenBranch.encounters scopes inFunction inClass ++
      elseBranch.encounters (thenBranch.scopesAfter scopes) inFunction inClass
  | .whileLoop condition body =>
    condition.encounters scopes inClass ++ body.encounters scopes inFunction inClass
  | .funDecl declaration =>
    .declaration scopes declaration.name ::
      declaration.encounters (Scopes.introduce declaration.name.lexeme scopes) inClass
  | .returnStmt keyword value =>
    .returning inFunction keyword :: Expr.encountersOption scopes inClass value
  | .classDecl name methods =>
    .declaration scopes name ::
      FunctionDecl.encountersMethods (Scopes.introduce name.lexeme scopes) methods

def Stmt.encountersAll (scopes : List Scope) (inFunction inClass : Bool) :
    List Stmt → List Encounter
  | [] => []
  | stmt :: stmts =>
    stmt.encounters scopes inFunction inClass ++
      Stmt.encountersAll (stmt.scopesAfter scopes) inFunction inClass stmts

def FunctionDecl.encounters (scopes : List Scope) (inClass : Bool) :
    FunctionDecl → List Encounter
  | ⟨_, params, body⟩ =>
    Scopes.parameters (∅ :: scopes) params ++
      Stmt.encountersAll (Scopes.introduceAll params (∅ :: scopes)) true inClass body

def FunctionDecl.encountersMethods (scopes : List Scope) : List FunctionDecl → List Encounter
  | [] => []
  | method :: methods =>
    method.encounters (Scopes.ofThis :: scopes) true ++
      FunctionDecl.encountersMethods scopes methods

end

def encountersOf (program : List Stmt) : List Encounter :=
  Stmt.encountersAll [] false false program

theorem Stmt.encountersAll_append (scopes : List Scope) (inFunction inClass : Bool)
    (left right : List Stmt) :
    Stmt.encountersAll scopes inFunction inClass (left ++ right) =
      Stmt.encountersAll scopes inFunction inClass left ++
        Stmt.encountersAll (Stmt.scopesAfterAll scopes left) inFunction inClass right := by
  induction left generalizing scopes with
  | nil => rfl
  | cons stmt left ih => simp [Stmt.encountersAll, Stmt.scopesAfterAll, ih]

/-- Outside all scopes nothing is opened for good. -/
@[simp] theorem Stmt.scopesAfter_nil (stmt : Stmt) : stmt.scopesAfter [] = [] := by
  cases stmt <;> simp [scopesAfter, Scopes.introduce, Scopes.declare, Scopes.define]
  case ifThen thenBranch => exact thenBranch.scopesAfter_nil
  case ifElse thenBranch elseBranch =>
    rw [thenBranch.scopesAfter_nil, elseBranch.scopesAfter_nil]
  case whileLoop body => exact body.scopesAfter_nil

/-- Behind a statement the same scopes are open; only the innermost may know more names. -/
theorem Stmt.tail_scopesAfter (stmt : Stmt) (scopes : List Scope) :
    (stmt.scopesAfter scopes).tail = scopes.tail := by
  cases stmt <;> simp only [scopesAfter]
  case varDecl name _ => exact Scopes.tail_introduce name.lexeme scopes
  case funDecl declaration => exact Scopes.tail_introduce declaration.name.lexeme scopes
  case classDecl name _ => exact Scopes.tail_introduce name.lexeme scopes
  case ifThen thenBranch => exact thenBranch.tail_scopesAfter scopes
  case ifElse thenBranch elseBranch =>
    rw [elseBranch.tail_scopesAfter, thenBranch.tail_scopesAfter]
  case whileLoop body => exact body.tail_scopesAfter scopes

theorem Stmt.tail_scopesAfterAll (stmts : List Stmt) (scopes : List Scope) :
    (Stmt.scopesAfterAll scopes stmts).tail = scopes.tail := by
  induction stmts generalizing scopes with
  | nil => rfl
  | cons stmt stmts ih => rw [scopesAfterAll, ih, stmt.tail_scopesAfter]

/-- A statement that is no declaration leaves the scopes as they are. -/
theorem Stmt.IsStatement.scopesAfter_eq {G : Token → Prop} {stmt : Stmt} (h : stmt.IsStatement G)
    (scopes : List Scope) : stmt.scopesAfter scopes = scopes := by
  obtain ⟨hdecl, hformed⟩ := h
  cases stmt <;> simp_all [isDeclaration, scopesAfter, Formed]
  case ifThen thenBranch => exact IsStatement.scopesAfter_eq hformed.2 scopes
  case ifElse thenBranch elseBranch =>
    rw [IsStatement.scopesAfter_eq hformed.2.1 scopes,
      IsStatement.scopesAfter_eq hformed.2.2 scopes]
  case whileLoop body => exact IsStatement.scopesAfter_eq hformed.2 scopes

/-- The distances with those that are noted at `encounters`, in order. -/
def Distances.noteAll (distances : Distances) (encounters : List Encounter) : Distances :=
  (encounters.filterMap Encounter.note?).foldl (fun d note => d.insert note.1 note.2) distances

@[simp] theorem Distances.noteAll_nil (distances : Distances) : distances.noteAll [] = distances :=
  rfl

@[simp] theorem Distances.noteAll_declaration (distances : Distances) (scopes : List Scope)
    (name : Token) : distances.noteAll [.declaration scopes name] = distances := by
  simp [noteAll, List.filterMap_cons]

theorem Distances.noteAll_append (distances : Distances) (left right : List Encounter) :
    distances.noteAll (left ++ right) = (distances.noteAll left).noteAll right := by
  simp [noteAll, List.filterMap_append, List.foldl_append]

namespace Walk

/-- The walk after `encounters`, with these scopes open. -/
def record (w : Walk) (encounters : List Encounter) (scopes : List Scope) : Walk :=
  { w with
    scopes := scopes
    distances := w.distances.noteAll encounters
    faults := w.faults ++ (encounters.filterMap Encounter.fault?).toArray }

@[simp] theorem scopes_record (w : Walk) (encounters : List Encounter) (scopes : List Scope) :
    (w.record encounters scopes).scopes = scopes := rfl

@[simp] theorem currentFunction_record (w : Walk) (encounters : List Encounter)
    (scopes : List Scope) :
    (w.record encounters scopes).currentFunction = w.currentFunction := rfl

@[simp] theorem inClass_record (w : Walk) (encounters : List Encounter) (scopes : List Scope) :
    (w.record encounters scopes).inClass = w.inClass := rfl

/-- Flags that are set for a part of the walk and set back behind it leave no trace. -/
theorem setFunction_record (w : Walk) (kind : Option Routine) (encounters : List Encounter)
    (scopes : List Scope) : ((w.setFunction kind).record encounters scopes).setFunction
      w.currentFunction = w.record encounters scopes := rfl

theorem setClass_record (w : Walk) (inClass : Bool) (encounters : List Encounter)
    (scopes : List Scope) : ((w.setClass inClass).record encounters scopes).setClass w.inClass =
      w.record encounters scopes := rfl

@[simp] theorem scopes_setFunction (w : Walk) (kind : Option Routine) :
    (w.setFunction kind).scopes = w.scopes := rfl

@[simp] theorem currentFunction_setFunction (w : Walk) (kind : Option Routine) :
    (w.setFunction kind).currentFunction = kind := rfl

@[simp] theorem inClass_setFunction (w : Walk) (kind : Option Routine) :
    (w.setFunction kind).inClass = w.inClass := rfl

@[simp] theorem scopes_setClass (w : Walk) (inClass : Bool) :
    (w.setClass inClass).scopes = w.scopes := rfl

@[simp] theorem inClass_setClass (w : Walk) (inClass : Bool) :
    (w.setClass inClass).inClass = inClass := rfl

@[simp] theorem record_record (w : Walk) (left right : List Encounter)
    (scopes scopes' : List Scope) :
    (w.record left scopes).record right scopes' = w.record (left ++ right) scopes' := by
  simp [record, Distances.noteAll_append, List.filterMap_append]

theorem record_nil (w : Walk) : w.record [] w.scopes = w := by
  simp [record]

/-- An encounter with neither distance nor fault leaves no trace. -/
theorem record_append_silent {x : Encounter} (hnote : x.note? = none) (hfault : x.fault? = none)
    (w : Walk) (encounters : List Encounter) (scopes : List Scope) :
    w.record (encounters ++ [x]) scopes = w.record encounters scopes := by
  simp [record, Distances.noteAll, List.filterMap_append, hnote, hfault]

theorem enter_eq_record (w : Walk) : w.enter = w.record [] (∅ :: w.scopes) := by
  simp [enter, record]

theorem leave_record (w : Walk) (encounters : List Encounter) (scopes : List Scope) :
    (w.record encounters scopes).leave = w.record encounters scopes.tail := rfl

theorem define_eq_record (w : Walk) (name : String) :
    w.define name = w.record [] (Scopes.define name w.scopes) := by
  obtain ⟨scopes, distances, currentFunction, inClass, faults⟩ := w
  cases scopes <;> simp [define, record, Scopes.define]

theorem declare_eq_record (w : Walk) (name : Token) :
    w.declare name =
      w.record [.declaration w.scopes name] (Scopes.declare name.lexeme w.scopes) := by
  obtain ⟨scopes, distances, currentFunction, inClass, faults⟩ := w
  cases scopes with
  | nil => simp [declare, record, Scopes.declare, Encounter.fault?]
  | cons scope outer =>
    by_cases h : scope.contains name.lexeme <;>
      simp [declare, record, report, Scopes.declare, Encounter.fault?, h]

theorem introduce_eq_record (w : Walk) (name : Token) :
    w.introduce name =
      w.record [.declaration w.scopes name] (Scopes.introduce name.lexeme w.scopes) := by
  simp [introduce, declare_eq_record, define_eq_record, Scopes.introduce]

theorem introduceAll_eq_record (w : Walk) (names : List Token) :
    introduceAll names w =
      w.record (Scopes.parameters w.scopes names) (Scopes.introduceAll names w.scopes) := by
  induction names generalizing w with
  | nil => exact w.record_nil.symm
  | cons name names ih =>
    simp [introduceAll, ih, introduce_eq_record, Scopes.parameters, Scopes.introduceAll]

theorem report_eq_record {w : Walk} {token : Token} {cause : ScopeCause} {x : Encounter}
    (hnote : x.note? = none) (hfault : x.fault? = some ⟨token, cause⟩) :
    w.report token cause = w.record [x] w.scopes := by
  simp [report, record, Distances.noteAll, hnote, hfault]

/-- Linking notes the distance of a reference; what is left to say is its fault. -/
theorem link_eq_record {w : Walk} {name : Token} (inClass : Bool) (expr : Expr)
    (href : expr.reference? inClass = some name)
    (hfault : (Encounter.expression w.scopes inClass expr).fault? = none) :
    w.link expr.id name = w.record [.expression w.scopes inClass expr] w.scopes := by
  unfold link
  split
  · next distance h =>
    simp [record, Distances.noteAll, Encounter.note?, href, hfault, Scopes.distance?, h]
  · next h =>
    simp [record, Distances.noteAll, Encounter.note?, href, hfault, Scopes.distance?, h]

theorem read_eq_record (w : Walk) (inClass : Bool) (id : Nat) (name : Token) :
    (w.checkReady name).link id name =
      w.record [.expression w.scopes inClass (.var id name)] w.scopes := by
  by_cases h : w.scopes.head?.bind (·.get? name.lexeme) = some false
  · have hcheck : w.checkReady name = w.report name .ownInitializer := by
      simp [checkReady, h]
    rw [hcheck]
    unfold link
    cases hd : w.scopes.findIdx? (·.contains name.lexeme) <;>
      simp [report, record, Distances.noteAll, Encounter.note?, Encounter.fault?,
        Expr.reference?, Expr.id, Scopes.distance?, h, hd]
  · have hcheck : w.checkReady name = w := by
      unfold checkReady
      split
      · next hf => exact absurd hf h
      · rfl
    rw [hcheck]
    exact link_eq_record inClass (.var id name) rfl (by simp [Encounter.fault?, h])

end Walk

mutual

theorem Expr.resolve_eq_record (w : Walk) :
    ∀ expr : Expr, expr.resolve w = w.record (expr.encounters w.scopes w.inClass) w.scopes
  | .literal id value => by
    rw [resolve, encounters, ← List.nil_append [_], Walk.record_append_silent rfl rfl,
      Walk.record_nil]
  | .grouping id inner => by
    rw [resolve, inner.resolve_eq_record, encounters, Walk.record_append_silent rfl rfl]
  | .unary id operator right => by
    rw [resolve, right.resolve_eq_record, encounters, Walk.record_append_silent rfl rfl]
  | .binary id left operator right => by
    rw [resolve, left.resolve_eq_record, right.resolve_eq_record, Walk.record_record, encounters,
      Walk.record_append_silent rfl rfl, Walk.scopes_record, Walk.inClass_record]
  | .logical id left operator right => by
    rw [resolve, left.resolve_eq_record, right.resolve_eq_record, Walk.record_record, encounters,
      Walk.record_append_silent rfl rfl, Walk.scopes_record, Walk.inClass_record]
  | .var id name => w.read_eq_record w.inClass id name
  | .assign id name value => by
    rw [resolve, value.resolve_eq_record, encounters]
    refine (Walk.link_eq_record w.inClass (.assign id name value) rfl rfl).trans ?_
    exact Walk.record_record _ _ _ _ _
  | .call id callee paren arguments => by
    rw [resolve, callee.resolve_eq_record, Expr.resolveAll_eq_record, Walk.record_record,
      encounters, Walk.record_append_silent rfl rfl, Walk.scopes_record, Walk.inClass_record]
  | .get id object name => by
    rw [resolve, object.resolve_eq_record, encounters, Walk.record_append_silent rfl rfl]
  | .set id object name value => by
    rw [resolve, value.resolve_eq_record, object.resolve_eq_record, Walk.record_record, encounters,
      Walk.record_append_silent rfl rfl, Walk.scopes_record, Walk.inClass_record]
  | .this id keyword => by
    rw [resolve, encounters]
    cases hclass : w.inClass with
    | true => exact Walk.link_eq_record true (.this id keyword) rfl rfl
    | false => exact Walk.report_eq_record rfl rfl

theorem Expr.resolveAll_eq_record (w : Walk) :
    ∀ exprs : List Expr,
      Expr.resolveAll exprs w = w.record (Expr.encountersAll w.scopes w.inClass exprs) w.scopes
  | [] => w.record_nil.symm
  | expr :: exprs => by
    rw [resolveAll, expr.resolve_eq_record, Expr.resolveAll_eq_record, Walk.record_record,
      encountersAll, Walk.scopes_record, Walk.inClass_record]

end

theorem Expr.resolveOption_eq_record (w : Walk) (expr : Option Expr) :
    Expr.resolveOption expr w =
      w.record (Expr.encountersOption w.scopes w.inClass expr) w.scopes := by
  cases expr with
  | none => exact w.record_nil.symm
  | some expr => exact expr.resolve_eq_record w

mutual

/-- The walk over a statement is what it meets there. -/
theorem Stmt.resolve_eq_record (w : Walk) :
    ∀ stmt : Stmt, stmt.resolve w =
      w.record (stmt.encounters w.scopes w.currentFunction.isSome w.inClass)
        (stmt.scopesAfter w.scopes)
  | .expression expr => expr.resolve_eq_record w
  | .print expr => expr.resolve_eq_record w
  | .varDecl name initializer => by
    simp [Stmt.resolve, Stmt.encounters, Stmt.scopesAfter, Walk.declare_eq_record,
      Walk.define_eq_record, Expr.resolveOption_eq_record, Scopes.introduce]
  | .block body => by
    rw [Stmt.resolve, Stmt.resolveAll_eq_record, Walk.enter_eq_record, Walk.record_record,
      Walk.leave_record, Stmt.encounters, Stmt.scopesAfter, Walk.scopes_record,
      Walk.currentFunction_record, Walk.inClass_record, List.nil_append,
      Stmt.tail_scopesAfterAll, List.tail_cons]
  | .ifThen condition thenBranch => by
    rw [Stmt.resolve, condition.resolve_eq_record, thenBranch.resolve_eq_record, Walk.record_record,
      Stmt.encounters, Stmt.scopesAfter, Walk.scopes_record, Walk.currentFunction_record,
      Walk.inClass_record]
  | .ifElse condition thenBranch elseBranch => by
    simp only [Stmt.resolve, condition.resolve_eq_record, thenBranch.resolve_eq_record,
      elseBranch.resolve_eq_record, Walk.record_record, Stmt.encounters, Stmt.scopesAfter,
      Walk.scopes_record, Walk.currentFunction_record, Walk.inClass_record, List.append_assoc]
  | .whileLoop condition body => by
    rw [Stmt.resolve, condition.resolve_eq_record, body.resolve_eq_record, Walk.record_record,
      Stmt.encounters, Stmt.scopesAfter, Walk.scopes_record, Walk.currentFunction_record,
      Walk.inClass_record]
  | .funDecl declaration => by
    rw [Stmt.resolve, Walk.introduce_eq_record, declaration.resolve_eq_record, Walk.record_record,
      Stmt.encounters, Stmt.scopesAfter, Walk.scopes_record, Walk.inClass_record,
      List.singleton_append]
  | .returnStmt keyword value => by
    have hreport : (if w.currentFunction = none then w.report keyword .topLevelReturn else w) =
        w.record [.returning w.currentFunction.isSome keyword] w.scopes := by
      cases w.currentFunction with
      | none => exact Walk.report_eq_record rfl rfl
      | some kind =>
        rw [← List.nil_append [_], Walk.record_append_silent rfl rfl, Walk.record_nil]
        rfl
    rw [Stmt.resolve, hreport, Expr.resolveOption_eq_record, Walk.record_record, Stmt.encounters,
      Stmt.scopesAfter, Walk.scopes_record, Walk.inClass_record, List.singleton_append]
  | .classDecl name methods => by
    rw [Stmt.resolve, Walk.introduce_eq_record, FunctionDecl.resolveMethods_eq_record _ rfl]
    simp only [Walk.record_record, Walk.scopes_record, Walk.scopes_setClass, Walk.setClass_record,
      Stmt.encounters, Stmt.scopesAfter, List.singleton_append]

theorem Stmt.resolveAll_eq_record (w : Walk) :
    ∀ stmts : List Stmt, Stmt.resolveAll stmts w =
      w.record (Stmt.encountersAll w.scopes w.currentFunction.isSome w.inClass stmts)
        (Stmt.scopesAfterAll w.scopes stmts)
  | [] => w.record_nil.symm
  | stmt :: stmts => by
    rw [Stmt.resolveAll, stmt.resolve_eq_record, Stmt.resolveAll_eq_record, Walk.record_record,
      Stmt.encountersAll, Stmt.scopesAfterAll, Walk.scopes_record, Walk.currentFunction_record,
      Walk.inClass_record]

/-- Inside, the walk is in a function; behind it, where it was before. -/
theorem FunctionDecl.resolve_eq_record (kind : Routine) (w : Walk) :
    ∀ declaration : FunctionDecl, declaration.resolve kind w =
      w.record (declaration.encounters w.scopes w.inClass) w.scopes
  | ⟨name, params, body⟩ => by
    rw [FunctionDecl.resolve, Stmt.resolveAll_eq_record, Walk.introduceAll_eq_record,
      Walk.enter_eq_record]
    simp only [Walk.record_record, Walk.leave_record, Walk.scopes_record, Walk.scopes_setFunction,
      Walk.currentFunction_record, Walk.currentFunction_setFunction, Walk.inClass_record,
      Walk.inClass_setFunction, Walk.setFunction_record, Option.isSome_some,
      FunctionDecl.encounters, List.nil_append, Stmt.tail_scopesAfterAll,
      Scopes.tail_introduceAll, List.tail_cons]

theorem FunctionDecl.resolveMethods_eq_record (w : Walk) (hclass : w.inClass = true) :
    ∀ methods : List FunctionDecl, FunctionDecl.resolveMethods methods w =
      w.record (FunctionDecl.encountersMethods w.scopes methods) w.scopes
  | [] => w.record_nil.symm
  | method :: methods => by
    rw [FunctionDecl.resolveMethods, Walk.enter_eq_record, Walk.define_eq_record,
      method.resolve_eq_record, Walk.leave_record,
      FunctionDecl.resolveMethods_eq_record _ (by exact hclass), FunctionDecl.encountersMethods]
    simp [Scopes.define, Scopes.ofThis, hclass]

end

/-- Binding the names of a program adds the distances that are noted on the way and gives the faults
that are met. -/
theorem resolve_eq (program : List Stmt) (distances : Distances) :
    resolve program distances =
      (distances.noteAll (encountersOf program),
        (encountersOf program).filterMap Encounter.fault?) := by
  simp [resolve, Stmt.resolveAll_eq_record, Walk.record, Walk.begin, encountersOf]

end LoxLang
