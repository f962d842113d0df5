import LoxLang.Proofs.Binding.Notes
import LoxLang.Proofs.Renumbering

/-!
# Names on other lines

Scopes hold the texts of names. So the walk over a program meets the same on other lines, under the
same scopes: it notes the same distances, and it finds faults at the same places
(`encountersOf_append_renumber`).
-/
namespace LoxLang

variable (f : Nat → Nat)

namespace Encounter

def renumber : Encounter → Encounter
  | expression scopes inClass expr => expression scopes inClass (expr.renumber f)
  | declaration scopes name => declaration scopes (name.renumber f)
  | returning inFunction keyword => returning inFunction (keyword.renumber f)

@[simp] theorem note?_renumber (x : Encounter) : (x.renumber f).note? = x.note? := by
  cases x with
  | expression scopes inClass expr => cases expr <;> cases inClass <;> rfl
  | declaration scopes name => rfl
  | returning inFunction keyword => rfl

/-- On another line nothing else is wrong. -/
theorem fault?_renumber {x : Encounter} (h : x.fault? = none) : (x.renumber f).fault? = none := by
  cases x with
  | expression scopes inClass expr =>
    cases expr <;> cases inClass <;> simp_all [renumber, Expr.renumber, fault?]
  | declaration scopes name => simp_all [renumber, fault?]
  | returning inFunction keyword => cases inFunction <;> simp_all [renumber, fault?]

end Encounter

mutual

theorem Expr.encounters_renumber (scopes : List Scope) (inClass : Bool) : ∀ expr : Expr,
    (expr.renumber f).encounters scopes inClass =
      (expr.encounters scopes inClass).map (Encounter.renumber f)
  | .literal _ _ | .var _ _ | .this _ _ => rfl
  | .grouping _ inner => by
    simp [Expr.renumber, encounters, inner.encounters_renumber scopes inClass, Encounter.renumber]
  | .unary _ _ right => by
    simp [Expr.renumber, encounters, right.encounters_renumber scopes inClass, Encounter.renumber]
  | .binary _ left _ right | .logical _ left _ right => by
    simp [Expr.renumber, encounters, left.encounters_renumber scopes inClass,
      right.encounters_renumber scopes inClass, Encounter.renumber]
  | .assign _ _ value => by
    simp [Expr.renumber, encounters, value.encounters_renumber scopes inClass, Encounter.renumber]
  | .call _ callee _ arguments => by
    simp [Expr.renumber, encounters, callee.encounters_renumber scopes inClass,
      Expr.encountersAll_renumberAll scopes inClass arguments, Encounter.renumber]
  | .get _ object _ => by
    simp [Expr.renumber, encounters, object.encounters_renumber scopes inClass, Encounter.renumber]
  | .set _ object _ value => by
    simp [Expr.renumber, encounters, object.encounters_renumber scopes inClass,
      value.encounters_renumber scopes inClass, Encounter.renumber]

theorem Expr.encountersAll_renumberAll (scopes : List Scope) (inClass : Bool) :
    ∀ exprs : List Expr, Expr.encountersAll scopes inClass (Expr.renumberAll f exprs) =
      (Expr.encountersAll scopes inClass exprs).map (Encounter.renumber f)
  | [] => rfl
  | expr :: exprs => by
    simp [Expr.renumberAll, encountersAll, expr.encounters_renumber scopes inClass,
      Expr.encountersAll_renumberAll scopes inClass exprs]

end

theorem Expr.encountersOption_renumber (scopes : List Scope) (inClass : Bool)
    (expr : Option Expr) :
    Expr.encountersOption scopes inClass (expr.map (Expr.renumber f)) =
      (Expr.encountersOption scopes inClass expr).map (Encounter.renumber f) := by
  cases expr with
  | none => rfl
  | some expr => exact expr.encounters_renumber f scopes inClass

theorem Scopes.introduceAll_renumber (names : List Token) (scopes : List Scope) :
    introduceAll (names.map (Token.renumber f)) scopes = introduceAll names scopes := by
  induction names generalizing scopes with
  | nil => rfl
  | cons name names ih => exact ih _

theorem Scopes.parameters_renumber (names : List Token) (scopes : List Scope) :
    parameters scopes (names.map (Token.renumber f)) =
      (parameters scopes names).map (Encounter.renumber f) := by
  induction names generalizing scopes with
  | nil => rfl
  | cons name names ih => exact congrArg _ (ih _)

theorem Stmt.scopesAfter_renumber (scopes : List Scope) : ∀ stmt : Stmt,
    (stmt.renumber f).scopesAfter scopes = stmt.scopesAfter scopes
  | .expression _ | .print _ | .block _ | .returnStmt _ _ | .varDecl _ _ | .classDecl _ _ => rfl
  | .funDecl declaration => by simp [Stmt.renumber, scopesAfter]
  | .ifThen _ thenBranch => by
    simp [Stmt.renumber, scopesAfter, thenBranch.scopesAfter_renumber scopes]
  | .ifElse _ thenBranch elseBranch => by
    simp [Stmt.renumber, scopesAfter, thenBranch.scopesAfter_renumber scopes,
      elseBranch.scopesAfter_renumber]
  | .whileLoop _ body => by simp [Stmt.renumber, scopesAfter, body.scopesAfter_renumber scopes]

mutual

theorem Stmt.encounters_renumber (scopes : List Scope) (inFunction inClass : Bool) :
    ∀ stmt : Stmt, (stmt.renumber f).encounters scopes inFunction inClass =
      (stmt.encounters scopes inFunction inClass).map (Encounter.renumber f)
  | .expression expr | .print expr => expr.encounters_renumber f scopes inClass
  | .varDecl name initializer => by
    simp [Stmt.renumber, Stmt.encounters, Expr.encountersOption_renumber, Encounter.renumber]
  | .block body => Stmt.encountersAll_renumberAll (∅ :: scopes) inFunction inClass body
  | .ifThen condition thenBranch => by
    simp [Stmt.renumber, Stmt.encounters, condition.encounters_renumber f,
      thenBranch.encounters_renumber]
  | .ifElse condition thenBranch elseBranch => by
    simp [Stmt.renumber, Stmt.encounters, condition.encounters_renumber f,
      thenBranch.encounters_renumber, elseBranch.encounters_renumber, Stmt.scopesAfter_renumber]
  | .whileLoop condition body => by
    simp [Stmt.renumber, Stmt.encounters, condition.encounters_renumber f,
      body.encounters_renumber]
  | .funDecl declaration => by
    simp [Stmt.renumber, Stmt.encounters, declaration.encounters_renumber, Encounter.renumber]
  | .returnStmt keyword value => by
    simp [Stmt.renumber, Stmt.encounters, Expr.encountersOption_renumber, Encounter.renumber]
  | .classDecl name methods => by
    simp [Stmt.renumber, Stmt.encounters, FunctionDecl.encountersMethods_renumberAll _ methods,
      Encounter.renumber]

theorem Stmt.encountersAll_renumberAll (scopes : List Scope) (inFunction inClass : Bool) :
    ∀ stmts : List Stmt,
      Stmt.encountersAll scopes inFunction inClass (Stmt.renumberAll f stmts) =
        (Stmt.encountersAll scopes inFunction inClass stmts).map (Encounter.renumber f)
  | [] => rfl
  | stmt :: stmts => by
    simp [Stmt.renumberAll, Stmt.encountersAll, stmt.encounters_renumber,
      Stmt.scopesAfter_renumber, Stmt.encountersAll_renumberAll _ inFunction inClass stmts]

theorem FunctionDecl.encounters_renumber (scopes : List Scope) (inClass : Bool) :
    ∀ declaration : FunctionDecl, (declaration.renumber f).encounters scopes inClass =
      (declaration.encounters scopes inClass).map (Encounter.renumber f)
  | ⟨name, params, body⟩ => by
    simp [FunctionDecl.renumber, FunctionDecl.encounters, Scopes.parameters_renumber,
      Scopes.introduceAll_renumber, Stmt.encountersAll_renumberAll _ true inClass body]

theorem FunctionDecl.encountersMethods_renumberAll (scopes : List Scope) :
    ∀ methods : List FunctionDecl,
      FunctionDecl.encountersMethods scopes (FunctionDecl.renumberAll f methods) =
        (FunctionDecl.encountersMethods scopes methods).map (Encounter.renumber f)
  | [] => rfl
  | method :: methods => by
    simp [FunctionDecl.renumberAll, FunctionDecl.encountersMethods, method.encounters_renumber,
      FunctionDecl.encountersMethods_renumberAll scopes methods]

end

/-- The walk over two programs, the second on other lines. -/
theorem encountersOf_append_renumber (left right : List Stmt) :
    encountersOf (left ++ Stmt.renumberAll f right) =
      encountersOf left ++ (encountersOf right).map (Encounter.renumber f) := by
  have hscopes : Stmt.scopesAfterAll [] left = [] := by
    induction left with
    | nil => rfl
    | cons stmt left ih => rw [Stmt.scopesAfterAll, Stmt.scopesAfter_nil, ih]
  unfold encountersOf
  rw [Stmt.encountersAll_append, hscopes, Stmt.encountersAll_renumberAll]

theorem Distances.noteAll_map_renumber (distances : Distances) (encounters : List Encounter) :
    distances.noteAll (encounters.map (Encounter.renumber f)) = distances.noteAll encounters := by
  unfold Distances.noteAll
  rw [List.filterMap_map]
  congr 2
  funext x
  exact x.note?_renumber f

theorem filterMap_fault?_renumber_eq_nil {encounters : List Encounter}
    (h : encounters.filterMap Encounter.fault? = []) :
    (encounters.map (Encounter.renumber f)).filterMap Encounter.fault? = [] := by
  rw [List.filterMap_eq_nil_iff] at h ⊢
  intro x hx
  obtain ⟨original, horiginal, rfl⟩ := List.mem_map.mp hx
  exact Encounter.fault?_renumber f (h original horiginal)

end LoxLang
