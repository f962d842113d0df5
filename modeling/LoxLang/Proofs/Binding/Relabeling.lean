import LoxLang.Binding.Resolve
import LoxLang.Proofs.Relabeling

/-!
# Names with other identities

Binding looks at the texts of names and at the scopes around them. The identity of an expression is
only the place where its distance is noted. So with other identities the same walk is taken: it
notes the same distances in other places and finds the same faults (`resolve_relabel`).
-/
namespace LoxLang

/-- The distances for other identities are those of the original ones. -/
def Distances.Agree (g : Nat → Nat) (distances distances' : Distances) : Prop :=
  ∀ id, distances'[g id]? = distances[id]?

theorem Distances.Agree.insert {g : Nat → Nat} {distances distances' : Distances}
    (h : Agree g distances distances') (hg : g.Injective) (id distance : Nat) :
    Agree g (distances.insert id distance) (distances'.insert (g id) distance) := by
  intro other
  simp only [Std.TreeMap.getElem?_insert, Nat.compare_eq_eq, hg.eq_iff, h other]

/-- The walks are at the same point and have found the same faults, and distances agree; different
identities stay different. -/
structure Walk.Agree (g : Nat → Nat) (w w' : Walk) : Prop where
  injective : g.Injective
  scopes : w'.scopes = w.scopes
  currentFunction : w'.currentFunction = w.currentFunction
  inClass : w'.inClass = w.inClass
  faults : w'.faults = w.faults
  distances : w.distances.Agree g w'.distances

namespace Walk.Agree

variable {g : Nat → Nat} {w w' : Walk}

theorem report (h : w.Agree g w') (token : Token) (cause : ScopeCause) :
    (w.report token cause).Agree g (w'.report token cause) :=
  { h with faults := congrArg (·.push ⟨token, cause⟩) h.faults }

theorem setFunction (h : w.Agree g w') (kind : Option Routine) :
    (w.setFunction kind).Agree g (w'.setFunction kind) :=
  { h with currentFunction := rfl }

theorem setClass (h : w.Agree g w') (inClass : Bool) :
    (w.setClass inClass).Agree g (w'.setClass inClass) :=
  { h with inClass := rfl }

theorem enter (h : w.Agree g w') : w.enter.Agree g w'.enter :=
  { h with scopes := congrArg (∅ :: ·) h.scopes }

theorem leave (h : w.Agree g w') : w.leave.Agree g w'.leave :=
  { h with scopes := congrArg List.tail h.scopes }

theorem define (h : w.Agree g w') (name : String) : (w.define name).Agree g (w'.define name) := by
  unfold Walk.define
  rw [h.scopes]
  cases w.scopes with
  | nil => exact h
  | cons scope outer => exact { h with scopes := rfl }

theorem declare (h : w.Agree g w') (name : Token) :
    (w.declare name).Agree g (w'.declare name) := by
  unfold Walk.declare
  rw [h.scopes]
  cases w.scopes with
  | nil => exact h
  | cons scope outer =>
    dsimp only
    split
    · exact h.report name _
    · exact { h with scopes := rfl }

theorem introduce (h : w.Agree g w') (name : Token) :
    (w.introduce name).Agree g (w'.introduce name) :=
  (h.declare name).define _

theorem introduceAll (h : w.Agree g w') (names : List Token) :
    (Walk.introduceAll names w).Agree g (Walk.introduceAll names w') := by
  induction names generalizing w w' with
  | nil => exact h
  | cons name names ih => exact ih (h.introduce name)

theorem checkReady (h : w.Agree g w') (name : Token) :
    (w.checkReady name).Agree g (w'.checkReady name) := by
  unfold Walk.checkReady
  rw [h.scopes]
  split
  · exact h.report name _
  · exact h

theorem link (h : w.Agree g w') (id : Nat) (name : Token) :
    (w.link id name).Agree g (w'.link (g id) name) := by
  unfold Walk.link
  rw [h.scopes]
  split
  · exact { h with scopes := rfl, distances := h.distances.insert h.injective _ _ }
  · exact h

end Walk.Agree

variable {g : Nat → Nat}

mutual

theorem Expr.agree_resolve {w w' : Walk} : ∀ expr : Expr, w.Agree g w' →
    (expr.resolve w).Agree g ((expr.relabel g).resolve w')
  | .literal _ _, h => h
  | .grouping _ inner, h | .unary _ _ inner, h | .get _ inner _, h => inner.agree_resolve h
  | .binary _ left _ right, h | .logical _ left _ right, h | .set _ right _ left, h =>
    right.agree_resolve (left.agree_resolve h)
  | .var id name, h => (h.checkReady name).link id name
  | .assign id name value, h => (value.agree_resolve h).link id name
  | .call _ callee _ arguments, h => Expr.agree_resolveAll arguments (callee.agree_resolve h)
  | .this id keyword, h => by
    rw [Expr.relabel, Expr.resolve, Expr.resolve, h.inClass]
    split
    · exact h.link id keyword
    · exact h.report keyword _

theorem Expr.agree_resolveAll {w w' : Walk} : ∀ exprs : List Expr, w.Agree g w' →
    (Expr.resolveAll exprs w).Agree g (Expr.resolveAll (Expr.relabelAll g exprs) w')
  | [], h => h
  | expr :: exprs, h => Expr.agree_resolveAll exprs (expr.agree_resolve h)

end

theorem Expr.agree_resolveOption {w w' : Walk} (expr : Option Expr) (h : w.Agree g w') :
    (Expr.resolveOption expr w).Agree g
      (Expr.resolveOption (expr.map (Expr.relabel g)) w') := by
  cases expr with
  | none => exact h
  | some expr => exact expr.agree_resolve h

mutual

theorem Stmt.agree_resolve {w w' : Walk} : ∀ stmt : Stmt, w.Agree g w' →
    (stmt.resolve w).Agree g ((stmt.relabel g).resolve w')
  | .expression expr, h | .print expr, h => expr.agree_resolve h
  | .varDecl name initializer, h =>
    (Expr.agree_resolveOption initializer (h.declare name)).define _
  | .block body, h => (Stmt.agree_resolveAll body h.enter).leave
  | .ifThen condition thenBranch, h | .whileLoop condition thenBranch, h =>
    thenBranch.agree_resolve (condition.agree_resolve h)
  | .ifElse condition thenBranch elseBranch, h =>
    elseBranch.agree_resolve (thenBranch.agree_resolve (condition.agree_resolve h))
  | .funDecl ⟨name, params, body⟩, h =>
    FunctionDecl.agree_resolve .function ⟨name, params, body⟩ (h.introduce name)
  | .returnStmt keyword value, h => by
    apply Expr.agree_resolveOption
    rw [h.currentFunction]
    split
    · exact h.report keyword _
    · exact h
  | .classDecl name methods, h => by
    have hmethods := FunctionDecl.agree_resolveMethods methods ((h.setClass true).introduce name)
    rw [Stmt.relabel, Stmt.resolve, Stmt.resolve, h.inClass]
    exact hmethods.setClass _

theorem Stmt.agree_resolveAll {w w' : Walk} : ∀ stmts : List Stmt, w.Agree g w' →
    (Stmt.resolveAll stmts w).Agree g (Stmt.resolveAll (Stmt.relabelAll g stmts) w')
  | [], h => h
  | stmt :: stmts, h => Stmt.agree_resolveAll stmts (stmt.agree_resolve h)

theorem FunctionDecl.agree_resolve {w w' : Walk} (kind : Routine) :
    ∀ declaration : FunctionDecl, w.Agree g w' →
      (declaration.resolve kind w).Agree g ((declaration.relabel g).resolve kind w')
  | ⟨_, params, body⟩, h => by
    have hinside := (h.setFunction (some kind)).enter.introduceAll params
    rw [FunctionDecl.relabel, FunctionDecl.resolve, FunctionDecl.resolve, h.currentFunction]
    exact (Stmt.agree_resolveAll body hinside).leave.setFunction _

theorem FunctionDecl.agree_resolveMethods {w w' : Walk} : ∀ methods : List FunctionDecl,
    w.Agree g w' →
      (FunctionDecl.resolveMethods methods w).Agree g
        (FunctionDecl.resolveMethods (FunctionDecl.relabelAll g methods) w')
  | [], h => h
  | method :: methods, h =>
    FunctionDecl.agree_resolveMethods methods
      (method.agree_resolve .method (h.enter.define "this")).leave

end

/-- With other identities the same distances are noted and the same faults are found. -/
theorem resolve_relabel (hg : g.Injective) {distances distances' : Distances}
    (h : distances.Agree g distances') (statements : List Stmt) :
    (resolve statements distances).1.Agree g
        (resolve (Stmt.relabelAll g statements) distances').1 ∧
      (resolve (Stmt.relabelAll g statements) distances').2 =
        (resolve statements distances).2 := by
  have hstart : Walk.Agree g (.begin distances) (.begin distances') :=
    ⟨hg, rfl, rfl, rfl, rfl, h⟩
  have hwalk := Stmt.agree_resolveAll statements hstart
  exact ⟨hwalk.distances, congrArg Array.toList hwalk.faults⟩

end LoxLang
