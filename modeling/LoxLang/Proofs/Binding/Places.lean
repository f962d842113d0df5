import Mathlib.Tactic
import LoxLang.Tree

/-!
# Places in a program

A position is the way from a program to one of its nodes; every step of it keeps what stands before
the part that it enters. The places of a program are its declarations, expressions and `return`
statements with their positions, in the order in which names are bound. No two of them are at one
position (`nodup_placesOf`).
-/
namespace LoxLang

/-- A step from a construct into one of its parts, with what stands before that part. -/
inductive Step
  | program (before : List Stmt)
  | block (before : List Stmt)
  | body (params : List Token) (before : List Stmt)
  | parameter (before : List Token)
  | method (before : List FunctionDecl)
  | initializer (name : Token)
  | part (index : Nat)

/-- The way to a node, its last step first. -/
abbrev Position := List Step

/-- What a rule of scopes can speak about. -/
inductive Node
  | declaration (name : Token)
  | returning (keyword : Token)
  | expression (expr : Expr)

/-- A node of a program with its position. -/
structure Place where
  position : Position
  node : Node

mutual

def Expr.places (position : Position) : Expr → List Place
  | .literal id value => [⟨position, .expression (.literal id value)⟩]
  | .grouping id inner =>
    inner.places (.part 0 :: position) ++ [⟨position, .expression (.grouping id inner)⟩]
  | .unary id operator right =>
    right.places (.part 0 :: position) ++ [⟨position, .expression (.unary id operator right)⟩]
  | .binary id left operator right =>
    left.places (.part 0 :: position) ++ right.places (.part 1 :: position) ++
      [⟨position, .expression (.binary id left operator right)⟩]
  | .logical id left operator right =>
    left.places (.part 0 :: position) ++ right.places (.part 1 :: position) ++
      [⟨position, .expression (.logical id left operator right)⟩]
  | .var id name => [⟨position, .expression (.var id name)⟩]
  | .assign id name value =>
    value.places (.part 0 :: position) ++ [⟨position, .expression (.assign id name value)⟩]
  | .call id callee paren arguments =>
    callee.places (.part 0 :: position) ++ Expr.placesAll position 1 arguments ++
      [⟨position, .expression (.call id callee paren arguments)⟩]
  | .get id object name =>
    object.places (.part 0 :: position) ++ [⟨position, .expression (.get id object name)⟩]
  | .set id object name value =>
    value.places (.part 1 :: position) ++ object.places (.part 0 :: position) ++
      [⟨position, .expression (.set id object name value)⟩]
  | .this id keyword => [⟨position, .expression (.this id keyword)⟩]

def Expr.placesAll (position : Position) (index : Nat) : List Expr → List Place
  | [] => []
  | expr :: exprs =>
    expr.places (.part index :: position) ++ Expr.placesAll position (index + 1) exprs

end

def Expr.placesOption (position : Position) : Option Expr → List Place
  | none => []
  | some expr => expr.places position

/-- The places of parameters, those before them being `before`. -/
def Position.parameters (position : Position) (before : List Token) : List Token → List Place
  | [] => []
  | name :: names =>
    ⟨.parameter before :: position, .declaration name⟩ ::
      position.parameters (before ++ [name]) names

mutual

def Stmt.places (position : Position) : Stmt → List Place
  | .expression expr | .print expr => expr.places (.part 0 :: position)
  | .varDecl name initializer =>
    ⟨position, .declaration name⟩ :: Expr.placesOption (.initializer name :: position) initializer
  | .block body => Stmt.placesAll position .block [] body
  | .ifThen condition thenBranch =>
    condition.places (.part 0 :: position) ++ thenBranch.places (.part 1 :: position)
  | .ifElse condition thenBranch elseBranch =>
    condition.places (.part 0 :: position) ++ thenBranch.places (.part 1 :: position) ++
      elseBranch.places (.part 2 :: position)
  | .whileLoop condition body =>
    condition.places (.part 0 :: position) ++ body.places (.part 1 :: position)
  | .funDecl declaration =>
    ⟨position, .declaration declaration.name⟩ :: declaration.places position
  | .returnStmt keyword value =>
    ⟨position, .returning keyword⟩ :: Expr.placesOption (.part 0 :: position) value
  | .classDecl name methods =>
    ⟨position, .declaration name⟩ :: FunctionDecl.placesMethods position [] methods

/-- The places in the statements of a list that `enter` leads to, those before them being
`before`. -/
def Stmt.placesAll (position : Position) (enter : List Stmt → Step) (before : List Stmt) :
    List Stmt → List Place
  | [] => []
  | stmt :: stmts =>
    stmt.places (enter before :: position) ++
      Stmt.placesAll position enter (before ++ [stmt]) stmts

def FunctionDecl.places (position : Position) : FunctionDecl → List Place
  | ⟨_, params, body⟩ =>
    position.parameters [] params ++ Stmt.placesAll position (.body params) [] body

/-- The places in the methods of a class, those before them being `before`. -/
def FunctionDecl.placesMethods (position : Position) (before : List FunctionDecl) :
    List FunctionDecl → List Place
  | [] => []
  | method :: methods =>
    method.places (.method before :: position) ++
      FunctionDecl.placesMethods position (before ++ [method]) methods

end

/-- The places of a program, in the order in which they are met. -/
def placesOf (program : List Stmt) : List Place := Stmt.placesAll [] .program [] program

/-! ### Positions tell nodes apart -/

/-- The places are at or below a position, no two at the same. -/
structure Rooted (position : Position) (places : List Place) : Prop where
  below : ∀ place ∈ places, position <:+ place.position
  distinct : (places.map Place.position).Nodup

/-- The places are below a position, behind these steps, no two at the same. -/
structure Spread (position : Position) (steps : Step → Prop) (places : List Place) : Prop where
  below : ∀ place ∈ places, ∃ step, steps step ∧ (step :: position) <:+ place.position
  distinct : (places.map Place.position).Nodup

section Spread

variable {position : Position} {steps steps' : Step → Prop} {places places' : List Place}

theorem Spread.nil : Spread position steps [] where
  below := by simp
  distinct := List.nodup_nil

theorem Rooted.spread {step : Step} (h : Rooted (step :: position) places) (hstep : steps step) :
    Spread position steps places where
  below place hplace := ⟨step, hstep, h.below place hplace⟩
  distinct := h.distinct

theorem eq_of_suffix_of_suffix {step step' : Step} {inner : Position}
    (h : (step :: position) <:+ inner) (h' : (step' :: position) <:+ inner) : step = step' := by
  have hsuffix := List.suffix_of_suffix_length_le h h' (by simp)
  have heq : step :: position = step' :: position := hsuffix.eq_of_length (by simp)
  exact (List.cons.inj heq).1

theorem Spread.append (h : Spread position steps places) (h' : Spread position steps' places')
    (hsteps : ∀ step, steps step → ¬ steps' step) :
    Spread position (fun step => steps step ∨ steps' step) (places ++ places') where
  below place hplace := by
    rcases List.mem_append.mp hplace with hplace | hplace
    · obtain ⟨step, hstep, hsuffix⟩ := h.below place hplace
      exact ⟨step, .inl hstep, hsuffix⟩
    · obtain ⟨step, hstep, hsuffix⟩ := h'.below place hplace
      exact ⟨step, .inr hstep, hsuffix⟩
  distinct := by
    rw [List.map_append, List.nodup_append]
    refine ⟨h.distinct, h'.distinct, fun left hleft right hright heq => ?_⟩
    obtain ⟨place, hplace, rfl⟩ := List.mem_map.mp hleft
    obtain ⟨place', hplace', hsame⟩ := List.mem_map.mp hright
    obtain ⟨step, hstep, hsuffix⟩ := h.below place hplace
    obtain ⟨step', hstep', hsuffix'⟩ := h'.below place' hplace'
    rw [hsame, ← heq] at hsuffix'
    obtain rfl := eq_of_suffix_of_suffix hsuffix hsuffix'
    exact hsteps step hstep hstep'

/-- A node stands at a position of its own, apart from its parts. -/
theorem Spread.cons (h : Spread position steps places) (node : Node) :
    Rooted position (⟨position, node⟩ :: places) where
  below place hplace := by
    rcases List.mem_cons.mp hplace with rfl | hplace
    · exact List.suffix_refl position
    · obtain ⟨step, -, hsuffix⟩ := h.below place hplace
      exact (List.suffix_cons step position).trans hsuffix
  distinct := by
    rw [List.map_cons, List.nodup_cons]
    refine ⟨fun hmem => ?_, h.distinct⟩
    obtain ⟨place, hplace, hsame⟩ := List.mem_map.mp hmem
    obtain ⟨step, -, hsuffix⟩ := h.below place hplace
    rw [hsame] at hsuffix
    have := hsuffix.length_le
    simp at this

theorem Rooted.perm (h : Rooted position places) (hperm : places.Perm places') :
    Rooted position places' where
  below place hplace := h.below place (hperm.mem_iff.mpr hplace)
  distinct := (hperm.map Place.position).nodup_iff.mp h.distinct

theorem Spread.concat (h : Spread position steps places) (node : Node) :
    Rooted position (places ++ [⟨position, node⟩]) :=
  (h.cons node).perm (List.perm_append_singleton _ _).symm

theorem Spread.rooted (h : Spread position steps places) : Rooted position places where
  below place hplace := by
    obtain ⟨step, -, hsuffix⟩ := h.below place hplace
    exact (List.suffix_cons step position).trans hsuffix
  distinct := h.distinct

end Spread

/-- The steps into the later members of a list, from the one of this rank on. -/
def Later {β : Type} (enter : β → Step) (rank : β → Nat) (first : Nat) (step : Step) : Prop :=
  ∃ member, first ≤ rank member ∧ step = enter member

theorem Spread.later {β : Type} {position : Position} {enter : β → Step} {rank : β → Nat}
    {member : β} {places places' : List Place} (henter : Function.Injective enter)
    (h : Rooted (enter member :: position) places)
    (h' : Spread position (Later enter rank (rank member + 1)) places') :
    Spread position (Later enter rank (rank member)) (places ++ places') := by
  have hfirst : Spread position (· = enter member) places := h.spread rfl
  have hboth := hfirst.append h' fun step hstep hlater => by
    obtain ⟨other, hrank, hother⟩ := hlater
    obtain rfl := henter (hstep.symm.trans hother)
    omega
  refine ⟨fun place hplace => ?_, hboth.distinct⟩
  obtain ⟨step, hstep | ⟨other, hrank, hother⟩, hsuffix⟩ := hboth.below place hplace
  · exact ⟨step, ⟨member, le_rfl, hstep⟩, hsuffix⟩
  · exact ⟨step, ⟨other, by omega, hother⟩, hsuffix⟩

theorem Spread.none (position : Position) : Spread position (fun _ => False) [] := Spread.nil

mutual

theorem Expr.rooted_places : ∀ (expr : Expr) (position : Position),
    Rooted position (expr.places position)
  | .literal _ _, position | .var _ _, position | .this _ _, position =>
    (Spread.none position).concat _
  | .grouping _ inner, position | .unary _ _ inner, position | .assign _ _ inner, position
  | .get _ inner _, position => by
    have hinner : Spread position (· = .part 0) _ := (inner.rooted_places _).spread rfl
    exact hinner.concat _
  | .binary _ left _ right, position | .logical _ left _ right, position => by
    have hleft : Spread position (· = .part 0) _ := (left.rooted_places _).spread rfl
    have hright : Spread position (· = .part 1) _ := (right.rooted_places _).spread rfl
    exact (hleft.append hright (by simp)).concat _
  | .call _ callee _ arguments, position => by
    have hcallee : Spread position (· = .part 0) _ := (callee.rooted_places _).spread rfl
    have harguments := Expr.spread_placesAll arguments 1 position
    refine (hcallee.append harguments ?_).concat _
    rintro _ rfl ⟨index, hindex, hstep⟩
    obtain rfl := Step.part.inj hstep
    exact absurd hindex (by simp)
  | .set _ object _ value, position => by
    have hobject : Spread position (· = .part 0) _ := (object.rooted_places _).spread rfl
    have hvalue : Spread position (· = .part 1) _ := (value.rooted_places _).spread rfl
    exact (hvalue.append hobject (by simp)).concat _

theorem Expr.spread_placesAll : ∀ (exprs : List Expr) (index : Nat) (position : Position),
    Spread position (Later .part (fun index => index) index) (Expr.placesAll position index exprs)
  | [], _, _ => Spread.nil
  | expr :: exprs, index, position =>
    Spread.later (fun _ _ => Step.part.inj) (expr.rooted_places _)
      (Expr.spread_placesAll exprs (index + 1) position)

end

theorem Expr.rooted_placesOption (expr : Option Expr) (position : Position) :
    Rooted position (Expr.placesOption position expr) := by
  cases expr with
  | none => exact (Spread.none position).rooted
  | some expr => exact expr.rooted_places position

theorem Position.spread_parameters (position : Position) (before params : List Token) :
    Spread position (Later .parameter List.length before.length)
      (position.parameters before params) := by
  induction params generalizing before with
  | nil => exact Spread.nil
  | cons name params ih =>
    have hrest := ih (before ++ [name])
    rw [List.length_append] at hrest
    have hfirst := (Spread.none (.parameter before :: position)).cons (.declaration name)
    exact Spread.later (fun _ _ => Step.parameter.inj) hfirst hrest

mutual

theorem Stmt.rooted_places : ∀ (stmt : Stmt) (position : Position),
    Rooted position (stmt.places position)
  | .expression expr, position | .print expr, position => by
    have hexpr : Spread position (· = .part 0) _ := (expr.rooted_places _).spread rfl
    exact hexpr.rooted
  | .varDecl name initializer, position => by
    have hinitializer : Spread position (· = .initializer name) _ :=
      (Expr.rooted_placesOption initializer _).spread rfl
    exact hinitializer.cons _
  | .block body, position =>
    (Stmt.spread_placesAll body [] position .block fun _ _ => Step.block.inj).rooted
  | .ifThen condition thenBranch, position | .whileLoop condition thenBranch, position => by
    have hcondition : Spread position (· = .part 0) _ := (condition.rooted_places _).spread rfl
    have hthen : Spread position (· = .part 1) _ := (thenBranch.rooted_places _).spread rfl
    exact (hcondition.append hthen (by simp)).rooted
  | .ifElse condition thenBranch elseBranch, position => by
    have hcondition : Spread position (· = .part 0) _ := (condition.rooted_places _).spread rfl
    have hthen : Spread position (· = .part 1) _ := (thenBranch.rooted_places _).spread rfl
    have helse : Spread position (· = .part 2) _ := (elseBranch.rooted_places _).spread rfl
    exact ((hcondition.append hthen (by simp)).append helse (by simp)).rooted
  | .funDecl declaration, position => (declaration.spread_places position).cons _
  | .returnStmt _ value, position => by
    have hvalue : Spread position (· = .part 0) _ := (Expr.rooted_placesOption value _).spread rfl
    exact hvalue.cons _
  | .classDecl _ methods, position => (FunctionDecl.spread_placesMethods methods [] position).cons _

theorem Stmt.spread_placesAll : ∀ (stmts before : List Stmt) (position : Position)
    (enter : List Stmt → Step), Function.Injective enter →
    Spread position (Later enter List.length before.length)
      (Stmt.placesAll position enter before stmts)
  | [], _, _, _, _ => Spread.nil
  | stmt :: stmts, before, position, enter, henter => by
    have hrest := Stmt.spread_placesAll stmts (before ++ [stmt]) position enter henter
    rw [List.length_append] at hrest
    exact Spread.later henter (stmt.rooted_places _) hrest

theorem FunctionDecl.spread_places : ∀ (declaration : FunctionDecl) (position : Position),
    Spread position (fun step => Later .parameter List.length 0 step ∨
      Later (.body declaration.params) List.length 0 step) (declaration.places position)
  | ⟨_, params, body⟩, position => by
    have hparams := position.spread_parameters [] params
    have hbody := Stmt.spread_placesAll body [] position (.body params) fun _ _ h => by
      simpa using h
    refine hparams.append hbody ?_
    rintro _ ⟨before, -, rfl⟩ ⟨before', -, hstep⟩
    cases hstep

theorem FunctionDecl.spread_placesMethods :
    ∀ (methods before : List FunctionDecl) (position : Position),
    Spread position (Later .method List.length before.length)
      (FunctionDecl.placesMethods position before methods)
  | [], _, _ => Spread.nil
  | method :: methods, before, position => by
    have hrest := FunctionDecl.spread_placesMethods methods (before ++ [method]) position
    rw [List.length_append] at hrest
    exact Spread.later (fun _ _ => Step.method.inj) (method.spread_places _).rooted hrest

end

/-- No two places of a program are at one position. -/
theorem nodup_placesOf (program : List Stmt) :
    ((placesOf program).map Place.position).Nodup :=
  (Stmt.spread_placesAll program [] [] .program fun _ _ => Step.program.inj).distinct

end LoxLang
