import LoxLang.Proofs.Grammar.Gluing

/-!
# Semicolons of statements

A semicolon ends a statement, at any depth of branches, loops and blocks, or it is one of the two in
the clauses of a `for` (`Spelled.semicolon`). `Encloses` follows a piece outwards to the one that it
is a part of, with the tokens before and behind it, and so `Semicolon` follows the statement. What
stands behind such a semicolon starts afresh: a declaration, an `else`, the end of a block, or
nothing (`Semicolon.boundary`). The two kinds are told apart by the parentheses: one is open in the
clauses of a `for` (`InClauses`), none where a statement ends (`Semicolon.balanced`).
-/
namespace LoxLang

/-- As many parentheses are opened as are closed. -/
def Balanced (tokens : List Token) : Prop :=
  tokens.countP (·.kind = .leftParen) = tokens.countP (·.kind = .rightParen)

theorem balanced_append_iff {u : List Token} (hu : Balanced u) (v : List Token) :
    Balanced (u ++ v) ↔ Balanced v := by
  unfold Balanced at hu ⊢
  rw [List.countP_append, List.countP_append, hu]
  omega

theorem balanced_append_right_iff {v : List Token} (hv : Balanced v) (u : List Token) :
    Balanced (u ++ v) ↔ Balanced u := by
  unfold Balanced at hv ⊢
  rw [List.countP_append, List.countP_append, hv]
  omega

theorem balanced_cons_iff {token : Token} (htoken : Balanced [token]) (v : List Token) :
    Balanced (token :: v) ↔ Balanced v :=
  balanced_append_iff htoken v

theorem balanced_parentheses_iff {first opening closing : Token} {u : List Token}
    (hfirst : Balanced [first]) (hopening : opening.kind = .leftParen) (hu : Balanced u)
    (hclosing : closing.kind = .rightParen) (v : List Token) :
    Balanced (first :: opening :: (u ++ closing :: v)) ↔ Balanced v := by
  have hfront : Balanced (opening :: (u ++ [closing])) := by
    unfold Balanced at hu ⊢
    simp [hopening, hclosing, hu]
  have hwhole := (balanced_cons_iff hfirst _).trans (balanced_append_iff hfront v)
  simpa using hwhole

/-- The pieces that hold no statement. -/
def Phrase.isPlain : Phrase → Bool
  | .expr .. | .arguments _ | .optional _ | .initializer _ | .parameters _ => true
  | _ => false

/-- What joins expressions neither ends nor starts a statement. -/
theorem Kind.plain_of_rank? {kind : Kind} {rank : Rank} (h : kind.rank? = some rank) :
    kind ≠ .semicolon ∧ Cursor.startsStatement kind = false := by
  cases kind <;> cases h <;> exact ⟨nofun, rfl⟩

namespace Spelled

/-- Where no statement is, there are no semicolons and no keywords of statements. -/
theorem kind_of_isPlain {phrase : Phrase} {u : List Token} (h : Spelled phrase u)
    (hplain : phrase.isPlain = true) :
    ∀ token ∈ u, token.kind ≠ .semicolon ∧ Cursor.startsStatement token.kind = false := by
  induction h with
  | @literal id value token hvalue =>
    simp only [List.forall_mem_singleton]
    unfold Kind.constant? at hvalue
    split at hvalue <;> simp_all [Cursor.startsStatement]
  | @unary id operator right u hjoins _ ih =>
    refine List.forall_mem_cons.mpr ⟨?_, ih rfl⟩
    rcases Level.joins_unary_iff.mp hjoins with hkind | hkind <;>
      simp [hkind, Cursor.startsStatement]
  | @combine level id left operator right u v hlevel _ hjoins _ ih ih' =>
    have hoperator := Kind.plain_of_rank? ((Level.joins_iff hlevel operator.kind).mp hjoins)
    exact List.forall_mem_append.mpr ⟨ih rfl, List.forall_mem_cons.mpr ⟨hoperator, ih' rfl⟩⟩
  | _ =>
    simp_all only [Phrase.isPlain, Cursor.startsStatement, List.forall_mem_append,
      List.forall_mem_cons, ne_eq, reduceCtorEq, not_false_eq_true, and_self, List.not_mem_nil,
      false_implies, implies_true, forall_const, Bool.false_eq_true]

/-- Parentheses are closed in the piece that they are opened in. -/
theorem balanced {phrase : Phrase} {u : List Token} (h : Spelled phrase u) : Balanced u := by
  unfold Balanced
  induction h with
  | @literal id value token hvalue =>
    unfold Kind.constant? at hvalue
    split at hvalue <;> simp_all
  | @unary id operator right u hjoins _ ih =>
    rcases Level.joins_unary_iff.mp hjoins with hkind | hkind <;> simp [hkind, ih]
  | @combine level id left operator right u v hlevel _ hjoins _ ih ih' =>
    cases level <;> cases hkind : operator.kind <;> simp_all [Level.joins]
  | _ => simp_all <;> omega

theorem balanced_clauses {start : Option Stmt} {condition increment : Option Expr}
    {semicolon : Token} {u v w : List Token} (hstart : Spelled (.forStart start) u)
    (hcondition : Spelled (.optional condition) v) (hsemicolon : semicolon.kind = .semicolon)
    (hincrement : Spelled (.optional increment) w) :
    Balanced (u ++ (v ++ semicolon :: w)) := by
  have hmiddle : Balanced [semicolon] := by simp [Balanced, hsemicolon]
  rw [balanced_append_iff hstart.balanced, balanced_append_iff hcondition.balanced]
  exact (balanced_cons_iff hmiddle w).mpr hincrement.balanced

theorem kind_ne_of_isPlain {phrase : Phrase} {u : List Token} (h : Spelled phrase u)
    (hplain : phrase.isPlain = true) :
    ∀ token ∈ u, token.kind ≠ .forKw ∧ token.kind ≠ .semicolon := by
  intro token hmem
  obtain ⟨hsemicolon, hkeyword⟩ := h.kind_of_isPlain hplain token hmem
  refine ⟨fun hfor => ?_, hsemicolon⟩
  rw [hfor] at hkeyword
  cases hkeyword

theorem kind_ne_returnKw_of_isPlain {phrase : Phrase} {u : List Token} (h : Spelled phrase u)
    (hplain : phrase.isPlain = true) : ∀ token ∈ u, token.kind ≠ .returnKw := by
  intro token hmem hreturn
  have hkeyword := (h.kind_of_isPlain hplain token hmem).2
  rw [hreturn] at hkeyword
  cases hkeyword

/-- The first clause of a `for` ends with its only semicolon. -/
theorem exists_of_forStart {stmt : Option Stmt} {u : List Token}
    (h : Spelled (.forStart stmt) u) :
    ∃ s semicolon, u = s ++ [semicolon] ∧ semicolon.kind = .semicolon ∧ Balanced s ∧
      (∀ token ∈ s, token.kind ≠ .forKw ∧ token.kind ≠ .semicolon) ∧
      ∀ token ∈ s, token.kind ≠ .returnKw := by
  cases h with
  | noStart hsemicolon => exact ⟨[], _, rfl, hsemicolon, rfl, by simp, by simp⟩
  | varStart h =>
    cases h with
    | varDecl hkeyword hname hinitializer hsemicolon =>
      refine ⟨_ :: _ :: _, _, rfl, hsemicolon, ?_, ?_, ?_⟩
      · have hbalanced := hinitializer.balanced
        simpa [Balanced, hkeyword, hname] using hbalanced
      · have hplain := hinitializer.kind_ne_of_isPlain rfl
        simp_all
      · have hplain := hinitializer.kind_ne_returnKw_of_isPlain rfl
        simp_all
  | exprStart h hsemicolon =>
    exact ⟨_, _, rfl, hsemicolon, h.balanced, h.kind_ne_of_isPlain rfl,
      h.kind_ne_returnKw_of_isPlain rfl⟩

end Spelled

/-- The pieces that statements are read in; the clauses of a `for` are none. -/
def Phrase.holdsStatements : Phrase → Bool
  | .statement .. | .block _ | .declaration _ | .declarations _ | .routine _ | .routines _ => true
  | _ => false

/-- Somewhere in the piece, at any depth of branches, loops and blocks, `P` holds of a smaller piece
with the tokens that it has itself; these are the tokens up to there, and those behind. -/
inductive Encloses (P : Phrase → List Token → List Token → Prop) :
    Phrase → List Token → List Token → Prop
  | here {phrase u v} : P phrase u v → Encloses P phrase u v
  | braced {body u v} : Encloses P (.block body) u v →
    Encloses P (.statement false (.block body)) u v
  | ifThen {keyword opening condition closing isOpen thenBranch u v w} : keyword.kind = .ifKw →
    opening.kind = .leftParen → Spelled (.expr .assignment condition) u →
    closing.kind = .rightParen → Encloses P (.statement isOpen thenBranch) v w →
    Encloses P (.statement true (.ifThen condition thenBranch))
      (keyword :: opening :: (u ++ closing :: v)) w
  | thenBranch {keyword opening condition closing thenBranch elseKeyword isOpen elseBranch u v w
      x} :
    keyword.kind = .ifKw → opening.kind = .leftParen → Spelled (.expr .assignment condition) u →
    closing.kind = .rightParen → Encloses P (.statement false thenBranch) v w →
    elseKeyword.kind = .elseKw → Spelled (.statement isOpen elseBranch) x →
    Encloses P (.statement isOpen (.ifElse condition thenBranch elseBranch))
      (keyword :: opening :: (u ++ closing :: v)) (w ++ elseKeyword :: x)
  | elseBranch {keyword opening condition closing thenBranch elseKeyword isOpen elseBranch u v w
      x} :
    keyword.kind = .ifKw → opening.kind = .leftParen → Spelled (.expr .assignment condition) u →
    closing.kind = .rightParen → Spelled (.statement false thenBranch) v →
    elseKeyword.kind = .elseKw → Encloses P (.statement isOpen elseBranch) w x →
    Encloses P (.statement isOpen (.ifElse condition thenBranch elseBranch))
      (keyword :: opening :: (u ++ closing :: (v ++ elseKeyword :: w))) x
  | whileLoop {keyword opening condition closing isOpen body u v w} : keyword.kind = .whileKw →
    opening.kind = .leftParen → Spelled (.expr .assignment condition) u →
    closing.kind = .rightParen → Encloses P (.statement isOpen body) v w →
    Encloses P (.statement isOpen (.whileLoop condition body))
      (keyword :: opening :: (u ++ closing :: v)) w
  | forLoop (id) {keyword opening start condition semicolon increment closing isOpen body u v w x
      y} : keyword.kind = .forKw → opening.kind = .leftParen → Spelled (.forStart start) u →
    Spelled (.optional condition) v → semicolon.kind = .semicolon →
    Spelled (.optional increment) w → closing.kind = .rightParen →
    Encloses P (.statement isOpen body) x y →
    Encloses P (.statement isOpen (Reading.forLoop start
        (condition.getD (.literal id (.bool true))) increment body))
      (keyword :: opening :: (u ++ (v ++ semicolon :: (w ++ closing :: x)))) y
  | block {opening body closing u v} : opening.kind = .leftBrace →
    Encloses P (.declarations body) u v → closing.kind = .rightBrace →
    Encloses P (.block body) (opening :: u) (v ++ [closing])
  | classDecl {keyword name opening methods closing u v} : keyword.kind = .classKw →
    name.kind = .identifier → opening.kind = .leftBrace → Encloses P (.routines methods) u v →
    closing.kind = .rightBrace →
    Encloses P (.declaration (.classDecl name methods)) (keyword :: name :: opening :: u)
      (v ++ [closing])
  | funDecl {keyword declaration u v} : keyword.kind = .funKw →
    Encloses P (.routine declaration) u v →
    Encloses P (.declaration (.funDecl declaration)) (keyword :: u) v
  | stated {isOpen stmt u v} : (firstKind u).startsStatement = true →
    Encloses P (.statement isOpen stmt) u v → Encloses P (.declaration stmt) u v
  | declaration {stmt stmts u v w} : (firstKind u).startsDeclaration = true →
    Encloses P (.declaration stmt) u v → Spelled (.declarations stmts) w →
    Encloses P (.declarations (stmt :: stmts)) u (v ++ w)
  | declarations {stmt stmts u v w} : Spelled (.declaration stmt) u →
    (firstKind v).startsDeclaration = true → Encloses P (.declarations stmts) v w →
    Encloses P (.declarations (stmt :: stmts)) (u ++ v) w
  | routine {name opening params closing body u v w} : name.kind = .identifier →
    opening.kind = .leftParen → Spelled (.parameters params) u →
    params.length ≤ Reading.maxArity → closing.kind = .rightParen → Encloses P (.block body) v w →
    Encloses P (.routine ⟨name, params, body⟩) (name :: opening :: (u ++ closing :: v)) w
  | method {declaration declarations u v w} : firstKind u = .identifier →
    Encloses P (.routine declaration) u v → Spelled (.routines declarations) w →
    Encloses P (.routines (declaration :: declarations)) u (v ++ w)
  | methods {declaration declarations u v w} : Spelled (.routine declaration) u →
    Encloses P (.routines declarations) v w →
    Encloses P (.routines (declaration :: declarations)) (u ++ v) w

/-- A statement up to the semicolon that ends it. -/
inductive Unended : Phrase → List Token → List Token → Prop
  | expression {expr u} : Spelled (.expr .assignment expr) u →
    Unended (.statement false (.expression expr)) u []
  | print {keyword expr u} : keyword.kind = .printKw → Spelled (.expr .assignment expr) u →
    Unended (.statement false (.print expr)) (keyword :: u) []
  | returnStmt {keyword value u} : keyword.kind = .returnKw → Spelled (.optional value) u →
    Unended (.statement false (.returnStmt keyword value)) (keyword :: u) []
  | varDecl {keyword name initializer u} : keyword.kind = .varKw → name.kind = .identifier →
    Spelled (.initializer initializer) u →
    Unended (.declaration (.varDecl name initializer)) (keyword :: name :: u) []

/-- A statement in the piece ends with a semicolon, between these tokens. -/
abbrev Semicolon := Encloses Unended

/-- Where a statement ends, no parenthesis is open. -/
theorem Semicolon.balanced {phrase : Phrase} {u v : List Token} (h : Semicolon phrase u v) :
    Balanced u := by
  induction h with
  | here h =>
    cases h with
    | expression h => exact h.balanced
    | print hkeyword h | returnStmt hkeyword h =>
      exact (balanced_cons_iff (by simp [Balanced, hkeyword]) _).mpr h.balanced
    | varDecl hkeyword hname h =>
      rw [balanced_cons_iff (by simp [Balanced, hkeyword])]
      exact (balanced_cons_iff (by simp [Balanced, hname]) _).mpr h.balanced
  | braced _ ih | stated _ _ ih | declaration _ _ _ ih | method _ _ _ ih => exact ih
  | ifThen hkeyword hopening hcondition hclosing _ ih
  | thenBranch hkeyword hopening hcondition hclosing _ _ _ ih
  | whileLoop hkeyword hopening hcondition hclosing _ ih =>
    exact (balanced_parentheses_iff (by simp [Balanced, hkeyword]) hopening hcondition.balanced
      hclosing _).mpr ih
  | elseBranch hkeyword hopening hcondition hclosing hthen helse _ ih =>
    refine (balanced_parentheses_iff (by simp [Balanced, hkeyword]) hopening hcondition.balanced
      hclosing _).mpr ?_
    refine (balanced_append_iff hthen.balanced _).mpr ?_
    exact (balanced_cons_iff (by simp [Balanced, helse]) _).mpr ih
  | forLoop id hkeyword hopening hstart hcondition hsemicolon hincrement hclosing _ ih =>
    have hclauses := Spelled.balanced_clauses hstart hcondition hsemicolon hincrement
    simpa using (balanced_parentheses_iff (by simp [Balanced, hkeyword]) hopening hclauses
      hclosing _).mpr ih
  | block hopening _ _ ih => exact (balanced_cons_iff (by simp [Balanced, hopening]) _).mpr ih
  | funDecl hkeyword _ ih => exact (balanced_cons_iff (by simp [Balanced, hkeyword]) _).mpr ih
  | classDecl hkeyword hname hopening _ _ ih =>
    rw [balanced_cons_iff (by simp [Balanced, hkeyword]),
      balanced_cons_iff (by simp [Balanced, hname])]
    exact (balanced_cons_iff (by simp [Balanced, hopening]) _).mpr ih
  | declarations h _ _ ih => exact (balanced_append_iff h.balanced _).mpr ih
  | routine hname hopening hparams _ hclosing _ ih =>
    exact (balanced_parentheses_iff (by simp [Balanced, hname]) hopening hparams.balanced
      hclosing _).mpr ih
  | methods h _ ih => exact (balanced_append_iff h.balanced _).mpr ih

/-- How many semicolons stand behind the last `for`, where this many stood before. -/
def semicolonsSince (count : Nat) (tokens : List Token) : Nat :=
  tokens.foldl (fun count token =>
    if token.kind = .forKw then 0 else if token.kind = .semicolon then count + 1 else count) count

theorem semicolonsSince_append (count : Nat) (u v : List Token) :
    semicolonsSince count (u ++ v) = semicolonsSince (semicolonsSince count u) v :=
  List.foldl_append

theorem semicolonsSince_cons (count : Nat) (token : Token) (tokens : List Token) :
    semicolonsSince count (token :: tokens) = semicolonsSince
      (if token.kind = .forKw then 0 else if token.kind = .semicolon then count + 1 else count)
      tokens := rfl

theorem semicolonsSince_of_forall {tokens : List Token}
    (h : ∀ token ∈ tokens, token.kind ≠ .forKw ∧ token.kind ≠ .semicolon) (count : Nat) :
    semicolonsSince count tokens = count := by
  induction tokens with
  | nil => rfl
  | cons token tokens ih =>
    obtain ⟨⟨hfor, hsemicolon⟩, hrest⟩ := List.forall_mem_cons.mp h
    rw [semicolonsSince_cons, if_neg hfor, if_neg hsemicolon]
    exact ih hrest

/-- The semicolon stands in the clauses of a `for`: the first one before the condition, or the
second one before the increment. -/
structure InClauses (before behind : List Token) : Prop where
  not_balanced : ¬ Balanced before
  kind_last : ∀ token ∈ before.getLast?, token.kind ≠ .returnKw
  clause : ∃ count expr v stop rest, (∀ earlier, semicolonsSince earlier before = count) ∧
    behind = v ++ stop :: rest ∧ Spelled (.optional expr) v ∧
    (count = 0 ∧ stop.kind = .semicolon ∨ count = 1 ∧ stop.kind = .rightParen)

namespace InClauses

variable {u v : List Token}

theorem ne_nil (h : InClauses u v) : u ≠ [] := by
  rintro rfl
  exact h.not_balanced rfl

theorem prepend {front : List Token} (hfront : Balanced front) (h : InClauses u v) :
    InClauses (front ++ u) v := by
  obtain ⟨count, expr, w, stop, rest, hcount, hbehind⟩ := h.clause
  refine ⟨mt (balanced_append_iff hfront u).mp h.not_balanced, ?_, count, expr, w, stop, rest, ?_,
    hbehind⟩
  · rw [List.getLast?_append, List.getLast?_eq_some_getLast h.ne_nil, Option.some_or,
      ← List.getLast?_eq_some_getLast]
    exact h.kind_last
  · intro earlier
    rw [semicolonsSince_append, hcount]

theorem append (h : InClauses u v) (back : List Token) : InClauses u (v ++ back) := by
  obtain ⟨count, expr, w, stop, rest, hcount, rfl, hclause⟩ := h.clause
  exact ⟨h.not_balanced, h.kind_last, count, expr, w, stop, rest ++ back, hcount, by simp,
    hclause⟩

theorem behind_condition {keyword opening closing : Token} {condition : Expr} {w : List Token}
    (hkeyword : keyword.kind = .ifKw ∨ keyword.kind = .whileKw)
    (hopening : opening.kind = .leftParen) (hcondition : Spelled (.expr .assignment condition) w)
    (hclosing : closing.kind = .rightParen) (h : InClauses u v) :
    InClauses (keyword :: opening :: (w ++ closing :: u)) v := by
  have hfirst : Balanced [keyword] := by rcases hkeyword with h | h <;> simp [Balanced, h]
  have hfront := (balanced_parentheses_iff hfirst hopening hcondition.balanced hclosing []).mpr rfl
  simpa using h.prepend hfront

theorem behind_clauses {keyword opening second closing : Token} {start : Option Stmt}
    {condition increment : Option Expr} {w x y : List Token} (hkeyword : keyword.kind = .forKw)
    (hopening : opening.kind = .leftParen) (hstart : Spelled (.forStart start) w)
    (hcondition : Spelled (.optional condition) x) (hsecond : second.kind = .semicolon)
    (hincrement : Spelled (.optional increment) y) (hclosing : closing.kind = .rightParen)
    (h : InClauses u v) :
    InClauses (keyword :: opening :: (w ++ (x ++ second :: (y ++ closing :: u)))) v := by
  have hfirst : Balanced [keyword] := by simp [Balanced, hkeyword]
  have hclauses := Spelled.balanced_clauses hstart hcondition hsecond hincrement
  have hfront := (balanced_parentheses_iff hfirst hopening hclauses hclosing []).mpr rfl
  simpa using h.prepend hfront

end InClauses

section Splitting

variable {s u v w u₁ u₂ : List Token} {token keyword opening closing : Token}

theorem split_append (heq : s ++ v = u₁ ++ token :: u₂) :
    (∃ s₂, s = u₁ ++ token :: s₂ ∧ u₂ = s₂ ++ v) ∨ ∃ v₁, u₁ = s ++ v₁ ∧ v = v₁ ++ token :: u₂ := by
  rcases List.append_eq_append_iff.mp heq with ⟨v₁, hu₁, hv⟩ | ⟨rest, hs, hrest⟩
  · exact .inr ⟨v₁, hu₁, hv⟩
  · cases rest with
    | nil => exact .inr ⟨[], by simp [hs], hrest.symm⟩
    | cons first rest =>
      obtain ⟨rfl, rfl⟩ := List.cons.inj hrest
      exact .inl ⟨rest, hs, rfl⟩

variable (hsemicolon : token.kind = .semicolon)
include hsemicolon

theorem split_behind (heq : s ++ v = u₁ ++ token :: u₂)
    (hs : ∀ token ∈ s, token.kind ≠ .semicolon) :
    ∃ v₁, u₁ = s ++ v₁ ∧ v = v₁ ++ token :: u₂ := by
  rcases split_append heq with ⟨s₂, rfl, -⟩ | h
  · exact absurd hsemicolon (hs token (by simp))
  · exact h

theorem split_before (heq : u ++ [closing] = u₁ ++ token :: u₂)
    (hclosing : closing.kind ≠ .semicolon) :
    ∃ v₂, u = u₁ ++ token :: v₂ ∧ u₂ = v₂ ++ [closing] := by
  rcases split_append heq with h | ⟨v₁, -, hv⟩
  · exact h
  · have hmem : token ∈ [closing] := hv ▸ (by simp)
    exact absurd (List.mem_singleton.mp hmem ▸ hsemicolon) hclosing

theorem split_last {last : Token} (heq : s ++ [last] = u₁ ++ token :: u₂)
    (hs : ∀ token ∈ s, token.kind ≠ .semicolon) : u₁ = s ∧ u₂ = [] := by
  obtain ⟨v₁, rfl, hv⟩ := split_behind hsemicolon heq hs
  cases v₁ with
  | nil => exact ⟨List.append_nil s, (List.cons.inj hv).2.symm⟩
  | cons _ v₁ => simp at hv

theorem firstKind_split {p : Kind → Bool} (h : p (firstKind (u₁ ++ token :: u₂)) = true)
    (hp : p .semicolon = false) : p (firstKind u₁) = true := by
  cases u₁ with
  | nil =>
    rw [List.nil_append, firstKind_cons, hsemicolon, hp] at h
    cases h
  | cons first u₁ => exact h

/-- Neither a condition in parentheses nor what starts it holds the semicolon. -/
theorem split_condition {condition : Expr} (heq : keyword :: opening :: (u ++ closing :: v) =
      u₁ ++ token :: u₂)
    (hkeyword : keyword.kind = .ifKw ∨ keyword.kind = .whileKw)
    (hopening : opening.kind = .leftParen) (hcondition : Spelled (.expr .assignment condition) u)
    (hclosing : closing.kind = .rightParen) :
    ∃ v₁, u₁ = keyword :: opening :: (u ++ closing :: v₁) ∧ v = v₁ ++ token :: u₂ := by
  have hplain := hcondition.kind_of_isPlain rfl
  have hnone : ∀ token ∈ keyword :: opening :: (u ++ [closing]), token.kind ≠ .semicolon := by
    rcases hkeyword with hkeyword | hkeyword <;> simp_all [or_imp, forall_and]
  obtain ⟨v₁, rfl, rfl⟩ := split_behind (s := keyword :: opening :: (u ++ [closing])) hsemicolon
    (by simpa using heq) hnone
  exact ⟨v₁, by simp, rfl⟩

/-- The semicolon is one of the two in the clauses of a `for`, or it stands in the body. -/
theorem split_forClauses {start : Option Stmt} {condition increment : Option Expr}
    {second : Token} {x : List Token}
    (heq : keyword :: opening :: (u ++ (v ++ second :: (w ++ closing :: x))) = u₁ ++ token :: u₂)
    (hkeyword : keyword.kind = .forKw) (hopening : opening.kind = .leftParen)
    (hstart : Spelled (.forStart start) u) (hcondition : Spelled (.optional condition) v)
    (hsecond : second.kind = .semicolon) (hincrement : Spelled (.optional increment) w)
    (hclosing : closing.kind = .rightParen) :
    InClauses u₁ u₂ ∨
      ∃ x₁, u₁ = keyword :: opening :: (u ++ (v ++ second :: (w ++ closing :: x₁))) ∧
        x = x₁ ++ token :: u₂ := by
  obtain ⟨s, first, rfl, hfirst, hs, hnone, hreturn⟩ := hstart.exists_of_forStart
  have hplain := hcondition.kind_ne_of_isPlain rfl
  have hplain' := hincrement.kind_ne_of_isPlain rfl
  have hv := hcondition.balanced
  unfold Balanced at hs hv
  -- before the first semicolon and before the second one, a parenthesis is open
  obtain ⟨v₁, rfl, hv₁⟩ := split_behind (s := keyword :: opening :: s) hsemicolon
    (v := first :: (v ++ second :: (w ++ closing :: x))) (by simpa using heq) (by simp_all)
  have hzero (earlier : Nat) : semicolonsSince earlier (keyword :: opening :: s) = 0 := by
    simp [semicolonsSince_cons, hkeyword, hopening, semicolonsSince_of_forall hnone]
  cases v₁ with
  | nil =>
    obtain ⟨rfl, rfl⟩ := List.cons.inj hv₁
    refine .inl ⟨?_, ?_, 0, condition, v, second, _, ?_, rfl, hcondition, .inl ⟨rfl, hsecond⟩⟩
    · simp [Balanced, hkeyword, hopening, hs]
    · have hall : ∀ token ∈ keyword :: opening :: s, token.kind ≠ .returnKw :=
        List.forall_mem_cons.mpr ⟨by simp [hkeyword],
          List.forall_mem_cons.mpr ⟨by simp [hopening], hreturn⟩⟩
      rw [List.append_nil]
      exact fun last hlast => hall last (List.mem_of_getLast? hlast)
    · simpa using hzero
  | cons _ v₁ =>
    obtain ⟨rfl, hrest⟩ := List.cons.inj hv₁
    obtain ⟨w₁, rfl, hw₁⟩ := split_behind hsemicolon hrest fun token hmem => (hplain token hmem).2
    cases w₁ with
    | nil =>
      obtain ⟨rfl, rfl⟩ := List.cons.inj hw₁
      refine .inl ⟨?_, ?_, 1, increment, w, closing, x, ?_, rfl, hincrement,
        .inr ⟨rfl, hclosing⟩⟩
      · simp [Balanced, hkeyword, hopening, hfirst, hs, hv]
      · have hreturn' := hcondition.kind_ne_returnKw_of_isPlain rfl
        have hall : ∀ token ∈ keyword :: opening :: s ++ first :: v, token.kind ≠ .returnKw := by
          simp_all [or_imp, forall_and]
        rw [List.append_nil]
        exact fun last hlast => hall last (List.mem_of_getLast? hlast)
      · intro earlier
        rw [semicolonsSince_append, hzero]
        simp [semicolonsSince_cons, hfirst, semicolonsSince_of_forall hplain]
    | cons _ w₁ =>
      obtain ⟨rfl, hrest'⟩ := List.cons.inj hw₁
      obtain ⟨x₁, rfl, rfl⟩ := split_behind (s := w ++ [closing]) (v := x) hsemicolon
        (by simpa using hrest') (by simp_all [or_imp, forall_and])
      exact .inr ⟨x₁, by simp, rfl⟩

end Splitting

namespace Spelled

theorem starts_declarations {stmts : List Stmt} {u : List Token}
    (h : Spelled (.declarations stmts) u) (hne : u ≠ []) :
    (firstKind u).startsDeclaration = true := by
  cases h with
  | noDeclarations => exact absurd rfl hne
  | declarations hstmt =>
    have hstart : (firstKind _).startsDeclaration = true := hstmt.starts
    rw [firstKind_append]
    · exact hstart
    · rintro rfl
      exact absurd hstart (by decide)

/-- A semicolon ends a statement, or it stands in the clauses of a `for`. -/
theorem semicolon {phrase : Phrase} {u u₁ u₂ : List Token} {token : Token} (h : Spelled phrase u)
    (hstatements : phrase.holdsStatements = true) (heq : u = u₁ ++ token :: u₂)
    (hsemicolon : token.kind = .semicolon) : Semicolon phrase u₁ u₂ ∨ InClauses u₁ u₂ := by
  induction h generalizing u₁ u₂ with
  | expression h hlast =>
    obtain ⟨rfl, rfl⟩ := split_last hsemicolon heq fun token hmem =>
      (h.kind_of_isPlain rfl token hmem).1
    exact .inl (.here (.expression h))
  | @print keyword _ _ u hkeyword h hlast =>
    obtain ⟨rfl, rfl⟩ := split_last (s := keyword :: u) hsemicolon heq
      (List.forall_mem_cons.mpr ⟨by simp [hkeyword], fun token hmem =>
        (h.kind_of_isPlain rfl token hmem).1⟩)
    exact .inl (.here (.print hkeyword h))
  | @returnStmt keyword _ _ u hkeyword h hlast =>
    obtain ⟨rfl, rfl⟩ := split_last (s := keyword :: u) hsemicolon heq
      (List.forall_mem_cons.mpr ⟨by simp [hkeyword], fun token hmem =>
        (h.kind_of_isPlain rfl token hmem).1⟩)
    exact .inl (.here (.returnStmt hkeyword h))
  | braced _ ih => exact (ih rfl heq).imp .braced id
  | ifThen hkeyword hopening hcondition hclosing _ _ ih =>
    obtain ⟨v₁, rfl, hthen⟩ := split_condition hsemicolon heq (.inl hkeyword) hopening hcondition
      hclosing
    exact (ih rfl hthen).imp (.ifThen hkeyword hopening hcondition hclosing)
      (.behind_condition (.inl hkeyword) hopening hcondition hclosing)
  | @ifElse keyword opening condition closing _ elseKeyword _ _ u v w hkeyword hopening hcondition
      hclosing hthen helse hbranch _ ihThen ihElse =>
    obtain ⟨v₁, rfl, hbranches⟩ := split_condition hsemicolon heq (.inl hkeyword) hopening
      hcondition hclosing
    rcases split_append hbranches with ⟨v₂, hinner, rfl⟩ | ⟨w₁, rfl, hinner⟩
    · exact (ihThen rfl hinner).imp
        (fun h => .thenBranch hkeyword hopening hcondition hclosing h helse hbranch)
        fun h => (h.behind_condition (.inl hkeyword) hopening hcondition hclosing).append _
    · cases w₁ with
      | nil =>
        obtain ⟨rfl, -⟩ := List.cons.inj hinner
        simp [helse] at hsemicolon
      | cons _ w₁ =>
        obtain ⟨rfl, hinner'⟩ := List.cons.inj hinner
        refine (ihElse rfl hinner').imp
          (.elseBranch hkeyword hopening hcondition hclosing hthen helse) fun h => ?_
        have hfront : Balanced (v ++ [elseKeyword]) :=
          (balanced_append_iff hthen.balanced _).mpr (by simp [Balanced, helse])
        have hbranches := h.prepend hfront
        rw [List.append_assoc] at hbranches
        exact hbranches.behind_condition (.inl hkeyword) hopening hcondition hclosing
  | whileLoop hkeyword hopening hcondition hclosing _ _ ih =>
    obtain ⟨v₁, rfl, hbody⟩ := split_condition hsemicolon heq (.inr hkeyword) hopening hcondition
      hclosing
    exact (ih rfl hbody).imp (.whileLoop hkeyword hopening hcondition hclosing)
      (.behind_condition (.inr hkeyword) hopening hcondition hclosing)
  | forLoop id hkeyword hopening hstart hcondition hsecond hincrement hclosing _ _ _ _ ih =>
    rcases split_forClauses hsemicolon heq hkeyword hopening hstart hcondition hsecond hincrement
      hclosing with hclauses | ⟨x₁, rfl, hbody⟩
    · exact .inr hclauses
    · exact (ih rfl hbody).imp
        (.forLoop id hkeyword hopening hstart hcondition hsecond hincrement hclosing)
        (.behind_clauses hkeyword hopening hstart hcondition hsecond hincrement hclosing)
  | @block opening body closing u hopening _ hclosing ih =>
    obtain ⟨v₁, rfl, hinner⟩ := split_behind (s := [opening]) (v := u ++ [closing]) hsemicolon heq
      (by simp [hopening])
    obtain ⟨v₂, hbody, rfl⟩ := split_before hsemicolon hinner (by simp [hclosing])
    have hfront : Balanced [opening] := by simp [Balanced, hopening]
    exact (ih rfl hbody).imp (fun h => .block hopening h hclosing)
      fun h => (h.prepend hfront).append _
  | @classDecl keyword name opening methods closing u hkeyword hname hopening _ hclosing ih =>
    obtain ⟨v₁, rfl, hinner⟩ := split_behind (s := [keyword, name, opening]) (v := u ++ [closing])
      hsemicolon heq (by simp [hkeyword, hname, hopening])
    obtain ⟨v₂, hbody, rfl⟩ := split_before hsemicolon hinner (by simp [hclosing])
    have hfront : Balanced [keyword, name, opening] := by
      simp [Balanced, hkeyword, hname, hopening]
    exact (ih rfl hbody).imp (fun h => .classDecl hkeyword hname hopening h hclosing)
      fun h => (h.prepend hfront).append _
  | @funDecl keyword _ u hkeyword _ ih =>
    obtain ⟨v₁, rfl, hinner⟩ := split_behind (s := [keyword]) (v := u) hsemicolon heq
      (by simp [hkeyword])
    have hfront : Balanced [keyword] := by simp [Balanced, hkeyword]
    exact (ih rfl hinner).imp (.funDecl hkeyword) (.prepend hfront)
  | @varDeclared name _ _ h =>
    cases h with
    | @varDecl keyword _ _ _ u hkeyword hname h hlast =>
      obtain ⟨rfl, rfl⟩ := split_last (s := keyword :: name :: u) hsemicolon heq
        (List.forall_mem_cons.mpr ⟨by simp [hkeyword], List.forall_mem_cons.mpr ⟨by simp [hname],
          fun token hmem => (h.kind_of_isPlain rfl token hmem).1⟩⟩)
      exact .inl (.here (.varDecl hkeyword hname h))
  | stated h ih =>
    have hstart : (firstKind _).startsStatement = true := h.starts
    rw [heq] at hstart
    exact (ih rfl heq).imp (.stated (firstKind_split hsemicolon hstart rfl)) id
  | declarations hstmt hstmts ih ihs =>
    rcases split_append heq with ⟨v₂, hinner, rfl⟩ | ⟨v₁, rfl, hinner⟩
    · have hstart : (firstKind _).startsDeclaration = true := hstmt.starts
      rw [hinner] at hstart
      exact (ih rfl hinner).imp
        (fun h => .declaration (firstKind_split hsemicolon hstart rfl) h hstmts) (·.append _)
    · have hstart := hstmts.starts_declarations (by simp [hinner])
      rw [hinner] at hstart
      exact (ihs rfl hinner).imp (.declarations hstmt (firstKind_split hsemicolon hstart rfl))
        (.prepend hstmt.balanced)
  | @routine name opening params closing body u v hname hopening hparams hlength hclosing _ _ ih =>
    have hfirst : Balanced [name] := by simp [Balanced, hname]
    have hfront := (balanced_parentheses_iff hfirst hopening hparams.balanced hclosing []).mpr rfl
    have hplain := hparams.kind_of_isPlain rfl
    obtain ⟨v₁, rfl, hinner⟩ := split_behind (s := name :: opening :: (u ++ [closing])) (v := v)
      hsemicolon (by simpa using heq) (by simp_all [or_imp, forall_and])
    refine (ih rfl hinner).imp (fun h => ?_) (.prepend hfront)
    simpa using Encloses.routine hname hopening hparams hlength hclosing h
  | routines h hs ih ihs =>
    rcases split_append heq with ⟨v₂, hinner, rfl⟩ | ⟨v₁, rfl, hinner⟩
    · have hstart : firstKind _ = .identifier := h.starts
      rw [hinner] at hstart
      have hfirst := firstKind_split (p := (· = .identifier)) hsemicolon (by simpa using hstart) rfl
      exact (ih rfl hinner).imp (fun h => .method (by simpa using hfirst) h hs) (·.append _)
    · exact (ihs rfl hinner).imp (.methods h) (.prepend h.balanced)
  | noDeclarations => simp at heq
  | noRoutines => simp at heq
  | _ => cases hstatements

end Spelled

theorem Spelled.exists_expression {stmt : Stmt} {u : List Token}
    (h : Spelled (.declaration stmt) u) (hstart : (firstKind u).startsExpression = true) :
    ∃ expr v semicolon, u = v ++ [semicolon] ∧ Spelled (.expr .assignment expr) v ∧
      semicolon.kind = .semicolon := by
  have hkeyword {kind : Kind} (hkind : firstKind u = kind) (hnot : kind.startsExpression = false) :
      False := by
    rw [hkind, hnot] at hstart
    cases hstart
  cases h with
  | classDecl hclass => exact (hkeyword hclass rfl).elim
  | funDecl hfun => exact (hkeyword hfun rfl).elim
  | varDeclared h =>
    have hvar : firstKind u = .varKw := h.starts
    exact (hkeyword hvar rfl).elim
  | stated h =>
    cases h with
    | expression h hsemicolon => exact ⟨_, _, _, rfl, h, hsemicolon⟩
    | print hprint => exact (hkeyword hprint rfl).elim
    | returnStmt hreturn => exact (hkeyword hreturn rfl).elim
    | braced h =>
      have hbrace : firstKind u = .leftBrace := h.starts
      exact (hkeyword hbrace rfl).elim
    | ifThen hif => exact (hkeyword hif rfl).elim
    | ifElse hif => exact (hkeyword hif rfl).elim
    | whileLoop hwhile => exact (hkeyword hwhile rfl).elim
    | forLoop _ hfor => exact (hkeyword hfor rfl).elim

/-- What can stand behind a statement. -/
inductive Boundary : List Token → Prop
  | nil : Boundary []
  | rightBrace {token rest} : token.kind = .rightBrace → Boundary (token :: rest)
  | elseKw {token rest} : token.kind = .elseKw → Boundary (token :: rest)
  | declaration {stmt u rest} : Spelled (.declaration stmt) u → Boundary (u ++ rest)

/-- Where the piece ends is seen from its last token, whatever stands behind it. -/
def Phrase.isClosed : Phrase → Bool
  | .block _ | .routine _ | .routines _ => true
  | _ => false

namespace Boundary

variable {tokens rest : List Token}

theorem declarations {stmts : List Stmt} {u : List Token} (h : Spelled (.declarations stmts) u)
    (hrest : Boundary rest) : Boundary (u ++ rest) := by
  cases h with
  | noDeclarations => exact hrest
  | declarations hstmt _ =>
    rw [List.append_assoc]
    exact .declaration hstmt

theorem kind (h : Boundary tokens) :
    firstKind tokens = .eof ∨ firstKind tokens = .rightBrace ∨ firstKind tokens = .elseKw ∨
      (firstKind tokens).startsDeclaration = true := by
  cases h with
  | nil => exact .inl rfl
  | rightBrace hkind => exact .inr (.inl hkind)
  | elseKw hkind => exact .inr (.inr (.inl hkind))
  | declaration h =>
    have hstart : (firstKind _).startsDeclaration = true := h.starts
    rw [firstKind_append]
    · exact .inr (.inr (.inr hstart))
    · rintro rfl
      exact absurd hstart (by decide)

theorem kind_ne (h : Boundary tokens) :
    firstKind tokens ≠ .semicolon ∧ firstKind tokens ≠ .equal := by
  rcases h.kind with hkind | hkind | hkind | hkind
  · simp [hkind]
  · simp [hkind]
  · simp [hkind]
  · constructor <;> intro heq <;> rw [heq] at hkind <;> exact absurd hkind (by decide)

theorem continues (h : Boundary tokens) (hon : Rank.assignment.goesOn (firstKind tokens) = true) :
    (firstKind tokens).continues := by
  rcases h.kind with hkind | hkind | hkind | hkind
  · exact absurd hon (by rw [hkind]; decide)
  · exact absurd hon (by rw [hkind]; decide)
  · exact absurd hon (by rw [hkind]; decide)
  · exact Kind.continues_of_goesOn hkind hon

theorem exists_expression (h : Boundary tokens)
    (hstart : (firstKind tokens).startsExpression = true) :
    ∃ expr u semicolon rest, tokens = u ++ semicolon :: rest ∧
      Spelled (.expr .assignment expr) u ∧ semicolon.kind = .semicolon := by
  cases h with
  | nil => exact absurd hstart (by decide)
  | rightBrace hkind =>
    rw [firstKind_cons, hkind] at hstart
    exact absurd hstart (by decide)
  | elseKw hkind =>
    rw [firstKind_cons, hkind] at hstart
    exact absurd hstart (by decide)
  | declaration h =>
    obtain ⟨expr, u, semicolon, rfl, hexpr, hsemicolon⟩ := h.exists_expression (by
      rwa [firstKind_append] at hstart
      rintro rfl
      have hnone : (firstKind []).startsDeclaration = true := h.starts
      exact absurd hnone (by decide))
    exact ⟨expr, u, semicolon, _, List.append_assoc .., hexpr, hsemicolon⟩

end Boundary

/-- Behind the semicolon, something can start that stands behind a statement. -/
theorem Semicolon.boundary {phrase : Phrase} {u v : List Token} (h : Semicolon phrase u v)
    {rest : List Token} (hrest : phrase.isClosed = true ∨ Boundary rest) :
    Boundary (v ++ rest) := by
  have hopen {rest : List Token} {phrase : Phrase} (hphrase : phrase.isClosed = false)
      (hrest : phrase.isClosed = true ∨ Boundary rest) : Boundary rest :=
    hrest.resolve_left (by simp [hphrase])
  induction h generalizing rest with
  | here h => cases h <;> exact hopen rfl hrest
  | braced _ ih => exact ih (.inl rfl)
  | ifThen _ _ _ _ _ ih | elseBranch _ _ _ _ _ _ _ ih | whileLoop _ _ _ _ _ ih
  | forLoop _ _ _ _ _ _ _ _ _ ih | stated _ _ ih => exact ih (.inr (hopen rfl hrest))
  | thenBranch _ _ _ _ _ helse _ ih =>
    rw [List.append_assoc]
    exact ih (.inr (.elseKw helse))
  | block _ _ hclosing ih | classDecl _ _ _ _ hclosing ih =>
    rw [List.append_assoc]
    exact ih (.inr (.rightBrace hclosing))
  | funDecl _ _ ih => exact ih (.inl rfl)
  | declaration _ _ hstmts ih =>
    rw [List.append_assoc]
    exact ih (.inr (.declarations hstmts (hopen rfl hrest)))
  | declarations _ _ _ ih => exact ih (.inr (hopen rfl hrest))
  | routine _ _ _ _ _ _ ih => exact ih (.inl rfl)
  | method _ _ _ ih =>
    rw [List.append_assoc]
    exact ih (.inl rfl)
  | methods _ _ ih => exact ih (.inl rfl)

end LoxLang
