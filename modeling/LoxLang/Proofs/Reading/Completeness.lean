import LoxLang.Proofs.Grammar.Spelling
import LoxLang.Proofs.Reading.Relabeling

/-!
# What is spelled is read

Tokens that spell a piece of a program are read as that piece, up to identities, without a fault
(`Program.ofTokens_of_spelled`). What stands behind the piece has to leave it alone: an expression
ends before a token that it would go on with, and an open statement before an `else`.

Operands of one level and calls are grouped to the left, but read from the left by a loop that holds
what it has read so far. For them, `Read` says that the loop can be entered behind the piece.
-/
namespace LoxLang

/-- One identity for all expressions. -/
def blank (_ : Nat) : Nat := 0

@[simp] theorem blank_eq (id : Nat) : blank id = 0 := rfl

namespace Reading

variable {α β : Type}

/-- In front of the others, these tokens are read without a fault as something of which `Q`
holds. -/
def Accepts (p : Reading α) (tokens rest : List Token) (Q : α → Prop) : Prop :=
  ∀ c, c.ahead = tokens ++ rest →
    p.Ensures c (fun a c' => c'.ahead = rest ∧ c'.faults = c.faults ∧ Q a) fun _ _ => False

section Rules

variable {p : Reading α} {u v rest : List Token} {P : α → Prop} {Q : β → Prop}

theorem Accepts.mono {P' : α → Prop} (h : Accepts p u rest P) (hP : ∀ a, P a → P' a) :
    Accepts p u rest P' := by
  intro c hahead
  apply (h c hahead).mono
  · rintro a c' ⟨hrest, hfaults, hread⟩
    exact ⟨hrest, hfaults, hP a hread⟩
  · exact fun _ _ h => h

theorem Accepts.bind {f : α → Reading β} (h : Accepts p u (v ++ rest) P)
    (hf : ∀ a, P a → Accepts (f a) v rest Q) : Accepts (p >>= f) (u ++ v) rest Q := by
  intro c hahead
  rw [Action.ensures_bind]
  apply (h c (by rw [hahead, List.append_assoc])).mono
  · rintro a c₁ ⟨hahead₁, hfaults₁, hread⟩
    apply (hf a hread c₁ hahead₁).mono
    · rintro b c₂ ⟨hahead₂, hfaults₂, hread₂⟩
      exact ⟨hahead₂, hfaults₂.trans hfaults₁, hread₂⟩
    · exact fun _ _ h => h
  · exact fun _ _ h => h

theorem accepts_pure {a : α} (h : P a) : Accepts (pure a) [] rest P :=
  fun _ hahead => ⟨hahead, rfl, h⟩

theorem Accepts.bind_pure {f : α → β} (h : Accepts p u rest fun a => Q (f a)) :
    Accepts (p >>= fun a => pure (f a)) u rest Q := by
  rw [← List.append_nil u]
  exact h.bind fun _ hread => accepts_pure hread

theorem accepts_exhausted : Accepts Action.exhausted u rest P := fun _ _ => trivial

theorem accepts_node {build : Nat → Expr} {P : Expr → Prop} (h : ∀ id, P (build id)) :
    Accepts (node build) [] rest P :=
  fun _ hahead => ⟨hahead, rfl, h _⟩

theorem Accepts.bind_node {build : α → Nat → Expr} {Q : Expr → Prop}
    (h : Accepts p u rest fun a => ∀ id, Q (build a id)) :
    Accepts (p >>= fun a => node (build a)) u rest Q := by
  rw [← List.append_nil u]
  exact h.bind fun _ hread => accepts_node hread

theorem accepts_node_bind {build : Nat → Expr} {f : Expr → Reading β}
    (h : ∀ id, Accepts (f (build id)) u rest Q) : Accepts (node build >>= f) u rest Q := by
  intro c hahead
  exact h c.nextId { c with nextId := c.nextId + 1 } hahead

theorem accepts_advance (token : Token) : Accepts advance [token] rest fun _ => True :=
  fun c hahead => ⟨by simp [hahead], c.faults_advance, trivial⟩

theorem accepts_takeIf {p : Kind → Bool} {token : Token} (h : p token.kind = true) :
    Accepts (takeIf p) [token] rest (· = some token) := by
  intro c hahead
  rw [Action.Ensures, takeIf_of_head hahead h]
  exact ⟨by simp [hahead], c.faults_advance, rfl⟩

theorem takeIf_of_firstKind {p : Kind → Bool} {c : Cursor} {tokens : List Token}
    (hahead : c.ahead = tokens) (h : p (firstKind tokens) = false) :
    takeIf p c = .done none c := by
  apply takeIf_of_forall
  rw [hahead]
  cases tokens with
  | nil => simp
  | cons token rest => simpa using h

theorem accepts_takeIf_none {p : Kind → Bool} (h : p (firstKind rest) = false) :
    Accepts (takeIf p) [] rest (· = none) := by
  intro c hahead
  rw [Action.Ensures, takeIf_of_firstKind hahead h]
  exact ⟨hahead, rfl, rfl⟩

theorem accepts_accept {kind : Kind} {token : Token} (h : token.kind = kind) :
    Accepts (accept kind) [token] rest (· = true) :=
  ((accepts_takeIf (decide_eq_true h)).mono fun _ hread => by rw [hread]; rfl).bind_pure

theorem accepts_accept_not {kind : Kind} (h : firstKind rest ≠ kind) :
    Accepts (accept kind) [] rest (· = false) :=
  ((accepts_takeIf_none (decide_eq_false h)).mono fun _ hread => by rw [hread]; rfl).bind_pure

theorem accepts_want {kind : Kind} {token : Token} (wanted : Wanted) (h : token.kind = kind) :
    Accepts (want kind wanted) [token] rest (· = token) := by
  rw [← List.append_nil [token]]
  apply (accepts_takeIf (decide_eq_true h)).bind
  rintro _ rfl
  exact accepts_pure rfl

theorem kind_peek {c : Cursor} {tokens : List Token} (hahead : c.ahead = tokens) :
    c.peek.kind = firstKind tokens := by
  rw [← hahead, Cursor.peek_eq]
  cases c.ahead with
  | nil => exact c.kind_ending
  | cons token rest => rfl

theorem accepts_peek_bind {f : Token → Reading β}
    (h : ∀ token : Token, token.kind = firstKind (u ++ rest) → Accepts (f token) u rest Q) :
    Accepts (peek >>= f) u rest Q :=
  fun c hahead => h c.peek (kind_peek hahead) c hahead

theorem accepts_peek_cons_bind {f : Token → Reading β} {token : Token}
    (h : Accepts (f token) (token :: u) rest Q) : Accepts (peek >>= f) (token :: u) rest Q := by
  intro c hahead
  have hpeek : c.peek = token := by simp [Cursor.peek_eq, hahead]
  have hc := h c hahead
  rw [← hpeek] at hc
  exact hc

theorem accepts_nextKind_bind {f : Kind → Reading β}
    (h : Accepts (f (firstKind (u ++ rest))) u rest Q) : Accepts (nextKind >>= f) u rest Q :=
  accepts_peek_bind (f := fun token => f token.kind) fun _ hkind => hkind ▸ h

theorem accepts_isAtEnd_bind {f : Bool → Reading β}
    (h : Accepts (f (u ++ rest).isEmpty) u rest Q) : Accepts (isAtEnd >>= f) u rest Q := by
  intro c hahead
  have hc := h c hahead
  rw [← hahead, ← c.isAtEnd_eq] at hc
  exact hc

theorem accepts_checkCount {count : Nat} (cause : GrammarCause) (h : count < maxArity) :
    Accepts (checkCount count cause) [] rest fun _ => True := by
  rw [checkCount, if_neg (Nat.not_le.mpr h)]
  exact accepts_pure trivial

theorem accepts_listUntil {stop : Kind} {list : Reading (List α)} {P : List α → Prop}
    (hne : u ≠ []) (hstop : firstKind u ≠ stop) (h : Accepts list u rest P) :
    Accepts (listUntil stop list) u rest P := by
  apply accepts_nextKind_bind
  rw [firstKind_append hne, if_neg hstop]
  exact h

theorem accepts_listUntil_nil {stop : Kind} {list : Reading (List α)} {P : List α → Prop}
    (hrest : firstKind rest = stop) (h : P []) : Accepts (listUntil stop list) [] rest P := by
  apply accepts_nextKind_bind
  rw [List.nil_append, if_pos hrest]
  exact accepts_pure h

theorem Accepts.attempt (h : Accepts p u rest P) :
    Accepts p.attempt u rest fun result => ∃ a, result = .ok a ∧ P a := by
  intro c hahead
  rw [Action.ensures_attempt]
  apply (h c hahead).mono
  · rintro a c' ⟨hrest, hfaults, hread⟩
    exact ⟨hrest, hfaults, a, rfl, hread⟩
  · exact fun _ _ hfalse => hfalse.elim

end Rules

section Expressions

/-- These tokens are read as this expression, before what an expression of the rank does not go on
with. -/
def ReadWhole (p : Nat → Reading Expr) (rank : Rank) (expr : Expr) (u : List Token) : Prop :=
  ∀ fuel rest, rank.goesOn (firstKind rest) = false →
    Accepts (p fuel) u rest fun expr' => expr'.relabel blank = expr.relabel blank

/-- Reading these tokens leads into the loop, with this expression in its hands. -/
def ReadInto (p : Nat → Reading Expr) (loop : Nat → Expr → Reading Expr) (rank : Rank) (expr : Expr)
    (u : List Token) : Prop :=
  ∀ fuel v rest Q, rank.tighter.goesOn (firstKind (v ++ rest)) = false →
    (∀ fuel expr', expr'.relabel blank = expr.relabel blank → Accepts (loop fuel expr') v rest Q) →
    Accepts (p fuel) (u ++ v) rest Q

def suffixed (fuel : Nat) : Reading Expr := do suffixes fuel (← primary fuel)

/-- How an expression is read in a place of this rank. -/
def ReadExpr (rank : Rank) (expr : Expr) (u : List Token) : Prop :=
  match rank with
  | .assignment => ReadWhole expression .assignment expr u
  | .operation level => ReadWhole (operation · level) (.operation level) expr u ∧
    (level ≠ .unary → ReadInto (operation · level) (operands · level) (.operation level) expr u)
  | .call => ReadInto suffixed suffixes .call expr u
  | .primary => ReadWhole primary .primary expr u

variable {expr : Expr} {u v : List Token}

/-- The loop ends before what the expression does not go on with. -/
theorem ReadInto.operation {level : Level} (hlevel : level ≠ .unary)
    (h : ReadInto (operation · level) (operands · level) (.operation level) expr u) :
    ReadExpr (.operation level) expr u := by
  refine ⟨fun fuel rest hrest => ?_, fun _ => h⟩
  rw [← List.append_nil u]
  apply h fuel [] rest _ (Rank.goesOn_tighter hrest)
  rintro (_ | fuel) expr' hexpr
  · exact accepts_exhausted
  · apply Accepts.bind (v := []) (accepts_takeIf_none (Rank.joins_of_goesOn hlevel hrest))
    rintro _ rfl
    exact accepts_pure hexpr

theorem readExpr_literal {id : Nat} {value : Literal} {token : Token}
    (hvalue : token.kind.constant? = some value) :
    ReadExpr .primary (.literal id value) [token] := by
  rintro (_ | fuel) rest -
  · exact accepts_exhausted
  · have hconstant : Accepts (constant value) [token] rest fun expr' =>
        expr'.relabel blank = (Expr.literal id value).relabel blank :=
      ((accepts_advance token).mono fun _ _ _ => rfl).bind_node
    rw [primary]
    apply accepts_peek_cons_bind
    unfold Kind.constant? at hvalue
    split at hvalue <;> simp only [Option.some.injEq, reduceCtorEq] at hvalue
    all_goals
      next hkind =>
        subst hvalue
        rw [hkind]
        exact hconstant

theorem readExpr_var {id : Nat} {name : Token} (hname : name.kind = .identifier) :
    ReadExpr .primary (.var id name) [name] := by
  rintro (_ | fuel) rest -
  · exact accepts_exhausted
  · rw [primary]
    apply accepts_peek_cons_bind
    rw [hname]
    exact ((accepts_advance name).mono fun _ _ _ => rfl).bind_node

theorem readExpr_this {id : Nat} {keyword : Token} (hkeyword : keyword.kind = .thisKw) :
    ReadExpr .primary (.this id keyword) [keyword] := by
  rintro (_ | fuel) rest -
  · exact accepts_exhausted
  · rw [primary]
    apply accepts_peek_cons_bind
    rw [hkeyword]
    exact ((accepts_advance keyword).mono fun _ _ _ => rfl).bind_node

theorem readExpr_grouping {id : Nat} {inner : Expr} {opening closing : Token}
    (hopening : opening.kind = .leftParen) (hinner : ReadExpr .assignment inner u)
    (hclosing : closing.kind = .rightParen) :
    ReadExpr .primary (.grouping id inner) (opening :: (u ++ [closing])) := by
  rintro (_ | fuel) rest -
  · exact accepts_exhausted
  · rw [primary]
    apply accepts_peek_cons_bind
    rw [hopening]
    apply (accepts_advance opening).bind
    intro _ _
    apply (hinner fuel _ (by simp [hclosing]; rfl)).bind
    intro inner' hinner'
    apply ((accepts_want _ hclosing).mono _).bind_node
    intro _ _ _
    simp [Expr.relabel, hinner']

theorem readExpr_call {id : Nat} {callee : Expr} {paren : Token} {args : List Expr}
    {opening : Token} (hcallee : ReadExpr .call callee u) (hopening : opening.kind = .leftParen)
    (hargs : ∀ fuel rest, firstKind rest = .rightParen →
      Accepts (listUntil .rightParen (arguments fuel 0)) v rest fun args' =>
        Expr.relabelAll blank args' = Expr.relabelAll blank args)
    (hparen : paren.kind = .rightParen) :
    ReadExpr .call (.call id callee paren args) (u ++ opening :: (v ++ [paren])) := by
  intro fuel w rest Q _ hloop
  simp only [List.append_assoc, List.cons_append, List.nil_append]
  apply hcallee fuel _ rest Q (Rank.goesOn_primary _)
  rintro (_ | fuel) callee' hcallee'
  · exact accepts_exhausted
  · rw [suffixes]
    apply accepts_nextKind_bind
    simp only [List.cons_append, firstKind_cons, hopening]
    apply (accepts_advance opening).bind
    intro _ _
    apply (hargs fuel (paren :: (w ++ rest)) hparen).bind
    intro args' hargs'
    apply (accepts_want _ hparen).bind
    rintro _ rfl
    apply accepts_node_bind
    intro id'
    apply hloop
    simp [Expr.relabel, hcallee', hargs']

theorem readExpr_get {id : Nat} {object : Expr} {dot name : Token}
    (hobject : ReadExpr .call object u) (hdot : dot.kind = .dot) (hname : name.kind = .identifier) :
    ReadExpr .call (.get id object name) (u ++ [dot, name]) := by
  intro fuel w rest Q _ hloop
  simp only [List.append_assoc, List.cons_append, List.nil_append]
  apply hobject fuel _ rest Q (Rank.goesOn_primary _)
  rintro (_ | fuel) object' hobject'
  · exact accepts_exhausted
  · rw [suffixes]
    apply accepts_nextKind_bind
    simp only [List.cons_append, firstKind_cons, hdot]
    apply (accepts_advance dot).bind
    intro _ _
    apply (accepts_want _ hname).bind
    rintro _ rfl
    apply accepts_node_bind
    intro id'
    apply hloop
    simp [Expr.relabel, hobject']

theorem readExpr_unary {id : Nat} {operator : Token} {right : Expr}
    (hoperator : Level.joins .unary operator.kind = true)
    (hright : ReadExpr (.operation .unary) right u) :
    ReadExpr (.operation .unary) (.unary id operator right) (operator :: u) := by
  refine ⟨?_, fun h => absurd rfl h⟩
  rintro (_ | fuel) rest hrest
  · exact accepts_exhausted
  · dsimp only
    rw [operation]
    apply (accepts_takeIf hoperator).bind
    rintro _ rfl
    apply ((hright.1 fuel rest hrest).mono _).bind_node
    intro right' hright' _
    simp [Expr.relabel, hright']

theorem readExpr_combine {level : Level} {id : Nat} {left right : Expr} {operator : Token}
    (hlevel : level ≠ .unary) (hleft : ReadExpr (.operation level) left u)
    (hoperator : level.joins operator.kind = true)
    (hright : ReadExpr (.operation level.tighter) right v) :
    ReadExpr (.operation level) (level.combine left operator right id) (u ++ operator :: v) := by
  apply ReadInto.operation hlevel
  intro fuel w rest Q hrest hloop
  rw [Rank.tighter_operation hlevel] at hrest
  rw [List.append_assoc, List.cons_append]
  -- behind the left operand the loop takes the operator, and it goes on behind the right operand
  apply hleft.2 hlevel fuel _ rest Q
  · rw [Rank.tighter_operation hlevel]
    exact Rank.goesOn_tighter_of_joins hlevel hoperator
  rintro (_ | fuel) left' hleft'
  · exact accepts_exhausted
  · dsimp only
    rw [operands]
    apply (accepts_takeIf hoperator).bind
    rintro _ rfl
    apply (hright.1 fuel _ hrest).bind
    intro right' hright'
    apply accepts_node_bind
    intro id'
    apply hloop
    simp [combine_relabel, hleft', hright']

theorem accepts_suffixes_nil {rest : List Token} (fuel : Nat) (expr : Expr)
    (hrest : Rank.call.goesOn (firstKind rest) = false) :
    Accepts (suffixes fuel expr) [] rest (· = expr) := by
  cases fuel with
  | zero => exact accepts_exhausted
  | succ fuel =>
    rw [suffixes]
    apply accepts_nextKind_bind
    rw [List.nil_append]
    split
    · next hkind => simp [hkind, Rank.goesOn, Kind.rank?] at hrest
    · next hkind => simp [hkind, Rank.goesOn, Kind.rank?] at hrest
    · exact accepts_pure rfl

/-- In a looser place, an expression is read by the rule of that place. -/
theorem readExpr_loosen {rank : Rank} (hspelled : Spelled (.expr rank.tighter expr) u)
    (h : ReadExpr rank.tighter expr u) : ReadExpr rank expr u := by
  rcases rank with _ | level | _ | _
  -- no assignment, since no equals sign follows
  · rintro (_ | fuel) rest hrest
    · exact accepts_exhausted
    · have hequal : (firstKind rest = .equal) = False := by
        rw [eq_iff_iff, iff_false]
        intro hkind
        simp [hkind, Rank.goesOn, Kind.rank?] at hrest
      rw [expression, ← List.append_nil u]
      apply (h.1 fuel rest (Rank.goesOn_tighter hrest)).bind (v := [])
      intro target htarget
      apply Accepts.bind (v := []) (accepts_takeIf_none (by simp [hequal]))
      rintro _ rfl
      exact accepts_pure htarget
  · by_cases hlevel : level = .unary
    -- no unary operator, since an operand comes first; the loop over suffixes ends at once
    · subst hlevel
      refine ⟨?_, fun h => absurd rfl h⟩
      rintro (_ | fuel) rest hrest
      · exact accepts_exhausted
      · have hstart : Level.joins .unary (firstKind (u ++ rest)) = false := by
          rw [firstKind_append hspelled.ne_nil_expr]
          exact Kind.joins_of_startsPrimary hspelled.starts
        dsimp only
        rw [operation]
        apply Accepts.bind (accepts_takeIf_none hstart)
        rintro _ rfl
        rw [← List.append_nil u]
        apply h fuel [] rest _ (Rank.goesOn_primary _)
        intro fuel' expr' hexpr'
        apply (accepts_suffixes_nil fuel' expr' (Rank.goesOn_tighter hrest)).mono
        rintro _ rfl
        exact hexpr'
    -- one operand leads into the loop
    · rw [Rank.tighter_operation hlevel] at h
      apply ReadInto.operation hlevel
      rintro (_ | fuel) v rest Q hrest hloop
      · exact accepts_exhausted
      · rw [Rank.tighter_operation hlevel] at hrest
        dsimp only
        rw [operation]
        · exact (h.1 fuel (v ++ rest) hrest).bind fun expr' hexpr' => hloop fuel expr' hexpr'
        · exact hlevel
  · intro fuel v rest Q hrest hloop
    exact Accepts.bind (h fuel (v ++ rest) hrest) fun expr' hexpr' => hloop fuel expr' hexpr'
  · exact h

theorem ReadExpr.of_depth_le {rank rank' : Rank} (h : ReadExpr rank expr u)
    (hspelled : Spelled (.expr rank expr) u) (hle : rank.depth ≤ rank'.depth) :
    ReadExpr rank' expr u := by
  suffices Spelled (.expr rank' expr) u ∧ ReadExpr rank' expr u from this.2
  apply Rank.of_depth_le _ hle ⟨hspelled, h⟩
  rintro rank ⟨hspelled, h⟩
  exact ⟨.loosen hspelled, readExpr_loosen hspelled h⟩

/-- Only names and property reads can be assigned to, whatever their identities are. -/
theorem assignment?_of_relabel_eq {target target' value value' : Expr} {build : Nat → Expr}
    (hbuild : assignment? target value = some build)
    (htarget : target'.relabel blank = target.relabel blank)
    (hvalue : value'.relabel blank = value.relabel blank) :
    ∃ build', assignment? target' value' = some build' ∧
      ∀ id id', (build' id').relabel blank = (build id).relabel blank := by
  cases target <;> simp only [assignment?, Option.some.injEq, reduceCtorEq] at hbuild
  all_goals
    subst hbuild
    cases target' <;> simp_all [Expr.relabel, assignment?]

theorem readExpr_assignment (id : Nat) {target value : Expr} {build : Nat → Expr} {equals : Token}
    (hbuild : assignment? target value = some build)
    (htarget : ReadExpr (.operation .or) target u) (hequals : equals.kind = .equal)
    (hvalue : ReadExpr .assignment value v) :
    ReadExpr .assignment (build id) (u ++ equals :: v) := by
  rintro (_ | fuel) rest hrest
  · exact accepts_exhausted
  · rw [expression]
    apply (htarget.1 fuel (equals :: (v ++ rest)) (by simp [hequals]; rfl)).bind
    intro target' htarget'
    apply (accepts_takeIf (decide_eq_true hequals)).bind
    rintro _ rfl
    rw [← List.append_nil v]
    apply (hvalue fuel rest hrest).bind (v := [])
    intro value' hvalue'
    obtain ⟨build', hbuild', hsame⟩ := assignment?_of_relabel_eq hbuild htarget' hvalue'
    simp only [hbuild']
    exact accepts_node (hsame id)

end Expressions

section Phrases

/-- How a piece of a program is read, in front of what leaves it alone. A variable declaration and a
block are entered behind their first token. -/
def ReadPhrase : Phrase → List Token → Prop
  | .expr rank expr, u => ReadExpr rank expr u
  | .arguments exprs, u => exprs ≠ [] → ∀ fuel count rest, firstKind rest = .rightParen →
    count + exprs.length ≤ maxArity → Accepts (arguments fuel count) u rest fun exprs' =>
      Expr.relabelAll blank exprs' = Expr.relabelAll blank exprs
  | .optional expr, u => ∀ fuel stop rest, stop = .semicolon ∨ stop = .rightParen →
    firstKind rest = stop → Accepts (optionalExpression fuel stop) u rest fun expr' =>
      expr'.map (Expr.relabel blank) = expr.map (Expr.relabel blank)
  | .initializer expr, u => ∀ fuel rest, firstKind rest = .semicolon →
    Accepts (initializer fuel) u rest fun expr' =>
      expr'.map (Expr.relabel blank) = expr.map (Expr.relabel blank)
  | .parameters names, u => names ≠ [] → ∀ fuel count rest, firstKind rest = .rightParen →
    count + names.length ≤ maxArity → Accepts (parameters fuel count) u rest (· = names)
  | .varDecl name initializer, u => ∃ keyword v, u = keyword :: v ∧ keyword.kind = .varKw ∧
    ∀ fuel rest, Accepts (varDeclaration fuel) v rest fun stmt' =>
      stmt'.relabel blank = (Stmt.varDecl name initializer).relabel blank
  | .forStart stmt, u => ∀ fuel rest, Accepts (forInitializer fuel) u rest fun stmt' =>
    stmt'.map (Stmt.relabel blank) = stmt.map (Stmt.relabel blank)
  | .statement isOpen stmt, u => ∀ fuel rest, (isOpen = true → firstKind rest ≠ .elseKw) →
    Accepts (statement fuel) u rest fun stmt' => stmt'.relabel blank = stmt.relabel blank
  | .block body, u => ∃ opening v, u = opening :: v ∧ opening.kind = .leftBrace ∧
    ∀ fuel rest, Accepts (block fuel) v rest fun body' =>
      Stmt.relabelAll blank body' = Stmt.relabelAll blank body
  | .declaration stmt, u => ∀ fuel rest, firstKind rest ≠ .elseKw →
    Accepts (declared fuel) u rest fun stmt' => stmt'.relabel blank = stmt.relabel blank
  | .declarations stmts, u => ∀ fuel stop rest, stop = .eof ∨ stop = .rightBrace →
    firstKind rest = stop → Accepts (declarations fuel stop) u rest fun stmts' =>
      Stmt.relabelAll blank stmts' = Stmt.relabelAll blank stmts
  | .routine declaration, u => ∀ fuel kind rest, Accepts (routine fuel kind) u rest fun
    declaration' => declaration'.relabel blank = declaration.relabel blank
  | .routines declarations, u => ∀ fuel rest, firstKind rest = .rightBrace →
    Accepts (methods fuel) u rest fun declarations' =>
      FunctionDecl.relabelAll blank declarations' = FunctionDecl.relabelAll blank declarations

variable {u v w x : List Token}

theorem ne_nil_of_firstKind {p : Kind → Bool} (h : p (firstKind u) = true) (heof : p .eof = false) :
    u ≠ [] := by
  rintro rfl
  rw [firstKind_nil, heof] at h
  cases h

theorem accepts_call_arguments {args : List Expr} {fuel : Nat} {rest : List Token}
    (hspelled : Spelled (.arguments args) u) (h : ReadPhrase (.arguments args) u)
    (hlength : args.length ≤ maxArity) (hrest : firstKind rest = .rightParen) :
    Accepts (listUntil .rightParen (arguments fuel 0)) u rest fun args' =>
      Expr.relabelAll blank args' = Expr.relabelAll blank args := by
  cases args with
  | nil =>
    cases hspelled
    exact accepts_listUntil_nil hrest rfl
  | cons arg args =>
    have hstart : (firstKind u).startsExpression = true := hspelled.starts
    apply accepts_listUntil (ne_nil_of_firstKind hstart rfl)
    · intro hkind
      rw [hkind] at hstart
      exact absurd hstart (by decide)
    · exact h (List.cons_ne_nil _ _) fuel 0 rest hrest (by omega)

theorem read_lastArgument {expr : Expr} (h : ReadPhrase (.expr .assignment expr) u) :
    ReadPhrase (.arguments [expr]) u := by
  rintro - (_ | fuel) count rest hrest hcount
  · exact accepts_exhausted
  · rw [arguments]
    apply Accepts.bind (accepts_checkCount _ hcount)
    intro _ _
    rw [← List.append_nil u]
    apply (h fuel rest (by rw [hrest]; rfl)).bind (v := [])
    intro expr' hexpr'
    apply Accepts.bind (v := []) (accepts_accept_not (by simp [hrest]))
    rintro _ rfl
    exact accepts_pure (by simp [Expr.relabelAll, hexpr'])

theorem read_moreArguments {expr next : Expr} {exprs : List Expr} {comma : Token}
    (hexpr : ReadPhrase (.expr .assignment expr) u) (hcomma : comma.kind = .comma)
    (hexprs : ReadPhrase (.arguments (next :: exprs)) v) :
    ReadPhrase (.arguments (expr :: next :: exprs)) (u ++ comma :: v) := by
  rintro - (_ | fuel) count rest hrest hcount
  · exact accepts_exhausted
  · simp only [List.length_cons] at hcount
    rw [arguments]
    apply Accepts.bind (accepts_checkCount _ (by omega))
    intro _ _
    apply (hexpr fuel (comma :: (v ++ rest)) (by simp [hcomma]; rfl)).bind
    intro expr' hexpr'
    apply (accepts_accept hcomma).bind
    rintro _ rfl
    have hcount' : count + 1 + (next :: exprs).length ≤ maxArity := by
      rw [List.length_cons]
      omega
    have hread := hexprs (List.cons_ne_nil _ _) fuel (count + 1) rest hrest hcount'
    apply (hread.mono _).bind_pure
    intro exprs' hexprs'
    rw [Expr.relabelAll, hexpr', hexprs']
    rfl

theorem read_absent : ReadPhrase (.optional none) [] := by
  intro fuel stop rest _ hrest
  apply accepts_nextKind_bind
  rw [List.nil_append, if_pos hrest]
  exact accepts_pure rfl

theorem read_present {expr : Expr} (hspelled : Spelled (.expr .assignment expr) u)
    (h : ReadPhrase (.expr .assignment expr) u) : ReadPhrase (.optional (some expr)) u := by
  intro fuel stop rest hstop hrest
  have hstart : (firstKind u).startsExpression = true := hspelled.starts
  apply accepts_nextKind_bind
  rw [firstKind_append hspelled.ne_nil_expr, if_neg]
  · apply ((h fuel rest _).mono _).bind_pure
    · rw [hrest]
      rcases hstop with rfl | rfl <;> rfl
    · intro expr' hexpr'
      simp [hexpr']
  · rintro hkind
    rw [hkind] at hstart
    rcases hstop with rfl | rfl <;> exact absurd hstart (by decide)

theorem read_noInitializer : ReadPhrase (.initializer none) [] := by
  intro fuel rest hrest
  apply Accepts.bind (v := []) (accepts_accept_not (by simp [hrest]))
  rintro _ rfl
  exact accepts_pure rfl

theorem read_initializer {expr : Expr} {equals : Token} (hequals : equals.kind = .equal)
    (h : ReadPhrase (.expr .assignment expr) u) :
    ReadPhrase (.initializer (some expr)) (equals :: u) := by
  intro fuel rest hrest
  apply (accepts_accept hequals).bind
  rintro _ rfl
  apply ((h fuel rest (by rw [hrest]; rfl)).mono _).bind_pure
  intro expr' hexpr'
  simp [hexpr']

theorem read_lastParameter {name : Token} (hname : name.kind = .identifier) :
    ReadPhrase (.parameters [name]) [name] := by
  rintro - (_ | fuel) count rest hrest hcount
  · exact accepts_exhausted
  · apply Accepts.bind (accepts_checkCount _ hcount)
    intro _ _
    apply (accepts_want _ hname).bind (v := [])
    rintro _ rfl
    apply Accepts.bind (v := []) (accepts_accept_not (by simp [hrest]))
    rintro _ rfl
    exact accepts_pure rfl

theorem read_moreParameters {name next comma : Token} {names : List Token}
    (hname : name.kind = .identifier) (hcomma : comma.kind = .comma)
    (hnames : ReadPhrase (.parameters (next :: names)) v) :
    ReadPhrase (.parameters (name :: next :: names)) (name :: comma :: v) := by
  rintro - (_ | fuel) count rest hrest hcount
  · exact accepts_exhausted
  · simp only [List.length_cons] at hcount
    apply Accepts.bind (accepts_checkCount _ (by omega))
    intro _ _
    apply (accepts_want _ hname).bind
    rintro _ rfl
    apply (accepts_accept hcomma).bind
    rintro _ rfl
    have hcount' : count + 1 + (next :: names).length ≤ maxArity := by
      rw [List.length_cons]
      omega
    have hread := hnames (List.cons_ne_nil _ _) fuel (count + 1) rest hrest hcount'
    apply (hread.mono _).bind_pure
    rintro _ rfl
    rfl

theorem read_varDecl {keyword name semicolon : Token} {expr : Option Expr}
    (hkeyword : keyword.kind = .varKw) (hname : name.kind = .identifier)
    (h : ReadPhrase (.initializer expr) u) (hsemicolon : semicolon.kind = .semicolon) :
    ReadPhrase (.varDecl name expr) (keyword :: name :: (u ++ [semicolon])) := by
  refine ⟨keyword, _, rfl, hkeyword, fun fuel rest => ?_⟩
  apply (accepts_want _ hname).bind
  rintro _ rfl
  apply (h fuel (semicolon :: rest) hsemicolon).bind
  intro expr' hexpr'
  apply ((accepts_want _ hsemicolon).mono _).bind_pure
  intro _ _
  simp [Stmt.relabel, hexpr']

theorem accepts_expression_semicolon {fuel : Nat} {rest : List Token} {expr : Expr}
    {semicolon : Token} (wanted : Wanted) (build : Expr → Stmt)
    (h : ReadPhrase (.expr .assignment expr) u) (hsemicolon : semicolon.kind = .semicolon) :
    Accepts (do
      let expr ← expression fuel
      let _ ← want .semicolon wanted
      return build expr) (u ++ [semicolon]) rest fun stmt =>
        ∃ expr', expr'.relabel blank = expr.relabel blank ∧ stmt = build expr' := by
  apply (h fuel (semicolon :: rest) (by simp [hsemicolon]; rfl)).bind
  intro expr' hexpr'
  exact ((accepts_want _ hsemicolon).mono fun _ _ => ⟨expr', hexpr', rfl⟩).bind_pure

theorem read_noStart {semicolon : Token} (hsemicolon : semicolon.kind = .semicolon) :
    ReadPhrase (.forStart none) [semicolon] := by
  intro fuel rest
  apply accepts_nextKind_bind
  simp only [List.cons_append, firstKind_cons, hsemicolon]
  exact ((accepts_advance semicolon).mono fun _ _ => rfl).bind_pure

theorem read_varStart {name : Token} {expr : Option Expr} (h : ReadPhrase (.varDecl name expr) u) :
    ReadPhrase (.forStart (some (.varDecl name expr))) u := by
  obtain ⟨keyword, v, rfl, hkeyword, hdecl⟩ := h
  intro fuel rest
  apply accepts_nextKind_bind
  simp only [List.cons_append, firstKind_cons, hkeyword]
  apply (accepts_advance keyword).bind
  intro _ _
  apply ((hdecl fuel rest).mono _).bind_pure
  intro stmt hstmt
  simp [hstmt]

theorem read_exprStart {expr : Expr} {semicolon : Token}
    (hspelled : Spelled (.expr .assignment expr) u) (h : ReadPhrase (.expr .assignment expr) u)
    (hsemicolon : semicolon.kind = .semicolon) :
    ReadPhrase (.forStart (some (.expression expr))) (u ++ [semicolon]) := by
  intro fuel rest
  have hstart : (firstKind u).startsExpression = true := hspelled.starts
  apply accepts_nextKind_bind
  rw [List.append_assoc, firstKind_append hspelled.ne_nil_expr]
  split
  · next hkind => exact absurd hstart (by rw [hkind]; decide)
  · next hkind => exact absurd hstart (by rw [hkind]; decide)
  · apply ((accepts_expression_semicolon .expressionEnd .expression h hsemicolon).mono _).bind_pure
    rintro _ ⟨expr', hexpr', rfl⟩
    simp [Stmt.relabel, hexpr']

/-- The kinds that an expression starts with start no other statement. -/
theorem read_expression {expr : Expr} {semicolon : Token}
    (hspelled : Spelled (.expr .assignment expr) u) (h : ReadPhrase (.expr .assignment expr) u)
    (hsemicolon : semicolon.kind = .semicolon) :
    ReadPhrase (.statement false (.expression expr)) (u ++ [semicolon]) := by
  rintro (_ | fuel) rest -
  · exact accepts_exhausted
  · have hstart : (firstKind u).startsExpression = true := hspelled.starts
    rw [statement]
    apply accepts_peek_bind
    intro token htoken
    rw [List.append_assoc, firstKind_append hspelled.ne_nil_expr] at htoken
    rw [← htoken] at hstart
    split
    case h_7 =>
      apply (accepts_expression_semicolon .expressionEnd .expression h hsemicolon).mono
      rintro _ ⟨expr', hexpr', rfl⟩
      simp [Stmt.relabel, hexpr']
    all_goals next hkind => exact absurd hstart (by rw [hkind]; decide)

theorem read_print {keyword semicolon : Token} {expr : Expr} (hkeyword : keyword.kind = .printKw)
    (h : ReadPhrase (.expr .assignment expr) u) (hsemicolon : semicolon.kind = .semicolon) :
    ReadPhrase (.statement false (.print expr)) (keyword :: (u ++ [semicolon])) := by
  rintro (_ | fuel) rest -
  · exact accepts_exhausted
  · rw [statement]
    apply accepts_peek_cons_bind
    rw [hkeyword]
    apply (accepts_advance keyword).bind
    intro _ _
    apply (accepts_expression_semicolon .printEnd .print h hsemicolon).mono
    rintro _ ⟨expr', hexpr', rfl⟩
    simp [Stmt.relabel, hexpr']

theorem read_returnStmt {keyword semicolon : Token} {value : Option Expr}
    (hkeyword : keyword.kind = .returnKw) (h : ReadPhrase (.optional value) u)
    (hsemicolon : semicolon.kind = .semicolon) :
    ReadPhrase (.statement false (.returnStmt keyword value))
      (keyword :: (u ++ [semicolon])) := by
  rintro (_ | fuel) rest -
  · exact accepts_exhausted
  · rw [statement]
    apply accepts_peek_cons_bind
    rw [hkeyword]
    apply (accepts_advance keyword).bind
    intro _ _
    apply (h fuel .semicolon (semicolon :: rest) (.inl rfl) hsemicolon).bind
    intro value' hvalue'
    apply ((accepts_want _ hsemicolon).mono _).bind_pure
    intro _ _
    simp [Stmt.relabel, hvalue']

theorem read_braced {body : List Stmt} (h : ReadPhrase (.block body) u) :
    ReadPhrase (.statement false (.block body)) u := by
  obtain ⟨opening, v, rfl, hopening, hbody⟩ := h
  rintro (_ | fuel) rest -
  · exact accepts_exhausted
  · rw [statement]
    apply accepts_peek_cons_bind
    rw [hopening]
    apply (accepts_advance opening).bind
    intro _ _
    apply ((hbody fuel rest).mono _).bind_pure
    intro body' hbody'
    simp [Stmt.relabel, hbody']

theorem accepts_condition {fuel : Nat} {rest : List Token} {left right : Token} {expr : Expr}
    {opening closing : Wanted} (hleft : left.kind = .leftParen)
    (h : ReadPhrase (.expr .assignment expr) u) (hright : right.kind = .rightParen) :
    Accepts (condition fuel opening closing) (left :: (u ++ [right])) rest fun expr' =>
      expr'.relabel blank = expr.relabel blank := by
  apply (accepts_want _ hleft).bind
  rintro _ -
  apply (h fuel (right :: rest) (by simp [hright]; rfl)).bind
  intro expr' hexpr'
  apply ((accepts_want _ hright).mono _).bind_pure
  exact fun _ _ => hexpr'

theorem accepts_condition_bind {β : Type} {f : Expr → Reading β} {Q : β → Prop} {fuel : Nat}
    {rest : List Token} {left right : Token} {expr : Expr} {opening closing : Wanted}
    (hleft : left.kind = .leftParen) (h : ReadPhrase (.expr .assignment expr) u)
    (hright : right.kind = .rightParen)
    (hf : ∀ expr', expr'.relabel blank = expr.relabel blank → Accepts (f expr') v rest Q) :
    Accepts (condition fuel opening closing >>= f) (left :: (u ++ right :: v)) rest Q := by
  have htokens : left :: (u ++ right :: v) = left :: (u ++ [right]) ++ v := by simp
  rw [htokens]
  exact (accepts_condition hleft h hright).bind hf

theorem read_ifThen {keyword opening closing : Token} {condition : Expr} {isOpen : Bool}
    {thenBranch : Stmt} (hkeyword : keyword.kind = .ifKw) (hopening : opening.kind = .leftParen)
    (hcondition : ReadPhrase (.expr .assignment condition) u)
    (hclosing : closing.kind = .rightParen)
    (hthen : ReadPhrase (.statement isOpen thenBranch) v) :
    ReadPhrase (.statement true (.ifThen condition thenBranch))
      (keyword :: opening :: (u ++ closing :: v)) := by
  rintro (_ | fuel) rest hrest
  · exact accepts_exhausted
  · rw [statement]
    apply accepts_peek_cons_bind
    rw [hkeyword]
    apply (accepts_advance keyword).bind
    intro _ _
    apply accepts_condition_bind hopening hcondition hclosing
    intro condition' hcondition'
    rw [← List.append_nil v]
    apply (hthen fuel rest fun _ => hrest rfl).bind (v := [])
    intro thenBranch' hthen'
    apply Accepts.bind (v := []) (accepts_accept_not (hrest rfl))
    rintro _ rfl
    exact accepts_pure (by simp [Stmt.relabel, hcondition', hthen'])

theorem read_ifElse {keyword opening closing elseKeyword : Token} {condition : Expr} {isOpen : Bool}
    {thenBranch elseBranch : Stmt} (hkeyword : keyword.kind = .ifKw)
    (hopening : opening.kind = .leftParen)
    (hcondition : ReadPhrase (.expr .assignment condition) u)
    (hclosing : closing.kind = .rightParen) (hthen : ReadPhrase (.statement false thenBranch) v)
    (helseKeyword : elseKeyword.kind = .elseKw)
    (helse : ReadPhrase (.statement isOpen elseBranch) w) :
    ReadPhrase (.statement isOpen (.ifElse condition thenBranch elseBranch))
      (keyword :: opening :: (u ++ closing :: (v ++ elseKeyword :: w))) := by
  rintro (_ | fuel) rest hrest
  · exact accepts_exhausted
  · rw [statement]
    apply accepts_peek_cons_bind
    rw [hkeyword]
    apply (accepts_advance keyword).bind
    intro _ _
    apply accepts_condition_bind hopening hcondition hclosing
    intro condition' hcondition'
    apply (hthen fuel (elseKeyword :: (w ++ rest)) (by simp)).bind
    intro thenBranch' hthen'
    apply (accepts_accept helseKeyword).bind
    rintro _ rfl
    apply ((helse fuel rest hrest).mono _).bind_pure
    intro elseBranch' helse'
    simp [Stmt.relabel, hcondition', hthen', helse']

theorem read_whileLoop {keyword opening closing : Token} {condition : Expr} {isOpen : Bool}
    {body : Stmt} (hkeyword : keyword.kind = .whileKw) (hopening : opening.kind = .leftParen)
    (hcondition : ReadPhrase (.expr .assignment condition) u)
    (hclosing : closing.kind = .rightParen) (hbody : ReadPhrase (.statement isOpen body) v) :
    ReadPhrase (.statement isOpen (.whileLoop condition body))
      (keyword :: opening :: (u ++ closing :: v)) := by
  rintro (_ | fuel) rest hrest
  · exact accepts_exhausted
  · rw [statement]
    apply accepts_peek_cons_bind
    rw [hkeyword]
    apply (accepts_advance keyword).bind
    intro _ _
    apply accepts_condition_bind hopening hcondition hclosing
    intro condition' hcondition'
    apply ((hbody fuel rest hrest).mono _).bind_pure
    intro body' hbody'
    simp [Stmt.relabel, hcondition', hbody']

theorem accepts_conditionOrTrue {rest : List Token} {condition condition' : Option Expr} (id : Nat)
    (h : condition'.map (Expr.relabel blank) = condition.map (Expr.relabel blank)) :
    Accepts (conditionOrTrue condition') [] rest fun expr =>
      expr.relabel blank = (condition.getD (.literal id (.bool true))).relabel blank := by
  cases condition <;> cases condition' <;>
    simp only [Option.map_none, Option.map_some, reduceCtorEq, Option.some.injEq] at h
  · rw [conditionOrTrue]
    exact accepts_node fun _ => rfl
  · exact accepts_pure h

theorem accepts_forClauses {fuel : Nat} {rest : List Token} {opening semicolon closing : Token}
    {start : Option Stmt} {condition increment : Option Expr} (hopening : opening.kind = .leftParen)
    (hstart : ReadPhrase (.forStart start) u) (hcondition : ReadPhrase (.optional condition) v)
    (hsemicolon : semicolon.kind = .semicolon) (hincrement : ReadPhrase (.optional increment) w)
    (hclosing : closing.kind = .rightParen) :
    Accepts (forClauses fuel) (opening :: (u ++ (v ++ semicolon :: (w ++ [closing])))) rest
      fun clauses => clauses.initializer.map (Stmt.relabel blank) =
          start.map (Stmt.relabel blank) ∧
        clauses.condition.map (Expr.relabel blank) = condition.map (Expr.relabel blank) ∧
        clauses.increment.map (Expr.relabel blank) = increment.map (Expr.relabel blank) := by
  apply (accepts_want _ hopening).bind
  rintro _ -
  apply (hstart fuel _).bind
  intro start' hstart'
  apply (hcondition fuel .semicolon (semicolon :: (w ++ [closing]) ++ rest) (.inl rfl)
    hsemicolon).bind
  intro condition' hcondition'
  apply (accepts_want _ hsemicolon).bind
  rintro _ -
  apply (hincrement fuel .rightParen (closing :: rest) (.inr rfl) hclosing).bind
  intro increment' hincrement'
  exact ((accepts_want _ hclosing).mono fun _ _ =>
    ⟨hstart', hcondition', hincrement'⟩).bind_pure

theorem read_forLoop {id : Nat} {keyword opening semicolon closing : Token} {start : Option Stmt}
    {condition increment : Option Expr} {isOpen : Bool} {body : Stmt}
    (hkeyword : keyword.kind = .forKw) (hopening : opening.kind = .leftParen)
    (hstart : ReadPhrase (.forStart start) u) (hcondition : ReadPhrase (.optional condition) v)
    (hsemicolon : semicolon.kind = .semicolon) (hincrement : ReadPhrase (.optional increment) w)
    (hclosing : closing.kind = .rightParen) (hbody : ReadPhrase (.statement isOpen body) x) :
    ReadPhrase (.statement isOpen (forLoop start
        (condition.getD (.literal id (.bool true))) increment body))
      (keyword :: opening :: (u ++ (v ++ semicolon :: (w ++ closing :: x)))) := by
  rintro (_ | fuel) rest hrest
  · exact accepts_exhausted
  · rw [statement]
    apply accepts_peek_cons_bind
    rw [hkeyword]
    apply (accepts_advance keyword).bind
    intro _ _
    have htokens : opening :: (u ++ (v ++ semicolon :: (w ++ closing :: x))) =
        opening :: (u ++ (v ++ semicolon :: (w ++ [closing]))) ++ x := by simp
    rw [htokens]
    apply (accepts_forClauses hopening hstart hcondition hsemicolon hincrement hclosing).bind
    rintro clauses ⟨hstart', hcondition', hincrement'⟩
    rw [← List.append_nil x]
    apply (hbody fuel rest hrest).bind (v := [])
    intro body' hbody'
    apply ((accepts_conditionOrTrue id hcondition').mono _).bind_pure
    intro expr hexpr
    rw [forLoop_relabel, forLoop_relabel, hstart', hexpr, hincrement', hbody']

theorem read_block {opening closing : Token} {body : List Stmt}
    (hopening : opening.kind = .leftBrace) (h : ReadPhrase (.declarations body) u)
    (hclosing : closing.kind = .rightBrace) :
    ReadPhrase (.block body) (opening :: (u ++ [closing])) := by
  refine ⟨opening, _, rfl, hopening, ?_⟩
  rintro (_ | fuel) rest
  · exact accepts_exhausted
  · rw [block]
    apply (h fuel .rightBrace (closing :: rest) (.inr rfl) hclosing).bind
    intro body' hbody'
    apply ((accepts_want _ hclosing).mono _).bind_pure
    exact fun _ _ => hbody'

theorem read_classDecl {keyword name opening closing : Token} {methods : List FunctionDecl}
    (hkeyword : keyword.kind = .classKw) (hname : name.kind = .identifier)
    (hopening : opening.kind = .leftBrace) (h : ReadPhrase (.routines methods) u)
    (hclosing : closing.kind = .rightBrace) :
    ReadPhrase (.declaration (.classDecl name methods))
      (keyword :: name :: opening :: (u ++ [closing])) := by
  rintro (_ | fuel) rest -
  · exact accepts_exhausted
  · rw [declared]
    apply accepts_nextKind_bind
    simp only [List.cons_append, firstKind_cons, hkeyword]
    apply (accepts_advance keyword).bind
    intro _ _
    apply (accepts_want _ hname).bind
    rintro _ rfl
    apply (accepts_want _ hopening).bind
    rintro _ -
    apply (h fuel (closing :: rest) hclosing).bind
    intro methods' hmethods'
    apply ((accepts_want _ hclosing).mono _).bind_pure
    intro _ _
    simp [Stmt.relabel, hmethods']

theorem read_funDecl {keyword : Token} {declaration : FunctionDecl}
    (hkeyword : keyword.kind = .funKw) (h : ReadPhrase (.routine declaration) u) :
    ReadPhrase (.declaration (.funDecl declaration)) (keyword :: u) := by
  rintro (_ | fuel) rest -
  · exact accepts_exhausted
  · rw [declared]
    apply accepts_nextKind_bind
    simp only [List.cons_append, firstKind_cons, hkeyword]
    apply (accepts_advance keyword).bind
    intro _ _
    apply ((h fuel .function rest).mono _).bind_pure
    intro declaration' hdeclaration'
    simp [Stmt.relabel, hdeclaration']

theorem read_varDeclared {name : Token} {expr : Option Expr}
    (h : ReadPhrase (.varDecl name expr) u) : ReadPhrase (.declaration (.varDecl name expr)) u := by
  obtain ⟨keyword, v, rfl, hkeyword, hdecl⟩ := h
  rintro (_ | fuel) rest -
  · exact accepts_exhausted
  · rw [declared]
    apply accepts_nextKind_bind
    simp only [List.cons_append, firstKind_cons, hkeyword]
    apply (accepts_advance keyword).bind
    exact fun _ _ => hdecl fuel rest

theorem read_stated {isOpen : Bool} {stmt : Stmt} (hspelled : Spelled (.statement isOpen stmt) u)
    (h : ReadPhrase (.statement isOpen stmt) u) : ReadPhrase (.declaration stmt) u := by
  rintro (_ | fuel) rest hrest
  · exact accepts_exhausted
  · have hstart : (firstKind u).startsStatement = true := hspelled.starts
    rw [declared]
    apply accepts_nextKind_bind
    rw [firstKind_append (ne_nil_of_firstKind hstart rfl)]
    split
    case h_4 => exact h fuel rest fun _ => hrest
    all_goals next hkind => exact absurd hstart (by rw [hkind]; decide)

theorem ne_stop_of_startsDeclaration {kind stop : Kind} (hstart : kind.startsDeclaration = true)
    (hstop : stop = .eof ∨ stop = .rightBrace) : kind ≠ stop := by
  rintro rfl
  rcases hstop with rfl | rfl <;> exact absurd hstart (by decide)

theorem read_noDeclarations : ReadPhrase (.declarations []) [] := by
  rintro (_ | fuel) stop rest - hrest
  · exact accepts_exhausted
  · rw [declarations]
    apply accepts_isAtEnd_bind
    apply accepts_nextKind_bind
    rw [List.nil_append, hrest, if_pos (by simp)]
    exact accepts_pure rfl

/-- Neither the end of a list of declarations nor another declaration starts with `else`. -/
theorem firstKind_declarations_ne_else {stmts : List Stmt} {rest : List Token} {stop : Kind}
    (hspelled : Spelled (.declarations stmts) u) (hstop : stop = .eof ∨ stop = .rightBrace)
    (hrest : firstKind rest = stop) : firstKind (u ++ rest) ≠ .elseKw := by
  cases hspelled with
  | noDeclarations =>
    rw [List.nil_append, hrest]
    rcases hstop with rfl | rfl <;> simp
  | declarations hstmt hstmts =>
    have hstart : Kind.startsDeclaration (firstKind _) = true := hstmt.starts
    rw [List.append_assoc, firstKind_append (ne_nil_of_firstKind hstart rfl)]
    intro hkind
    rw [hkind] at hstart
    exact absurd hstart (by decide)

theorem accepts_declaration {stmt : Stmt} (h : ReadPhrase (.declaration stmt) u) {rest : List Token}
    (hrest : firstKind rest ≠ .elseKw) (fuel : Nat) :
    Accepts (declaration fuel) u rest fun found =>
      ∃ stmt', found = some stmt' ∧ stmt'.relabel blank = stmt.relabel blank := by
  cases fuel with
  | zero => exact accepts_exhausted
  | succ fuel =>
    rw [declaration, ← List.append_nil u]
    apply (h fuel rest hrest).attempt.bind (v := [])
    rintro _ ⟨stmt', rfl, hstmt'⟩
    exact accepts_pure ⟨stmt', rfl, hstmt'⟩

theorem read_declarations {stmt : Stmt} {stmts : List Stmt}
    (hspelled : Spelled (.declaration stmt) u) (hspelleds : Spelled (.declarations stmts) v)
    (hstmt : ReadPhrase (.declaration stmt) u) (hstmts : ReadPhrase (.declarations stmts) v) :
    ReadPhrase (.declarations (stmt :: stmts)) (u ++ v) := by
  rintro (_ | fuel) stop rest hstop hrest
  · exact accepts_exhausted
  · have hstart : (firstKind u).startsDeclaration = true := hspelled.starts
    have hne := ne_nil_of_firstKind hstart rfl
    have hmore := ne_stop_of_startsDeclaration hstart hstop
    rw [declarations]
    apply accepts_isAtEnd_bind
    apply accepts_nextKind_bind
    rw [List.append_assoc, firstKind_append hne, if_neg (by simp [hne, hmore])]
    apply (accepts_declaration hstmt
      (firstKind_declarations_ne_else hspelleds hstop hrest) fuel).bind
    rintro _ ⟨stmt', rfl, hstmt'⟩
    apply ((hstmts fuel stop rest hstop hrest).mono _).bind_pure
    intro stmts' hstmts'
    simp [Stmt.relabelAll, hstmt', hstmts']

theorem accepts_routine_parameters {fuel : Nat} {params : List Token} (rest : List Token)
    (hspelled : Spelled (.parameters params) u) (hparams : ReadPhrase (.parameters params) u)
    (hlength : params.length ≤ maxArity) (hrest : firstKind rest = .rightParen) :
    Accepts (listUntil .rightParen (parameters fuel 0)) u rest (· = params) := by
  cases params with
  | nil =>
    cases hspelled
    exact accepts_listUntil_nil hrest rfl
  | cons param params =>
    have hstart : firstKind u = .identifier := hspelled.starts
    apply accepts_listUntil
    · rintro rfl
      cases hstart
    · rw [hstart]
      simp
    · exact hparams (List.cons_ne_nil _ _) fuel 0 _ hrest (by omega)

theorem read_routine {name opening closing : Token} {params : List Token} {body : List Stmt}
    (hname : name.kind = .identifier) (hopening : opening.kind = .leftParen)
    (hspelled : Spelled (.parameters params) u) (hparams : ReadPhrase (.parameters params) u)
    (hlength : params.length ≤ maxArity) (hclosing : closing.kind = .rightParen)
    (hbody : ReadPhrase (.block body) v) :
    ReadPhrase (.routine ⟨name, params, body⟩) (name :: opening :: (u ++ closing :: v)) := by
  obtain ⟨brace, w, rfl, hbrace, hblock⟩ := hbody
  rintro (_ | fuel) kind rest
  · exact accepts_exhausted
  · rw [routine]
    apply (accepts_want _ hname).bind
    rintro _ rfl
    apply (accepts_want _ hopening).bind
    rintro _ -
    apply (accepts_routine_parameters (closing :: (brace :: w ++ rest)) hspelled hparams hlength
      hclosing).bind
    rintro _ rfl
    apply (accepts_want _ hclosing).bind
    rintro _ -
    apply (accepts_want _ hbrace).bind
    rintro _ -
    apply ((hblock fuel rest).mono _).bind_pure
    intro body' hbody'
    simp [FunctionDecl.relabel, hbody']

theorem read_noRoutines : ReadPhrase (.routines []) [] := by
  rintro (_ | fuel) rest hrest
  · exact accepts_exhausted
  · rw [methods]
    apply accepts_isAtEnd_bind
    apply accepts_nextKind_bind
    rw [List.nil_append, hrest, if_pos (by simp)]
    exact accepts_pure rfl

theorem read_routines {declaration : FunctionDecl} {declarations : List FunctionDecl}
    (hspelled : Spelled (.routine declaration) u) (h : ReadPhrase (.routine declaration) u)
    (hs : ReadPhrase (.routines declarations) v) :
    ReadPhrase (.routines (declaration :: declarations)) (u ++ v) := by
  rintro (_ | fuel) rest hrest
  · exact accepts_exhausted
  · have hstart : firstKind u = .identifier := hspelled.starts
    have hne : u ≠ [] := by
      rintro rfl
      cases hstart
    rw [methods]
    apply accepts_isAtEnd_bind
    apply accepts_nextKind_bind
    rw [List.append_assoc, firstKind_append hne, if_neg (by simp [hne, hstart])]
    apply (h fuel .method (v ++ rest)).bind
    intro declaration' hdeclaration'
    apply ((hs fuel rest hrest).mono _).bind_pure
    intro declarations' hdeclarations'
    simp [FunctionDecl.relabelAll, hdeclaration', hdeclarations']

/-- Whatever is spelled is read. -/
theorem readPhrase_of_spelled {phrase : Phrase} (h : Spelled phrase u) : ReadPhrase phrase u := by
  induction h with
  | literal hvalue => exact readExpr_literal hvalue
  | var hname => exact readExpr_var hname
  | this hkeyword => exact readExpr_this hkeyword
  | grouping hopening _ hclosing ih => exact readExpr_grouping hopening ih hclosing
  | call _ hopening hargs hlength hparen ih ihArgs =>
    exact readExpr_call ih hopening
      (fun _ _ hrest => accepts_call_arguments hargs ihArgs hlength hrest) hparen
  | get _ hdot hname ih => exact readExpr_get ih hdot hname
  | unary hoperator _ ih => exact readExpr_unary hoperator ih
  | combine hlevel _ hoperator _ ihLeft ihRight =>
    exact readExpr_combine hlevel ihLeft hoperator ihRight
  | @assign id name equals value u hname hequals _ ih =>
    have htarget : ReadExpr (.operation .or) (.var 0 name) [name] :=
      (readExpr_var hname).of_depth_le (.var hname) (by decide)
    exact readExpr_assignment id rfl htarget hequals ih
  | @set id object dot name equals value u v hobject hdot hname hequals _ ihObject ih =>
    have htarget : ReadExpr (.operation .or) (.get 0 object name) (u ++ [dot, name]) :=
      (readExpr_get ihObject hdot hname).of_depth_le (.get hobject hdot hname) (by decide)
    simpa [ReadPhrase] using readExpr_assignment id rfl htarget hequals ih
  | loosen h ih => exact readExpr_loosen h ih
  | noArguments => exact fun hne => absurd rfl hne
  | lastArgument _ ih => exact read_lastArgument ih
  | moreArguments _ hcomma _ ih ihs => exact read_moreArguments ih hcomma ihs
  | absent => exact read_absent
  | present h ih => exact read_present h ih
  | noInitializer => exact read_noInitializer
  | initializer hequals _ ih => exact read_initializer hequals ih
  | noParameters => exact fun hne => absurd rfl hne
  | lastParameter hname => exact read_lastParameter hname
  | moreParameters hname hcomma _ ihs => exact read_moreParameters hname hcomma ihs
  | varDecl hkeyword hname _ hsemicolon ih => exact read_varDecl hkeyword hname ih hsemicolon
  | expression h hsemicolon ih => exact read_expression h ih hsemicolon
  | print hkeyword _ hsemicolon ih => exact read_print hkeyword ih hsemicolon
  | returnStmt hkeyword _ hsemicolon ih => exact read_returnStmt hkeyword ih hsemicolon
  | braced _ ih => exact read_braced ih
  | ifThen hkeyword hopening _ hclosing _ ihCondition ihThen =>
    exact read_ifThen hkeyword hopening ihCondition hclosing ihThen
  | ifElse hkeyword hopening _ hclosing _ helse _ ihCondition ihThen ihElse =>
    exact read_ifElse hkeyword hopening ihCondition hclosing ihThen helse ihElse
  | whileLoop hkeyword hopening _ hclosing _ ihCondition ihBody =>
    exact read_whileLoop hkeyword hopening ihCondition hclosing ihBody
  | forLoop id hkeyword hopening _ _ hsemicolon _ hclosing _ ihStart ihCondition ihIncrement
      ihBody =>
    exact read_forLoop hkeyword hopening ihStart ihCondition hsemicolon ihIncrement hclosing ihBody
  | noStart hsemicolon => exact read_noStart hsemicolon
  | varStart _ ih => exact read_varStart ih
  | exprStart h hsemicolon ih => exact read_exprStart h ih hsemicolon
  | block hopening _ hclosing ih => exact read_block hopening ih hclosing
  | classDecl hkeyword hname hopening _ hclosing ih =>
    exact read_classDecl hkeyword hname hopening ih hclosing
  | funDecl hkeyword _ ih => exact read_funDecl hkeyword ih
  | varDeclared _ ih => exact read_varDeclared ih
  | stated h ih => exact read_stated h ih
  | noDeclarations => exact read_noDeclarations
  | declarations h hs ih ihs => exact read_declarations h hs ih ihs
  | routine hname hopening hparams hlength hclosing _ ihParams ihBody =>
    exact read_routine hname hopening hparams ihParams hlength hclosing ihBody
  | noRoutines => exact read_noRoutines
  | routines h _ ih ihs => exact read_routines h ih ihs

end Phrases

end Reading

/-- If all tokens up to the end spell some statements, they are read as these statements. -/
theorem Program.ofTokens_of_spelled {tokens : List Token} {stmts : List Stmt}
    (h : Spelled (.declarations stmts) (tokens.takeWhile (·.kind ≠ .eof))) (firstId : Nat) :
    (ofTokens tokens firstId).faults = [] ∧
      Stmt.relabelAll blank (ofTokens tokens firstId).statements = Stmt.relabelAll blank stmts := by
  have hread := Reading.readPhrase_of_spelled h (fuelFor tokens.length) .eof [] (.inl rfl) rfl
    (Cursor.start tokens firstId) (by rw [Cursor.ahead_start, List.append_nil])
  have hend := declarations_ne_exhausted tokens firstId
  unfold ofTokens
  cases hresult : Reading.declarations (fuelFor tokens.length) .eof
    (Cursor.start tokens firstId) with
  | done stmts' c =>
    obtain ⟨-, hfaults, hstmts⟩ := hread.of_done hresult
    simp [hfaults, hstmts, Cursor.start]
  | failed fault c => exact (hread.of_failed hresult).elim
  | exhausted => exact absurd hresult hend

end LoxLang
