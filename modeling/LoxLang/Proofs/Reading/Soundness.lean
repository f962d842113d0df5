import LoxLang.Proofs.Grammar.Spelling

/-!
# What is read is spelled by its tokens

Reading can note a fault and go on. As long as it notes none, it has taken tokens that spell what it
yields, and left the others (`Program.spelled_of_faults_eq_nil`). An open statement is left only
before a token other than `else`.
-/
namespace LoxLang
namespace Reading

variable {α β : Type}

/-- Reading goes forward. Unless a fault is noted, `P` holds of what is read, of the tokens that it
is read from, and of those behind them. -/
def Reads (p : Reading α) (P : α → List Token → List Token → Prop) : Prop :=
  ∀ c, p.Ensures c
    (fun a c' => c.Passes 0 c' ∧ (c'.faults.size = c.faults.size →
      ∃ u, c.ahead = u ++ c'.ahead ∧ P a u c'.ahead))
    fun _ c' => c.Passes 0 c'

section Rules

variable {p : Reading α} {P P' : α → List Token → List Token → Prop}

theorem Reads.mono (h : Reads p P) (hP : ∀ a u rest, P a u rest → P' a u rest) : Reads p P' := by
  intro c
  apply (h c).mono
  · rintro a c' ⟨hpass, hclean⟩
    refine ⟨hpass, fun hsize => ?_⟩
    obtain ⟨u, hahead, hread⟩ := hclean hsize
    exact ⟨u, hahead, hP a u _ hread⟩
  · exact fun _ _ h => h

/-- The tokens of a sequence are those of its first part and then those of its second. -/
theorem Reads.bind {f : α → Reading β} {Q : β → List Token → List Token → Prop} (h : Reads p P)
    (hf : ∀ a, Reads (f a) fun b v rest => ∀ u, P a u (v ++ rest) → Q b (u ++ v) rest) :
    Reads (p >>= f) Q := by
  intro c
  rw [Action.ensures_bind]
  apply (h c).mono
  · rintro a c₁ ⟨hpass₁, hclean₁⟩
    apply (hf a c₁).mono
    · rintro b c₂ ⟨hpass₂, hclean₂⟩
      refine ⟨hpass₁.trans hpass₂, fun hsize => ?_⟩
      have hle₁ := hpass₁.faults
      have hle₂ := hpass₂.faults
      obtain ⟨u, hu, hread⟩ := hclean₁ (by omega)
      obtain ⟨v, hv, hnext⟩ := hclean₂ (by omega)
      refine ⟨u ++ v, by rw [hu, hv, List.append_assoc], hnext u ?_⟩
      rw [← hv]
      exact hread
    · exact fun _ _ hpass₂ => hpass₁.trans hpass₂
  · exact fun _ _ hpass => hpass

theorem reads_pure {a : α} (h : ∀ rest, P a [] rest) : Reads (pure a) P :=
  fun c => ⟨.refl c, fun _ => ⟨[], rfl, h _⟩⟩

theorem reads_fail (fault : GrammarFault) : Reads (Action.fail fault) P := fun c => .refl c

theorem reads_exhausted : Reads Action.exhausted P := fun _ => trivial

theorem reads_node {build : Nat → Expr} {P : Expr → List Token → List Token → Prop}
    (h : ∀ id rest, P (build id) [] rest) : Reads (node build) P :=
  fun _ => ⟨⟨Nat.le_refl _, rfl, Nat.le_refl _⟩, fun _ => ⟨[], rfl, h _ _⟩⟩

theorem reads_node_of (build : Nat → Expr) :
    Reads (node build) fun expr u _ => u = [] ∧ ∃ id, expr = build id :=
  reads_node fun id _ => ⟨rfl, id, rfl⟩

theorem reads_note {P : Unit → List Token → List Token → Prop} (fault : GrammarFault) :
    Reads (note fault) P := by
  intro c
  refine ⟨⟨Nat.le_refl _, rfl, by simp⟩, fun hsize => ?_⟩
  simp at hsize

theorem reads_note_bind {p : Reading β} {Q : β → List Token → List Token → Prop}
    (fault : GrammarFault) (h : Reads p fun _ _ _ => True) :
    Reads (note fault >>= fun _ => p) Q :=
  (reads_note fault (P := fun _ _ _ => False)).bind fun _ => h.mono fun _ _ _ _ _ => False.elim

end Rules

section Tokens

/-- This is the first of the tokens, or there are none and it is the end token. -/
def NextIs (token : Token) : List Token → Prop
  | [] => token.kind = .eof
  | first :: _ => first = token

theorem NextIs.firstKind_eq {token : Token} {tokens : List Token} (h : NextIs token tokens) :
    firstKind tokens = token.kind := by
  cases tokens with
  | nil => exact h.symm
  | cons first rest => exact congrArg Token.kind h

theorem reads_peek_bind {f : Token → Reading β} {Q : β → List Token → List Token → Prop}
    (h : ∀ token, Reads (f token) fun b u rest => NextIs token (u ++ rest) → Q b u rest) :
    Reads (peek >>= f) Q := by
  intro c
  apply (h c.peek c).mono
  · rintro b c' ⟨hpass, hclean⟩
    refine ⟨hpass, fun hsize => ?_⟩
    obtain ⟨u, hahead, hread⟩ := hclean hsize
    refine ⟨u, hahead, hread ?_⟩
    rw [← hahead, Cursor.peek_eq]
    cases c.ahead with
    | nil => exact c.kind_ending
    | cons token rest => rfl
  · exact fun _ _ hpass => hpass

theorem reads_nextKind_bind {f : Kind → Reading β} {Q : β → List Token → List Token → Prop}
    (h : ∀ token : Token, Reads (f token.kind) fun b u rest =>
      NextIs token (u ++ rest) → Q b u rest) :
    Reads (nextKind >>= f) Q :=
  reads_peek_bind (f := fun token => f token.kind) h

theorem reads_advance_bind {token : Token} (hkind : token.kind ≠ .eof) {p : Reading β}
    {Q : β → List Token → List Token → Prop}
    (h : Reads p fun b v rest => Q b (token :: v) rest) :
    Reads (advance >>= fun _ => p) fun b u rest => NextIs token (u ++ rest) → Q b u rest := by
  have hadvance : Reads advance fun _ u rest => NextIs token (u ++ rest) → u = [token] := by
    intro c
    refine ⟨.advance c, fun _ => ?_⟩
    cases hahead : c.ahead with
    | nil => exact ⟨[], by simp [hahead], by simp [hahead, NextIs, hkind]⟩
    | cons first rest => exact ⟨[first], by simp [hahead], fun hnext => congrArg ([·]) hnext⟩
  apply hadvance.bind
  intro _
  apply h.mono
  intro b v rest hread u hpassed hnext
  rw [hpassed (by simpa using hnext)]
  exact hread

theorem reads_isAtEnd : Reads isAtEnd fun atEnd u rest => u = [] ∧ (atEnd = true ↔ rest = []) :=
  fun c => ⟨.refl c, fun _ => ⟨[], rfl, rfl, c.isAtEnd_iff⟩⟩

theorem reads_takeIf (p : Kind → Bool) : Reads (takeIf p) fun found u rest =>
    match found with
    | some token => u = [token] ∧ p token.kind = true
    | none => u = [] ∧ (rest ≠ [] → p (firstKind rest) = false) := by
  intro c
  rcases takeIf_cases p c with ⟨token, rest, hahead, hp, htake⟩ | ⟨hnone, htake⟩
  · unfold Action.Ensures
    rw [htake]
    exact ⟨.advance c, fun _ => ⟨[token], by simp [hahead], rfl, hp⟩⟩
  · unfold Action.Ensures
    rw [htake]
    refine ⟨.refl c, fun _ => ⟨[], rfl, rfl, fun hne => ?_⟩⟩
    obtain ⟨token, rest, hahead⟩ := List.exists_cons_of_ne_nil hne
    rw [hahead] at hnone ⊢
    exact hnone token rfl

theorem reads_accept (kind : Kind) (hkind : kind ≠ .eof) :
    Reads (accept kind) fun accepted u rest =>
      if accepted then ∃ token, u = [token] ∧ token.kind = kind
      else u = [] ∧ firstKind rest ≠ kind := by
  apply (reads_takeIf _).bind
  rintro (_ | token)
  · apply reads_pure
    rintro rest u ⟨rfl, hnone⟩
    refine ⟨rfl, fun hfirst => ?_⟩
    cases rest with
    | nil => exact hkind hfirst.symm
    | cons token rest => simp_all
  · apply reads_pure
    rintro rest u ⟨rfl, htoken⟩
    exact ⟨token, rfl, of_decide_eq_true htoken⟩

theorem reads_want (kind : Kind) (wanted : Wanted) :
    Reads (want kind wanted) fun token u _ => u = [token] ∧ token.kind = kind := by
  apply (reads_takeIf _).bind
  rintro (_ | token)
  · exact reads_peek_bind fun _ => reads_fail _
  · apply reads_pure
    rintro rest u ⟨rfl, htoken⟩
    exact ⟨rfl, of_decide_eq_true htoken⟩

theorem reads_checkCount (count : Nat) (cause : GrammarCause) :
    Reads (checkCount count cause) fun _ u _ => u = [] ∧ count < maxArity := by
  unfold checkCount
  split
  · exact reads_peek_bind fun _ => reads_note _
  · next hlt => exact reads_pure fun _ => ⟨rfl, Nat.not_le.mp hlt⟩

theorem reads_listUntil {stop : Kind} {list : Reading (List α)}
    {P : List α → List Token → List Token → Prop} (h : Reads list P) (hnil : ∀ rest, P [] [] rest) :
    Reads (listUntil stop list) P := by
  apply reads_nextKind_bind
  intro token
  split
  · exact reads_pure fun rest _ => hnil rest
  · exact h.mono fun _ _ _ hentries _ => hentries

end Tokens

section Expressions

structure ExpressionsRead (fuel : Nat) : Prop where
  expression : Reads (expression fuel) fun expr u _ => Spelled (.expr .assignment expr) u
  operation : ∀ level, Reads (operation fuel level) fun expr u _ =>
    Spelled (.expr (.operation level) expr) u
  operands : ∀ level left, level ≠ .unary → Reads (operands fuel level left) fun expr v _ =>
    ∀ u, Spelled (.expr (.operation level) left) u →
      Spelled (.expr (.operation level) expr) (u ++ v)
  suffixes : ∀ callee, Reads (suffixes fuel callee) fun expr v _ =>
    ∀ u, Spelled (.expr .call callee) u → Spelled (.expr .call expr) (u ++ v)
  arguments : ∀ count, Reads (arguments fuel count) fun exprs u _ =>
    exprs ≠ [] ∧ count + exprs.length ≤ maxArity ∧ Spelled (.arguments exprs) u
  primary : Reads (primary fuel) fun expr u _ => Spelled (.expr .primary expr) u

theorem spelled_assignment {target value : Expr} {build : Nat → Expr} {equals : Token}
    {u v : List Token} (hbuild : assignment? target value = some build)
    (htarget : Spelled (.expr (.operation .or) target) u) (hequals : equals.kind = .equal)
    (hvalue : Spelled (.expr .assignment value) v) (id : Nat) :
    Spelled (.expr .assignment (build id)) (u ++ equals :: v) := by
  cases target <;> simp only [assignment?, Option.some.injEq, reduceCtorEq] at hbuild
  case var name =>
    subst hbuild
    obtain ⟨rfl, hname⟩ := htarget.of_var
    exact .assign hname hequals hvalue
  case get object name =>
    subst hbuild
    obtain ⟨hname, u, dot, rfl, hdot, hobject⟩ := htarget.of_get
    simpa using Spelled.set hobject hdot hname hequals hvalue

namespace ExpressionsRead

variable {fuel : Nat}

theorem expression_succ (h : ExpressionsRead fuel) :
    Reads (Reading.expression (fuel + 1)) fun expr u _ => Spelled (.expr .assignment expr) u := by
  rw [Reading.expression]
  apply (h.operation .or).bind
  intro target
  apply (reads_takeIf _).bind
  rintro (_ | equals)
  · apply reads_pure
    rintro rest u ⟨rfl, -⟩ v htarget
    rw [List.append_nil, List.append_nil]
    exact .loosen htarget
  · apply h.expression.bind
    intro value
    split
    · next build hbuild =>
      apply reads_node
      rintro id rest v hvalue u ⟨rfl, hequals⟩ w htarget
      simpa using spelled_assignment hbuild htarget (of_decide_eq_true hequals) hvalue id
    · exact reads_note_bind _ (reads_pure fun _ => trivial)

theorem operation_succ (h : ExpressionsRead fuel) (level : Level) :
    Reads (Reading.operation (fuel + 1) level) fun expr u _ =>
      Spelled (.expr (.operation level) expr) u := by
  by_cases hlevel : level = .unary
  · subst hlevel
    rw [Reading.operation]
    apply (reads_takeIf _).bind
    rintro (_ | operator)
    · apply h.primary.bind
      intro expr
      apply (h.suffixes expr).mono
      rintro expr' w rest hsuffixes v hexpr u ⟨rfl, -⟩
      exact .loosen (hsuffixes v (.loosen hexpr))
    · apply (h.operation .unary).bind
      intro right
      apply reads_node
      rintro id rest v hright u ⟨rfl, hoperator⟩
      simpa using Spelled.unary hoperator hright
  · rw [Reading.operation]
    · apply (h.operation level.tighter).bind
      intro left
      apply (h.operands level left hlevel).mono
      intro expr v rest hoperands u hleft
      apply hoperands u
      apply Spelled.loosen
      rw [Rank.tighter_operation hlevel]
      exact hleft
    · exact hlevel

theorem operands_succ (h : ExpressionsRead fuel) (level : Level) (left : Expr)
    (hlevel : level ≠ .unary) :
    Reads (Reading.operands (fuel + 1) level left) fun expr v _ =>
      ∀ u, Spelled (.expr (.operation level) left) u →
        Spelled (.expr (.operation level) expr) (u ++ v) := by
  rw [Reading.operands]
  apply (reads_takeIf _).bind
  rintro (_ | operator)
  · apply reads_pure
    rintro rest v ⟨rfl, -⟩ u hleft
    simpa using hleft
  · apply (h.operation level.tighter).bind
    intro right
    apply (reads_node_of _).bind
    intro combined
    apply (h.operands level combined hlevel).mono
    rintro expr w rest hoperands _ ⟨rfl, id, rfl⟩ v hright _ ⟨rfl, hoperator⟩ u hleft
    simpa using hoperands _ (.combine hlevel hleft hoperator hright)

theorem reads_call (h : ExpressionsRead fuel) :
    Reads (listUntil .rightParen (Reading.arguments fuel 0)) fun exprs u _ =>
      exprs.length ≤ maxArity ∧ Spelled (.arguments exprs) u := by
  apply reads_listUntil
  · apply (h.arguments 0).mono
    rintro exprs u rest ⟨-, hlength, hexprs⟩
    exact ⟨by omega, hexprs⟩
  · exact fun _ => ⟨Nat.zero_le _, .noArguments⟩

theorem suffixes_succ (h : ExpressionsRead fuel) (callee : Expr) :
    Reads (Reading.suffixes (fuel + 1) callee) fun expr v _ =>
      ∀ u, Spelled (.expr .call callee) u → Spelled (.expr .call expr) (u ++ v) := by
  rw [Reading.suffixes]
  apply reads_nextKind_bind
  intro token
  split
  · next hkind =>
    apply reads_advance_bind (by simp [hkind])
    apply h.reads_call.bind
    intro args
    apply (reads_want _ _).bind
    intro paren
    apply (reads_node_of _).bind
    intro call
    apply (h.suffixes call).mono
    rintro expr x rest hsuffixes _ ⟨rfl, id, rfl⟩ _ ⟨rfl, hparen⟩ v ⟨hcount, hargs⟩ u hcallee
    simpa using hsuffixes _ (.call hcallee hkind hargs hcount hparen)
  · next hkind =>
    apply reads_advance_bind (by simp [hkind])
    apply (reads_want _ _).bind
    intro name
    apply (reads_node_of _).bind
    intro get
    apply (h.suffixes get).mono
    rintro expr x rest hsuffixes _ ⟨rfl, id, rfl⟩ _ ⟨rfl, hname⟩ u hobject
    simpa using hsuffixes _ (.get hobject hkind hname)
  · apply reads_pure
    intro rest _ u hcallee
    simpa using hcallee

theorem arguments_succ (h : ExpressionsRead fuel) (count : Nat) :
    Reads (Reading.arguments (fuel + 1) count) fun exprs u _ =>
      exprs ≠ [] ∧ count + exprs.length ≤ maxArity ∧ Spelled (.arguments exprs) u := by
  rw [Reading.arguments]
  apply (reads_checkCount _ _).bind
  intro _
  apply h.expression.bind
  intro expr
  apply (reads_accept .comma (by simp)).bind
  rintro (_ | _)
  · apply reads_pure
    rintro rest _ ⟨rfl, -⟩ u hexpr _ ⟨rfl, hcount⟩
    refine ⟨List.cons_ne_nil _ _, hcount, ?_⟩
    simpa using Spelled.lastArgument hexpr
  · apply (h.arguments (count + 1)).bind
    intro exprs
    apply reads_pure
    rintro rest v ⟨hne, hlength, hexprs⟩ _ ⟨comma, rfl, hcomma⟩ u hexpr _ ⟨rfl, -⟩
    obtain ⟨next, others, rfl⟩ := List.exists_cons_of_ne_nil hne
    refine ⟨List.cons_ne_nil _ _, ?_, ?_⟩
    · simp only [List.length_cons] at hlength ⊢
      omega
    · simpa using Spelled.moreArguments hexpr hcomma hexprs

theorem reads_constant {token : Token} {value : Literal}
    (hvalue : token.kind.constant? = some value) : Reads (constant value) fun expr u rest =>
      NextIs token (u ++ rest) → Spelled (.expr .primary expr) u := by
  apply reads_advance_bind
  · intro hkind
    simp [hkind, Kind.constant?] at hvalue
  · exact reads_node fun _ _ => .literal hvalue

theorem primary_succ (h : ExpressionsRead fuel) :
    Reads (Reading.primary (fuel + 1)) fun expr u _ => Spelled (.expr .primary expr) u := by
  rw [Reading.primary]
  apply reads_peek_bind
  intro token
  split
  case h_6 hkind => exact reads_advance_bind (by simp [hkind]) (reads_node fun _ _ => .this hkind)
  case h_7 hkind => exact reads_advance_bind (by simp [hkind]) (reads_node fun _ _ => .var hkind)
  case h_8 hkind =>
    apply reads_advance_bind (by simp [hkind])
    apply h.expression.bind
    intro inner
    apply (reads_want _ _).bind
    intro closing
    apply reads_node
    rintro id rest _ ⟨rfl, hclosing⟩ u hinner
    simpa using Spelled.grouping hkind hinner hclosing
  case h_9 => exact reads_fail _
  all_goals next hkind => exact reads_constant (by rw [hkind]; rfl)

end ExpressionsRead

theorem expressionsRead (fuel : Nat) : ExpressionsRead fuel := by
  induction fuel with
  | zero =>
    exact ⟨reads_exhausted, fun _ => reads_exhausted, fun _ _ _ => reads_exhausted,
      fun _ => reads_exhausted, fun _ => reads_exhausted, reads_exhausted⟩
  | succ fuel ih =>
    exact ⟨ih.expression_succ, ih.operation_succ, ih.operands_succ, ih.suffixes_succ,
      ih.arguments_succ, ih.primary_succ⟩

theorem reads_expression (fuel : Nat) :
    Reads (expression fuel) fun expr u _ => Spelled (.expr .assignment expr) u :=
  (expressionsRead fuel).expression

end Expressions

section Parts

variable (fuel : Nat)

theorem reads_optionalExpression (stop : Kind) :
    Reads (optionalExpression fuel stop) fun expr u _ => Spelled (.optional expr) u := by
  apply reads_nextKind_bind
  intro token
  split
  · exact reads_pure fun _ _ => .absent
  · apply (reads_expression fuel).bind
    intro expr
    apply reads_pure
    intro rest u hexpr _
    simpa using Spelled.present hexpr

theorem reads_initializer :
    Reads (initializer fuel) fun expr u _ => Spelled (.initializer expr) u := by
  apply (reads_accept .equal (by simp)).bind
  rintro (_ | _)
  · apply reads_pure
    rintro rest _ ⟨rfl, -⟩
    exact .noInitializer
  · apply (reads_expression fuel).bind
    intro expr
    apply reads_pure
    rintro rest u hexpr _ ⟨equals, rfl, hequals⟩
    simpa using Spelled.initializer hequals hexpr

theorem reads_varDeclaration : Reads (varDeclaration fuel) fun stmt u _ =>
    ∃ name initializer, stmt = .varDecl name initializer ∧
      ∀ keyword : Token, keyword.kind = .varKw →
        Spelled (.varDecl name initializer) (keyword :: u) := by
  apply (reads_want _ _).bind
  intro name
  apply (reads_initializer fuel).bind
  intro initializer
  apply (reads_want _ _).bind
  intro semicolon
  apply reads_pure
  rintro rest _ ⟨rfl, hsemicolon⟩ u hinitializer _ ⟨rfl, hname⟩
  refine ⟨name, initializer, rfl, fun keyword hkeyword => ?_⟩
  simpa using Spelled.varDecl hkeyword hname hinitializer hsemicolon

theorem reads_expression_semicolon (wanted : Wanted) (build : Expr → Stmt) :
    Reads (do
      let expr ← expression fuel
      let _ ← want .semicolon wanted
      return build expr) fun stmt u _ =>
        ∃ expr v semicolon, stmt = build expr ∧ u = v ++ [semicolon] ∧
          Spelled (.expr .assignment expr) v ∧ semicolon.kind = .semicolon := by
  apply (reads_expression fuel).bind
  intro expr
  apply (reads_want _ _).bind
  intro semicolon
  apply reads_pure
  rintro rest _ ⟨rfl, hsemicolon⟩ u hexpr
  exact ⟨expr, u, semicolon, rfl, by simp, hexpr, hsemicolon⟩

theorem reads_returnStatement (keyword : Token) (hkeyword : keyword.kind = .returnKw) :
    Reads (returnStatement fuel keyword) fun stmt u _ =>
      Spelled (.statement false stmt) (keyword :: u) := by
  apply (reads_optionalExpression fuel _).bind
  intro value
  apply (reads_want _ _).bind
  intro semicolon
  apply reads_pure
  rintro rest _ ⟨rfl, hsemicolon⟩ u hvalue
  simpa using Spelled.returnStmt hkeyword hvalue hsemicolon

theorem reads_condition (opening closing : Wanted) :
    Reads (condition fuel opening closing) fun expr u _ =>
      ∃ left v right, u = left :: (v ++ [right]) ∧ left.kind = .leftParen ∧
        Spelled (.expr .assignment expr) v ∧ right.kind = .rightParen := by
  apply (reads_want _ _).bind
  intro left
  apply (reads_expression fuel).bind
  intro expr
  apply (reads_want _ _).bind
  intro right
  apply reads_pure
  rintro rest _ ⟨rfl, hright⟩ u hexpr _ ⟨rfl, hleft⟩
  exact ⟨left, u, right, by simp, hleft, hexpr, hright⟩

theorem reads_parameters (count : Nat) : Reads (parameters fuel count) fun names u _ =>
    names ≠ [] ∧ count + names.length ≤ maxArity ∧ Spelled (.parameters names) u := by
  induction fuel generalizing count with
  | zero => exact reads_exhausted
  | succ fuel ih =>
    apply (reads_checkCount _ _).bind
    intro _
    apply (reads_want _ _).bind
    intro name
    apply (reads_accept .comma (by simp)).bind
    rintro (_ | _)
    · apply reads_pure
      rintro rest _ ⟨rfl, -⟩ _ ⟨rfl, hname⟩ _ ⟨rfl, hcount⟩
      exact ⟨List.cons_ne_nil _ _, hcount, .lastParameter hname⟩
    · apply (ih (count + 1)).bind
      intro names
      apply reads_pure
      rintro rest v ⟨hne, hlength, hnames⟩ _ ⟨comma, rfl, hcomma⟩ _ ⟨rfl, hname⟩ _ ⟨rfl, -⟩
      obtain ⟨next, others, rfl⟩ := List.exists_cons_of_ne_nil hne
      refine ⟨List.cons_ne_nil _ _, ?_, ?_⟩
      · simp only [List.length_cons] at hlength ⊢
        omega
      · simpa using Spelled.moreParameters hname hcomma hnames

theorem reads_forInitializer :
    Reads (forInitializer fuel) fun start u _ => Spelled (.forStart start) u := by
  apply reads_nextKind_bind
  intro token
  split
  · next hkind =>
    exact reads_advance_bind (by simp [hkind]) (reads_pure fun _ => .noStart hkind)
  · next hkind =>
    apply reads_advance_bind (by simp [hkind])
    apply (reads_varDeclaration fuel).bind
    intro stmt
    apply reads_pure
    rintro rest u ⟨name, initializer, rfl, hdecl⟩
    rw [List.append_nil]
    exact .varStart (hdecl token hkind)
  · apply (reads_expression_semicolon fuel .expressionEnd .expression).bind
    intro stmt
    apply reads_pure
    rintro rest _ ⟨expr, u, semicolon, rfl, rfl, hexpr, hsemicolon⟩ -
    rw [List.append_nil]
    exact .exprStart hexpr hsemicolon

theorem reads_forClauses : Reads (forClauses fuel) fun clauses u _ =>
    ∀ (id : Nat) (isOpen : Bool) (keyword : Token) (body : Stmt) (x : List Token),
      keyword.kind = .forKw → Spelled (.statement isOpen body) x →
        Spelled (.statement isOpen (forLoop clauses.initializer
          (clauses.condition.getD (.literal id (.bool true))) clauses.increment body))
          (keyword :: (u ++ x)) := by
  apply (reads_want _ _).bind
  intro opening
  apply (reads_forInitializer fuel).bind
  intro start
  apply (reads_optionalExpression fuel _).bind
  intro condition
  apply (reads_want _ _).bind
  intro semicolon
  apply (reads_optionalExpression fuel _).bind
  intro increment
  apply (reads_want _ _).bind
  intro closing
  apply reads_pure
  rintro rest _ ⟨rfl, hclosing⟩ w hincrement _ ⟨rfl, hsemicolon⟩ v hcondition u hstart _
    ⟨rfl, hopening⟩ id isOpen keyword body x hkeyword hbody
  simpa using
    Spelled.forLoop id hkeyword hopening hstart hcondition hsemicolon hincrement hclosing hbody

theorem reads_conditionOrTrue (condition : Option Expr) :
    Reads (conditionOrTrue condition) fun expr u _ =>
      u = [] ∧ ∃ id, expr = condition.getD (.literal id (.bool true)) := by
  cases condition with
  | none =>
    rw [conditionOrTrue]
    exact reads_node fun id _ => ⟨rfl, id, rfl⟩
  | some condition => exact reads_pure fun _ => ⟨rfl, 0, rfl⟩

end Parts

structure StatementsRead (fuel : Nat) : Prop where
  declaration : Reads (declaration fuel) fun stmt u _ =>
    ∃ stmt', stmt = some stmt' ∧ Spelled (.declaration stmt') u
  declared : Reads (declared fuel) fun stmt u _ => Spelled (.declaration stmt) u
  routine : ∀ kind, Reads (routine fuel kind) fun declaration u _ =>
    Spelled (.routine declaration) u
  methods : Reads (methods fuel) fun declarations u _ => Spelled (.routines declarations) u
  block : Reads (block fuel) fun body u _ =>
    ∀ opening : Token, opening.kind = .leftBrace → Spelled (.block body) (opening :: u)
  declarations : ∀ stop, Reads (declarations fuel stop) fun stmts u rest =>
    Spelled (.declarations stmts) u ∧ (rest = [] ∨ firstKind rest = stop)
  statement : Reads (statement fuel) fun stmt u rest =>
    ∃ isOpen, Spelled (.statement isOpen stmt) u ∧ (isOpen = true → firstKind rest ≠ .elseKw)

namespace StatementsRead

variable {fuel : Nat}

theorem declaration_succ (h : StatementsRead fuel) :
    Reads (Reading.declaration (fuel + 1)) fun stmt u _ =>
      ∃ stmt', stmt = some stmt' ∧ Spelled (.declaration stmt') u := by
  intro c
  rw [Reading.declaration, Action.ensures_bind, Action.ensures_attempt]
  apply (h.declared c).mono
  · rintro stmt c' ⟨hpass, hclean⟩
    refine ⟨hpass, fun hsize => ?_⟩
    obtain ⟨u, hahead, hstmt⟩ := hclean hsize
    exact ⟨u, hahead, stmt, rfl, hstmt⟩
  · -- the fault of a declaration that fails is noted
    intro fault c' hpass
    have hfaults := hpass.faults
    refine ⟨hpass.trans (.skip fault c'), fun hsize => ?_⟩
    rw [Cursor.faults_synchronize, Cursor.faults_report, Array.size_push] at hsize
    omega

theorem declared_succ (h : StatementsRead fuel) :
    Reads (Reading.declared (fuel + 1)) fun stmt u _ => Spelled (.declaration stmt) u := by
  rw [Reading.declared]
  apply reads_nextKind_bind
  intro token
  split
  · next hkind =>
    apply reads_advance_bind (by simp [hkind])
    apply (reads_want _ _).bind
    intro name
    apply (reads_want _ _).bind
    intro opening
    apply h.methods.bind
    intro methods
    apply (reads_want _ _).bind
    intro closing
    apply reads_pure
    rintro rest _ ⟨rfl, hclosing⟩ u hmethods _ ⟨rfl, hopening⟩ _ ⟨rfl, hname⟩
    simpa using Spelled.classDecl hkind hname hopening hmethods hclosing
  · next hkind =>
    apply reads_advance_bind (by simp [hkind])
    apply (h.routine .function).bind
    intro declaration
    apply reads_pure
    intro rest u hdeclaration
    simpa using Spelled.funDecl hkind hdeclaration
  · next hkind =>
    apply reads_advance_bind (by simp [hkind])
    apply (reads_varDeclaration fuel).mono
    rintro stmt u rest ⟨name, initializer, rfl, hdecl⟩
    exact .varDeclared (hdecl token hkind)
  · apply h.statement.mono
    rintro stmt u rest ⟨isOpen, hstmt, -⟩ -
    exact .stated hstmt

theorem routine_succ (h : StatementsRead fuel) (kind : Routine) :
    Reads (Reading.routine (fuel + 1) kind) fun declaration u _ =>
      Spelled (.routine declaration) u := by
  have hparams : Reads (listUntil .rightParen (parameters fuel 0)) fun names u _ =>
      names.length ≤ maxArity ∧ Spelled (.parameters names) u := by
    apply reads_listUntil
    · apply (reads_parameters fuel 0).mono
      rintro names u rest ⟨-, hlength, hnames⟩
      exact ⟨by omega, hnames⟩
    · exact fun _ => ⟨Nat.zero_le _, .noParameters⟩
  rw [Reading.routine]
  apply (reads_want _ _).bind
  intro name
  apply (reads_want _ _).bind
  intro opening
  apply hparams.bind
  intro params
  apply (reads_want _ _).bind
  intro closing
  apply (reads_want _ _).bind
  intro brace
  apply h.block.bind
  intro body
  apply reads_pure
  rintro rest v hbody _ ⟨rfl, hbrace⟩ _ ⟨rfl, hclosing⟩ u ⟨hlength, hparams⟩ _ ⟨rfl, hopening⟩ _
    ⟨rfl, hname⟩
  simpa using
    Spelled.routine hname hopening hparams hlength hclosing (hbody brace hbrace)

theorem methods_succ (h : StatementsRead fuel) :
    Reads (Reading.methods (fuel + 1)) fun declarations u _ =>
      Spelled (.routines declarations) u := by
  rw [Reading.methods]
  apply reads_isAtEnd.bind
  intro atEnd
  apply reads_nextKind_bind
  intro token
  split
  · apply reads_pure
    rintro rest - _ ⟨rfl, -⟩
    exact .noRoutines
  · apply (h.routine .method).bind
    intro method
    apply h.methods.bind
    intro methods
    apply reads_pure
    rintro rest v hmethods u hmethod - _ ⟨rfl, -⟩
    simpa using Spelled.routines hmethod hmethods

theorem block_succ (h : StatementsRead fuel) : Reads (Reading.block (fuel + 1)) fun body u _ =>
    ∀ opening : Token, opening.kind = .leftBrace → Spelled (.block body) (opening :: u) := by
  rw [Reading.block]
  apply (h.declarations .rightBrace).bind
  intro body
  apply (reads_want _ _).bind
  intro closing
  apply reads_pure
  rintro rest _ ⟨rfl, hclosing⟩ u ⟨hbody, -⟩ opening hopening
  simpa using Spelled.block hopening hbody hclosing

theorem declarations_succ (h : StatementsRead fuel) (stop : Kind) :
    Reads (Reading.declarations (fuel + 1) stop) fun stmts u rest =>
      Spelled (.declarations stmts) u ∧ (rest = [] ∨ firstKind rest = stop) := by
  rw [Reading.declarations]
  apply reads_isAtEnd.bind
  intro atEnd
  apply reads_nextKind_bind
  intro token
  split
  · next hstop =>
    apply reads_pure
    rintro rest hnext _ ⟨rfl, hatEnd⟩
    refine ⟨.noDeclarations, ?_⟩
    rw [Bool.or_eq_true_iff, decide_eq_true_iff] at hstop
    exact hstop.imp hatEnd.mp fun hkind => hnext.firstKind_eq.trans hkind
  · apply h.declaration.bind
    intro stmt
    apply (h.declarations stop).bind
    intro stmts
    apply reads_pure
    rintro rest v ⟨hstmts, hrest⟩ u ⟨stmt', rfl, hstmt⟩ - _ ⟨rfl, -⟩
    refine ⟨?_, hrest⟩
    simpa using Spelled.declarations hstmt hstmts

theorem statement_succ (h : StatementsRead fuel) :
    Reads (Reading.statement (fuel + 1)) fun stmt u rest =>
      ∃ isOpen, Spelled (.statement isOpen stmt) u ∧
        (isOpen = true → firstKind rest ≠ .elseKw) := by
  rw [Reading.statement]
  apply reads_peek_bind
  intro token
  split
  · next hkind =>
    apply reads_advance_bind (by simp [hkind])
    apply (reads_forClauses fuel).bind
    intro clauses
    apply h.statement.bind
    intro body
    apply (reads_conditionOrTrue _).bind
    intro condition
    apply reads_pure
    rintro rest _ ⟨rfl, id, rfl⟩ v ⟨isOpen, hbody, helse⟩ u hclauses
    refine ⟨isOpen, ?_, by simpa using helse⟩
    simpa using hclauses id isOpen token body v hkind hbody
  · next hkind =>
    apply reads_advance_bind (by simp [hkind])
    apply (reads_condition fuel _ _).bind
    intro condition
    apply h.statement.bind
    intro thenBranch
    apply (reads_accept .elseKw (by simp)).bind
    rintro (_ | _)
    · apply reads_pure
      rintro rest _ ⟨rfl, helse⟩ v ⟨isOpen, hthen, -⟩ _
        ⟨opening, u, closing, rfl, hopening, hcondition, hclosing⟩
      refine ⟨true, ?_, fun _ => by simpa using helse⟩
      simpa using Spelled.ifThen hkind hopening hcondition hclosing hthen
    · apply h.statement.bind
      intro elseBranch
      apply reads_pure
      rintro rest w ⟨isOpen, helse, hrest⟩ _ ⟨keyword, rfl, hkeyword⟩ v ⟨isOpenThen, hthen, hopen⟩ _
        ⟨opening, u, closing, rfl, hopening, hcondition, hclosing⟩
      refine ⟨isOpen, ?_, by simpa using hrest⟩
      obtain rfl : isOpenThen = false := by simpa [hkeyword] using hopen
      simpa using Spelled.ifElse hkind hopening hcondition hclosing hthen hkeyword helse
  · next hkind =>
    apply reads_advance_bind (by simp [hkind])
    apply (reads_condition fuel _ _).bind
    intro condition
    apply h.statement.bind
    intro body
    apply reads_pure
    rintro rest v ⟨isOpen, hbody, helse⟩ _
      ⟨opening, u, closing, rfl, hopening, hcondition, hclosing⟩
    refine ⟨isOpen, ?_, by simpa using helse⟩
    simpa using Spelled.whileLoop hkind hopening hcondition hclosing hbody
  · next hkind =>
    apply reads_advance_bind (by simp [hkind])
    apply (reads_returnStatement fuel token hkind).mono
    exact fun _ _ _ hstmt => ⟨false, hstmt, by simp⟩
  · next hkind =>
    apply reads_advance_bind (by simp [hkind])
    apply h.block.bind
    intro body
    apply reads_pure
    intro rest u hbody
    rw [List.append_nil]
    exact ⟨false, .braced (hbody token hkind), by simp⟩
  · next hkind =>
    apply reads_advance_bind (by simp [hkind])
    apply (reads_expression_semicolon fuel .printEnd .print).mono
    rintro stmt _ rest ⟨expr, u, semicolon, rfl, rfl, hexpr, hsemicolon⟩
    exact ⟨false, .print hkind hexpr hsemicolon, by simp⟩
  · apply (reads_expression_semicolon fuel .expressionEnd .expression).mono
    rintro stmt _ rest ⟨expr, u, semicolon, rfl, rfl, hexpr, hsemicolon⟩ -
    exact ⟨false, .expression hexpr hsemicolon, by simp⟩

end StatementsRead

theorem statementsRead (fuel : Nat) : StatementsRead fuel := by
  induction fuel with
  | zero =>
    exact ⟨reads_exhausted, reads_exhausted, fun _ => reads_exhausted, reads_exhausted,
      reads_exhausted, fun _ => reads_exhausted, reads_exhausted⟩
  | succ fuel ih =>
    exact ⟨ih.declaration_succ, ih.declared_succ, ih.routine_succ, ih.methods_succ, ih.block_succ,
      ih.declarations_succ, ih.statement_succ⟩

end Reading

/-- Without a fault, all tokens up to the end spell the statements that are read. -/
theorem Program.spelled_of_faults_eq_nil {tokens : List Token} {firstId : Nat}
    (h : (ofTokens tokens firstId).faults = []) :
    Spelled (.declarations (ofTokens tokens firstId).statements)
      (tokens.takeWhile (·.kind ≠ .eof)) := by
  have hread := (Reading.statementsRead (fuelFor tokens.length)).declarations .eof
    (Cursor.start tokens firstId)
  have hend := declarations_ne_exhausted tokens firstId
  unfold ofTokens at h ⊢
  cases hresult : Reading.declarations (fuelFor tokens.length) .eof
    (Cursor.start tokens firstId) with
  | done stmts c =>
    simp only [hresult] at h ⊢
    obtain ⟨-, hclean⟩ := hread.of_done hresult
    have hfaults : c.faults = #[] := Array.toList_eq_nil_iff.mp h
    obtain ⟨u, hahead, hstmts, hrest⟩ := hclean (by rw [hfaults]; rfl)
    have hempty : c.ahead = [] := by
      refine hrest.elim id fun hkind => ?_
      cases hc : c.ahead with
      | nil => rfl
      | cons token rest =>
        rw [hc, firstKind_cons] at hkind
        have hmem : token ∈ c.ahead := hc ▸ List.mem_cons_self
        exact absurd hkind (Cursor.kind_ne_eof_of_mem_ahead hmem)
    rw [← Cursor.ahead_start tokens firstId, hahead, hempty, List.append_nil]
    exact hstmts
  | failed fault c => simp [hresult] at h
  | exhausted => exact absurd hresult hend

end LoxLang
