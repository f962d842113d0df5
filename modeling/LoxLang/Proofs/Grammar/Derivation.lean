import LoxLang.Proofs.Grammar.Rules
import LoxLang.Proofs.Grammar.Spelling

/-!
# What is spelled and what is derived

The grammar derives just those sequences of kinds whose tokens spell a piece of a program. One way,
every spelling is a derivation (`Spelled.derived`). The other way, spellings are closed under the
rules of the grammar: operands in a chain are grouped to the left, and an `else` that the grammar
could give to more than one `if` is given to the nearest one.
-/
namespace LoxLang

open Grammar

def Level.operators : Level → List Kind
  | .or => [.orKw]
  | .and => [.andKw]
  | .equality => [.bangEqual, .equalEqual]
  | .comparison => [.greater, .greaterEqual, .less, .lessEqual]
  | .term => [.minus, .plus]
  | .factor => [.slash, .star]
  | .unary => [.bang, .minus]

theorem Level.mem_operators_iff (level : Level) (kind : Kind) :
    kind ∈ level.operators ↔ level.joins kind = true := by
  cases level <;> cases kind <;> simp [operators, joins]

def Rank.nonterminal : Rank → Nonterminal
  | assignment => .assignment
  | operation .or => .logicOr
  | operation .and => .logicAnd
  | operation .equality => .equality
  | operation .comparison => .comparison
  | operation .term => .term
  | operation .factor => .factor
  | operation .unary => .unary
  | call => .call
  | primary => .primary

theorem Rank.form_operation {level : Level} (h : level ≠ .unary) :
    (operation level).nonterminal.form =
      Form.chain (operation level.tighter).nonterminal level.operators := by
  cases level <;> first | rfl | exact absurd rfl h

namespace Grammar.Derives

variable {form first : Form} {u v : List Kind}

theorem ofToken {token : Token} {kind : Kind} (h : token.kind = kind) :
    Derives (.token kind) [token.kind] :=
  h ▸ .token _

theorem token_cons {token : Token} {kind : Kind} {forms : List Form} (h : token.kind = kind)
    (hrest : Derives (.sequence forms) u) :
    Derives (.sequence (.token kind :: forms)) (token.kind :: u) :=
  cons (ofToken h) hrest

theorem last (h : Derives form u) : Derives (.sequence [form]) u := by
  simpa using cons h nil

theorem many_nil : Derives (.many form) [] := .many (List.forall_mem_nil _)

theorem many_cons (h : Derives form u) (hrest : Derives (.many form) v) :
    Derives (.many form) (u ++ v) := by
  cases hrest with
  | many hwords => exact .many (List.forall_mem_cons.mpr ⟨h, hwords⟩)

theorem upTo_cons {limit : Nat} (h : Derives form u) (hrest : Derives (.upTo limit form) v) :
    Derives (.upTo (limit + 1) form) (u ++ v) := by
  cases hrest with
  | upTo hlength hwords =>
    exact .upTo (Nat.succ_le_succ hlength) (List.forall_mem_cons.mpr ⟨h, hwords⟩)

theorem upTo_mono {limit limit' : Nat} (h : Derives (.upTo limit form) u) (hle : limit ≤ limit') :
    Derives (.upTo limit' form) u := by
  cases h with
  | upTo hlength hwords => exact .upTo (Nat.le_trans hlength hle) hwords

theorem repeated_first (h : Derives first u) : Derives (.sequence [first, .many form]) u := by
  simpa using cons h (last many_nil)

/-- A repetition goes on at its end. -/
theorem repeated_more (h : Derives (.sequence [first, .many form]) u) (hmore : Derives form v) :
    Derives (.sequence [first, .many form]) (u ++ v) := by
  cases h with
  | cons hfirst hrest =>
    cases hrest with
    | cons hmany hnil =>
      cases hnil
      cases hmany with
      | @many _ words hwords =>
        have hwords' : ∀ word ∈ words ++ [v], Derives form word :=
          List.forall_mem_append.mpr ⟨hwords, List.forall_mem_singleton.mpr hmore⟩
        simpa using cons hfirst (last (many hwords'))

/-- A list of this many entries, with commas in between. -/
def Entries (entry : Form) : Nat → List Kind → Prop
  | 0, word => word = []
  | count + 1, word =>
    Derives (.sequence [entry, .upTo count (.sequence [.token .comma, entry])]) word

theorem entries_one (h : Derives form u) : Entries form 1 u := by
  simpa [Entries] using cons h (last (upTo (Nat.zero_le 0) (List.forall_mem_nil _)))

theorem entries_more {count : Nat} {comma : Token} (h : Derives form u)
    (hcomma : comma.kind = .comma) (hrest : Entries form (count + 1) v) :
    Entries form (count + 2) (u ++ comma.kind :: v) := by
  cases hrest with
  | cons hentry hmore =>
    cases hmore with
    | cons hupTo hnil =>
      cases hnil
      have hnext := token_cons hcomma (last hentry)
      simpa [Entries] using cons h (last (upTo_cons hnext hupTo))

theorem ofEntries {entry : Form} {name : Nonterminal} {count : Nat}
    (hform : name.form = Form.commaSeparated entry) (hle : count ≤ Reading.maxArity)
    (h : Entries entry count u) : Derives (.optional (.rule name)) u := by
  cases count with
  | zero => exact h ▸ .absent
  | succ count =>
    refine .present (.rule (hform ▸ ?_))
    cases h with
    | cons hentry hmore =>
      cases hmore with
      | cons hupTo hnil =>
        exact cons hentry (cons (upTo_mono hupTo (Nat.le_of_lt_succ hle)) hnil)

end Grammar.Derives

/-- The kinds of the piece are derived by the rule for it. -/
def Phrase.Derived : Phrase → List Kind → Prop
  | .expr rank _, word => Derives (.rule rank.nonterminal) word
  | .arguments exprs, word => Derives.Entries (.rule .expression) exprs.length word
  | .optional _, word => Derives (.optional (.rule .expression)) word
  | .initializer _, word =>
    Derives (.optional (.sequence [.token .equal, .rule .expression])) word
  | .parameters names, word => Derives.Entries (.token .identifier) names.length word
  | .varDecl _ _, word => Derives (.rule .varDecl) word
  | .forStart _, word =>
    Derives (.choice [.rule .varDecl, .rule .exprStmt, .token .semicolon]) word
  | .statement _ _, word => Derives (.rule .statement) word
  | .block _, word => Derives (.rule .block) word
  | .declaration _, word => Derives (.rule .declaration) word
  | .declarations _, word => Derives (.many (.rule .declaration)) word
  | .routine _, word => Derives (.rule .function) word
  | .routines _, word => Derives (.many (.rule .function)) word

namespace Spelled

open Grammar.Derives

theorem derived_constant {kind : Kind} {value : Literal} (h : kind.constant? = some value) :
    Derives (.rule .primary) [kind] := by
  apply Derives.rule
  cases kind <;> simp only [Kind.constant?, reduceCtorEq] at h
  case falseKw => exact .choice (by simp) (.token .falseKw)
  case trueKw => exact .choice (by simp) (.token .trueKw)
  case nilKw => exact .choice (by simp) (.token .nilKw)
  case number value => exact .choice (by simp) (.number value)
  case string contents => exact .choice (by simp) (.string contents)

theorem derived_operator {level : Level} {kind : Kind} (h : level.joins kind = true) :
    Derives (.choice (level.operators.map .token)) [kind] := by
  rw [← Level.mem_operators_iff] at h
  exact .choice (List.mem_map_of_mem h) (.token kind)

theorem derived_loosen {rank : Rank} {word : List Kind}
    (h : Derives (.rule rank.tighter.nonterminal) word) :
    Derives (.rule rank.nonterminal) word := by
  rcases rank with _ | level | _ | _
  · exact .rule (.choice (.tail _ (.head _)) h)
  · by_cases hlevel : level = .unary
    · subst hlevel
      exact .rule (.choice (.tail _ (.head _)) h)
    · rw [Rank.tighter_operation hlevel] at h
      exact .rule (Rank.form_operation hlevel ▸ repeated_first h)
  · exact .rule (repeated_first h)
  · exact h

theorem derived_expression {expr : Expr} {word : List Kind}
    (h : (Phrase.expr .assignment expr).Derived word) : Derives (.rule .expression) word :=
  .rule h

theorem derived_statement (name : Nonterminal) {word : List Kind} (h : Derives name.form word)
    (hname : name ∈ [.exprStmt, .forStmt, .ifStmt, .printStmt, .returnStmt, .whileStmt]) :
    Derives (.rule .statement) word := by
  refine .rule (.choice ?_ (.rule h))
  simp only [List.mem_cons, List.not_mem_nil, or_false] at hname
  rcases hname with rfl | rfl | rfl | rfl | rfl | rfl <;> simp

theorem derived {phrase : Phrase} {u : List Token} (h : Spelled phrase u) :
    phrase.Derived (u.map Token.kind) := by
  induction h with
  | literal hvalue => exact derived_constant hvalue
  | var hname => exact .rule (.choice (by simp) (ofToken hname))
  | this hkeyword => exact .rule (.choice (by simp) (ofToken hkeyword))
  | grouping hopening _ hclosing ih =>
    have hparts := token_cons hopening (cons (derived_expression ih) (token_cons hclosing nil))
    have hprimary : Derives (.rule Rank.primary.nonterminal) _ := .rule (.choice (by simp) hparts)
    simpa [Phrase.Derived] using hprimary
  | call _ hopening _ hle hclosing ih ihargs =>
    have hargs : Derives (.optional (.rule .arguments)) _ := ofEntries rfl hle ihargs
    have hsuffix := token_cons hopening (cons hargs (token_cons hclosing nil))
    cases ih with
    | rule hcall =>
      have hcall' : Derives (.rule Rank.call.nonterminal) _ :=
        .rule (repeated_more hcall (.choice (.head _) hsuffix))
      simpa [Phrase.Derived] using hcall'
  | get _ hdot hname ih =>
    have hsuffix := token_cons hdot (token_cons hname nil)
    cases ih with
    | rule hcall =>
      have hcall' : Derives (.rule Rank.call.nonterminal) _ :=
        .rule (repeated_more hcall (.choice (.tail _ (.head _)) hsuffix))
      simpa [Phrase.Derived] using hcall'
  | unary hjoins _ ih =>
    have hparts := cons (derived_operator hjoins) (last ih)
    exact .rule (.choice (.head _) hparts)
  | @combine level id left operator right u v hlevel _ hjoins _ ih ih' =>
    cases ih with
    | rule hleft =>
      rw [Rank.form_operation hlevel] at hleft
      have hchain := repeated_more hleft (cons (derived_operator hjoins) (last ih'))
      refine .rule (Rank.form_operation hlevel ▸ ?_)
      simpa [Form.chain] using hchain
  | assign hname hequals _ ih =>
    exact .rule (.choice (.head _) (cons .absent (token_cons hname (token_cons hequals (last ih)))))
  | set _ hdot hname hequals _ ih ih' =>
    have htarget := Derives.present (cons ih (token_cons hdot nil))
    have hparts := cons htarget (token_cons hname (token_cons hequals (last ih')))
    have hassignment : Derives (.rule Rank.assignment.nonterminal) _ :=
      .rule (.choice (.head _) hparts)
    simpa [Phrase.Derived] using hassignment
  | loosen _ ih => exact derived_loosen ih
  | noArguments => rfl
  | lastArgument _ ih => exact entries_one (derived_expression ih)
  | moreArguments _ hcomma _ ih ih' =>
    simpa [Phrase.Derived] using entries_more (derived_expression ih) hcomma ih'
  | absent => exact .absent
  | present _ ih => exact .present (derived_expression ih)
  | noInitializer => exact .absent
  | initializer hequals _ ih =>
    exact .present (token_cons hequals (last (derived_expression ih)))
  | noParameters => rfl
  | lastParameter hname => exact entries_one (ofToken hname)
  | moreParameters hname hcomma _ ih => exact entries_more (ofToken hname) hcomma ih
  | varDecl hkeyword hname _ hsemicolon ih =>
    have hvar : Derives (.rule .varDecl) _ :=
      .rule (token_cons hkeyword (token_cons hname (cons ih (token_cons hsemicolon nil))))
    simpa [Phrase.Derived] using hvar
  | expression _ hsemicolon ih =>
    have hparts := cons (derived_expression ih) (token_cons hsemicolon nil)
    simpa [Phrase.Derived] using derived_statement .exprStmt hparts (by simp)
  | print hkeyword _ hsemicolon ih =>
    have hparts := token_cons hkeyword (cons (derived_expression ih) (token_cons hsemicolon nil))
    simpa [Phrase.Derived] using derived_statement .printStmt hparts (by simp)
  | returnStmt hkeyword _ hsemicolon ih =>
    have hparts := token_cons hkeyword (cons ih (token_cons hsemicolon nil))
    simpa [Phrase.Derived] using derived_statement .returnStmt hparts (by simp)
  | braced _ ih => exact .rule (.choice (by simp) ih)
  | ifThen hkeyword hopening _ hclosing _ ih ih' =>
    have hparts : Derives Nonterminal.ifStmt.form _ :=
      token_cons hkeyword (token_cons hopening (cons (derived_expression ih)
        (token_cons hclosing (cons ih' (last .absent)))))
    simpa [Phrase.Derived] using derived_statement .ifStmt hparts (by simp)
  | ifElse hkeyword hopening _ hclosing _ helse _ ih ihthen ihelse =>
    have hparts := token_cons hkeyword (token_cons hopening (cons (derived_expression ih)
      (token_cons hclosing (cons ihthen (last (.present (token_cons helse (last ihelse))))))))
    simpa [Phrase.Derived] using derived_statement .ifStmt hparts (by simp)
  | whileLoop hkeyword hopening _ hclosing _ ih ih' =>
    have hparts := token_cons hkeyword (token_cons hopening (cons (derived_expression ih)
      (token_cons hclosing (last ih'))))
    simpa [Phrase.Derived] using derived_statement .whileStmt hparts (by simp)
  | forLoop id hkeyword hopening _ _ hsemicolon _ hclosing _ ihstart ihcondition ihincrement ih =>
    have hparts := token_cons hkeyword (token_cons hopening (cons ihstart (cons ihcondition
      (token_cons hsemicolon (cons ihincrement (token_cons hclosing (last ih)))))))
    simpa [Phrase.Derived] using derived_statement .forStmt hparts (by simp)
  | noStart hsemicolon => exact .choice (by simp) (ofToken hsemicolon)
  | varStart _ ih => exact .choice (.head _) ih
  | exprStart _ hsemicolon ih =>
    have hstmt : Derives (.rule .exprStmt) _ :=
      .rule (cons (derived_expression ih) (token_cons hsemicolon nil))
    have hstart := Derives.choice (.tail (.rule .varDecl) (.head [.token .semicolon])) hstmt
    simpa [Phrase.Derived] using hstart
  | block hopening _ hclosing ih =>
    have hblock : Derives (.rule .block) _ :=
      .rule (token_cons hopening (cons ih (token_cons hclosing nil)))
    simpa [Phrase.Derived] using hblock
  | classDecl hkeyword hname hopening _ hclosing ih =>
    have hclass : Derives (.rule .classDecl) _ :=
      .rule (token_cons hkeyword (token_cons hname (token_cons hopening (cons ih
        (token_cons hclosing nil)))))
    have hdeclaration : Derives (.rule .declaration) _ := .rule (.choice (by simp) hclass)
    simpa [Phrase.Derived] using hdeclaration
  | funDecl hkeyword _ ih =>
    have hfun : Derives (.rule .funDecl) _ := .rule (token_cons hkeyword (last ih))
    exact .rule (.choice (by simp) hfun)
  | varDeclared _ ih => exact .rule (.choice (by simp) ih)
  | stated _ ih => exact .rule (.choice (by simp) ih)
  | noDeclarations => exact many_nil
  | declarations _ _ ih ih' => simpa [Phrase.Derived] using many_cons ih ih'
  | routine hname hopening _ hle hclosing _ ihparams ih =>
    have hparams : Derives (.optional (.rule .parameters)) _ := ofEntries rfl hle ihparams
    have hroutine : Derives (.rule .function) _ :=
      .rule (token_cons hname (token_cons hopening (cons hparams (token_cons hclosing (last ih)))))
    simpa [Phrase.Derived] using hroutine
  | noRoutines => exact many_nil
  | routines _ _ ih ih' => simpa [Phrase.Derived] using many_cons ih ih'

end Spelled

namespace Grammar

/-- The tokens spell a piece of the kind that a rule is for. -/
def Spells : Nonterminal → List Token → Prop
  | .program, tokens => ∃ stmts u ending, tokens = u ++ [ending] ∧ ending.kind = .eof ∧
      Spelled (.declarations stmts) u
  | .declaration, tokens | .classDecl, tokens | .funDecl, tokens =>
    ∃ stmt, Spelled (.declaration stmt) tokens
  | .function, tokens => ∃ declaration, Spelled (.routine declaration) tokens
  | .varDecl, tokens => ∃ name initializer, Spelled (.varDecl name initializer) tokens
  | .exprStmt, tokens => ∃ expr u semicolon, tokens = u ++ [semicolon] ∧
      semicolon.kind = .semicolon ∧ Spelled (.expr .assignment expr) u
  | .statement, tokens | .forStmt, tokens | .ifStmt, tokens | .printStmt, tokens
  | .returnStmt, tokens | .whileStmt, tokens =>
    ∃ isOpen stmt, Spelled (.statement isOpen stmt) tokens
  | .block, tokens => ∃ body, Spelled (.block body) tokens
  | .parameters, tokens => ∃ names, names.length ≤ Reading.maxArity ∧
      Spelled (.parameters names) tokens
  | .arguments, tokens => ∃ exprs, exprs.length ≤ Reading.maxArity ∧
      Spelled (.arguments exprs) tokens
  | .expression, tokens | .assignment, tokens => ∃ expr, Spelled (.expr .assignment expr) tokens
  | .logicOr, tokens => ∃ expr, Spelled (.expr (.operation .or) expr) tokens
  | .logicAnd, tokens => ∃ expr, Spelled (.expr (.operation .and) expr) tokens
  | .equality, tokens => ∃ expr, Spelled (.expr (.operation .equality) expr) tokens
  | .comparison, tokens => ∃ expr, Spelled (.expr (.operation .comparison) expr) tokens
  | .term, tokens => ∃ expr, Spelled (.expr (.operation .term) expr) tokens
  | .factor, tokens => ∃ expr, Spelled (.expr (.operation .factor) expr) tokens
  | .unary, tokens => ∃ expr, Spelled (.expr (.operation .unary) expr) tokens
  | .call, tokens => ∃ expr, Spelled (.expr .call expr) tokens
  | .primary, tokens => ∃ expr, Spelled (.expr .primary expr) tokens

theorem spells_operation (level : Level) (tokens : List Token) :
    Spells (Rank.operation level).nonterminal tokens ↔
      ∃ expr, Spelled (.expr (.operation level) expr) tokens := by
  cases level <;> rfl

theorem holdAny_tokens (kinds : List Kind) {tokens : List Token}
    (h : Form.HoldAny Spells (kinds.map .token) tokens) :
    ∃ token, tokens = [token] ∧ token.kind ∈ kinds := by
  induction kinds with
  | nil => cases h
  | cons kind kinds ih =>
    rcases h with ⟨token, htokens, rfl⟩ | hrest
    · exact ⟨token, htokens, .head _⟩
    · obtain ⟨token, htokens, hkind⟩ := ih hrest
      exact ⟨token, htokens, .tail _ hkind⟩

/-- Operands in a chain are grouped to the left. -/
theorem spelled_chain {level : Level} (hlevel : level ≠ .unary) {tokens : List Token}
    (h : (Form.chain (Rank.operation level.tighter).nonterminal level.operators).Holds Spells
      tokens) : ∃ expr, Spelled (.expr (.operation level) expr) tokens := by
  obtain ⟨first, _, rfl, hfirst, _, _, rfl, ⟨parts, rfl, hparts⟩, rfl⟩ := h
  obtain ⟨expr, hexpr⟩ := (spells_operation _ _).mp hfirst
  rw [← Rank.tighter_operation hlevel] at hexpr
  rw [List.append_nil]
  generalize first = u at hexpr
  have hleft := hexpr.loosen
  clear hexpr hfirst
  induction parts generalizing u expr with
  | nil => exact ⟨expr, by simpa using hleft⟩
  | cons part parts ih =>
    rw [List.forall_mem_cons] at hparts
    obtain ⟨⟨_, _, rfl, hoperator, v, _, rfl, hright, rfl⟩, hparts⟩ := hparts
    obtain ⟨operator, rfl, hmem⟩ := holdAny_tokens _ hoperator
    obtain ⟨right, hright⟩ := (spells_operation _ _).mp hright
    have hjoins := (Level.mem_operators_iff _ _).mp hmem
    obtain ⟨expr', hexpr'⟩ := ih hparts (level.combine expr operator right 0) _
      (.combine hlevel hleft hjoins hright)
    exact ⟨expr', by simpa using hexpr'⟩

theorem spelled_call {tokens : List Token} (h : Nonterminal.call.form.Holds Spells tokens) :
    ∃ expr, Spelled (.expr .call expr) tokens := by
  obtain ⟨first, _, rfl, ⟨expr, hexpr⟩, _, _, rfl, ⟨parts, rfl, hparts⟩, rfl⟩ := h
  rw [List.append_nil]
  have hcallee : Spelled (.expr .call expr) first := .loosen hexpr
  clear hexpr
  induction parts generalizing first expr with
  | nil => exact ⟨expr, by simpa using hcallee⟩
  | cons part parts ih =>
    rw [List.forall_mem_cons] at hparts
    obtain ⟨hpart, hparts⟩ := hparts
    rcases hpart with ⟨_, _, rfl, ⟨opening, rfl, hopening⟩, v, _, rfl, hargs, _, _, rfl,
      ⟨paren, rfl, hparen⟩, rfl⟩ | ⟨_, _, rfl, ⟨dot, rfl, hdot⟩, _, _, rfl, ⟨name, rfl, hname⟩,
      rfl⟩ | ⟨⟨⟩⟩
    · obtain ⟨args, hle, hargs⟩ : ∃ args : List Expr, args.length ≤ Reading.maxArity ∧
          Spelled (.arguments args) v := by
        rcases hargs with rfl | hargs
        · exact ⟨[], Nat.zero_le _, .noArguments⟩
        · exact hargs
      obtain ⟨expr', hexpr'⟩ := ih _ (.call 0 expr paren args) hparts
        (.call hcallee hopening hargs hle hparen)
      exact ⟨expr', by simpa using hexpr'⟩
    · obtain ⟨expr', hexpr'⟩ := ih _ (.get 0 expr name) hparts (.get hcallee hdot hname)
      exact ⟨expr', by simpa using hexpr'⟩

theorem spelled_declarations {tokens : List Token}
    (h : (Form.many (.rule .declaration)).Holds Spells tokens) :
    ∃ stmts, Spelled (.declarations stmts) tokens := by
  obtain ⟨parts, rfl, hparts⟩ := h
  induction parts with
  | nil => exact ⟨[], .noDeclarations⟩
  | cons part parts ih =>
    rw [List.forall_mem_cons] at hparts
    obtain ⟨⟨stmt, hstmt⟩, hparts⟩ := hparts
    obtain ⟨stmts, hstmts⟩ := ih hparts
    exact ⟨stmt :: stmts, .declarations hstmt hstmts⟩

theorem spelled_routines {tokens : List Token}
    (h : (Form.many (.rule .function)).Holds Spells tokens) :
    ∃ declarations, Spelled (.routines declarations) tokens := by
  obtain ⟨parts, rfl, hparts⟩ := h
  induction parts with
  | nil => exact ⟨[], .noRoutines⟩
  | cons part parts ih =>
    rw [List.forall_mem_cons] at hparts
    obtain ⟨⟨declaration, hdeclaration⟩, hparts⟩ := hparts
    obtain ⟨declarations, hdeclarations⟩ := ih hparts
    exact ⟨declaration :: declarations, .routines hdeclaration hdeclarations⟩

theorem spelled_arguments {first : List Token} {parts : List (List Token)}
    (hfirst : Spells .expression first)
    (hparts : ∀ part ∈ parts,
      (Form.sequence [.token .comma, .rule .expression]).Holds Spells part) :
    ∃ expr exprs, exprs.length = parts.length ∧
      Spelled (.arguments (expr :: exprs)) (first ++ parts.flatten) := by
  obtain ⟨expr, hexpr⟩ := hfirst
  induction parts generalizing first expr with
  | nil => exact ⟨expr, [], rfl, by simpa using Spelled.lastArgument hexpr⟩
  | cons part parts ih =>
    rw [List.forall_mem_cons] at hparts
    obtain ⟨⟨_, _, rfl, ⟨comma, rfl, hcomma⟩, v, _, rfl, ⟨next, hnext⟩, rfl⟩, hparts⟩ := hparts
    obtain ⟨next, exprs, hlength, hrest⟩ := ih hparts next hnext
    refine ⟨expr, next :: exprs, by simp [hlength], ?_⟩
    simpa using Spelled.moreArguments hexpr hcomma hrest

theorem spelled_parameters {name : Token} {parts : List (List Token)}
    (hname : name.kind = .identifier)
    (hparts : ∀ part ∈ parts,
      (Form.sequence [.token .comma, .token .identifier]).Holds Spells part) :
    ∃ names, names.length = parts.length ∧
      Spelled (.parameters (name :: names)) (name :: parts.flatten) := by
  induction parts generalizing name with
  | nil => exact ⟨[], rfl, .lastParameter hname⟩
  | cons part parts ih =>
    rw [List.forall_mem_cons] at hparts
    obtain ⟨⟨_, _, rfl, ⟨comma, rfl, hcomma⟩, _, _, rfl, ⟨next, rfl, hnext⟩, rfl⟩, hparts⟩ := hparts
    obtain ⟨names, hlength, hrest⟩ := ih hnext hparts
    refine ⟨next :: names, by simp [hlength], ?_⟩
    simpa using Spelled.moreParameters hname hcomma hrest

theorem spelled_optional {tokens : List Token}
    (h : (Form.optional (.rule .expression)).Holds Spells tokens) :
    ∃ expr, Spelled (.optional expr) tokens := by
  rcases h with rfl | ⟨expr, hexpr⟩
  · exact ⟨none, .absent⟩
  · exact ⟨some expr, .present hexpr⟩

theorem spelled_primary {tokens : List Token} (h : Nonterminal.primary.form.Holds Spells tokens) :
    ∃ expr, Spelled (.expr .primary expr) tokens := by
  rcases h with ⟨token, value, rfl, hkind⟩ | ⟨token, contents, rfl, hkind⟩ | ⟨token, rfl, hkind⟩ |
    ⟨token, rfl, hkind⟩ | ⟨token, rfl, hkind⟩ | ⟨token, rfl, hkind⟩ | ⟨token, rfl, hkind⟩ |
    ⟨_, _, rfl, ⟨opening, rfl, hopening⟩, u, _, rfl, ⟨inner, hinner⟩, _, _, rfl,
      ⟨closing, rfl, hclosing⟩, rfl⟩ | ⟨⟨⟩⟩
  · exact ⟨.literal 0 (.number value), .literal (by rw [hkind]; rfl)⟩
  · exact ⟨.literal 0 (.string contents), .literal (by rw [hkind]; rfl)⟩
  · exact ⟨.literal 0 (.bool true), .literal (by rw [hkind]; rfl)⟩
  · exact ⟨.literal 0 (.bool false), .literal (by rw [hkind]; rfl)⟩
  · exact ⟨.literal 0 .nil, .literal (by rw [hkind]; rfl)⟩
  · exact ⟨.this 0 token, .this hkind⟩
  · exact ⟨.var 0 token, .var hkind⟩
  · exact ⟨.grouping 0 inner, .grouping hopening hinner hclosing⟩

theorem spelled_forStmt {tokens : List Token} (h : Nonterminal.forStmt.form.Holds Spells tokens) :
    ∃ isOpen stmt, Spelled (.statement isOpen stmt) tokens := by
  obtain ⟨_, _, rfl, ⟨keyword, rfl, hkeyword⟩, _, _, rfl, ⟨opening, rfl, hopening⟩, u, _, rfl,
    hstart, v, _, rfl, hcondition, _, _, rfl, ⟨semicolon, rfl, hsemicolon⟩, w, _, rfl, hincrement,
    _, _, rfl, ⟨closing, rfl, hclosing⟩, x, _, rfl, ⟨isOpen, body, hbody⟩, rfl⟩ := h
  obtain ⟨start, hstart⟩ : ∃ start, Spelled (.forStart start) u := by
    rcases hstart with ⟨name, initializer, hvar⟩ | ⟨expr, u, semicolon, rfl, hsemicolon, hexpr⟩ |
      ⟨semicolon, rfl, hsemicolon⟩ | ⟨⟨⟩⟩
    · exact ⟨_, .varStart hvar⟩
    · exact ⟨_, .exprStart hexpr hsemicolon⟩
    · exact ⟨_, .noStart hsemicolon⟩
  obtain ⟨condition, hcondition⟩ := spelled_optional hcondition
  obtain ⟨increment, hincrement⟩ := spelled_optional hincrement
  rw [List.append_nil]
  exact ⟨isOpen, _,
    .forLoop 0 hkeyword hopening hstart hcondition hsemicolon hincrement hclosing hbody⟩

/-- An `else` belongs to the nearest `if`. -/
theorem spelled_ifStmt {tokens : List Token} (h : Nonterminal.ifStmt.form.Holds Spells tokens) :
    ∃ isOpen stmt, Spelled (.statement isOpen stmt) tokens := by
  obtain ⟨_, _, rfl, ⟨keyword, rfl, hkeyword⟩, _, _, rfl, ⟨opening, rfl, hopening⟩, u, _, rfl,
    ⟨condition, hcondition⟩, _, _, rfl, ⟨closing, rfl, hclosing⟩, v, _, rfl,
    ⟨isOpen, thenBranch, hthen⟩, w, _, rfl, helse, rfl⟩ := h
  rw [List.append_nil]
  rcases helse with rfl | ⟨_, _, rfl, ⟨elseKeyword, rfl, hkeyword'⟩, w, _, rfl,
    ⟨isOpen', elseBranch, helse⟩, rfl⟩
  · rw [List.append_nil]
    exact ⟨true, _, .ifThen hkeyword hopening hcondition hclosing hthen⟩
  · rw [List.append_nil]
    cases isOpen with
    | true =>
      obtain ⟨isOpen'', stmt, hattached⟩ := hthen.attachElse hkeyword' helse
      exact ⟨true, _, .ifThen hkeyword hopening hcondition hclosing hattached⟩
    | false =>
      exact ⟨isOpen', _, .ifElse hkeyword hopening hcondition hclosing hthen hkeyword' helse⟩

/-- Spellings are closed under the rules. -/
theorem spells_of_holds (name : Nonterminal) (tokens : List Token)
    (h : name.form.Holds Spells tokens) : Spells name tokens := by
  cases name with
  | program =>
    obtain ⟨u, _, rfl, hdeclarations, _, _, rfl, ⟨ending, rfl, hending⟩, rfl⟩ := h
    obtain ⟨stmts, hstmts⟩ := spelled_declarations hdeclarations
    exact ⟨stmts, u, ending, rfl, hending, hstmts⟩
  | declaration =>
    rcases h with h | h | ⟨name, initializer, h⟩ | ⟨isOpen, stmt, h⟩ | ⟨⟨⟩⟩
    · exact h
    · exact h
    · exact ⟨_, .varDeclared h⟩
    · exact ⟨_, .stated h⟩
  | classDecl =>
    obtain ⟨_, _, rfl, ⟨keyword, rfl, hkeyword⟩, _, _, rfl, ⟨name, rfl, hname⟩, _, _, rfl,
      ⟨opening, rfl, hopening⟩, u, _, rfl, hmethods, _, _, rfl, ⟨closing, rfl, hclosing⟩, rfl⟩ := h
    obtain ⟨methods, hmethods⟩ := spelled_routines hmethods
    exact ⟨_, .classDecl hkeyword hname hopening hmethods hclosing⟩
  | funDecl =>
    obtain ⟨_, _, rfl, ⟨keyword, rfl, hkeyword⟩, u, _, rfl, ⟨declaration, hdeclaration⟩, rfl⟩ := h
    rw [List.append_nil]
    exact ⟨_, .funDecl hkeyword hdeclaration⟩
  | function =>
    obtain ⟨_, _, rfl, ⟨name, rfl, hname⟩, _, _, rfl, ⟨opening, rfl, hopening⟩, u, _, rfl, hparams,
      _, _, rfl, ⟨closing, rfl, hclosing⟩, v, _, rfl, ⟨body, hbody⟩, rfl⟩ := h
    obtain ⟨params, hle, hparams⟩ : ∃ params : List Token, params.length ≤ Reading.maxArity ∧
        Spelled (.parameters params) u := by
      rcases hparams with rfl | hparams
      · exact ⟨[], Nat.zero_le _, .noParameters⟩
      · exact hparams
    rw [List.append_nil]
    exact ⟨_, .routine hname hopening hparams hle hclosing hbody⟩
  | varDecl =>
    obtain ⟨_, _, rfl, ⟨keyword, rfl, hkeyword⟩, _, _, rfl, ⟨name, rfl, hname⟩, u, _, rfl,
      hinitializer, _, _, rfl, ⟨semicolon, rfl, hsemicolon⟩, rfl⟩ := h
    obtain ⟨initializer, hinitializer⟩ : ∃ expr, Spelled (.initializer expr) u := by
      rcases hinitializer with rfl | ⟨_, _, rfl, ⟨equals, rfl, hequals⟩, v, _, rfl, ⟨expr, hexpr⟩,
        rfl⟩
      · exact ⟨none, .noInitializer⟩
      · rw [List.append_nil]
        exact ⟨some expr, .initializer hequals hexpr⟩
    exact ⟨name, initializer, .varDecl hkeyword hname hinitializer hsemicolon⟩
  | statement =>
    rcases h with ⟨expr, u, semicolon, rfl, hsemicolon, h⟩ | h | h | h | h | h | ⟨body, h⟩ | ⟨⟨⟩⟩
    · exact ⟨false, _, .expression h hsemicolon⟩
    · exact h
    · exact h
    · exact h
    · exact h
    · exact h
    · exact ⟨false, _, .braced h⟩
  | exprStmt =>
    obtain ⟨u, _, rfl, ⟨expr, hexpr⟩, _, _, rfl, ⟨semicolon, rfl, hsemicolon⟩, rfl⟩ := h
    exact ⟨expr, u, semicolon, rfl, hsemicolon, hexpr⟩
  | forStmt => exact spelled_forStmt h
  | ifStmt => exact spelled_ifStmt h
  | printStmt =>
    obtain ⟨_, _, rfl, ⟨keyword, rfl, hkeyword⟩, u, _, rfl, ⟨expr, hexpr⟩, _, _, rfl,
      ⟨semicolon, rfl, hsemicolon⟩, rfl⟩ := h
    exact ⟨false, _, .print hkeyword hexpr hsemicolon⟩
  | returnStmt =>
    obtain ⟨_, _, rfl, ⟨keyword, rfl, hkeyword⟩, u, _, rfl, hvalue, _, _, rfl,
      ⟨semicolon, rfl, hsemicolon⟩, rfl⟩ := h
    obtain ⟨value, hvalue⟩ := spelled_optional hvalue
    exact ⟨false, _, .returnStmt hkeyword hvalue hsemicolon⟩
  | whileStmt =>
    obtain ⟨_, _, rfl, ⟨keyword, rfl, hkeyword⟩, _, _, rfl, ⟨opening, rfl, hopening⟩, u, _, rfl,
      ⟨condition, hcondition⟩, _, _, rfl, ⟨closing, rfl, hclosing⟩, v, _, rfl,
      ⟨isOpen, body, hbody⟩, rfl⟩ := h
    rw [List.append_nil]
    exact ⟨isOpen, _, .whileLoop hkeyword hopening hcondition hclosing hbody⟩
  | block =>
    obtain ⟨_, _, rfl, ⟨opening, rfl, hopening⟩, u, _, rfl, hdeclarations, _, _, rfl,
      ⟨closing, rfl, hclosing⟩, rfl⟩ := h
    obtain ⟨stmts, hstmts⟩ := spelled_declarations hdeclarations
    exact ⟨stmts, .block hopening hstmts hclosing⟩
  | parameters =>
    obtain ⟨_, _, rfl, ⟨name, rfl, hname⟩, _, _, rfl, ⟨parts, rfl, hle, hparts⟩, rfl⟩ := h
    obtain ⟨names, hlength, hnames⟩ := spelled_parameters hname hparts
    rw [List.append_nil]
    refine ⟨name :: names, ?_, hnames⟩
    rw [List.length_cons, hlength]
    exact Nat.succ_le_succ hle
  | arguments =>
    obtain ⟨first, _, rfl, hfirst, _, _, rfl, ⟨parts, rfl, hle, hparts⟩, rfl⟩ := h
    obtain ⟨expr, exprs, hlength, hexprs⟩ := spelled_arguments hfirst hparts
    rw [List.append_nil]
    refine ⟨expr :: exprs, ?_, hexprs⟩
    rw [List.length_cons, hlength]
    exact Nat.succ_le_succ hle
  | expression => exact h
  | assignment =>
    rcases h with ⟨u, _, rfl, htarget, _, _, rfl, ⟨name, rfl, hname⟩, _, _, rfl,
      ⟨equals, rfl, hequals⟩, v, _, rfl, ⟨value, hvalue⟩, rfl⟩ | ⟨expr, hexpr⟩ | ⟨⟨⟩⟩
    · rw [List.append_nil]
      rcases htarget with rfl | ⟨u, _, rfl, ⟨object, hobject⟩, _, _, rfl, ⟨dot, rfl, hdot⟩, rfl⟩
      · exact ⟨.assign 0 name value, .assign hname hequals hvalue⟩
      · refine ⟨.set 0 object name value, ?_⟩
        simpa using Spelled.set hobject hdot hname hequals hvalue
    · exact ⟨expr, .loosen hexpr⟩
  | logicOr => exact spelled_chain (by decide) h
  | logicAnd => exact spelled_chain (by decide) h
  | equality => exact spelled_chain (by decide) h
  | comparison => exact spelled_chain (by decide) h
  | term => exact spelled_chain (by decide) h
  | factor => exact spelled_chain (by decide) h
  | unary =>
    rcases h with ⟨_, _, rfl, hoperator, u, _, rfl, ⟨right, hright⟩, rfl⟩ | ⟨expr, hexpr⟩ | ⟨⟨⟩⟩
    · obtain ⟨operator, rfl, hmem⟩ := holdAny_tokens (Level.operators .unary) hoperator
      rw [List.append_nil]
      exact ⟨.unary 0 operator right, .unary ((Level.mem_operators_iff _ _).mp hmem) hright⟩
    · exact ⟨expr, .loosen hexpr⟩
  | call => exact spelled_call h
  | primary => exact spelled_primary h

/-- Tokens are a program of the grammar just if they spell one. -/
theorem sentence_iff_spelled (tokens : List Token) :
    Sentence (tokens.map Token.kind ++ [.eof]) ↔ ∃ stmts, Spelled (.declarations stmts) tokens := by
  constructor
  · intro h
    have hkinds : (tokens ++ [Token.mk .eof "" 1]).map Token.kind =
        tokens.map Token.kind ++ [.eof] := List.map_append
    obtain ⟨stmts, u, ending, heq, -, hstmts⟩ := h.holds spells_of_holds hkinds
    obtain ⟨rfl, -⟩ := List.append_inj' heq rfl
    exact ⟨stmts, hstmts⟩
  · rintro ⟨stmts, h⟩
    exact .rule (.cons h.derived (Derives.last (.token .eof)))

end Grammar

end LoxLang
