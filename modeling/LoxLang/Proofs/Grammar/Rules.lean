import LoxLang.Token

/-!
# The grammar of programs

The grammar as it is documented, rule by rule, in extended notation. A rule has a name and a form;
`Derives` says which sequences of kinds a form describes. The repetition in a list of arguments or
of parameters is bounded.

What holds of everything that the grammar derives is shown rule by rule: an interpretation of the
names that is closed under all rules holds of all that is derived (`Derives.holds`).
-/
namespace LoxLang
namespace Grammar

inductive Nonterminal
  | program | declaration | classDecl | funDecl | function | varDecl
  | statement | exprStmt | forStmt | ifStmt | printStmt | returnStmt | whileStmt | block
  | parameters | expression | assignment | logicOr | logicAnd | equality | comparison | term
  | factor | unary | call | arguments | primary

inductive Form
  | token (kind : Kind)
  | number
  | string
  | rule (name : Nonterminal)
  | sequence (parts : List Form)
  | choice (options : List Form)
  | optional (form : Form)
  | many (form : Form)
  | upTo (limit : Nat) (form : Form)

namespace Form

/-- A list of at most 255 entries with commas in between. -/
def commaSeparated (entry : Form) : Form :=
  sequence [entry, upTo 254 (sequence [token .comma, entry])]

/-- Operands with operators in between. -/
def chain (operand : Nonterminal) (operators : List Kind) : Form :=
  sequence [rule operand, many (sequence [choice (operators.map token), rule operand])]

end Form

open Form in
/-- What each name stands for. -/
def Nonterminal.form : Nonterminal → Form
  | program => sequence [many (rule declaration), token .eof]
  | declaration => choice [rule classDecl, rule funDecl, rule varDecl, rule statement]
  | classDecl => sequence [token .classKw, token .identifier, token .leftBrace,
      many (rule function), token .rightBrace]
  | funDecl => sequence [token .funKw, rule function]
  | function => sequence [token .identifier, token .leftParen, optional (rule parameters),
      token .rightParen, rule block]
  | varDecl => sequence [token .varKw, token .identifier,
      optional (sequence [token .equal, rule expression]), token .semicolon]
  | statement => choice [rule exprStmt, rule forStmt, rule ifStmt, rule printStmt, rule returnStmt,
      rule whileStmt, rule block]
  | exprStmt => sequence [rule expression, token .semicolon]
  | forStmt => sequence [token .forKw, token .leftParen,
      choice [rule varDecl, rule exprStmt, token .semicolon],
      optional (rule expression), token .semicolon, optional (rule expression), token .rightParen,
      rule statement]
  | ifStmt => sequence [token .ifKw, token .leftParen, rule expression, token .rightParen,
      rule statement, optional (sequence [token .elseKw, rule statement])]
  | printStmt => sequence [token .printKw, rule expression, token .semicolon]
  | returnStmt => sequence [token .returnKw, optional (rule expression), token .semicolon]
  | whileStmt => sequence [token .whileKw, token .leftParen, rule expression, token .rightParen,
      rule statement]
  | block => sequence [token .leftBrace, many (rule declaration), token .rightBrace]
  | parameters => commaSeparated (token .identifier)
  | expression => rule assignment
  | assignment => choice [
      sequence [optional (sequence [rule call, token .dot]), token .identifier, token .equal,
        rule assignment],
      rule logicOr]
  | logicOr => chain logicAnd [.orKw]
  | logicAnd => chain equality [.andKw]
  | equality => chain comparison [.bangEqual, .equalEqual]
  | comparison => chain term [.greater, .greaterEqual, .less, .lessEqual]
  | term => chain factor [.minus, .plus]
  | factor => chain unary [.slash, .star]
  | unary => choice [sequence [choice [token .bang, token .minus], rule unary], rule call]
  | call => sequence [rule primary, many (choice [
      sequence [token .leftParen, optional (rule arguments), token .rightParen],
      sequence [token .dot, token .identifier]])]
  | arguments => commaSeparated (rule expression)
  | primary => choice [number, string, token .trueKw, token .falseKw, token .nilKw, token .thisKw,
      token .identifier, sequence [token .leftParen, rule expression, token .rightParen]]

/-- The sequences of kinds that a form describes. -/
inductive Derives : Form → List Kind → Prop
  | token (kind : Kind) : Derives (.token kind) [kind]
  | number (value : Float) : Derives .number [.number value]
  | string (contents : String) : Derives .string [.string contents]
  | rule {name : Nonterminal} {word : List Kind} : Derives name.form word →
    Derives (.rule name) word
  | nil : Derives (.sequence []) []
  | cons {form : Form} {forms : List Form} {word rest : List Kind} : Derives form word →
    Derives (.sequence forms) rest → Derives (.sequence (form :: forms)) (word ++ rest)
  | choice {form : Form} {forms : List Form} {word : List Kind} : form ∈ forms →
    Derives form word → Derives (.choice forms) word
  | absent {form : Form} : Derives (.optional form) []
  | present {form : Form} {word : List Kind} : Derives form word → Derives (.optional form) word
  | many {form : Form} {words : List (List Kind)} : (∀ word ∈ words, Derives form word) →
    Derives (.many form) words.flatten
  | upTo {limit : Nat} {form : Form} {words : List (List Kind)} : words.length ≤ limit →
    (∀ word ∈ words, Derives form word) → Derives (.upTo limit form) words.flatten

/-- The sequences of kinds that are programs. -/
def Sentence (kinds : List Kind) : Prop := Derives (.rule .program) kinds

section Interpretation

variable (I : Nonterminal → List Token → Prop)

mutual

/-- The tokens fit the form if each name is interpreted in this way. -/
def Form.Holds : Form → List Token → Prop
  | .token kind, tokens => ∃ token, tokens = [token] ∧ token.kind = kind
  | .number, tokens => ∃ token value, tokens = [token] ∧ token.kind = .number value
  | .string, tokens => ∃ token contents, tokens = [token] ∧ token.kind = .string contents
  | .rule name, tokens => I name tokens
  | .sequence forms, tokens => Form.HoldAll forms tokens
  | .choice forms, tokens => Form.HoldAny forms tokens
  | .optional form, tokens => tokens = [] ∨ form.Holds tokens
  | .many form, tokens => ∃ parts : List (List Token),
      tokens = parts.flatten ∧ ∀ part ∈ parts, form.Holds part
  | .upTo limit form, tokens => ∃ parts : List (List Token),
      tokens = parts.flatten ∧ parts.length ≤ limit ∧ ∀ part ∈ parts, form.Holds part

/-- The tokens fit the forms one after the other. -/
def Form.HoldAll : List Form → List Token → Prop
  | [], tokens => tokens = []
  | form :: forms, tokens => ∃ first rest, tokens = first ++ rest ∧ form.Holds first ∧
      Form.HoldAll forms rest

/-- The tokens fit one of the forms. -/
def Form.HoldAny : List Form → List Token → Prop
  | [], _ => False
  | form :: forms, tokens => form.Holds tokens ∨ Form.HoldAny forms tokens

end

variable {I}

theorem Form.holdAny_of_mem {form : Form} {forms : List Form} {tokens : List Token}
    (hmem : form ∈ forms) (h : form.Holds I tokens) : Form.HoldAny I forms tokens := by
  induction forms with
  | nil => cases hmem
  | cons first forms ih =>
    rw [HoldAny]
    rcases List.mem_cons.mp hmem with rfl | hmem
    · exact .inl h
    · exact .inr (ih hmem)

theorem exists_parts {tokens : List Token} {words : List (List Kind)}
    (h : tokens.map Token.kind = words.flatten) :
    ∃ parts : List (List Token),
      tokens = parts.flatten ∧ parts.map (List.map Token.kind) = words := by
  induction words generalizing tokens with
  | nil =>
    rw [List.flatten_nil, List.map_eq_nil_iff] at h
    exact ⟨[], h, rfl⟩
  | cons word words ih =>
    rw [List.flatten_cons, List.map_eq_append_iff] at h
    obtain ⟨first, rest, rfl, rfl, hrest⟩ := h
    obtain ⟨parts, rfl, rfl⟩ := ih hrest
    exact ⟨first :: parts, rfl, rfl⟩

theorem exists_token {tokens : List Token} {kind : Kind} (h : tokens.map Token.kind = [kind]) :
    ∃ token, tokens = [token] ∧ token.kind = kind := by
  obtain ⟨token, rest, rfl, hkind, hrest⟩ := List.map_eq_cons_iff.mp h
  rw [List.map_eq_nil_iff] at hrest
  exact ⟨token, by rw [hrest], hkind⟩

/-- An interpretation that is closed under the rules holds of all that is derived. -/
theorem Derives.holds (hclosed : ∀ name tokens, name.form.Holds I tokens → I name tokens)
    {form : Form} {word : List Kind} (h : Derives form word) {tokens : List Token}
    (hkinds : tokens.map Token.kind = word) : form.Holds I tokens := by
  -- a repetition holds of all its parts
  have hrepeated {form : Form} {words : List (List Kind)} {tokens : List Token}
      (ih : ∀ word ∈ words, ∀ {tokens : List Token}, tokens.map Token.kind = word →
        form.Holds I tokens) (hkinds : tokens.map Token.kind = words.flatten) :
      ∃ parts : List (List Token), tokens = parts.flatten ∧ parts.length = words.length ∧
        ∀ part ∈ parts, form.Holds I part := by
    obtain ⟨parts, htokens, rfl⟩ := exists_parts hkinds
    refine ⟨parts, htokens, (List.length_map _).symm, fun part hpart => ?_⟩
    exact ih _ (List.mem_map_of_mem hpart) rfl
  induction h generalizing tokens with
  | token kind => exact exists_token hkinds
  | number value =>
    obtain ⟨token, htoken, hkind⟩ := exists_token hkinds
    exact ⟨token, value, htoken, hkind⟩
  | string contents =>
    obtain ⟨token, htoken, hkind⟩ := exists_token hkinds
    exact ⟨token, contents, htoken, hkind⟩
  | rule _ ih => exact hclosed _ _ (ih hkinds)
  | nil => exact List.map_eq_nil_iff.mp hkinds
  | cons _ _ ih ihrest =>
    obtain ⟨first, rest, htokens, hfirst, hrest⟩ := List.map_eq_append_iff.mp hkinds
    exact ⟨first, rest, htokens, ih hfirst, ihrest hrest⟩
  | choice hmem _ ih => exact Form.holdAny_of_mem hmem (ih hkinds)
  | absent => exact .inl (List.map_eq_nil_iff.mp hkinds)
  | present _ ih => exact .inr (ih hkinds)
  | many _ ih =>
    obtain ⟨parts, htokens, -, hparts⟩ := hrepeated ih hkinds
    exact ⟨parts, htokens, hparts⟩
  | upTo hlength _ ih =>
    obtain ⟨parts, htokens, hlength', hparts⟩ := hrepeated ih hkinds
    exact ⟨parts, htokens, hlength' ▸ hlength, hparts⟩

end Interpretation

end Grammar
end LoxLang
