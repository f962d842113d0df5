import LoxLang.Proofs.Grammar.Canonical
import LoxLang.Proofs.Grammar.Derivation
import LoxLang.Proofs.Reading.Completeness
import LoxLang.Proofs.Reading.Soundness

/-!
# Reading follows the grammar

A program is read without a fault just if its tokens are a sentence of the grammar, and the
programs that are read are just the canonical ones. Both come from the two ways between tokens and
trees: what is read without a fault is spelled by its tokens, and what is spelled by the tokens is
read.
-/
namespace LoxLang

/-- An end token ends what is read. -/
theorem Spelled.takeWhile_append {phrase : Phrase} {u : List Token} (h : Spelled phrase u)
    (ending : Token) (hending : ending.kind = .eof) :
    (u ++ [ending]).takeWhile (·.kind ≠ .eof) = u := by
  rw [List.takeWhile_append_of_pos (by simpa using h.kind_ne_eof)]
  simp [hending]

/-- No sequence of tokens spells two programs. -/
theorem Spelled.relabelAll_eq {stmts stmts' : List Stmt} {u : List Token}
    (h : Spelled (.declarations stmts) u) (h' : Spelled (.declarations stmts') u) :
    Stmt.relabelAll blank stmts = Stmt.relabelAll blank stmts' := by
  have htake := h.takeWhile_append ⟨.eof, "", 1⟩ rfl
  rw [← htake] at h h'
  exact (Program.ofTokens_of_spelled h 0).2.symm.trans (Program.ofTokens_of_spelled h' 0).2

namespace Program

/-- The parser accepts exactly the grammar, whatever stands behind the first end token. -/
theorem faults_eq_nil_iff_sentence (tokens : List Token) (firstId : Nat) :
    (ofTokens tokens firstId).faults = [] ↔
      Grammar.Sentence ((tokens.takeWhile (·.kind ≠ .eof)).map Token.kind ++ [.eof]) := by
  rw [Grammar.sentence_iff_spelled]
  constructor
  · exact fun h => ⟨_, spelled_of_faults_eq_nil h⟩
  · rintro ⟨stmts, h⟩
    exact (ofTokens_of_spelled h firstId).1

/-- A canonical program is read back from its tokens, and whatever is read without a fault is a
canonical program. -/
theorem canonical_read_back :
    (∀ write : Kind → Token, (∀ kind, (write kind).kind = kind) →
      ∀ (stmts : List Stmt) (firstId : Nat), Stmt.CanonicalAll stmts →
        (ofTokens (Stmt.tokensAll write stmts ++ [write .eof]) firstId).faults = [] ∧
          Stmt.relabelAll blank
            (ofTokens (Stmt.tokensAll write stmts ++ [write .eof]) firstId).statements =
              Stmt.relabelAll blank stmts) ∧
    ∀ (tokens : List Token) (firstId : Nat), (ofTokens tokens firstId).faults = [] →
      Stmt.CanonicalAll (ofTokens tokens firstId).statements := by
  constructor
  · intro write hwrite stmts firstId hstmts
    have hspelled := Stmt.spelledAll hwrite stmts hstmts
    apply ofTokens_of_spelled
    rw [hspelled.takeWhile_append _ (hwrite .eof)]
    exact hspelled
  · exact fun tokens firstId h => (spelled_of_faults_eq_nil h).canonical

def bareToken (kind : Kind) : Token := ⟨kind, "", 1⟩

/-- Operators of several levels, an assignment as an operand, calls of calls, and an `if` without an
`else` behind another `else`. -/
def nestedBranches : List Stmt :=
  let a := Expr.var 0 (bareToken .identifier)
  let assign (value : Expr) := Expr.assign 0 (bareToken .identifier) value
  let minus (left right : Expr) := Expr.binary 0 left (bareToken .minus) right
  let product := Expr.binary 0 a (bareToken .star) (.unary 0 (bareToken .bang) a)
  let call (callee : Expr) := Expr.call 0 callee (bareToken .rightParen) [a, .literal 0 .nil]
  [.ifElse (.logical 0 a (bareToken .orKw) (.grouping 0 (assign (assign a))))
    (.print (minus (minus a product) product))
    (.ifThen a (.expression (.set 0 (call (call a)) (bareToken .identifier) (assign a))))]

theorem canonical_read_back_nestedBranches : Stmt.CanonicalAll nestedBranches ∧
    (ofTokens (Stmt.tokensAll bareToken nestedBranches ++ [bareToken .eof]) 0).faults = [] ∧
    Stmt.relabelAll blank
      (ofTokens (Stmt.tokensAll bareToken nestedBranches ++ [bareToken .eof]) 0).statements =
        Stmt.relabelAll blank nestedBranches ∧
    Stmt.CanonicalAll
      (ofTokens (Stmt.tokensAll bareToken nestedBranches ++ [bareToken .eof]) 0).statements := by
  have hcanonical : Stmt.CanonicalAll nestedBranches := by
    simp [nestedBranches, bareToken, Stmt.CanonicalAll, Stmt.Canonical, Stmt.isDeclaration,
      Stmt.endsOpen, Expr.Canonical, Expr.CanonicalAll, Expr.FitAround, Expr.Fits, Expr.rank,
      Rank.depth, Reading.levelDepth, Kind.rank?]
  have hread := canonical_read_back.1 bareToken (fun _ => rfl) nestedBranches 0 hcanonical
  -- the tokens stay closed, so that nothing is read while types are compared
  generalize Stmt.tokensAll bareToken nestedBranches ++ [bareToken .eof] = tokens at hread ⊢
  exact ⟨hcanonical, hread.1, hread.2, canonical_read_back.2 tokens 0 hread.1⟩

end Program
end LoxLang
