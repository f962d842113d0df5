import LoxLang.Proofs.Grammar.Spelling

/-!
# Expressions one behind the other

Without a semicolon between them, two expressions are one where the second starts with a parenthesis
or a minus: the parenthesis calls the last operand of the first, and the minus subtracts from it
(`Spelled.glue`). The tighter parts of the first stay as they are, and so do the operators behind
the first operand of the second.
-/
namespace LoxLang

namespace Kind

/-- An expression that starts so can go on an expression that stands before it. -/
def continues (kind : Kind) : Prop := kind = .leftParen ∨ kind = .minus

/-- Whatever starts a declaration and goes on an expression is a parenthesis or a minus. -/
theorem continues_of_goesOn {kind : Kind} (hstart : kind.startsDeclaration = true)
    (hon : Rank.assignment.goesOn kind = true) : kind.continues := by
  cases kind <;> simp_all [continues, startsDeclaration, startsStatement, startsExpression,
    startsPrimary, constant?, Level.joins, Rank.goesOn, rank?]

end Kind

namespace Spelled

variable {u v : List Token}

/-- What is spelled in a place of this rank, whatever it means. -/
def Any (rank : Rank) (u : List Token) : Prop := ∃ expr, Spelled (.expr rank expr) u

theorem Any.loosen {rank : Rank} (h : Any rank.tighter u) : Any rank u :=
  let ⟨_, hexpr⟩ := h
  ⟨_, .loosen hexpr⟩

theorem Any.combine {level : Level} {operator : Token} (hlevel : level ≠ .unary)
    (hu : Any (.operation level) u) (hoperator : level.joins operator.kind = true)
    (hv : Any (.operation level.tighter) v) : Any (.operation level) (u ++ operator :: v) :=
  let ⟨_, hleft⟩ := hu
  let ⟨_, hright⟩ := hv
  ⟨level.combine _ operator _ 0, .combine hlevel hleft hoperator hright⟩

section Operands

/-- An operand that starts with a parenthesis and has nothing behind it is in parentheses. -/
theorem exists_of_primary {expr : Expr} (h : Spelled (.expr .primary expr) v)
    (hfirst : firstKind v = .leftParen) :
    ∃ inner opening closing w, v = opening :: (w ++ [closing]) ∧ opening.kind = .leftParen ∧
      Spelled (.expr .assignment inner) w ∧ closing.kind = .rightParen := by
  generalize hphrase : Phrase.expr .primary expr = phrase at h
  induction h generalizing expr <;> cases hphrase
  case literal hvalue =>
    rw [firstKind_cons] at hfirst
    simp [hfirst, Kind.constant?] at hvalue
  case var hname => simp [hname] at hfirst
  case this hkeyword => simp [hkeyword] at hfirst
  case grouping hopening hinner hclosing _ => exact ⟨_, _, _, _, rfl, hopening, hinner, hclosing⟩
  case loosen ih => exact ih hfirst rfl

/-- A parenthesis behind an operand calls it. -/
theorem glue_call {expr : Expr} (hu : Any .call u) (hv : Spelled (.expr .call expr) v)
    (hfirst : firstKind v = .leftParen) : Any .call (u ++ v) := by
  obtain ⟨callee, hcallee⟩ := hu
  generalize hphrase : Phrase.expr .call expr = phrase at hv
  induction hv generalizing expr <;> cases hphrase
  case call hv hopening hargs hlength hparen ih _ =>
    rw [firstKind_append hv.ne_nil_expr] at hfirst
    obtain ⟨_, hinner⟩ := ih hfirst rfl
    rw [← List.append_assoc]
    exact ⟨.call 0 _ _ _, .call hinner hopening hargs hlength hparen⟩
  case get hv hdot hname ih =>
    rw [firstKind_append hv.ne_nil_expr] at hfirst
    obtain ⟨_, hinner⟩ := ih hfirst rfl
    rw [← List.append_assoc]
    exact ⟨.get 0 _ _, .get hinner hdot hname⟩
  case loosen hv _ =>
    obtain ⟨inner, opening, closing, w, rfl, hopening, hinner, hclosing⟩ :=
      exists_of_primary hv hfirst
    have hlength : [inner].length ≤ Reading.maxArity := by simp [Reading.maxArity]
    exact ⟨.call 0 _ _ _, .call hcallee hopening (.lastArgument hinner) hlength hclosing⟩

theorem glue_unary {expr : Expr} (hu : Spelled (.expr (.operation .unary) expr) u)
    (hv : Any (.operation .unary) v) (hfirst : firstKind v = .leftParen) :
    Any (.operation .unary) (u ++ v) := by
  obtain ⟨right, hright⟩ := hv
  have hcall : ∃ expr', Spelled (.expr .call expr') v := by
    cases hright with
    | unary hoperator =>
      rw [firstKind_cons] at hfirst
      simp [hfirst, Level.joins] at hoperator
    | combine hlevel => exact absurd rfl hlevel
    | loosen h => exact ⟨_, h⟩
  obtain ⟨_, hcall⟩ := hcall
  generalize hphrase : Phrase.expr (.operation .unary) expr = phrase at hu
  induction hu generalizing expr <;> cases hphrase
  case unary hoperator _ ih =>
    obtain ⟨_, hinner⟩ := ih rfl
    exact ⟨.unary 0 _ _, .unary hoperator hinner⟩
  case combine hlevel _ _ _ _ _ => exact absurd rfl hlevel
  case loosen hu _ => exact .loosen (glue_call ⟨_, hu⟩ hcall hfirst)

end Operands

section Levels

/-- Expressions of this level that start so can be glued to others. -/
def Glues (kind : Kind) (level : Level) : Prop :=
  ∀ u v, Any (.operation level) u → Any (.operation level) v → firstKind v = kind →
    Any (.operation level) (u ++ v)

/-- The first operand of the second expression is glued to the last one of the first. -/
theorem Glues.looser {kind : Kind} {level : Level} (hlevel : level ≠ .unary)
    (h : Glues kind level.tighter) : Glues kind level := by
  have hrank := Rank.tighter_operation hlevel
  -- one operand behind an expression of the level
  have hlast {u v : List Token} (hu : Any (.operation level) u)
      (hv : Any (.operation level.tighter) v) (hfirst : firstKind v = kind) :
      Any (.operation level) (u ++ v) := by
    obtain ⟨expr, hexpr⟩ := hu
    cases hexpr with
    | unary => exact absurd rfl hlevel
    | combine _ hleft hoperator hright =>
      rw [List.append_assoc, List.cons_append]
      exact .combine hlevel ⟨_, hleft⟩ hoperator (h _ _ ⟨_, hright⟩ hv hfirst)
    | loosen hexpr =>
      rw [hrank] at hexpr
      exact .loosen (hrank ▸ h _ _ ⟨_, hexpr⟩ hv hfirst)
  rintro u v hu ⟨expr, hv⟩ hfirst
  generalize hphrase : Phrase.expr (.operation level) expr = phrase at hv
  induction hv generalizing expr <;> cases hphrase
  case unary => exact absurd rfl hlevel
  case combine _ hleft hoperator hright ih _ =>
    rw [firstKind_append hleft.ne_nil_expr] at hfirst
    rw [← List.append_assoc]
    exact .combine hlevel (ih _ hfirst rfl) hoperator ⟨_, hright⟩
  case loosen hv _ =>
    rw [hrank] at hv
    exact hlast hu ⟨_, hv⟩ hfirst

theorem glues_leftParen (level : Level) : Glues .leftParen level := by
  have hunary : Glues .leftParen .unary := fun _ _ ⟨_, hu⟩ => glue_unary hu
  have hfactor : Glues .leftParen .factor := hunary.looser (by decide)
  have hterm : Glues .leftParen .term := hfactor.looser (by decide)
  have hcomparison : Glues .leftParen .comparison := hterm.looser (by decide)
  have hequality : Glues .leftParen .equality := hcomparison.looser (by decide)
  have hand : Glues .leftParen .and := hequality.looser (by decide)
  cases level
  · exact hand.looser (by decide)
  all_goals assumption

theorem exists_of_factor {expr : Expr} (h : Spelled (.expr (.operation .factor) expr) v)
    (hfirst : firstKind v = .minus) :
    ∃ minus w, v = minus :: w ∧ minus.kind = .minus ∧ Any (.operation .factor) w := by
  generalize hphrase : Phrase.expr (.operation .factor) expr = phrase at h
  induction h generalizing expr <;> cases hphrase
  case combine hlevel hleft hoperator hright ih _ =>
    rw [firstKind_append hleft.ne_nil_expr] at hfirst
    obtain ⟨minus, w, rfl, hminus, hw⟩ := ih hfirst rfl
    exact ⟨minus, _, rfl, hminus, .combine hlevel hw hoperator ⟨_, hright⟩⟩
  case loosen h _ =>
    cases h with
    | unary hoperator hright =>
      exact ⟨_, _, rfl, hfirst, _, .loosen hright⟩
    | combine hlevel => exact absurd rfl hlevel
    | loosen h =>
      have hstart : (firstKind _).startsPrimary = true := h.starts
      rw [hfirst] at hstart
      exact absurd hstart (by decide)

theorem glues_minus_term : Glues .minus .term := by
  rintro u v hu ⟨expr, hv⟩ hfirst
  generalize hphrase : Phrase.expr (.operation .term) expr = phrase at hv
  induction hv generalizing expr <;> cases hphrase
  case combine hlevel hleft hoperator hright ih _ =>
    rw [firstKind_append hleft.ne_nil_expr] at hfirst
    rw [← List.append_assoc]
    exact .combine hlevel (ih _ hfirst rfl) hoperator ⟨_, hright⟩
  case loosen hv _ =>
    obtain ⟨minus, w, rfl, hminus, hw⟩ := exists_of_factor hv hfirst
    exact .combine (by decide) hu (by simp [hminus, Level.joins]) hw

theorem glues_minus_or : Glues .minus .or := by
  have hcomparison : Glues .minus .comparison := glues_minus_term.looser (by decide)
  have hequality : Glues .minus .equality := hcomparison.looser (by decide)
  have hand : Glues .minus .and := hequality.looser (by decide)
  exact hand.looser (by decide)

/-- Two expressions with nothing between them are one if the second goes on the first. -/
theorem glue (hu : Any (.operation .or) u) (hv : Any (.operation .or) v)
    (hfirst : (firstKind v).continues) : Any (.operation .or) (u ++ v) := by
  rcases hfirst with hparen | hminus
  · exact glues_leftParen .or u v hu hv hparen
  · exact glues_minus_or u v hu hv hminus

end Levels

end Spelled
end LoxLang
