import LoxLang.Proofs.Reading.Recovery

/-!
# A semicolon missing in the clauses of a `for`

Clauses with one semicolon fail where the other one should stand. What is skipped from there on is
the rest of the clauses, and then whatever is skipped from the parenthesis behind them: nothing more
if the body starts with a keyword, the body if it is an expression. So there is one fault at most if
a statement can stand before the tokens that are left
(`Program.faults_length_le_one_of_clause_removed`).
-/
namespace LoxLang

/-- The clauses of a `for` up to the parenthesis behind them, of which one semicolon is missing; if
it is the second one, the increment is no part of the condition. -/
inductive OneSemicolon : List Token → Prop
  | mk {opening start condition increment u v w} : opening.kind = .leftParen →
    Spelled (.forStart start) u → Spelled (.optional condition) v →
    Spelled (.optional increment) w → v = [] ∨ Rank.assignment.goesOn (firstKind w) = false →
    OneSemicolon (opening :: (u ++ (v ++ w)))

namespace OneSemicolon

variable {opening first second : Token} {start : Option Stmt} {condition increment : Option Expr}
  {s v w : List Token}

theorem of_first_removed (hopening : opening.kind = .leftParen)
    (hstart : Spelled (.forStart start) (s ++ [first]))
    (hcondition : Spelled (.optional condition) v)
    (hsecond : second.kind = .semicolon) (hincrement : Spelled (.optional increment) w)
    (hclause : s = [] ∨ v = []) : OneSemicolon (opening :: (s ++ (v ++ second :: w))) := by
  have hsplit : s ++ (v ++ second :: w) = s ++ v ++ [second] ++ ([] ++ w) := by simp
  rw [hsplit]
  suffices hone : ∃ start, Spelled (.forStart start) (s ++ v ++ [second]) by
    obtain ⟨_, hone⟩ := hone
    exact .mk hopening hone .absent hincrement (.inl rfl)
  rcases hclause with rfl | rfl
  · cases hcondition with
    | absent => exact ⟨_, .noStart hsecond⟩
    | present h => exact ⟨_, .exprStart h hsecond⟩
  · rw [List.append_nil]
    generalize hu : s ++ [first] = u at hstart
    cases hstart with
    | noStart =>
      obtain ⟨rfl, -⟩ := List.append_inj' (show s ++ [first] = [] ++ [_] from hu) rfl
      exact ⟨_, .noStart hsecond⟩
    | varStart h =>
      cases h with
      | varDecl hkeyword hname hinitializer =>
        obtain ⟨rfl, -⟩ := List.append_inj' (show s ++ [first] = _ :: _ :: _ ++ [_] from hu) rfl
        exact ⟨_, .varStart (.varDecl hkeyword hname hinitializer hsecond)⟩
    | exprStart h =>
      obtain ⟨rfl, -⟩ := List.append_inj' hu rfl
      exact ⟨_, .exprStart h hsecond⟩

theorem kind_ne_eof {clauses : List Token} (h : OneSemicolon clauses) :
    ∀ token ∈ clauses, token.kind ≠ .eof := by
  obtain ⟨hopening, hstart, hcondition, hincrement, -⟩ := h
  simp only [List.forall_mem_cons, List.forall_mem_append]
  exact ⟨by simp [hopening], hstart.kind_ne_eof, hcondition.kind_ne_eof, hincrement.kind_ne_eof⟩

end OneSemicolon

namespace Cursor

variable {w rest : List Token} {increment : Option Expr} {closing : Token}

theorem resume_of_increment (h : Spelled (.optional increment) w)
    (hclosing : closing.kind = .rightParen) :
    resume (w ++ closing :: rest) = resume (closing :: rest) := by
  have hplain := h.kind_of_isPlain rfl
  apply resume_append_of_plain
  · exact fun token hmem => (hplain token hmem).1
  · exact fun token hmem => (hplain token (List.mem_of_mem_tail hmem)).2
  · simp [hclosing, startsStatement]

theorem resume_before_keyword (hclosing : closing.kind = .rightParen)
    (h : startsStatement (firstKind rest) = true) : resume (closing :: rest) = rest := by
  rw [resume, if_neg (by simp [hclosing]), if_pos]
  cases rest with
  | nil => cases h
  | cons token rest => simpa using h

end Cursor

namespace Reading

variable {β : Type} {behind next v w : List Token}

section Rules

variable {condition increment : Option Expr} {closing : Token} {f : Option Expr → Reading β}

theorem slips_present {expr : Expr} {rest : List Token} (h : Spelled (.expr .assignment expr) v)
    (hrest : Rank.assignment.goesOn (firstKind rest) = false) (hnone : firstKind rest ≠ .semicolon)
    (fuel : Nat) (wanted : Wanted) :
    Slips (do
      let condition ← optionalExpression fuel .semicolon
      let _ ← want .semicolon wanted
      f condition) (v ++ rest) next (· = rest) := by
  have hstart : (firstKind v).startsExpression = true := h.starts
  rw [optionalExpression, bind_assoc]
  apply slips_nextKind_bind
  rw [firstKind_append h.ne_nil_expr, if_neg, bind_assoc]
  · apply (readPhrase_of_spelled h fuel rest hrest).slips_bind
    intro expr' _
    rw [pure_bind]
    exact ((rejects_want hnone wanted).bind _).slips
  · intro hkind
    rw [hkind] at hstart
    cases hstart

/-- Where the second semicolon is missing, reading fails before the increment or behind it. -/
theorem slips_condition (hcondition : Spelled (.optional condition) v)
    (hincrement : Spelled (.optional increment) w)
    (hapart : v = [] ∨ Rank.assignment.goesOn (firstKind w) = false)
    (hclosing : closing.kind = .rightParen) (fuel : Nat) (wanted : Wanted) :
    Slips (do
      let condition ← optionalExpression fuel .semicolon
      let _ ← want .semicolon wanted
      f condition) (v ++ (w ++ closing :: behind)) next
        fun ahead => Cursor.resume ahead = Cursor.resume (closing :: behind) := by
  have hafter : firstKind (closing :: behind) = .rightParen := hclosing
  cases hcondition with
  | absent =>
    rw [List.nil_append]
    cases hincrement with
    | absent =>
      rw [optionalExpression, bind_assoc]
      apply slips_nextKind_bind
      rw [List.nil_append, hafter, if_neg (by simp), bind_assoc]
      have hreject : Rejects (expression fuel) (closing :: behind) :=
        rejects_expression (by rw [hafter]; rfl) fuel
      exact (hreject.bind _).slips.mono fun _ hahead => hahead ▸ rfl
    | present h =>
      refine (slips_present h ?_ ?_ fuel wanted).mono fun _ hahead => hahead ▸ rfl
      · rw [hafter]
        rfl
      · simp [hafter]
  | present h =>
    have hplain := hincrement.kind_of_isPlain rfl
    refine (slips_present h ?_ ?_ fuel wanted).mono fun _ hahead =>
      hahead ▸ Cursor.resume_of_increment hincrement hclosing
    · cases w with
      | nil => simp [hclosing, Rank.goesOn, Kind.rank?]
      | cons token w => simpa [h.ne_nil_expr] using hapart
    · cases w with
      | nil => simp [hclosing]
      | cons token w => exact (hplain token List.mem_cons_self).1

end Rules

/-- A `for` with one semicolon in its clauses fails. What is skipped then is the rest of the
clauses, and what is skipped from the parenthesis on. -/
theorem slips_for {keyword closing : Token} {clauses : List Token}
    (hkeyword : keyword.kind = .forKw) (hclauses : OneSemicolon clauses)
    (hclosing : closing.kind = .rightParen) (fuel : Nat) :
    Slips (statement fuel) (keyword :: (clauses ++ closing :: behind)) next
      fun ahead => Cursor.resume ahead = Cursor.resume (closing :: behind) := by
  cases fuel with
  | zero => exact slips_exhausted
  | succ fuel =>
    obtain ⟨hopening, hstart, hcondition, hincrement, hapart⟩ := hclauses
    rw [List.cons_append, List.append_assoc, List.append_assoc, statement]
    apply slips_peek_cons_bind
    rw [hkeyword]
    apply (accepts_advance keyword).slips_bind
    intro _ _
    simp only [forClauses, bind_assoc]
    apply (accepts_want _ hopening).slips_bind
    rintro _ -
    apply (readPhrase_of_spelled hstart fuel _).slips_bind
    intro start' _
    exact slips_condition hcondition hincrement hapart hclosing fuel _

end Reading

/-- A `for` of which only the keyword is left. -/
inductive BrokenFor : Phrase → List Token → List Token → Prop
  | mk {stmt keyword} : keyword.kind = .forKw → BrokenFor (.statement false stmt) [keyword] []

section Places

variable {x v : List Token} {ret keyword : Token} {phrase : Phrase}

theorem split_concat {s v : List Token} {last : Token} (heq : s ++ v = x ++ [last]) (hv : v ≠ []) :
    ∃ y, x = s ++ y ∧ v = y ++ [last] := by
  rcases split_append heq with ⟨s₂, -, hnil⟩ | h
  · exact absurd (List.append_eq_nil_iff.mp hnil.symm).2 hv
  · exact h

theorem Unended.brokenFor (h : Unended phrase (x ++ [ret]) v) (hret : ret.kind = .returnKw)
    (hkeyword : keyword.kind = .forKw) : BrokenFor phrase (x ++ [keyword]) v := by
  generalize hu : x ++ [ret] = u at h
  have hmem : ret ∈ u := by simp [← hu]
  cases h with
  | expression h => exact absurd hret (h.kind_ne_returnKw_of_isPlain rfl ret hmem)
  | print hprint h =>
    rcases List.mem_cons.mp hmem with rfl | hmem
    · simp [hprint] at hret
    · exact absurd hret (h.kind_ne_returnKw_of_isPlain rfl ret hmem)
  | returnStmt _ h =>
    cases x with
    | nil => exact .mk hkeyword
    | cons first x =>
      obtain ⟨-, rfl⟩ := List.cons.inj hu
      exact absurd hret (h.kind_ne_returnKw_of_isPlain rfl ret (by simp))
  | varDecl hvar hname h =>
    rcases List.mem_cons.mp hmem with rfl | hmem
    · simp [hvar] at hret
    · rcases List.mem_cons.mp hmem with rfl | hmem
      · simp [hname] at hret
      · exact absurd hret (h.kind_ne_returnKw_of_isPlain rfl ret hmem)

theorem Unended.ne_nil {u : List Token} (h : Unended phrase u v) : u ≠ [] := by
  cases h with
  | expression h => exact h.ne_nil_expr
  | _ => simp

theorem Semicolon.ne_nil {u : List Token} (h : Semicolon phrase u v) : u ≠ [] := by
  induction h with
  | here h => exact h.ne_nil
  | braced _ ih => exact ih
  | stated hstart | declaration hstart => exact Reading.ne_nil_of_firstKind hstart rfl
  | method hstart =>
    rintro rfl
    cases hstart
  | declarations _ _ _ ih | methods _ _ ih => simp [ih]
  | _ => simp

theorem firstKind_concat {p : Kind → Bool} (h : p (firstKind (x ++ [ret])) = true)
    (hkeyword : keyword.kind = .forKw) (hp : p .forKw = true) :
    p (firstKind (x ++ [keyword])) = true := by
  cases x with
  | nil => rwa [List.nil_append, firstKind_cons, hkeyword]
  | cons first x => exact h

/-- Where a `return` can stand, a `for` can. -/
theorem Semicolon.encloses_brokenFor {u : List Token} (h : Semicolon phrase u v)
    (hu : u = x ++ [ret]) (hret : ret.kind = .returnKw) (hkeyword : keyword.kind = .forKw) :
    Encloses BrokenFor phrase (x ++ [keyword]) v := by
  induction h generalizing x with
  | here h => exact .here (Unended.brokenFor (hu ▸ h) hret hkeyword)
  | braced _ ih => exact .braced (ih hu)
  | @ifThen first opening _ closing _ _ u _ _ hfirst hopening hcondition hclosing h ih =>
    obtain ⟨y, rfl, hy⟩ := split_concat (s := first :: opening :: (u ++ [closing]))
      (by simpa using hu) (Semicolon.ne_nil h)
    simpa using Encloses.ifThen hfirst hopening hcondition hclosing (ih hy)
  | @thenBranch first opening _ closing _ _ _ _ u _ _ _ hfirst hopening hcondition hclosing h
      helse hbranch ih =>
    obtain ⟨y, rfl, hy⟩ := split_concat (s := first :: opening :: (u ++ [closing]))
      (by simpa using hu) (Semicolon.ne_nil h)
    simpa using Encloses.thenBranch hfirst hopening hcondition hclosing (ih hy) helse hbranch
  | @elseBranch first opening _ closing _ elseKeyword _ _ u w _ _ hfirst hopening hcondition
      hclosing hthen helse h ih =>
    obtain ⟨y, rfl, hy⟩ := split_concat
      (s := first :: opening :: (u ++ closing :: (w ++ [elseKeyword]))) (by simpa using hu)
      (Semicolon.ne_nil h)
    simpa using Encloses.elseBranch hfirst hopening hcondition hclosing hthen helse (ih hy)
  | @whileLoop first opening _ closing _ _ u _ _ hfirst hopening hcondition hclosing h ih =>
    obtain ⟨y, rfl, hy⟩ := split_concat (s := first :: opening :: (u ++ [closing]))
      (by simpa using hu) (Semicolon.ne_nil h)
    simpa using Encloses.whileLoop hfirst hopening hcondition hclosing (ih hy)
  | @forLoop id first opening _ _ semicolon _ closing _ _ u w z _ _ hfirst hopening hstart
      hcondition hsemicolon hincrement hclosing h ih =>
    obtain ⟨y, rfl, hy⟩ := split_concat
      (s := first :: opening :: (u ++ (w ++ semicolon :: (z ++ [closing])))) (by simpa using hu)
      (Semicolon.ne_nil h)
    simpa using Encloses.forLoop id hfirst hopening hstart hcondition hsemicolon hincrement
      hclosing (ih hy)
  | @block opening _ _ _ _ hopening h hclosing ih =>
    obtain ⟨y, rfl, hy⟩ := split_concat (s := [opening]) hu (Semicolon.ne_nil h)
    exact .block hopening (ih hy) hclosing
  | @classDecl first name opening _ _ _ _ hfirst hname hopening h hclosing ih =>
    obtain ⟨y, rfl, hy⟩ := split_concat (s := [first, name, opening]) hu (Semicolon.ne_nil h)
    exact .classDecl hfirst hname hopening (ih hy) hclosing
  | @funDecl first _ _ _ hfirst h ih =>
    obtain ⟨y, rfl, hy⟩ := split_concat (s := [first]) hu (Semicolon.ne_nil h)
    exact .funDecl hfirst (ih hy)
  | stated hstart _ ih => exact .stated (firstKind_concat (hu ▸ hstart) hkeyword rfl) (ih hu)
  | declaration hstart _ hstmts ih =>
    exact .declaration (firstKind_concat (hu ▸ hstart) hkeyword rfl) (ih hu) hstmts
  | @declarations _ _ u w _ hstmt hstart h ih =>
    obtain ⟨y, rfl, hy⟩ := split_concat (s := u) hu (Semicolon.ne_nil h)
    rw [List.append_assoc]
    exact .declarations hstmt (firstKind_concat (hy ▸ hstart) hkeyword rfl) (ih hy)
  | @routine name opening _ closing _ u _ _ hname hopening hparams hlength hclosing h ih =>
    obtain ⟨y, rfl, hy⟩ := split_concat (s := name :: opening :: (u ++ [closing]))
      (by simpa using hu) (Semicolon.ne_nil h)
    simpa using Encloses.routine hname hopening hparams hlength hclosing (ih hy)
  | method hstart _ hs ih =>
    refine .method ?_ (ih hu) hs
    subst hu
    cases x with
    | nil => simp [hret] at hstart
    | cons first x => exact hstart
  | @methods _ _ u _ _ h hs ih =>
    obtain ⟨y, rfl, hy⟩ := split_concat (s := u) hu (Semicolon.ne_nil hs)
    rw [List.append_assoc]
    exact .methods h (ih hy)

end Places

namespace Reading

/-- Where a `for` with one semicolon in its clauses is left out up to where skipping stops, it is
one fault at most. -/
theorem slipPhrase_of_brokenFor {closing : Token} {clauses behind u v : List Token}
    {phrase : Phrase} (hclauses : OneSemicolon clauses) (hclosing : closing.kind = .rightParen)
    (helse : firstKind (Cursor.resume (closing :: behind)) ≠ .elseKw)
    (h : Encloses BrokenFor phrase u v) :
    SlipPhrase (clauses ++ closing :: behind) (Cursor.resume (closing :: behind)) phrase u v := by
  apply slipPhrase_of_encloses _ helse h
  rintro _ _ _ ⟨hkeyword⟩ fuel rest - -
  exact (slips_for hkeyword hclauses hclosing fuel).mono fun _ hresume => ⟨rfl, hresume⟩

end Reading

namespace Program

variable {before behind clauses : List Token} {keyword closing ret semicolon : Token}
  {firstId : Nat}

/-- Without one of the semicolons in the clauses of a `for`, a program has one fault at most, if it
can be read with a `return` instead of the loop up to where skipping stops, and no `else` comes
behind it. -/
theorem faults_length_le_one_of_clause_removed (hkeyword : keyword.kind = .forKw)
    (hclauses : OneSemicolon clauses) (hclosing : closing.kind = .rightParen)
    (hret : ret.kind = .returnKw) (hsemicolon : semicolon.kind = .semicolon)
    (hskipped : (ofTokens (before ++ ret :: semicolon ::
      Cursor.resume (closing :: behind.takeWhile (·.kind ≠ .eof))) firstId).faults = [])
    (helse : Reading.NoElse (Cursor.resume (closing :: behind.takeWhile (·.kind ≠ .eof)))) :
    (ofTokens (before ++ keyword :: (clauses ++ closing :: behind)) firstId).faults.length ≤ 1 := by
  by_cases hend : ∀ token ∈ before, token.kind ≠ .eof
  · have hspelled := spelled_of_faults_eq_nil hskipped
    obtain ⟨rest, hrest⟩ : ∃ rest, rest = behind.takeWhile (·.kind ≠ .eof) := ⟨_, rfl⟩
    rw [← hrest] at hspelled helse
    have hkind : ∀ token ∈ rest, token.kind ≠ .eof := fun token hmem =>
      Cursor.kind_ne_eof_of_mem_takeWhile (hrest ▸ hmem)
    have hnext := Cursor.kind_ne_eof_of_mem_resume
      (List.forall_mem_cons.mpr ⟨by simp [hclosing], hkind⟩ : ∀ token ∈ closing :: rest, _)
    rw [List.takeWhile_eq_self_iff.mpr (by simpa [or_imp, forall_and, hret, hsemicolon] using
      ⟨hend, hnext⟩)] at hspelled
    -- the semicolon behind the `return` ends it, and the loop stands in its place
    have hplace := (hspelled.semicolon rfl (List.append_cons before ret _) hsemicolon).resolve_right
      fun hplace => hplace.kind_last ret (by simp) hret
    have hbroken := hplace.encloses_brokenFor rfl hret hkeyword
    have hslips := Reading.slipPhrase_of_brokenFor hclauses hclosing
      (Reading.firstKind_ne_of_noElse helse) hbroken
    have hahead : (before ++ keyword :: (clauses ++ closing :: behind)).takeWhile (·.kind ≠ .eof) =
        before ++ [keyword] ++ (clauses ++ closing :: rest) := by
      rw [List.takeWhile_append_of_pos (by simpa using hend),
        List.takeWhile_cons_of_pos (by simp [hkeyword]),
        List.takeWhile_append_of_pos (by simpa using hclauses.kind_ne_eof),
        List.takeWhile_cons_of_pos (by simp [hclosing]), ← hrest, List.append_assoc]
      rfl
    apply faults_length_le_one_of_slips
    rw [hahead]
    exact fun fuel => hslips fuel .eof [] (.inl rfl) rfl (List.append_nil _).symm
  · rw [faults_eq_nil_of_eof hend hskipped]
    exact Nat.zero_le 1

/-- So without the first semicolon, with nothing before it or no condition behind it, a program has
one fault at most if the body of the loop starts with a keyword. -/
theorem faults_length_le_one_of_first_clause_removed {opening first second : Token}
    {start : Option Stmt} {condition increment : Option Expr} {s v w : List Token}
    (hkeyword : keyword.kind = .forKw) (hopening : opening.kind = .leftParen)
    (hstart : Spelled (.forStart start) (s ++ [first]))
    (hcondition : Spelled (.optional condition) v)
    (hsecond : second.kind = .semicolon) (hincrement : Spelled (.optional increment) w)
    (hclause : s = [] ∨ v = []) (hclosing : closing.kind = .rightParen)
    (hbody : Cursor.startsStatement (firstKind behind) = true)
    (hret : ret.kind = .returnKw) (hsemicolon : semicolon.kind = .semicolon)
    (hread : (ofTokens (before ++ ret :: semicolon :: behind) firstId).faults = []) :
    (ofTokens (before ++ keyword :: (opening :: (s ++ (v ++ second :: w)) ++ closing :: behind))
      firstId).faults.length ≤ 1 := by
  obtain ⟨token, rest, rfl⟩ := List.exists_cons_of_ne_nil
    (show behind ≠ [] by rintro rfl; cases hbody)
  have hkind : token.kind ≠ .eof := by
    intro hkind
    rw [firstKind_cons, hkind] at hbody
    cases hbody
  have hresume : Cursor.resume (closing :: (token :: rest).takeWhile (·.kind ≠ .eof)) =
      (token :: rest).takeWhile (·.kind ≠ .eof) := by
    apply Cursor.resume_before_keyword hclosing
    rwa [List.takeWhile_cons_of_pos (by simpa using hkind)]
  have hclauses := OneSemicolon.of_first_removed hopening hstart hcondition hsecond hincrement
    hclause
  apply faults_length_le_one_of_clause_removed hkeyword hclauses hclosing hret hsemicolon
  · rw [hresume]
    refine faults_eq_nil_of_takeWhile_eq ?_ hread
    simp [List.takeWhile_append, List.takeWhile_takeWhile, hret, hsemicolon, hkind]
  · rw [hresume, List.takeWhile_cons_of_pos (by simpa using hkind)]
    rintro _ ⟨⟩ helse
    rw [firstKind_cons, helse] at hbody
    cases hbody

/-- `for (true;) print true;` -/
example :
    (ofTokens ([⟨.forKw, "for", 1⟩, ⟨.leftParen, "(", 1⟩, ⟨.trueKw, "true", 1⟩,
      ⟨.semicolon, ";", 1⟩, ⟨.rightParen, ")", 1⟩] ++ plainPrint) 0).faults =
      [⟨⟨.rightParen, ")", 1⟩, .expect .expression⟩] := by
  decide +kernel

end Program
end LoxLang
