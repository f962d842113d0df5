import LoxLang.Proofs.Grammar.Semicolons
import LoxLang.Proofs.Reading.Boundaries
import LoxLang.Proofs.Reading.Completeness
import LoxLang.Proofs.Reading.Soundness

/-!
# A missing semicolon

Where the semicolon of a statement is missing, what stands behind it is either a part of the
statement, which then ends at the next semicolon, or it makes the statement fail there. `Slips` says
that a reading gets over the place with one fault at most: it comes to the tokens at which reading
goes on, or it fails and skipping comes there. Blocks, routines and lists of declarations never
fail, since the declaration around the place does the skipping.

The skipping starts with the token that the statement failed at, whatever that is. So the program
has to be readable without the skipped tokens: the keyword of a function or a brace that a block
needs is skipped as any other, and then what is left of the function or the block is a second fault.
It never is readable where the semicolon is one in the clauses of a `for`, which ends no statement
(`Spelled.semicolon_resume`).
-/
namespace LoxLang

/-- Skipping that does not stop before a keyword stops behind the first semicolon. -/
theorem Cursor.exists_of_resume {tokens : List Token} (hne : resume tokens ≠ [])
    (hfirst : startsStatement (firstKind tokens) = false)
    (hstart : startsStatement (firstKind (resume tokens)) = false) :
    ∃ skipped semicolon, tokens = skipped ++ semicolon :: resume tokens ∧
      semicolon.kind = .semicolon ∧
      ∀ token ∈ skipped, token.kind ≠ .forKw ∧ token.kind ≠ .semicolon := by
  induction tokens with
  | nil => exact absurd rfl hne
  | cons first rest ih =>
    by_cases hsemicolon : first.kind = .semicolon
    · exact ⟨[], first, by simp [resume, hsemicolon], hsemicolon, by simp⟩
    have hfor : first.kind ≠ .forKw := by
      intro hkind
      rw [firstKind_cons, hkind] at hfirst
      cases hfirst
    rw [resume, if_neg hsemicolon] at hne hstart ⊢
    by_cases hkeyword : rest.head?.any (startsStatement ·.kind) = true
    · rw [if_pos hkeyword] at hstart
      cases rest <;> simp_all [firstKind]
    · rw [if_neg hkeyword] at hne hstart ⊢
      have hnext : startsStatement (firstKind rest) = false := by
        cases rest <;> simp_all [firstKind, startsStatement]
      obtain ⟨skipped, semicolon, heq, hstop, hplain⟩ := ih hne hnext hstart
      exact ⟨first :: skipped, semicolon, congrArg (first :: ·) heq, hstop,
        List.forall_mem_cons.mpr ⟨⟨hfor, hsemicolon⟩, hplain⟩⟩

section Clauses

variable {u v : List Token} {semicolon : Token} {stmts stmts' : List Stmt}

theorem InClauses.starts (h : InClauses u v) :
    v ≠ [] ∧ Cursor.startsStatement (firstKind v) = false := by
  obtain ⟨count, value, w, stop, rest, -, rfl, hvalue, hstop⟩ := h.clause
  refine ⟨by simp, ?_⟩
  cases w with
  | nil =>
    rcases hstop with ⟨-, hkind⟩ | ⟨-, hkind⟩ <;> simp [hkind, Cursor.startsStatement]
  | cons first w => exact (hvalue.kind_of_isPlain rfl first List.mem_cons_self).2

/-- While a parenthesis is open, at most one semicolon stands behind the last `for`. -/
theorem Spelled.semicolonsSince_le_one (h : Spelled (.declarations stmts) (u ++ semicolon :: v))
    (hsemicolon : semicolon.kind = .semicolon) (hopen : ¬ Balanced u) :
    semicolonsSince 0 u ≤ 1 := by
  rcases h.semicolon rfl rfl hsemicolon with hplace | hplace
  · exact absurd hplace.balanced hopen
  · obtain ⟨count, _, _, _, _, hcount, -, -, hclause⟩ := hplace.clause
    rw [hcount]
    omega

/-- Where a semicolon in the clauses of a `for` is missing, skipping goes on to the next one, which
is then one too many. -/
theorem Spelled.not_inClauses_resume (h : Spelled (.declarations stmts) (u ++ semicolon :: v))
    (h' : Spelled (.declarations stmts') (u ++ semicolon :: Cursor.resume v))
    (hsemicolon : semicolon.kind = .semicolon) (hplace : InClauses u v) :
    ¬ InClauses u (Cursor.resume v) := by
  intro hplace'
  obtain ⟨skipped, stop, heq, hstop, hskipped⟩ :=
    Cursor.exists_of_resume hplace'.starts.1 hplace.starts.2 hplace'.starts.2
  obtain ⟨count, value, w, second, rest, hcount, hrest, hvalue, hclause⟩ := hplace'.clause
  have hbefore : Balanced (semicolon :: skipped) := by
    have hbalanced := h.balanced
    have hbalanced' := h'.balanced
    rw [heq] at hbalanced
    simp only [Balanced, List.countP_append, List.countP_cons, hsemicolon, hstop, reduceCtorEq,
      decide_false, Bool.false_eq_true, if_false] at hbalanced hbalanced' ⊢
    omega
  -- where skipping stops, the parenthesis is still open
  have hopen := mt (balanced_append_right_iff hbefore u).mp hplace.not_balanced
  rw [heq] at h
  rcases hclause with ⟨rfl, hsecond⟩ | ⟨rfl, -⟩
  -- the semicolon that was missing, the one that was skipped and the one behind the condition
  · have hcondition : Balanced (stop :: w) :=
      (balanced_cons_iff (by simp [Balanced, hstop]) _).mpr hvalue.balanced
    rw [hrest] at h
    have hle := Spelled.semicolonsSince_le_one (v := rest) (by simpa using h) hsecond
      (mt (balanced_append_right_iff hcondition _).mp hopen)
    rw [semicolonsSince_append, semicolonsSince_append, hcount] at hle
    simp [semicolonsSince_cons, hsemicolon, hstop, semicolonsSince_of_forall hskipped,
      semicolonsSince_of_forall (hvalue.kind_ne_of_isPlain rfl)] at hle
  · have hle := Spelled.semicolonsSince_le_one (by simpa using h) hstop hopen
    rw [semicolonsSince_append, hcount] at hle
    simp [semicolonsSince_cons, hsemicolon, semicolonsSince_of_forall hskipped] at hle

/-- So the semicolon ends a statement if the program can be read without what is skipped. -/
theorem Spelled.semicolon_resume (h : Spelled (.declarations stmts) (u ++ semicolon :: v))
    (h' : Spelled (.declarations stmts') (u ++ semicolon :: Cursor.resume v))
    (hsemicolon : semicolon.kind = .semicolon) :
    Semicolon (.declarations stmts) u v ∧ Semicolon (.declarations stmts') u (Cursor.resume v) := by
  rcases h.semicolon rfl rfl hsemicolon with hplace | hplace
  · refine ⟨hplace, (h'.semicolon rfl rfl hsemicolon).resolve_right fun hplace' => ?_⟩
    exact hplace'.not_balanced hplace.balanced
  · rcases h'.semicolon rfl rfl hsemicolon with hplace' | hplace'
    · exact absurd hplace'.balanced hplace.not_balanced
    · exact absurd hplace' (h.not_inClauses_resume h' hsemicolon hplace)

end Clauses

namespace Reading

variable {α β : Type}

/-- From these tokens the reading comes before the others with one more fault at most; where it
fails, no fault was reported before, and `E` holds of the tokens ahead. -/
def Slips (p : Reading α) (tokens rest : List Token) (E : List Token → Prop) : Prop :=
  ∀ c, c.ahead = tokens → p.Ensures c
    (fun _ c' => c'.ahead = rest ∧ c'.faults.size ≤ c.faults.size + 1)
    fun _ c' => c'.faults = c.faults ∧ E c'.ahead

section Rules

variable {p : Reading α} {f : α → Reading β} {tokens u v rest : List Token} {P : α → Prop}
  {Q : β → Prop} {E E' : List Token → Prop}

theorem Slips.mono (h : Slips p tokens rest E) (hE : ∀ ahead, E ahead → E' ahead) :
    Slips p tokens rest E' := by
  intro c hahead
  apply (h c hahead).mono
  · exact fun _ _ h => h
  · rintro _ c' ⟨hfaults, hfailed⟩
    exact ⟨hfaults, hE _ hfailed⟩

theorem slips_exhausted : Slips (Action.exhausted : Reading α) tokens rest E :=
  fun _ _ => trivial

theorem Accepts.slips (h : Accepts p u rest P) : Slips p (u ++ rest) rest E := by
  intro c hahead
  apply (h c hahead).mono
  · rintro _ c' ⟨hrest, hfaults, -⟩
    exact ⟨hrest, by rw [hfaults]; exact Nat.le_succ _⟩
  · exact fun _ _ h => h.elim

theorem Accepts.slips_bind (h : Accepts p u v P) (hf : ∀ a, P a → Slips (f a) v rest E) :
    Slips (p >>= f) (u ++ v) rest E := by
  intro c hahead
  rw [Action.ensures_bind]
  apply (h c hahead).mono
  · rintro a c₁ ⟨hahead₁, hfaults₁, hread⟩
    apply (hf a hread c₁ hahead₁).mono
    · rintro _ c₂ ⟨hahead₂, hfaults₂⟩
      exact ⟨hahead₂, hfaults₁ ▸ hfaults₂⟩
    · rintro _ c₂ ⟨hfaults₂, hfailed⟩
      exact ⟨hfaults₂.trans hfaults₁, hfailed⟩
  · exact fun _ _ h => h.elim

theorem Slips.bind (h : Slips p tokens (v ++ rest) E) (hf : ∀ a, Accepts (f a) v rest Q) :
    Slips (p >>= f) tokens rest E := by
  intro c hahead
  rw [Action.ensures_bind]
  apply (h c hahead).mono
  · rintro a c₁ ⟨hahead₁, hfaults₁⟩
    apply (hf a c₁ hahead₁).mono
    · rintro _ c₂ ⟨hahead₂, hfaults₂, -⟩
      exact ⟨hahead₂, hfaults₂ ▸ hfaults₁⟩
    · exact fun _ _ h => h.elim
  · exact fun _ _ h => h

theorem Accepts.bind_done {f : α → β} (h : Accepts p u rest P) :
    Accepts (p >>= fun a => pure (f a)) u rest fun _ => True :=
  (h.mono fun _ _ => trivial).bind_pure

theorem Slips.bind_pure {f : α → β} (h : Slips p tokens rest E) :
    Slips (p >>= fun a => pure (f a)) tokens rest E :=
  Slips.bind (v := []) (Q := fun _ => True) h fun _ => accepts_pure trivial

theorem slips_peek_bind {f : Token → Reading β}
    (h : ∀ token : Token, token.kind = firstKind tokens → Slips (f token) tokens rest E) :
    Slips (peek >>= f) tokens rest E :=
  fun c hahead => h c.peek (kind_peek hahead) c hahead

theorem slips_peek_cons_bind {f : Token → Reading β} {token : Token}
    (h : Slips (f token) (token :: u) rest E) : Slips (peek >>= f) (token :: u) rest E := by
  intro c hahead
  have hpeek : c.peek = token := by simp [Cursor.peek_eq, hahead]
  have hc := h c hahead
  rw [← hpeek] at hc
  exact hc

theorem slips_nextKind_bind {f : Kind → Reading β}
    (h : Slips (f (firstKind tokens)) tokens rest E) : Slips (nextKind >>= f) tokens rest E :=
  slips_peek_bind (f := fun token => f token.kind) fun _ hkind => hkind ▸ h

theorem slips_isAtEnd_bind {f : Bool → Reading β}
    (h : Slips (f tokens.isEmpty) tokens rest E) : Slips (isAtEnd >>= f) tokens rest E := by
  intro c hahead
  have hc := h c hahead
  rw [← hahead, ← c.isAtEnd_eq] at hc
  exact hc

end Rules

section Rejections

/-- The reading fails at the first of these tokens and leaves everything as it is. -/
def Rejects (p : Reading α) (tokens : List Token) : Prop :=
  ∀ c, c.ahead = tokens → p.Ensures c (fun _ _ => False) fun _ c' => c' = c

variable {p : Reading α} {tokens rest : List Token}

theorem Rejects.slips (h : Rejects p tokens) : Slips p tokens rest (· = tokens) := by
  intro c hahead
  apply (h c hahead).mono
  · exact fun _ _ h => h.elim
  · rintro _ c' rfl
    exact ⟨rfl, hahead⟩

theorem Rejects.bind (h : Rejects p tokens) (f : α → Reading β) : Rejects (p >>= f) tokens := by
  intro c hahead
  rw [Action.ensures_bind]
  exact (h c hahead).mono (fun _ _ h => h.elim) fun _ _ h => h

theorem rejects_takeIf_bind {q : Kind → Bool} (h : q (firstKind tokens) = false)
    {f : Option Token → Reading β} (hf : Rejects (f none) tokens) :
    Rejects (takeIf q >>= f) tokens := by
  intro c hahead
  unfold Action.Ensures
  rw [Action.bind_apply, takeIf_of_firstKind hahead h]
  exact hf c hahead

theorem rejects_peek_bind {f : Token → Reading β}
    (hf : ∀ token : Token, token.kind = firstKind tokens → Rejects (f token) tokens) :
    Rejects (peek >>= f) tokens :=
  fun c hahead => hf c.peek (kind_peek hahead) c hahead

theorem rejects_want {kind : Kind} (h : firstKind tokens ≠ kind) (wanted : Wanted) :
    Rejects (want kind wanted) tokens := by
  apply rejects_takeIf_bind (decide_eq_false h)
  exact rejects_peek_bind fun _ _ _ _ => rfl

theorem rejects_primary (h : (firstKind tokens).startsExpression = false) (fuel : Nat) :
    Rejects (primary fuel) tokens := by
  cases fuel with
  | zero => exact fun _ _ => trivial
  | succ fuel =>
    rw [primary]
    apply rejects_peek_bind
    intro token hkind
    rw [← hkind] at h
    split
    case h_9 => exact fun _ _ => rfl
    all_goals
      next hfirst =>
        rw [hfirst] at h
        cases h

theorem rejects_operation (h : (firstKind tokens).startsExpression = false) (fuel : Nat)
    (level : Level) : Rejects (operation fuel level) tokens := by
  induction fuel generalizing level with
  | zero => exact fun _ _ => trivial
  | succ fuel ih =>
    by_cases hlevel : level = .unary
    · subst hlevel
      rw [operation]
      apply rejects_takeIf_bind (Bool.or_eq_false_iff.mp h).2
      exact (rejects_primary h fuel).bind _
    · rw [operation]
      · exact (ih level.tighter).bind _
      · exact hlevel

theorem rejects_expression (h : (firstKind tokens).startsExpression = false) (fuel : Nat) :
    Rejects (expression fuel) tokens := by
  cases fuel with
  | zero => exact fun _ _ => trivial
  | succ fuel =>
    rw [expression]
    exact (rejects_operation h fuel .or).bind _

end Rejections

section Expressions

variable {u v rest : List Token} {expr : Expr} {E : List Token → Prop}

theorem resume_of_expression (h : Spelled (.expr .assignment expr) u) {semicolon : Token}
    (hsemicolon : semicolon.kind = .semicolon) (rest : List Token) :
    Cursor.resume (u ++ semicolon :: rest) = rest := by
  have hplain := h.kind_of_isPlain rfl
  exact Cursor.resume_append_semicolon hsemicolon (fun token hmem => (hplain token hmem).1)
    (fun token hmem => (hplain token (List.mem_of_mem_tail hmem)).2) rest

theorem slips_assignment {target : Expr} {equals : Token} {tokens : List Token}
    (htarget : Spelled (.expr (.operation .or) target) u) (hequals : equals.kind = .equal)
    (hvalue : ∀ fuel target', target'.relabel blank = target.relabel blank →
      Slips (do
        let value ← expression fuel
        match assignment? target' value with
        | some build => node build
        | none =>
          note ⟨equals, .invalidTarget⟩
          return target') tokens rest E) (fuel : Nat) :
    Slips (expression fuel) (u ++ equals :: tokens) rest E := by
  cases fuel with
  | zero => exact slips_exhausted
  | succ fuel =>
    rw [expression]
    have hequal : (Rank.operation .or).goesOn (firstKind (equals :: tokens)) = false := by
      rw [firstKind_cons, hequals]
      rfl
    apply ((readPhrase_of_spelled htarget).1 fuel _ hequal).slips_bind
    intro target' htarget'
    apply (accepts_takeIf (decide_eq_true hequals)).slips_bind
    rintro _ rfl
    exact hvalue fuel target' htarget'

theorem slips_value {target : Expr} {equals : Token} {tokens : List Token}
    (htarget : Spelled (.expr (.operation .or) target) u)
    (hbuild : ∀ value, ∃ build, assignment? target value = some build)
    (hequals : equals.kind = .equal)
    (hvalue : ∀ fuel, Slips (expression fuel) tokens rest E) (fuel : Nat) :
    Slips (expression fuel) (u ++ equals :: tokens) rest E := by
  apply slips_assignment htarget hequals
  intro fuel target' htarget'
  apply (hvalue fuel).bind (v := []) (Q := fun _ => True)
  intro value
  obtain ⟨build, hbuild⟩ := hbuild value
  obtain ⟨build', hbuild', -⟩ := assignment?_of_relabel_eq hbuild htarget' rfl
  simp only [hbuild']
  exact accepts_node fun _ => trivial

theorem slips_note (fault : GrammarFault) : Slips (note fault) rest rest E :=
  fun _ hahead => ⟨hahead, by simp⟩

/-- What can not be assigned to is one fault. -/
theorem slips_target {target value : Expr} {equals : Token}
    (htarget : Spelled (.expr (.operation .or) target) u) (hequals : equals.kind = .equal)
    (hvalue : Spelled (.expr .assignment value) v)
    (hrest : Rank.assignment.goesOn (firstKind rest) = false) (fuel : Nat) :
    Slips (expression fuel) (u ++ equals :: (v ++ rest)) rest E := by
  apply slips_assignment htarget hequals
  intro fuel target' _
  apply (readPhrase_of_spelled hvalue fuel rest hrest).slips_bind
  intro value' _
  split
  · exact (accepts_node (P := fun _ => True) fun _ => trivial).slips
  · exact (slips_note _).bind_pure

/-- Where an expression follows another one and goes on it, they are read as one, with a fault at
most: if the second is an assignment, nothing may be assignable to what its target becomes. -/
theorem slips_expression {expr next : Expr} (hu : Spelled (.expr .assignment expr) u)
    (hv : Spelled (.expr .assignment next) v) (hfirst : (firstKind v).continues)
    (hrest : Rank.assignment.goesOn (firstKind rest) = false) (fuel : Nat) :
    Slips (expression fuel) (u ++ (v ++ rest)) rest E := by
  generalize hphrase : Phrase.expr .assignment expr = phrase at hu
  induction hu generalizing expr fuel <;> cases hphrase
  case assign id name equals value u hname hequals _ ih =>
    have htarget : Spelled (.expr (.operation .or) (.var 0 name)) [name] :=
      (Spelled.var hname).of_depth_le (by decide)
    exact slips_value htarget (fun _ => ⟨_, rfl⟩) hequals (fun fuel => ih fuel rfl) fuel
  case set id object dot name equals value u w hobject hdot hname hequals _ _ ih =>
    have htarget : Spelled (.expr (.operation .or) (.get 0 object name)) (u ++ [dot, name]) :=
      (Spelled.get hobject hdot hname).of_depth_le (by decide)
    have hslips := slips_value htarget (fun _ => ⟨_, rfl⟩) hequals (fun fuel => ih fuel rfl) fuel
    simpa using hslips
  case loosen u hu _ =>
    cases hv with
    | assign hname =>
      rw [firstKind_cons, hname] at hfirst
      simp [Kind.continues] at hfirst
    | set hobject hdot hname hequals hvalue =>
      have htarget : Spelled (.expr (.operation .or) (.get 0 _ _)) _ :=
        (Spelled.get hobject hdot hname).of_depth_le (by decide)
      rw [firstKind_append hobject.ne_nil_expr, ← firstKind_append hobject.ne_nil_expr] at hfirst
      obtain ⟨_, hboth⟩ := Spelled.glue ⟨_, hu⟩ ⟨_, htarget⟩ hfirst
      have hslips := slips_target (E := E) hboth hequals hvalue hrest fuel
      simpa using hslips
    | loosen hv =>
      obtain ⟨_, hboth⟩ := Spelled.glue ⟨_, hu⟩ ⟨_, hv⟩ hfirst
      have hwhole : Spelled (.expr .assignment _) (u ++ v) := .loosen hboth
      rw [← List.append_assoc]
      exact (readPhrase_of_spelled hwhole fuel rest hrest).slips

end Expressions

section Ends

variable {u behind : List Token} {expr : Expr} {wanted : Wanted}

theorem rejects_end (hbehind : Boundary behind) (f : Token → Reading β) :
    Rejects (want .semicolon wanted >>= f) behind :=
  (rejects_want hbehind.kind_ne.1 wanted).bind f

theorem accepts_end {semicolon : Token} (hsemicolon : semicolon.kind = .semicolon)
    (rest : List Token) (b : β) :
    Accepts (do
      let _ ← want .semicolon wanted
      return b) [semicolon] rest fun _ => True :=
  (accepts_want _ hsemicolon).bind_done

theorem goesOn_semicolon {semicolon : Token} (hsemicolon : semicolon.kind = .semicolon)
    (rest : List Token) : Rank.assignment.goesOn (firstKind (semicolon :: rest)) = false := by
  rw [firstKind_cons, hsemicolon]
  rfl

/-- Where the semicolon behind an expression is missing, what follows is a part of the expression up
to the next semicolon, or it is skipped up to there. -/
theorem slips_expression_end (f : Expr → β) (h : Spelled (.expr .assignment expr) u)
    (hbehind : Boundary behind) (fuel : Nat) :
    Slips (do
      let expr ← expression fuel
      let _ ← want .semicolon wanted
      return f expr) (u ++ behind) (Cursor.resume behind) (· = behind) := by
  cases hon : Rank.assignment.goesOn (firstKind behind) with
  | false =>
    apply (readPhrase_of_spelled h fuel behind hon).slips_bind
    exact fun _ _ => (rejects_end hbehind _).slips
  | true =>
    have hfirst := hbehind.continues hon
    have hstart : (firstKind behind).startsExpression = true := by
      rcases hfirst with hkind | hkind <;> rw [hkind] <;> rfl
    obtain ⟨next, v, semicolon, rest, rfl, hnext, hsemicolon⟩ := hbehind.exists_expression hstart
    rw [firstKind_append hnext.ne_nil_expr] at hfirst
    rw [resume_of_expression hnext hsemicolon]
    apply (slips_expression h hnext hfirst (goesOn_semicolon hsemicolon rest) fuel).bind
      (v := [semicolon])
    exact fun _ => accepts_end hsemicolon rest _

/-- Where a value can be absent, an expression that follows is taken for it. -/
theorem slips_value_end (f : Option Expr → β) {value : Option Expr}
    (h : Spelled (.optional value) u) (hbehind : Boundary behind) (fuel : Nat) :
    Slips (do
      let value ← optionalExpression fuel .semicolon
      let _ ← want .semicolon wanted
      return f value) (u ++ behind) (Cursor.resume behind) (· = behind) := by
  have hpresent {tokens rest : List Token} (hkind : firstKind tokens ≠ .semicolon)
      (hslips : Slips (do
        let expr ← expression fuel
        let _ ← want .semicolon wanted
        return f (some expr)) tokens rest (· = behind)) :
      Slips (do
        let value ← optionalExpression fuel .semicolon
        let _ ← want .semicolon wanted
        return f value) tokens rest (· = behind) := by
    rw [optionalExpression, bind_assoc]
    apply slips_nextKind_bind
    rw [if_neg hkind]
    simpa only [bind_assoc, pure_bind] using hslips
  cases h with
  | absent =>
    apply hpresent hbehind.kind_ne.1
    cases hstart : (firstKind behind).startsExpression with
    | false => exact ((rejects_expression hstart fuel).bind _).slips
    | true =>
      obtain ⟨next, v, semicolon, rest, rfl, hnext, hsemicolon⟩ := hbehind.exists_expression hstart
      rw [resume_of_expression hnext hsemicolon]
      apply (readPhrase_of_spelled hnext fuel _ (goesOn_semicolon hsemicolon rest)).slips_bind
      intro _ _
      exact (accepts_end hsemicolon rest _).slips
  | present h =>
    refine hpresent ?_ (slips_expression_end _ h hbehind fuel)
    rw [firstKind_append h.ne_nil_expr]
    intro hkind
    have hstart : (firstKind u).startsExpression = true := h.starts
    rw [hkind] at hstart
    cases hstart

theorem slips_varDeclaration {name : Token} {initializer : Option Expr}
    (hname : name.kind = .identifier) (h : Spelled (.initializer initializer) u)
    (hbehind : Boundary behind) (fuel : Nat) :
    Slips (varDeclaration fuel) (name :: (u ++ behind)) (Cursor.resume behind) (· = behind) := by
  rw [varDeclaration]
  apply (accepts_want _ hname).slips_bind
  rintro _ rfl
  rw [Reading.initializer, bind_assoc]
  cases h with
  | noInitializer =>
    apply (accepts_accept_not hbehind.kind_ne.2).slips_bind
    rintro _ rfl
    exact (rejects_end hbehind _).slips
  | initializer hequals h =>
    apply (accepts_accept hequals).slips_bind
    rintro _ rfl
    simpa using slips_expression_end _ h hbehind fuel

end Ends

section Pieces

/-- How a piece is read where other tokens follow `u`, if `v` is left of it when reading goes on. -/
def SlipPhrase (behind next : List Token) : Phrase → List Token → List Token → Prop
  | .statement isOpen _, u, v => ∀ fuel rest, next = v ++ rest →
    (isOpen = true → firstKind rest ≠ .elseKw) →
    Slips (statement fuel) (u ++ behind) rest fun ahead =>
      v = [] ∧ Cursor.resume ahead = next
  | .block _, u, v => ∃ opening w, u = opening :: w ∧ opening.kind = .leftBrace ∧
    ∀ fuel rest, next = v ++ rest →
      Slips (block fuel) (w ++ behind) rest fun _ => False
  | .declaration _, u, v => ∀ fuel rest, next = v ++ rest →
    firstKind rest ≠ .elseKw →
    Slips (declared fuel) (u ++ behind) rest fun ahead =>
      v = [] ∧ Cursor.resume ahead = next
  | .declarations _, u, v => ∀ fuel stop rest, stop = .eof ∨ stop = .rightBrace →
    firstKind rest = stop → next = v ++ rest →
    Slips (declarations fuel stop) (u ++ behind) rest fun _ => False
  | .routine _, u, v => ∀ fuel kind rest, next = v ++ rest →
    Slips (routine fuel kind) (u ++ behind) rest fun _ => False
  | .routines _, u, v => ∀ fuel rest, next = v ++ rest →
    firstKind rest = .rightBrace → Slips (methods fuel) (u ++ behind) rest fun _ => False
  | _, _, _ => True

variable {behind next u v w x y : List Token}

theorem Slips.of_end {tokens rest : List Token} {p : Reading α}
    (h : Slips p tokens (Cursor.resume behind) (· = behind)) (hrest : Cursor.resume behind = rest) :
    Slips p tokens rest fun ahead =>
      ([] : List Token) = [] ∧ Cursor.resume ahead = Cursor.resume behind :=
  hrest ▸ h.mono fun _ hahead => ⟨rfl, congrArg Cursor.resume hahead⟩

theorem slip_expression {expr : Expr} (h : Spelled (.expr .assignment expr) u)
    (hbehind : Boundary behind) :
    SlipPhrase behind (Cursor.resume behind) (.statement false (.expression expr)) u [] := by
  rintro (_ | fuel) rest hrest -
  · exact slips_exhausted
  · have hstart : (firstKind u).startsExpression = true := h.starts
    rw [statement]
    apply slips_peek_bind
    intro token htoken
    rw [firstKind_append h.ne_nil_expr] at htoken
    rw [← htoken] at hstart
    split
    case h_7 => exact (slips_expression_end Stmt.expression h hbehind fuel).of_end hrest
    all_goals next hkind => exact absurd hstart (by rw [hkind]; decide)

theorem slip_print {keyword : Token} {expr : Expr} (hkeyword : keyword.kind = .printKw)
    (h : Spelled (.expr .assignment expr) u) (hbehind : Boundary behind) :
    SlipPhrase behind (Cursor.resume behind) (.statement false (.print expr)) (keyword :: u)
      [] := by
  rintro (_ | fuel) rest hrest -
  · exact slips_exhausted
  · rw [statement]
    apply slips_peek_cons_bind
    rw [hkeyword]
    apply (accepts_advance keyword).slips_bind
    intro _ _
    exact (slips_expression_end Stmt.print h hbehind fuel).of_end hrest

theorem slip_returnStmt {keyword : Token} {value : Option Expr}
    (hkeyword : keyword.kind = .returnKw) (h : Spelled (.optional value) u)
    (hbehind : Boundary behind) :
    SlipPhrase behind (Cursor.resume behind) (.statement false (.returnStmt keyword value))
      (keyword :: u) [] := by
  rintro (_ | fuel) rest hrest -
  · exact slips_exhausted
  · rw [statement]
    apply slips_peek_cons_bind
    rw [hkeyword]
    apply (accepts_advance keyword).slips_bind
    intro _ _
    exact (slips_value_end (Stmt.returnStmt keyword) h hbehind fuel).of_end hrest

theorem slip_varDecl {keyword name : Token} {initializer : Option Expr}
    (hkeyword : keyword.kind = .varKw) (hname : name.kind = .identifier)
    (h : Spelled (.initializer initializer) u) (hbehind : Boundary behind) :
    SlipPhrase behind (Cursor.resume behind) (.declaration (.varDecl name initializer))
      (keyword :: name :: u) [] := by
  rintro (_ | fuel) rest hrest -
  · exact slips_exhausted
  · rw [declared]
    apply slips_nextKind_bind
    rw [List.cons_append, firstKind_cons, hkeyword]
    apply (accepts_advance keyword).slips_bind
    intro _ _
    exact (slips_varDeclaration hname h hbehind fuel).of_end hrest

theorem slip_braced {body : List Stmt} (h : SlipPhrase behind next (.block body) u v) :
    SlipPhrase behind next (.statement false (.block body)) u v := by
  obtain ⟨opening, w, rfl, hopening, hbody⟩ := h
  rintro (_ | fuel) rest hrest -
  · exact slips_exhausted
  · rw [statement]
    apply slips_peek_cons_bind
    rw [hopening]
    apply (accepts_advance opening).slips_bind
    intro _ _
    exact ((hbody fuel rest hrest).mono fun _ h => h.elim).bind_pure

theorem slips_condition_bind {f : Expr → Reading β} {fuel : Nat} {left right : Token}
    {expr : Expr} {opening closing : Wanted} {rest : List Token} {E : List Token → Prop}
    (hleft : left.kind = .leftParen) (h : Spelled (.expr .assignment expr) u)
    (hright : right.kind = .rightParen) (hf : ∀ expr', Slips (f expr') v rest E) :
    Slips (condition fuel opening closing >>= f) (left :: (u ++ right :: v)) rest E := by
  have htokens : left :: (u ++ right :: v) = left :: (u ++ [right]) ++ v := by simp
  rw [htokens]
  exact (accepts_condition hleft (readPhrase_of_spelled h) hright).slips_bind fun _ _ => hf _

theorem slips_if {fuel : Nat} {keyword opening closing : Token} {condition : Expr}
    {tokens rest : List Token} {E : List Token → Prop} (hkeyword : keyword.kind = .ifKw)
    (hopening : opening.kind = .leftParen) (hcondition : Spelled (.expr .assignment condition) u)
    (hclosing : closing.kind = .rightParen)
    (hbranches : ∀ condition', Slips (do
      let thenBranch ← statement fuel
      if ← accept .elseKw then return Stmt.ifElse condition' thenBranch (← statement fuel)
      else return Stmt.ifThen condition' thenBranch) tokens rest E) :
    Slips (statement (fuel + 1)) (keyword :: opening :: (u ++ closing :: tokens)) rest E := by
  rw [statement]
  apply slips_peek_cons_bind
  rw [hkeyword]
  apply (accepts_advance keyword).slips_bind
  intro _ _
  exact slips_condition_bind hopening hcondition hclosing hbranches

theorem slip_ifThen {keyword opening closing : Token} {condition : Expr} {isOpen : Bool}
    {thenBranch : Stmt} (hkeyword : keyword.kind = .ifKw) (hopening : opening.kind = .leftParen)
    (hcondition : Spelled (.expr .assignment condition) u) (hclosing : closing.kind = .rightParen)
    (hthen : SlipPhrase behind next (.statement isOpen thenBranch) v w) :
    SlipPhrase behind next (.statement true (.ifThen condition thenBranch))
      (keyword :: opening :: (u ++ closing :: v)) w := by
  rintro (_ | fuel) rest hrest helse
  · exact slips_exhausted
  · simp only [List.cons_append, List.append_assoc]
    apply slips_if hkeyword hopening hcondition hclosing
    intro condition'
    apply (hthen fuel rest hrest fun _ => helse rfl).bind (v := []) (Q := fun _ => True)
    intro thenBranch'
    apply Accepts.bind (v := []) (accepts_accept_not (helse rfl))
    rintro _ rfl
    exact accepts_pure trivial

theorem slip_thenBranch {keyword opening closing elseKeyword : Token} {condition : Expr}
    {isOpen : Bool} {thenBranch elseBranch : Stmt} (hkeyword : keyword.kind = .ifKw)
    (hopening : opening.kind = .leftParen) (hcondition : Spelled (.expr .assignment condition) u)
    (hclosing : closing.kind = .rightParen)
    (hthen : SlipPhrase behind next (.statement false thenBranch) v w)
    (helseKeyword : elseKeyword.kind = .elseKw) (helse : Spelled (.statement isOpen elseBranch) x)
    (hnext : firstKind next ≠ .elseKw) :
    SlipPhrase behind next (.statement isOpen (.ifElse condition thenBranch elseBranch))
      (keyword :: opening :: (u ++ closing :: v)) (w ++ elseKeyword :: x) := by
  rintro (_ | fuel) rest hrest hopen
  · exact slips_exhausted
  · rw [List.append_assoc, List.cons_append] at hrest
    simp only [List.cons_append, List.append_assoc]
    apply slips_if hkeyword hopening hcondition hclosing
    intro condition'
    -- a failure would leave the `else` behind
    have hnone : ∀ ahead, w = [] ∧ Cursor.resume ahead = next →
        w ++ elseKeyword :: x = [] ∧ Cursor.resume ahead = next := by
      rintro _ ⟨rfl, -⟩
      rw [hrest, List.nil_append, firstKind_cons] at hnext
      exact absurd helseKeyword hnext
    apply ((hthen fuel (elseKeyword :: (x ++ rest)) hrest (by simp)).mono hnone).bind
      (v := elseKeyword :: x)
    intro thenBranch'
    apply (accepts_accept helseKeyword).bind
    rintro _ rfl
    exact (readPhrase_of_spelled helse fuel rest hopen).bind_done

theorem slip_elseBranch {keyword opening closing elseKeyword : Token} {condition : Expr}
    {isOpen : Bool} {thenBranch elseBranch : Stmt} (hkeyword : keyword.kind = .ifKw)
    (hopening : opening.kind = .leftParen) (hcondition : Spelled (.expr .assignment condition) u)
    (hclosing : closing.kind = .rightParen) (hthen : Spelled (.statement false thenBranch) v)
    (helseKeyword : elseKeyword.kind = .elseKw)
    (helse : SlipPhrase behind next (.statement isOpen elseBranch) w x) :
    SlipPhrase behind next (.statement isOpen (.ifElse condition thenBranch elseBranch))
      (keyword :: opening :: (u ++ closing :: (v ++ elseKeyword :: w))) x := by
  rintro (_ | fuel) rest hrest hopen
  · exact slips_exhausted
  · simp only [List.cons_append, List.append_assoc]
    apply slips_if hkeyword hopening hcondition hclosing
    intro condition'
    apply (readPhrase_of_spelled hthen fuel (elseKeyword :: (w ++ behind)) (by simp)).slips_bind
    intro thenBranch' _
    apply (accepts_accept helseKeyword).slips_bind
    rintro _ rfl
    exact (helse fuel rest hrest hopen).bind_pure

theorem slip_whileLoop {keyword opening closing : Token} {condition : Expr} {isOpen : Bool}
    {body : Stmt} (hkeyword : keyword.kind = .whileKw) (hopening : opening.kind = .leftParen)
    (hcondition : Spelled (.expr .assignment condition) u) (hclosing : closing.kind = .rightParen)
    (hbody : SlipPhrase behind next (.statement isOpen body) v w) :
    SlipPhrase behind next (.statement isOpen (.whileLoop condition body))
      (keyword :: opening :: (u ++ closing :: v)) w := by
  rintro (_ | fuel) rest hrest hopen
  · exact slips_exhausted
  · rw [statement]
    simp only [List.cons_append, List.append_assoc]
    apply slips_peek_cons_bind
    rw [hkeyword]
    apply (accepts_advance keyword).slips_bind
    intro _ _
    apply slips_condition_bind hopening hcondition hclosing
    intro condition'
    exact (hbody fuel rest hrest hopen).bind_pure

theorem slip_forLoop (id : Nat) {keyword opening semicolon closing : Token} {start : Option Stmt}
    {condition increment : Option Expr} {isOpen : Bool} {body : Stmt}
    (hkeyword : keyword.kind = .forKw) (hopening : opening.kind = .leftParen)
    (hstart : Spelled (.forStart start) u) (hcondition : Spelled (.optional condition) v)
    (hsemicolon : semicolon.kind = .semicolon) (hincrement : Spelled (.optional increment) w)
    (hclosing : closing.kind = .rightParen)
    (hbody : SlipPhrase behind next (.statement isOpen body) x y) :
    SlipPhrase behind next (.statement isOpen (forLoop start
        (condition.getD (.literal id (.bool true))) increment body))
      (keyword :: opening :: (u ++ (v ++ semicolon :: (w ++ closing :: x)))) y := by
  rintro (_ | fuel) rest hrest hopen
  · exact slips_exhausted
  · rw [statement]
    simp only [List.cons_append, List.append_assoc]
    apply slips_peek_cons_bind
    rw [hkeyword]
    apply (accepts_advance keyword).slips_bind
    intro _ _
    have htokens : opening :: (u ++ (v ++ semicolon :: (w ++ closing :: (x ++ behind)))) =
        opening :: (u ++ (v ++ semicolon :: (w ++ [closing]))) ++ (x ++ behind) := by simp
    rw [htokens]
    apply (accepts_forClauses hopening (readPhrase_of_spelled hstart)
      (readPhrase_of_spelled hcondition) hsemicolon (readPhrase_of_spelled hincrement)
      hclosing).slips_bind
    rintro clauses ⟨-, hcondition', -⟩
    apply (hbody fuel rest hrest hopen).bind (v := [])
    intro body'
    exact (accepts_conditionOrTrue id hcondition').bind_done

theorem slip_block {opening closing : Token} {body : List Stmt}
    (hopening : opening.kind = .leftBrace) (h : SlipPhrase behind next (.declarations body) u v)
    (hclosing : closing.kind = .rightBrace) :
    SlipPhrase behind next (.block body) (opening :: u) (v ++ [closing]) := by
  refine ⟨opening, u, rfl, hopening, ?_⟩
  rintro (_ | fuel) rest hrest
  · exact slips_exhausted
  · rw [List.append_assoc] at hrest
    rw [block]
    apply (h fuel .rightBrace (closing :: rest) (.inr rfl) hclosing hrest).bind (v := [closing])
    exact fun _ => (accepts_want _ hclosing).bind_done

theorem slip_classDecl {keyword name opening closing : Token} {methods : List FunctionDecl}
    (hkeyword : keyword.kind = .classKw) (hname : name.kind = .identifier)
    (hopening : opening.kind = .leftBrace) (h : SlipPhrase behind next (.routines methods) u v)
    (hclosing : closing.kind = .rightBrace) :
    SlipPhrase behind next (.declaration (.classDecl name methods))
      (keyword :: name :: opening :: u) (v ++ [closing]) := by
  rintro (_ | fuel) rest hrest -
  · exact slips_exhausted
  · rw [List.append_assoc] at hrest
    rw [declared]
    apply slips_nextKind_bind
    simp only [List.cons_append, firstKind_cons, hkeyword]
    apply (accepts_advance keyword).slips_bind
    intro _ _
    apply (accepts_want _ hname).slips_bind
    rintro _ rfl
    apply (accepts_want _ hopening).slips_bind
    rintro _ -
    apply ((h fuel (closing :: rest) hrest hclosing).mono fun _ h => h.elim).bind
      (v := [closing])
    exact fun _ => (accepts_want _ hclosing).bind_done

theorem slip_funDecl {keyword : Token} {declaration : FunctionDecl}
    (hkeyword : keyword.kind = .funKw) (h : SlipPhrase behind next (.routine declaration) u v) :
    SlipPhrase behind next (.declaration (.funDecl declaration)) (keyword :: u) v := by
  rintro (_ | fuel) rest hrest -
  · exact slips_exhausted
  · rw [declared]
    apply slips_nextKind_bind
    simp only [List.cons_append, firstKind_cons, hkeyword]
    apply (accepts_advance keyword).slips_bind
    intro _ _
    exact ((h fuel .function rest hrest).mono fun _ h => h.elim).bind_pure

theorem slip_stated {isOpen : Bool} {stmt : Stmt} (hstart : (firstKind u).startsStatement = true)
    (h : SlipPhrase behind next (.statement isOpen stmt) u v) :
    SlipPhrase behind next (.declaration stmt) u v := by
  rintro (_ | fuel) rest hrest helse
  · exact slips_exhausted
  · rw [declared]
    apply slips_nextKind_bind
    rw [firstKind_append (ne_nil_of_firstKind hstart rfl)]
    split
    case h_4 => exact h fuel rest hrest fun _ => helse
    all_goals next hkind => exact absurd hstart (by rw [hkind]; decide)

/-- A declaration that fails is one fault and skipped. -/
theorem Slips.declaration {tokens rest : List Token} {fuel : Nat}
    (h : Slips (declared fuel) tokens rest fun ahead => Cursor.resume ahead = rest) :
    Slips (declaration (fuel + 1)) tokens rest fun _ => False := by
  intro c hahead
  rw [Reading.declaration, Action.ensures_bind, Action.ensures_attempt]
  apply (h c hahead).mono
  · exact fun _ _ hread => hread
  · rintro fault c' ⟨hfaults, hresume⟩
    refine ⟨?_, ?_⟩
    · rw [Cursor.ahead_synchronize, Cursor.ahead_report, hresume]
    · rw [Cursor.faults_synchronize, Cursor.faults_report, Array.size_push, hfaults]

theorem slips_declarations {tokens rest : List Token} {E : List Token → Prop} {fuel : Nat}
    {stop : Kind} (hstart : (firstKind tokens).startsDeclaration = true)
    (hstop : stop = .eof ∨ stop = .rightBrace)
    (h : Slips (do
      let stmt ← declaration fuel
      return stmt.toList ++ (← declarations fuel stop)) tokens rest E) :
    Slips (declarations (fuel + 1) stop) tokens rest E := by
  have hne := ne_nil_of_firstKind hstart rfl
  have hmore := ne_stop_of_startsDeclaration hstart hstop
  rw [declarations]
  apply slips_isAtEnd_bind
  apply slips_nextKind_bind
  rw [if_neg (by simp [hne, hmore])]
  exact h

theorem slip_declaration {stmt : Stmt} {stmts : List Stmt}
    (hstart : (firstKind u).startsDeclaration = true)
    (h : SlipPhrase behind next (.declaration stmt) u v)
    (hstmts : Spelled (.declarations stmts) w) :
    SlipPhrase behind next (.declarations (stmt :: stmts)) u (v ++ w) := by
  rintro (_ | fuel) stop rest hstop hrest hresume
  · exact slips_exhausted
  · rw [List.append_assoc] at hresume
    apply slips_declarations (by rwa [firstKind_append (ne_nil_of_firstKind hstart rfl)]) hstop
    have hdeclaration : Slips (declaration fuel) (u ++ behind) (w ++ rest) fun _ => False := by
      cases fuel with
      | zero => exact slips_exhausted
      | succ fuel =>
        have helse := firstKind_declarations_ne_else hstmts hstop hrest
        apply ((h fuel _ hresume helse).mono _).declaration
        rintro ahead ⟨rfl, hnext⟩
        exact hnext.trans hresume
    apply hdeclaration.bind
    intro found
    exact (readPhrase_of_spelled hstmts fuel stop rest hstop hrest).bind_done

theorem slip_declarations {stmt : Stmt} {stmts : List Stmt}
    (hstmt : Spelled (.declaration stmt) u) (hstart : (firstKind v).startsDeclaration = true)
    (h : SlipPhrase behind next (.declarations stmts) v w) :
    SlipPhrase behind next (.declarations (stmt :: stmts)) (u ++ v) w := by
  rintro (_ | fuel) stop rest hstop hrest hresume
  · exact slips_exhausted
  · have hfirst : (firstKind u).startsDeclaration = true := hstmt.starts
    have helse : firstKind (v ++ behind) ≠ .elseKw := by
      rw [firstKind_append (ne_nil_of_firstKind hstart rfl)]
      intro hkind
      rw [hkind] at hstart
      exact absurd hstart (by decide)
    rw [List.append_assoc]
    apply slips_declarations (by rwa [firstKind_append (ne_nil_of_firstKind hfirst rfl)]) hstop
    apply (accepts_declaration (readPhrase_of_spelled hstmt) helse fuel).slips_bind
    rintro _ -
    exact (h fuel stop rest hstop hrest hresume).bind_pure

theorem slip_routine {name opening closing : Token} {params : List Token} {body : List Stmt}
    (hname : name.kind = .identifier) (hopening : opening.kind = .leftParen)
    (hparams : Spelled (.parameters params) u) (hlength : params.length ≤ maxArity)
    (hclosing : closing.kind = .rightParen) (hbody : SlipPhrase behind next (.block body) v w) :
    SlipPhrase behind next (.routine ⟨name, params, body⟩)
      (name :: opening :: (u ++ closing :: v)) w := by
  obtain ⟨brace, x, rfl, hbrace, hblock⟩ := hbody
  rintro (_ | fuel) kind rest hrest
  · exact slips_exhausted
  · rw [routine]
    simp only [List.cons_append, List.append_assoc]
    apply (accepts_want _ hname).slips_bind
    rintro _ rfl
    apply (accepts_want _ hopening).slips_bind
    rintro _ -
    apply (accepts_routine_parameters (closing :: brace :: (x ++ behind)) hparams
      (readPhrase_of_spelled hparams) hlength hclosing).slips_bind
    rintro _ -
    apply (accepts_want _ hclosing).slips_bind
    rintro _ -
    apply (accepts_want _ hbrace).slips_bind
    rintro _ -
    exact (hblock fuel rest hrest).bind_pure

theorem slips_methods {tokens rest : List Token} {E : List Token → Prop} {fuel : Nat}
    (hstart : firstKind tokens = .identifier)
    (h : Slips (do
      let method ← routine fuel .method
      return method :: (← methods fuel)) tokens rest E) :
    Slips (methods (fuel + 1)) tokens rest E := by
  have hne : tokens ≠ [] := by
    rintro rfl
    cases hstart
  rw [methods]
  apply slips_isAtEnd_bind
  apply slips_nextKind_bind
  rw [if_neg (by simp [hne, hstart])]
  exact h

theorem slip_method {declaration : FunctionDecl} {declarations : List FunctionDecl}
    (hstart : firstKind u = .identifier) (h : SlipPhrase behind next (.routine declaration) u v)
    (hs : Spelled (.routines declarations) w) :
    SlipPhrase behind next (.routines (declaration :: declarations)) u (v ++ w) := by
  rintro (_ | fuel) rest hresume hrest
  · exact slips_exhausted
  · have hne : u ≠ [] := by
      rintro rfl
      cases hstart
    rw [List.append_assoc] at hresume
    apply slips_methods (by rwa [firstKind_append hne])
    apply (h fuel .method (w ++ rest) hresume).bind
    intro declaration'
    exact (readPhrase_of_spelled hs fuel rest hrest).bind_done

theorem slip_methods {declaration : FunctionDecl} {declarations : List FunctionDecl}
    (h : Spelled (.routine declaration) u)
    (hs : SlipPhrase behind next (.routines declarations) v w) :
    SlipPhrase behind next (.routines (declaration :: declarations)) (u ++ v) w := by
  rintro (_ | fuel) rest hresume hrest
  · exact slips_exhausted
  · have hstart : firstKind u = .identifier := h.starts
    have hne : u ≠ [] := by
      rintro rfl
      cases hstart
    rw [List.append_assoc]
    apply slips_methods (by rwa [firstKind_append hne])
    apply (readPhrase_of_spelled h fuel .method (v ++ behind)).slips_bind
    intro declaration' _
    exact (hs fuel rest hresume hrest).bind_pure

/-- If the smaller piece is read so, the piece that it is enclosed in is too. -/
theorem slipPhrase_of_encloses {P : Phrase → List Token → List Token → Prop}
    (hP : ∀ {phrase u v}, P phrase u v → SlipPhrase behind next phrase u v)
    (helse : firstKind next ≠ .elseKw) {phrase : Phrase} (h : Encloses P phrase u v) :
    SlipPhrase behind next phrase u v := by
  induction h with
  | here h => exact hP h
  | braced _ ih => exact slip_braced ih
  | ifThen hkeyword hopening hcondition hclosing _ ih =>
    exact slip_ifThen hkeyword hopening hcondition hclosing ih
  | thenBranch hkeyword hopening hcondition hclosing _ helseKeyword hbranch ih =>
    exact slip_thenBranch hkeyword hopening hcondition hclosing ih helseKeyword hbranch helse
  | elseBranch hkeyword hopening hcondition hclosing hthen helseKeyword _ ih =>
    exact slip_elseBranch hkeyword hopening hcondition hclosing hthen helseKeyword ih
  | whileLoop hkeyword hopening hcondition hclosing _ ih =>
    exact slip_whileLoop hkeyword hopening hcondition hclosing ih
  | forLoop id hkeyword hopening hstart hcondition hsemicolon hincrement hclosing _ ih =>
    exact slip_forLoop id hkeyword hopening hstart hcondition hsemicolon hincrement hclosing ih
  | block hopening _ hclosing ih => exact slip_block hopening ih hclosing
  | classDecl hkeyword hname hopening _ hclosing ih =>
    exact slip_classDecl hkeyword hname hopening ih hclosing
  | funDecl hkeyword _ ih => exact slip_funDecl hkeyword ih
  | stated hstart _ ih => exact slip_stated hstart ih
  | declaration hstart _ hstmts ih => exact slip_declaration hstart ih hstmts
  | declarations hstmt hstart _ ih => exact slip_declarations hstmt hstart ih
  | routine hname hopening hparams hlength hclosing _ ih =>
    exact slip_routine hname hopening hparams hlength hclosing ih
  | method hstart _ hs ih => exact slip_method hstart ih hs
  | methods h _ ih => exact slip_methods h ih

/-- Whatever the semicolon is missing in, it is one fault at most. -/
theorem slipPhrase_of_semicolon {phrase : Phrase} (h : Semicolon phrase u v)
    (hbehind : Boundary behind) (helse : firstKind (Cursor.resume behind) ≠ .elseKw) :
    SlipPhrase behind (Cursor.resume behind) phrase u v := by
  apply slipPhrase_of_encloses _ helse h
  rintro _ _ _ (h | ⟨hkeyword, h⟩ | ⟨hkeyword, h⟩ | ⟨hkeyword, hname, h⟩)
  · exact slip_expression h hbehind
  · exact slip_print hkeyword h hbehind
  · exact slip_returnStmt hkeyword h hbehind
  · exact slip_varDecl hkeyword hname h hbehind

end Pieces

theorem firstKind_ne_of_noElse {tokens : List Token} (h : NoElse tokens) :
    firstKind tokens ≠ .elseKw := by
  cases tokens with
  | nil => simp
  | cons token tokens => exact h token rfl

end Reading

namespace Program

variable {before behind u v : List Token} {semicolon : Token} {firstId : Nat}

theorem faults_length_le_one_of_slips {tokens : List Token}
    (h : ∀ fuel, Reading.Slips (Reading.declarations fuel .eof) (tokens.takeWhile (·.kind ≠ .eof))
      [] fun _ => False) :
    (ofTokens tokens firstId).faults.length ≤ 1 := by
  obtain ⟨c, -, hfaults, -, hdone⟩ := exists_read tokens firstId
  obtain ⟨-, hone⟩ := (h _ (Cursor.start tokens firstId) (Cursor.ahead_start _ _)).of_done
    (hdone _ (Nat.le_refl _))
  rw [← hfaults]
  exact hone

theorem faults_eq_nil_of_takeWhile_eq {tokens tokens' : List Token}
    (heq : tokens'.takeWhile (·.kind ≠ .eof) = tokens.takeWhile (·.kind ≠ .eof))
    (h : (ofTokens tokens firstId).faults = []) : (ofTokens tokens' firstId).faults = [] := by
  have hspelled := spelled_of_faults_eq_nil h
  rw [← heq] at hspelled
  exact (ofTokens_of_spelled hspelled firstId).1

/-- Behind an end token, nothing is read. -/
theorem faults_eq_nil_of_eof (hend : ¬ ∀ token ∈ before, token.kind ≠ .eof)
    (h : (ofTokens (before ++ u) firstId).faults = []) (v : List Token) :
    (ofTokens (before ++ v) firstId).faults = [] := by
  have hpass (tokens : List Token) : (before ++ tokens).takeWhile (·.kind ≠ .eof) =
      before.takeWhile (·.kind ≠ .eof) := by
    rw [List.takeWhile_append, if_neg]
    intro hlength
    have hall := List.takeWhile_eq_self_iff.mp ((List.takeWhile_prefix _).eq_of_length hlength)
    exact hend (by simpa using hall)
  exact faults_eq_nil_of_takeWhile_eq ((hpass v).trans (hpass u).symm) h

/-- Without one of its semicolons, a program has one fault at most, if it can be read without the
tokens that are skipped and no `else` comes behind them. -/
theorem faults_length_le_one_of_semicolon_removed (hsemicolon : semicolon.kind = .semicolon)
    (hread : (ofTokens (before ++ semicolon :: behind) firstId).faults = [])
    (hskipped : (ofTokens (before ++ semicolon ::
      Cursor.resume (behind.takeWhile (·.kind ≠ .eof))) firstId).faults = [])
    (helse : Reading.NoElse (Cursor.resume (behind.takeWhile (·.kind ≠ .eof)))) :
    (ofTokens (before ++ behind) firstId).faults.length ≤ 1 := by
  by_cases hend : ∀ token ∈ before, token.kind ≠ .eof
  · have hspelled := spelled_of_faults_eq_nil hread
    have hspelled' := spelled_of_faults_eq_nil hskipped
    obtain ⟨rest, hrest⟩ : ∃ rest, rest = behind.takeWhile (·.kind ≠ .eof) := ⟨_, rfl⟩
    have hkind : ∀ token ∈ rest, token.kind ≠ .eof := fun token hmem =>
      Cursor.kind_ne_eof_of_mem_takeWhile (hrest ▸ hmem)
    have hwhole : (Cursor.resume rest).takeWhile (·.kind ≠ .eof) = Cursor.resume rest :=
      List.takeWhile_eq_self_iff.mpr (by simpa using Cursor.kind_ne_eof_of_mem_resume hkind)
    have hbefore : ∀ token ∈ before, decide (token.kind ≠ .eof) = true := by simpa using hend
    rw [List.takeWhile_append_of_pos hbefore,
      List.takeWhile_cons_of_pos (by simp [hsemicolon])] at hspelled hspelled'
    rw [← hrest] at hspelled hspelled' helse
    rw [hwhole] at hspelled'
    -- the place is found in what was read, and again in what is left of it
    obtain ⟨hplace, hplace'⟩ := hspelled.semicolon_resume hspelled' hsemicolon
    have hbehind := hplace.boundary (.inr .nil)
    rw [List.append_nil] at hbehind
    have hslips := Reading.slipPhrase_of_semicolon hplace' hbehind
      (Reading.firstKind_ne_of_noElse helse)
    apply faults_length_le_one_of_slips
    rw [List.takeWhile_append_of_pos hbefore, ← hrest]
    exact fun fuel => hslips fuel .eof [] (.inl rfl) rfl (List.append_nil _).symm
  · rw [faults_eq_nil_of_eof hend hread]
    exact Nat.zero_le 1

/-- `print true` without its semicolon. -/
def unendedPrint : List Token := [⟨.printKw, "print", 1⟩, ⟨.trueKw, "true", 1⟩]

/-- `{ print true` -/
def openedPrint : List Token := ⟨.leftBrace, "\x7b", 1⟩ :: unendedPrint

/-- `print true; }` -/
def closedPrint : List Token := plainPrint ++ [⟨.rightBrace, "\x7d", 1⟩]

theorem faults_length_le_one_in_block :
    (ofTokens (openedPrint ++ ⟨.semicolon, ";", 1⟩ :: closedPrint) 0).faults = [] ∧
    (ofTokens (openedPrint ++ closedPrint) 0).faults.length ≤ 1 := by
  have hread : (ofTokens (openedPrint ++ ⟨.semicolon, ";", 1⟩ :: closedPrint) 0).faults = [] := by
    decide +kernel
  have hskipped : (ofTokens (openedPrint ++ ⟨.semicolon, ";", 1⟩ ::
      Cursor.resume (closedPrint.takeWhile (·.kind ≠ .eof))) 0).faults = [] := by
    decide +kernel
  exact ⟨hread, faults_length_le_one_of_semicolon_removed rfl hread hskipped
    (by simp [Reading.NoElse, closedPrint, plainPrint, Cursor.resume, Cursor.startsStatement])⟩

/-- `fun f() { print true; }` -/
def printer : List Token :=
  [⟨.funKw, "fun", 1⟩, ⟨.identifier, "f", 1⟩, ⟨.leftParen, "(", 1⟩, ⟨.rightParen, ")", 1⟩,
    ⟨.leftBrace, "\x7b", 1⟩] ++ closedPrint

/-- The keyword behind a missing semicolon is skipped, and what is left of the function is a second
fault. -/
theorem faults_before_function :
    (ofTokens (unendedPrint ++ ⟨.semicolon, ";", 1⟩ :: printer) 0).faults = [] ∧
    (ofTokens (unendedPrint ++ printer) 0).faults =
      [⟨⟨.funKw, "fun", 1⟩, .expect .printEnd⟩,
        ⟨⟨.rightBrace, "\x7d", 1⟩, .expect .expression⟩] := by
  decide +kernel

end Program

end LoxLang
