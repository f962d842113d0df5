import LoxLang.Proofs.Lexical.Freshness
import LoxLang.Proofs.Lexical.Waiting
import LoxLang.Proofs.Session.Correspondence

/-!
# Loops in sessions

In every session, the `for` loops of the sources that are run mean what is written
(`transcript_eq_loops`): each run comes to the same as one in which the rounds of a loop share one
scope, and no block stands around the loop or around its body.
-/
namespace LoxLang

/-- What stands where a statement is required declares nothing there, and so do its branches. -/
theorem Stmt.Formed.declaresHere_eq {G : Token → Prop} : ∀ {stmt : Stmt}, stmt.Formed G →
    stmt.isDeclaration = false → stmt.declaresHere = false
  | .expression _, _, _ | .print _, _, _ | .block _, _, _ | .returnStmt _ _, _, _ => rfl
  | .varDecl _ _, _, h | .funDecl _, _, h | .classDecl _ _, _, h => nomatch h
  | .ifThen _ thenBranch, hform, _ => hform.2.2.declaresHere_eq hform.2.1
  | .ifElse _ thenBranch elseBranch, hform, _ => by
    obtain ⟨-, ⟨hthen, hform₁⟩, helse, hform₂⟩ := hform
    simp [declaresHere, hform₁.declaresHere_eq hthen, hform₂.declaresHere_eq helse]
  | .whileLoop _ body, hform, _ => hform.2.2.declaresHere_eq hform.2.1

namespace Reading

/-- What is read at a `for` is the statement of the loop with the clauses and the body that follow,
and the body declares nothing around itself. -/
theorem statement_for {fuel : Nat} {c c' : Cursor} {stmt : Stmt} (hfor : c.peek.kind = .forKw)
    (h : statement (fuel + 1) c = .done stmt c') :
    ∃ (l : ForLoop) (id : Nat) (c₁ c₂ : Cursor),
      forClauses fuel c.advance = .done l.toForClauses c₁ ∧
      statement fuel c₁ = .done l.body c₂ ∧ l.body.declaresHere = false ∧
      stmt = l.statement id := by
  have hbehind : c.advance.Holds fun _ => True := fun _ _ => trivial
  rw [statement] at h
  obtain ⟨token, c₀, hpeek, h⟩ := Action.bind_eq_done_iff.mp h
  cases hpeek
  simp only [hfor] at h
  obtain ⟨⟨⟩, c₀, hadvance, h⟩ := Action.bind_eq_done_iff.mp h
  cases hadvance
  obtain ⟨clauses, c₁, hclauses, h⟩ := Action.bind_eq_done_iff.mp h
  obtain ⟨body, c₂, hbody, h⟩ := Action.bind_eq_done_iff.mp h
  obtain ⟨condition, c₃, hcondition, h⟩ := Action.bind_eq_done_iff.mp h
  cases h
  have hc₁ := ((yields_forClauses fuel _ hbehind).of_done hclauses).1
  have hform := (((statementsForm _ fuel).statement _ hc₁).of_done hbody).2
  refine ⟨⟨clauses, body⟩, c₂.nextId, c₁, c₂, hclauses, hbody, hform.2.declaresHere_eq hform.1, ?_⟩
  obtain ⟨initializer, present, increment⟩ := clauses
  cases present with
  | none =>
    cases hcondition
    rfl
  | some present =>
    cases hcondition
    rfl

end Reading
namespace Session

theorem follows_loops (loops : Lexical.Loops) :
    Lexical.Follows (fun _ => True) loops.program := by
  intro V hV fuel c stmts hcurrent hform hmet
  exact Lexical.Loops.agree_program loops (fun x hx => (hV x hx).1) fuel hcurrent hform hmet

/-- Loops mean what is written. Whatever statements are taken for `for` loops, each run of a session
has the same faults and the same output as if they were executed as loops, and each of these
statements ends in the same way and leaves the same state. What is read at a `for` can be taken for
the loop with the clauses and the body that follow, whatever else is. Of two functions that the body
of a loop declares in different rounds, each keeps what is visible around the body, and shares
nothing else with the other. -/
theorem transcript_eq_loops (sink : Sink) (readings : Nat → Float) :
    (∀ (loops : Lexical.Loops) (runs : List (Nat × String)),
      (start sink readings).transcript runs =
        (Lexical.Session.start sink readings).transcriptWith loops.program runs) ∧
    (∀ (loops : Lexical.Loops) (fuel : Nat), loops.exec fuel = Lexical.Loops.plain.exec fuel) ∧
    (∀ (loops : Lexical.Loops) (fuel : Nat) (c c' : Cursor) (stmt : Stmt),
      c.peek.kind = .forKw → Reading.statement (fuel + 1) c = .done stmt c' →
        ∃ (l : ForLoop) (c₁ c₂ : Cursor),
          Reading.forClauses fuel c.advance = .done l.toForClauses c₁ ∧
          Reading.statement fuel c₁ = .done l.body c₂ ∧
          ∃ loops' : Lexical.Loops, loops'.written? stmt = some l ∧
            ∀ other, other ≠ stmt → loops'.written? other = loops.written? other) ∧
    ∀ (loops : Lexical.Loops) (fuel fuel' : Nat) (scope : Lexical.Scope) (stmts : List Stmt)
      (t₁ u₁ t₂ u₂ : Lexical.Store) (f₁ f₂ : Lexical.Closure),
      Lexical.Loops.Declares loops fuel scope stmts t₁ f₁ u₁ → u₁.cells.size ≤ t₂.cells.size →
      Lexical.Loops.Declares loops fuel' scope stmts t₂ f₂ u₂ →
        ∃ own₁ own₂, f₁.scope.names = own₁ ++ scope.names ∧ f₂.scope.names = own₂ ++ scope.names ∧
          ∀ x ∈ own₁, ∀ y ∈ own₂, x.2 ≠ y.2 := by
  refine ⟨?_, ?_, ?_, ?_⟩
  · intro loops runs
    exact (alike_start _ sink readings).transcriptWith_eq (Leads.refl _) (follows_loops loops)
      fun _ _ _ _ _ => trivial
  · intro loops fuel
    exact (Lexical.Loops.unfolds loops fuel).exec
  · intro loops fuel c c' stmt hfor h
    obtain ⟨l, id, c₁, c₂, hclauses, hbody, hdeclares, rfl⟩ := Reading.statement_for hfor h
    exact ⟨l, c₁, c₂, hclauses, hbody, loops.exists_written l id hdeclares⟩
  · intro loops fuel fuel' scope stmts t₁ u₁ t₂ u₂ f₁ f₂ h₁ hlater h₂
    exact h₁.apart hlater h₂

/-- In its second round, this loop calls the functions of both rounds: they share the variable of
the loop, and each has the one that its own round declares. -/
def twoRounds : String :=
  "var kept; for (var i = \"a\"; i != \"aaa\"; i = i + \"a\") \x7b var j = i; " ++
    "fun f() \x7b print i; print j; \x7d if (i == \"a\") kept = f; else \x7b kept(); f(); \x7d \x7d"

def bareLoop : List Token :=
  [⟨.forKw, "for", 1⟩, ⟨.leftParen, "(", 1⟩, ⟨.semicolon, ";", 1⟩, ⟨.semicolon, ";", 1⟩,
    ⟨.rightParen, ")", 1⟩, ⟨.printKw, "print", 1⟩, ⟨.nilKw, "nil", 1⟩, ⟨.semicolon, ";", 1⟩]

/-- A function that a round of a loop declares, with the variable of the loop around it. -/
def declaredIn (location : Nat) : Lexical.Closure :=
  ⟨⟨⟨.identifier, "f", 1⟩, [], []⟩, ⟨true, [("f", location), ("i", 0)]⟩, false⟩

/-- A state in which these local variables have been declared. -/
def afterRounds (cells : Array Value) : Lexical.Store :=
  { Lexical.Store.initial .unlimited (fun _ => 0) with cells }

theorem transcript_eq_loops_twoRounds :
    (((Lexical.Session.start .unlimited fun _ => 0).transcriptWith
      Lexical.Loops.everywhere.program [(16, twoRounds)]).map
        (Option.map fun (report, text) => (report.messages, text)) =
      [some ([], "aa\na\naa\naa\n")]) ∧
    (∃ (loops : Lexical.Loops), loops.written?
      (.whileLoop (.literal 1 (.bool true)) (.print (.literal 0 .nil))) =
        some ⟨⟨none, none, none⟩, .print (.literal 0 .nil)⟩) ∧
    ∃ own₁ own₂, (declaredIn 1).scope.names = own₁ ++ [("i", 0)] ∧
      (declaredIn 2).scope.names = own₂ ++ [("i", 0)] ∧ ∀ x ∈ own₁, ∀ y ∈ own₂, x.2 ≠ y.2 := by
  obtain ⟨htranscript, -, hwritten, hdeclares⟩ := transcript_eq_loops .unlimited fun _ => 0
  refine ⟨?_, ?_, ?_⟩
  · rw [← htranscript]
    decide +kernel
  · obtain ⟨⟨clauses, body⟩, c₁, c₂, hclauses, hbody, loops, hl, -⟩ :=
      hwritten .plain 31 (Cursor.start bareLoop 0) _ _ rfl rfl
    obtain ⟨rfl, rfl⟩ := Outcome.done.inj hclauses
    obtain ⟨rfl, -⟩ := Outcome.done.inj hbody
    exact ⟨loops, hl⟩
  · have hfirst : Lexical.Loops.Declares .plain 1 ⟨true, [("i", 0)]⟩
        [.funDecl (declaredIn 1).declaration] (afterRounds #[.nil]) (declaredIn 1) _ :=
      .here rfl rfl
    have hsecond : Lexical.Loops.Declares .plain 1 ⟨true, [("i", 0)]⟩
        [.funDecl (declaredIn 2).declaration] (afterRounds #[.nil, .function 0]) (declaredIn 2) _ :=
      .here rfl rfl
    refine hdeclares .plain 1 1 _ _ _ _ _ _ _ _ hfirst ?_ hsecond
    exact Nat.le_refl 2

end Session
end LoxLang
