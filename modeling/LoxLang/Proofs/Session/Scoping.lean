import LoxLang.Proofs.Session.Correspondence

/-!
# Names are bound by the text

Whatever is run in a session, one source after the other, each run comes to the same as with
persistent scopes: the same faults, the same text (`transcript_eq_lexical`). So what a name stands
for is told by the text around it, and by nothing that happens later.
-/
namespace LoxLang

/-- The source assigns a local variable inside its own initializer. -/
def AssignsOwn (source : String) : Prop :=
  ∃ firstId, Stmt.anyAssignsOwn false
    (Program.ofTokens (scannedTokens (scan source)) firstId).statements = true

namespace Session

theorem allows_of_not_assignsOwn {source : String} (hown : ¬ AssignsOwn source) :
    Allows (fun x => x.assignsWaiting = false) source := by
  intro firstId
  apply Stmt.not_assignsWaitingAll Scopes.ready_nil false false (by simp)
  by_contra hsome
  exact hown ⟨firstId, by simpa using hsome⟩

theorem follows_program :
    Lexical.Follows (fun x => x.assignsWaiting = false) Lexical.Run.program := by
  intro V hV fuel c stmts hcurrent hform hmet
  exact Lexical.agree_program hV fuel hcurrent hform hmet

/-- Lexical scoping. Whatever sources are run in a session one after the other, if none of them
assigns a local variable inside its own initializer, each run has the same faults and the same
output, and ends in the same way, as a run with persistent scopes. -/
theorem transcript_eq_lexical (sink : Sink) (readings : Nat → Float) {runs : List (Nat × String)}
    (hown : ∀ run ∈ runs, ¬ AssignsOwn run.2) :
    (start sink readings).transcript runs =
      (Lexical.Session.start sink readings).transcript runs := by
  rw [Lexical.Session.transcript_eq_transcriptWith]
  apply (alike_start _ sink readings).transcriptWith_eq (Leads.refl _) follows_program
  exact fun run hrun => allows_of_not_assignsOwn (hown run hrun)

/-- A function that uses a global; a variable of the same name is declared behind it. -/
def lateDeclaration : String := "var a = true; { fun f() { print a; } var a; f(); }"

theorem scannedTokens_lateDeclaration : scannedTokens (scan lateDeclaration) =
    [⟨.varKw, "var", 1⟩, ⟨.identifier, "a", 1⟩, ⟨.equal, "=", 1⟩, ⟨.trueKw, "true", 1⟩,
      ⟨.semicolon, ";", 1⟩, ⟨.leftBrace, "\x7b", 1⟩, ⟨.funKw, "fun", 1⟩, ⟨.identifier, "f", 1⟩,
      ⟨.leftParen, "(", 1⟩, ⟨.rightParen, ")", 1⟩, ⟨.leftBrace, "\x7b", 1⟩, ⟨.printKw, "print", 1⟩,
      ⟨.identifier, "a", 1⟩, ⟨.semicolon, ";", 1⟩, ⟨.rightBrace, "\x7d", 1⟩, ⟨.varKw, "var", 1⟩,
      ⟨.identifier, "a", 1⟩, ⟨.semicolon, ";", 1⟩, ⟨.identifier, "f", 1⟩, ⟨.leftParen, "(", 1⟩,
      ⟨.rightParen, ")", 1⟩, ⟨.semicolon, ";", 1⟩, ⟨.rightBrace, "\x7d", 1⟩, ⟨.eof, "", 1⟩] := by
  decide +kernel

set_option maxRecDepth 10000 in
theorem not_assignsOwn_lateDeclaration : ¬ AssignsOwn lateDeclaration := by
  rintro ⟨firstId, hown⟩
  rw [scannedTokens_lateDeclaration] at hown
  cbv at hown
  exact Bool.false_ne_true hown

theorem transcript_eq_lexical_lateDeclaration : ¬ AssignsOwn lateDeclaration ∧
    ((Lexical.Session.start .unlimited fun _ => 0).transcript [(9, lateDeclaration)]).map
      (Option.map fun (report, text) => (report.messages, text)) = [some ([], "true\n")] := by
  refine ⟨not_assignsOwn_lateDeclaration, ?_⟩
  rw [← transcript_eq_lexical .unlimited _ (by simpa using not_assignsOwn_lateDeclaration)]
  decide +kernel

end Session
end LoxLang
