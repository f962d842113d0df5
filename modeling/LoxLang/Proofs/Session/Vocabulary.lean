import LoxLang.Proofs.Session.Origins

/-!
# What a session can report

Reports of runs use a closed vocabulary. Before a source is executed, all that can be wrong with it
is lexical, grammatical, or a matter of scopes. What stops its execution is the output, or an
operation at a token of a source that was run in the session, for one of a few reasons
(`report_vocabulary`). A native function that fails is blamed on the call that ran it, and no
operator is applied that has no meaning.
-/
namespace LoxLang

/-- What can be said of an operation at this token, if the clock is the native function. -/
inductive Worded (clock : Native) (token : Token) : String → Prop
  | operandNotNumber : Worded clock token "Operand must be a number."
  | operandsNotNumbers : Worded clock token "Operands must be numbers."
  | operandsNotAddable : Worded clock token "Operands must be two numbers or two strings."
  | undefinedVariable : Worded clock token ("Undefined variable '" ++ token.lexeme ++ "'.")
  | undefinedProperty : Worded clock token ("Undefined property '" ++ token.lexeme ++ "'.")
  | notCallable : Worded clock token "Can only call functions and classes."
  | wrongArity {expected got : Nat} : expected ≠ got → expected ≤ 255 → got ≤ 255 →
    Worded clock token
      ("Expected " ++ toString expected ++ " arguments but got " ++ toString got ++ ".")
  | propertyOfNonInstance : Worded clock token "Only instances have properties."
  | fieldOfNonInstance : Worded clock token "Only instances have fields."
  | stackOverflow : Worded clock token "Stack overflow."
  | native {call : NativeCall} {text : String} : clock.run call = .error text →
    Worded clock token text

section

variable {clock : Native} {token : Token} {cause : RunCause}

theorem RunCause.Arises.worded (hclock : clock.arity ≤ 255)
    (h : cause.Arises #[clock] token) : Worded clock token cause.message := by
  cases h with
  | operandNotNumber => exact .operandNotNumber
  | operandsNotNumbers => exact .operandsNotNumbers
  | operandsNotAddable => exact .operandsNotAddable
  | undefinedVariable => exact .undefinedVariable
  | undefinedProperty => exact .undefinedProperty
  | notCallable => exact .notCallable
  | wrongArity hne htake hgot =>
    refine .wrongArity hne ?_ hgot
    rcases htake with hle | ⟨n, hn, rfl⟩
    · exact hle
    · rwa [Array.mem_singleton.mp hn]
  | propertyOfNonInstance => exact .propertyOfNonInstance
  | fieldOfNonInstance => exact .fieldOfNonInstance
  | stackOverflow => exact .stackOverflow
  | native hfail =>
    obtain ⟨n, hn, call, hcall⟩ := hfail
    rw [Array.mem_singleton.mp hn] at hcall
    exact .native hcall

theorem RunCause.Arises.not_invalid {natives : Array Native} (h : cause.Arises natives token) :
    cause ≠ .invalidUnary ∧ cause ≠ .invalidBinary := by
  cases h <;> exact ⟨nofun, nofun⟩

end

namespace Session

variable {s t : Session} {clock : Native} {sink : Sink} {readings : Nat → Float}
  {sources : List String} {fuel : Nat} {source : String} {report : Report}

theorem sourceFaults_lexical_or_grammar (items : List ScanItem) (parsed : Program) :
    ∀ fault ∈ sourceFaults items parsed,
      (∃ f, fault = .lexical f) ∨ ∃ f, fault = .grammar f := by
  intro fault hfault
  rcases List.mem_append.mp hfault with h | h
  · obtain ⟨f, -, rfl⟩ := List.mem_map.mp h
    exact .inl ⟨f, rfl⟩
  · obtain ⟨f, -, rfl⟩ := List.mem_map.mp h
    exact .inr ⟨f, rfl⟩

theorem faults_of_run (h : s.run fuel source = some (report, t)) :
    ((∀ fault ∈ report.faults, (∃ f, fault = .lexical f) ∨ ∃ f, fault = .grammar f) ∨
      ∀ fault ∈ report.faults, ∃ f, fault = .scope f) ∧
    (report.faults = [] ∨ report.halt = none) := by
  rw [run_eq] at h
  split_ifs at h with hread hscope
  · cases h
    exact ⟨.inl (sourceFaults_lexical_or_grammar _ _), .inr rfl⟩
  · cases h
    refine ⟨.inr fun fault hfault => ?_, .inr rfl⟩
    obtain ⟨f, -, rfl⟩ := List.mem_map.mp hfault
    exact ⟨f, rfl⟩
  · split at h
    · cases h
      exact ⟨.inl (List.forall_mem_nil _), .inl rfl⟩
    · cases h
      exact ⟨.inl (List.forall_mem_nil _), .inl rfl⟩
    · cases h

/-- The vocabulary of reports. In any history of a session, a run reports faults of reading or of
scopes, and nothing is executed then; or its execution is stopped by the output or by an operation
at a token of a source that was run up to now, for a reason that is worded in one of these ways. -/
theorem report_vocabulary (hclock : clock.arity ≤ 255)
    (h : Runs (startWith clock sink readings) sources s)
    (hrun : s.run fuel source = some (report, t)) :
    ((∀ fault ∈ report.faults, (∃ f, fault = .lexical f) ∨ ∃ f, fault = .grammar f) ∨
      ∀ fault ∈ report.faults, ∃ f, fault = .scope f) ∧
    (report.faults = [] ∨ report.halt = none) ∧
    ∀ fault, report.halt = some fault →
      (∃ cause, fault = .output cause) ∨
      ∃ token cause, fault = .operation token cause ∧ fault.line? = some token.line ∧
        Worded clock token cause.message ∧ cause ≠ .invalidUnary ∧ cause ≠ .invalidBinary ∧
        ∃ origin ∈ sources ++ [source], token ∈ scannedTokens (scan origin) := by
  obtain ⟨hfaults, hhalt⟩ := faults_of_run hrun
  refine ⟨hfaults, hhalt, fun fault hfault => ?_⟩
  have hsource : ReadFrom (.ofSources (sources ++ [source]) #[clock]) source :=
    readFrom_ofSources _ source (by simp)
  obtain ⟨-, -, harises⟩ := idle_run (h.idle_ofSources source) hsource hrun
  cases harises fault hfault with
  | operation htoken hcause =>
    exact .inr ⟨_, _, rfl, rfl, hcause.worded hclock, hcause.not_invalid.1, hcause.not_invalid.2,
      htoken⟩
  | closed => exact .inl ⟨_, rfl⟩
  | flushFailed => exact .inl ⟨_, rfl⟩
  | stopped hfalse => exact hfalse.elim

def negation : String := "fun f(a) \x7b return -a; \x7d"

def minus : Token := ⟨.minus, "-", 1⟩

theorem report_vocabulary_earlier : ∃ s report t,
    Runs (start .unlimited fun _ => 0) [negation] s ∧ s.run 9 "f(true);" = some (report, t) ∧
    report.halt = some (.operation minus .operandNotNumber) ∧
    Worded .clock minus "Operand must be a number." ∧
    ∃ origin ∈ [negation, "f(true);"], minus ∈ scannedTokens (scan origin) := by
  have hboth : (((start .unlimited fun _ => 0).run 9 negation).bind fun r =>
      r.2.run 9 "f(true);").map (·.1.halt) = some (some (.operation minus .operandNotNumber)) := by
    decide +kernel
  obtain ⟨⟨report, t⟩, hsecond, hhalt⟩ := Option.map_eq_some_iff.mp hboth
  obtain ⟨⟨first, s⟩, hfirst, hrun⟩ := Option.bind_eq_some_iff.mp hsecond
  have hruns : Runs (start .unlimited fun _ => 0) [negation] s := (Runs.refl _).run hfirst
  refine ⟨s, report, t, hruns, hrun, hhalt, ?_⟩
  rw [← startWith_clock] at hruns
  obtain ⟨-, -, hstop⟩ := report_vocabulary (Nat.zero_le _) hruns hrun
  rcases hstop _ hhalt with ⟨cause, hcause⟩ | ⟨token, cause, hfault, -, hworded, -, -, horigin⟩
  · cases hcause
  · cases hfault
    exact ⟨hworded, horigin⟩

end Session
end LoxLang
