import LoxLang.Proofs.Execution.Easing
import LoxLang.Proofs.Session.Context

/-!
# Sinks that refuse

A sink that refuses everything from some line on only cuts a run short. Nothing but a `print` writes
to the sink, and its refusal passes through loops, blocks, operators and calls as it is. So a run on
such a sink that is not stopped by it comes to what it comes to without a limit, and a run that is
stopped by it went the same way up to the `print` that was refused (`failing_sink_truncates`).
-/
namespace LoxLang

namespace Sink

variable {s t : Sink} {piece : String}

def uncapped (s : Sink) : Sink := { s with capacity := none }

theorem isClosed_uncapped (s : Sink) : s.uncapped.isClosed = false := rfl

theorem write_uncapped_of_ok (h : s.write piece = .ok t) :
    s.uncapped.write piece = .ok t.uncapped := by
  unfold write at h ⊢
  simp only [isClosed_uncapped, Bool.false_eq_true, if_false]
  split_ifs at h ⊢
  · cases h
    rfl
  · cases h
    rfl

theorem exists_write_uncapped (s : Sink) (piece : String) :
    ∃ t : Sink, s.uncapped.write piece = .ok t.uncapped := by
  unfold write
  simp only [isClosed_uncapped, Bool.false_eq_true, if_false]
  split_ifs
  · exact ⟨s, rfl⟩
  · exact ⟨{ s with
      pending := piece :: s.pending
      newlines := s.newlines + piece.toList.count '\n' }, rfl⟩

theorem flushFails_write (h : s.write piece = .ok t) : t.flushFails = s.flushFails := by
  unfold write at h
  split_ifs at h
  · cases h
    rfl
  · cases h
    rfl

end Sink

namespace Machine

/-- The machine on a sink that refuses every text once it has taken so many newlines. -/
def limited (m : Machine) (lines : Nat) : Machine :=
  { m with sink := { m.sink with capacity := some lines, flushFails := false } }

def unlimited (m : Machine) : Machine :=
  { m with sink := { m.sink with capacity := none, flushFails := false } }

def uncapped (m : Machine) : Machine := { m with sink := m.sink.uncapped }

end Machine

/-- The limit on the output alone is loosened: the sink has no capacity. -/
def Easing.uncapping : Easing where
  spared := 0
  sink := Sink.uncapped
  Limits fault := fault = .output .closed
  overflow := .inl rfl
  write := Sink.write_uncapped_of_ok
  refused h := .inl (congrArg RunFault.output (Sink.cause_eq_closed h))
  not_native := nofun

theorem Machine.stable_flushFails :
    Machine.Stable fun m m' => m'.sink.flushFails = m.sink.flushFails where
  refl _ := rfl
  trans h h' := h'.trans h
  heap _ _ _ := rfl
  sink _ _ _ h := Sink.flushFails_write h
  taken _ := rfl
  inFrame _ _ _ h := h
  deeper _ _ h := h

namespace Run

/-! ## Where a refusal comes from -/

section Origin

variable {α β : Type} {m m' m₀ m₀' : Machine} {cause : OutputCause}

/-- What is printed was evaluated, and the sink refused its text. -/
def Refuses (expr : Expr) (before refused : Machine) (cause : OutputCause) : Prop :=
  ∃ fuel value printing, eval fuel expr before = .done value printing ∧
    print value printing = .failed (.output cause) refused

/-- Where a fault of the sink comes from, if the run comes to `X stop` with these points to stop at:
the sink could not be flushed; or a `print` was refused, nothing happened after it, and the run is
stopped if it has this `print` as a point to stop at. -/
inductive Refusal (X : Stops → Outcome Machine RunFault α) (m' : Machine) : OutputCause → Prop
  | flush : m'.sink.flushFails = true → Refusal X m' .flushFailed
  | print {running : List Expr} {expr : Expr} {before refused : Machine} {cause : OutputCause} :
    Refuses expr before refused cause →
    refused = { m' with current := refused.current, depth := refused.depth } →
    (∀ stop : Stops, stop running (.statement (.print expr)) before → Stopped (X stop)) →
    Refusal X m' cause

/-- A refusal stays what it is on its way out, where only the context is put back. -/
theorem Refusal.lift {X : Stops → Outcome Machine RunFault α}
    {Y : Stops → Outcome Machine RunFault β} (h : Refusal X m₀' cause)
    (hcontext : m₀' = { m' with current := m₀'.current, depth := m₀'.depth })
    (hstopped : ∀ stop, Stopped (X stop) → Stopped (Y stop)) : Refusal Y m' cause := by
  cases h with
  | flush hflush =>
    rw [hcontext] at hflush
    exact .flush hflush
  | print hrefuses hrefused hstop =>
    refine .print hrefuses ?_ fun stop h => hstopped stop (hstop stop h)
    rw [hcontext] at hrefused
    exact hrefused

/-- With points to stop at the run comes to the same, or it is stopped. Each fault of the sink comes
from a refusal. -/
structure TracesAt (X : Stops → Outcome Machine RunFault α) : Prop where
  same : Resumes X
  refusal : ∀ {cause m'}, X never = .failed (.output cause) m' → Refusal X m' cause

def Traces (X : Stops → Run α) : Prop := ∀ m, TracesAt fun stop => X stop m

theorem traces_of_const {x : Run α} (h : ∀ m cause m', x m = .failed (.output cause) m' →
    Refusal (fun _ => x m) m' cause) : Traces fun _ => x :=
  fun m => ⟨resumes_const _, h m _ _⟩

theorem Traces.bind {X : Stops → Run α} {F : α → Stops → Run β} (hX : Traces X)
    (hF : ∀ a, Traces (F a)) : Traces fun stop => X stop >>= fun a => F a stop := by
  intro m
  refine ⟨(hX m).same.bind fun a m' => (hF a m').same, fun {cause m'} hfailed => ?_⟩
  rcases Action.bind_eq_failed_iff.mp hfailed with hfirst | ⟨a, m₁, hdone, hsecond⟩
  · exact ((hX m).refusal hfirst).lift rfl fun stop h => h.bind _
  · apply ((hF a m₁).refusal hsecond).lift rfl
    intro stop hstopped
    rcases (hX m).same stop never (never_within stop) with heq | hfirst
    · simp only at heq
      change Stopped ((X stop >>= fun a => F a stop) m)
      rw [Action.bind_apply, ← heq, hdone]
      exact hstopped
    · exact hfirst.bind _

theorem traces_quiet {x : Run α} (hx : Quiet x) : Traces fun _ => x := by
  apply traces_of_const
  intro m cause m' hfailed
  obtain ⟨⟨token, cause', heq⟩, -⟩ := (hx.unaware m).of_failed hfailed
  cases heq

theorem traces_pause (running : List Expr) (point : Point) :
    Traces fun stop => pause (stop running point) := by
  intro m
  have hnever : pause (never running point) m = .done () m := pause_of_not fun h => h
  refine ⟨resumes_pause running point m, fun hfailed => ?_⟩
  cases hnever.symm.trans hfailed

/-- A refusal leaves frames and calls as it is. -/
theorem TracesAt.leave {X : Stops → Outcome Machine RunFault α} (hX : TracesAt X)
    {f : Outcome Machine RunFault α → Outcome Machine RunFault α} (hf : Leaves f) :
    TracesAt fun stop => f (X stop) := by
  refine ⟨hX.same.leave hf, fun {cause m'} hfailed => ?_⟩
  obtain ⟨m₁, current, depth, hrun, rfl⟩ := hf.of_output hfailed
  exact (hX.refusal hrun).lift rfl fun _ => hf.stopped

theorem traces_callNative (n : Native) (arguments : List Value) :
    Traces fun _ => callNative n arguments := by
  apply traces_of_const
  intro m cause m' hfailed
  dsimp only [callNative] at hfailed
  split at hfailed <;> cases hfailed

/-- A `print` whose text the sink refuses is the statement at hand. -/
theorem traces_print {fuel : Nat} {running : List Expr} {expr : Expr}
    (heval : Traces fun stop => evalAmid stop fuel running expr) :
    Traces fun stop => execAmid stop (fuel + 1) running (.print expr) := by
  intro m
  have hnever : ¬ never running (.statement (.print expr)) m := fun h => h
  have hstopped : ∀ stop, Stopped (evalAmid stop fuel running expr m) →
      Stopped (execAmid stop (fuel + 1) running (.print expr) m) := by
    intro stop h
    by_cases hstop : stop running (.statement (.print expr)) m
    · exact stopped_execAmid hstop fuel
    · rw [execAmid_of_not hstop]
      exact h.bind _
  constructor
  · simp only [execAmid]
    apply (resumes_pause running (.statement (.print expr)) m).bind
    intro _ m₁
    exact (heval m₁).same.bind fun _ _ => resumes_const _
  · intro cause m' hfailed
    simp only [execAmid_of_not hnever, execWith] at hfailed
    rcases Action.bind_eq_failed_iff.mp hfailed with hfirst | ⟨value, printing, hdone, hrest⟩
    · exact ((heval m).refusal hfirst).lift rfl hstopped
    · rw [(evalAmid_execAmid_never fuel running).1] at hdone
      rcases Action.bind_eq_failed_iff.mp hrest with hprint | ⟨_, _, _, hpure⟩
      · exact .print ⟨fuel, value, printing, hdone, hprint⟩ rfl fun stop h =>
          stopped_execAmid h fuel
      · cases hpure

theorem traces_flush : Traces fun _ => flush := by
  apply traces_of_const
  intro m cause m' hfailed
  dsimp only [flush, Sink.flush] at hfailed
  by_cases hflush : m.sink.flushFails
  · simp only [hflush, if_true] at hfailed
    cases hfailed
    exact .flush hflush
  · simp only [hflush] at hfailed
    cases hfailed

theorem traces : StopLaw Traces where
  exhausted := traces_of_const nofun
  bind := .bind
  quiet := traces_quiet
  view _ := traces_of_const nofun
  pause := traces_pause
  leave _ _ hf hX := fun m => (hX _).leave (hf m)
  native := traces_callNative
  print := traces_print

end Origin

/-! ## Runs on a sink without a capacity -/

section Uncapped

variable {fuel : Nat} {stmts : List Stmt} {m : Machine}

theorem follows_flush (stop : Stops) : Easing.uncapping.Follows stop flush flush := by
  intro m _
  have hflush : (Easing.uncapping.machine m).sink.flush = m.sink.flush := rfl
  unfold Action.Ensures Easing.Halts flush
  rw [hflush]
  cases m.sink.flush with
  | ok => exact ⟨rfl, .inl rfl⟩
  | error cause => exact .inr (.inr ⟨rfl, rfl⟩)

theorem ReachesAmid.uncapped {running : List Expr} {point : Point} {n : Machine}
    (h : ReachesAmid fuel stmts m running point n) :
    ReachesAmid fuel stmts m.uncapped running point n.uncapped := by
  obtain ⟨m₁, hrun⟩ := h
  let stop : Stops := fun r p k => r = running ∧ p = point ∧ k = n
  let stop' : Stops := fun r p k => r = running ∧ p = point ∧ k = n.uncapped
  have hlaw : QuietLaw fun X => Easing.uncapping.Follows stop' (X stop) (X stop') := by
    apply Easing.follows
    rintro _ _ _ ⟨rfl, rfl, rfl⟩
    exact ⟨rfl, rfl, rfl⟩
  have hfollows := hlaw.law.programWith (follows_flush _) fuel stmts
  rcases (hfollows m (Nat.zero_le _)).of_failed hrun with hlimit | ⟨-, hhalts⟩ | ⟨-, hsame⟩
  · cases hlimit
  · exact hhalts
  · exact ⟨_, hsame⟩

theorem eval_uncapped {expr : Expr} {value : Value} {m' : Machine}
    (h : eval fuel expr m = .done value m') :
    eval fuel expr m.uncapped = .done value m'.uncapped :=
  (((Easing.uncapping.eases_eval_exec fuel).1 expr m (Nat.zero_le _)).of_done h).2

/-- Unless the sink stops it, a program comes to the same without the capacity. -/
theorem program_uncapped (fuel : Nat) (stmts : List Stmt) (m : Machine) :
    (program fuel stmts).Ensures m
      (fun _ m' => program fuel stmts m.uncapped = .done () m'.uncapped)
      fun fault m' => fault = .output .closed ∨
        program fuel stmts m.uncapped = .failed fault m'.uncapped := by
  have hlaw : QuietLaw fun X => Easing.uncapping.Follows never (X never) (X never) :=
    Easing.follows fun _ _ _ => id
  have hfollows := Easing.eases_of_follows (hlaw.law.programWith (follows_flush _) fuel stmts)
  simp only [(evalAmid_execAmid_never fuel []).2] at hfollows
  exact (hfollows m (Nat.zero_le _)).mono (fun _ _ h => h.2) fun _ _ h => h.imp_right And.right

theorem print_apply (value : Value) (m : Machine) :
    print value m =
      match m.sink.write (m.heap.text value) with
      | .error cause => .failed (.output cause) m
      | .ok sink =>
        match sink.write "\n" with
        | .error cause => .failed (.output cause) { m with sink }
        | .ok sink => .done () { m with sink } := by
  simp only [print, Action.bind_apply, Action.view, write]
  cases m.sink.write (m.heap.text value) with
  | error cause => rfl
  | ok sink =>
    dsimp only
    cases sink.write "\n" <;> rfl

/-- What a sink keeps of a `print` that it refuses is the beginning of what is printed without the
capacity. -/
theorem exists_print_uncapped {value : Value} {refused : Machine} {cause : OutputCause}
    (h : print value m = .failed (.output cause) refused) : cause = .closed ∧
      ∃ printed rest, print value m.uncapped = .done () printed ∧
        printed.sink.text = refused.sink.text ++ rest := by
  obtain ⟨sink₁, hwrite₁⟩ := m.sink.exists_write_uncapped (m.heap.text value)
  obtain ⟨sink₂, hwrite₂⟩ := sink₁.exists_write_uncapped "\n"
  have hprinted : print value m.uncapped = .done () { m with sink := sink₂.uncapped } := by
    rw [print_apply]
    change (match m.sink.uncapped.write (m.heap.text value) with | .error _ => _ | .ok _ => _) = _
    simp only [hwrite₁, hwrite₂]
    rfl
  have htext : sink₂.uncapped.text = m.sink.text ++ m.heap.text value ++ "\n" := by
    rw [Sink.text_write hwrite₂, Sink.text_write hwrite₁]
    rfl
  rw [print_apply] at h
  split at h
  · next hrefused =>
    cases h
    refine ⟨Sink.cause_eq_closed hrefused, _, m.heap.text value ++ "\n", hprinted, ?_⟩
    rw [← String.append_assoc]
    exact htext
  · next sink hwrite =>
    split at h
    · next hrefused =>
      cases h
      refine ⟨Sink.cause_eq_closed hrefused, _, "\n", hprinted, ?_⟩
      rw [Sink.text_write hwrite]
      exact htext
    · cases h

end Uncapped

/-- A failing sink only truncates. Take any machine on a sink that refuses every text once it has
taken so many newlines, and the same machine on a sink that never fails. Every point that a program
reaches on the limited sink it reaches on the other, in the same state. If the limited run is done,
or fails by a fault that is not the sink's, then the other one does so, with the same machine. If it
fails by a fault of the sink, then it reached a `print` whose text was refused, with nothing
executed after it. The other run reaches the same `print` in the same state, evaluates the same
value and prints it, and the text that the limited sink has kept is the beginning of what the other
sink has taken by then. In each case the current frame and the depth of calls are as before. -/
theorem failing_sink_truncates (m : Machine) (lines fuel : Nat) (stmts : List Stmt) :
    (∀ running point n, ReachesAmid fuel stmts (m.limited lines) running point n →
      ReachesAmid fuel stmts m.unlimited running point n.uncapped) ∧
    (∀ m', program fuel stmts (m.limited lines) = .done () m' → m.SameContext m' ∧
      program fuel stmts m.unlimited = .done () m'.uncapped) ∧
    ∀ fault m', program fuel stmts (m.limited lines) = .failed fault m' → m.SameContext m' ∧
      ((∀ cause, fault ≠ .output cause) →
        program fuel stmts m.unlimited = .failed fault m'.uncapped) ∧
      ∀ cause, fault = .output cause → cause = .closed ∧
        ∃ running expr before fuel' value printing refused printed rest,
          ReachesAmid fuel stmts (m.limited lines) running (.statement (.print expr)) before ∧
          eval fuel' expr before = .done value printing ∧
          print value printing = .failed (.output .closed) refused ∧
          m' = { refused with current := m.current, depth := m.depth } ∧
          ReachesAmid fuel stmts m.unlimited running (.statement (.print expr)) before.uncapped ∧
          eval fuel' expr before.uncapped = .done value printing.uncapped ∧
          print value printing.uncapped = .done () printed ∧
          printed.sink.text = m'.sink.text ++ rest := by
  have hcontext : (program fuel stmts).Ensures (m.limited lines) (fun _ m' => m.SameContext m')
      fun _ m' => m.SameContext m' := by
    have hkept := preserves_program Machine.stable_sameContext fuel stmts (m.limited lines)
    exact hkept.mono (fun _ _ h => ⟨h.current, h.depth⟩) fun _ _ h => ⟨h.current, h.depth⟩
  have hsame := program_uncapped fuel stmts (m.limited lines)
  refine ⟨fun _ _ _ h => h.uncapped, fun m' hdone => ?_, fun fault m' hfailed => ?_⟩
  · exact ⟨hcontext.of_done hdone, hsame.of_done hdone⟩
  · refine ⟨hcontext.of_failed hfailed, fun hother => ?_, fun cause hcause => ?_⟩
    · exact (hsame.of_failed hfailed).resolve_left (hother _)
    · subst hcause
      have hflush := preserves_program Machine.stable_flushFails fuel stmts (m.limited lines)
      have htraces := traces.quietLaw.law.programWith traces_flush fuel stmts (m.limited lines)
      have hnever := hfailed
      rw [program, ← (evalAmid_execAmid_never fuel []).2] at hnever
      cases htraces.refusal hnever with
      | flush hfails => cases hfails.symm.trans (hflush.of_failed hfailed)
      | @print running expr before refused _ hrefuses hrefused hstop =>
        obtain ⟨fuel', value, printing, heval, hprint⟩ := hrefuses
        obtain ⟨rfl, printed, rest, hprinted, htext⟩ := exists_print_uncapped hprint
        -- with this `print` as the one point to stop at, the run is stopped before it
        have hreach : ReachesAmid fuel stmts (m.limited lines) running (.statement (.print expr))
            before := hstop _ ⟨rfl, rfl, rfl⟩
        have hkept := hcontext.of_failed hfailed
        have hend : m' = { refused with current := m.current, depth := m.depth } := by
          rw [hrefused, ← hkept.current, ← hkept.depth]
        have hsink : refused.sink = m'.sink := by rw [hrefused]
        rw [hsink] at htext
        exact ⟨rfl, running, expr, before, fuel', value, printing, refused, printed, rest, hreach,
          heval, hprint, hend, hreach.uncapped, eval_uncapped heval, hprinted, htext⟩

def twoLines : List Stmt :=
  [.print (.literal 0 (.string "a")), .print (.literal 1 (.string "b"))]

def ending : Outcome Machine RunFault Unit → Option (Option RunFault × String)
  | .done _ m => some (none, m.sink.text)
  | .failed fault m => some (some fault, m.sink.text)
  | .exhausted => none

theorem exists_done_of_ending {outcome : Outcome Machine RunFault Unit} {text : String}
    (h : ending outcome = some (none, text)) :
    ∃ m', outcome = .done () m' ∧ m'.sink.text = text := by
  cases outcome with
  | done _ m' =>
    cases h
    exact ⟨m', rfl, rfl⟩
  | failed fault m' => cases h
  | exhausted => cases h

theorem exists_failed_of_ending {outcome : Outcome Machine RunFault Unit} {fault : RunFault}
    {text : String} (h : ending outcome = some (some fault, text)) :
    ∃ m', outcome = .failed fault m' ∧ m'.sink.text = text := by
  cases outcome with
  | done _ m' => cases h
  | failed fault m' =>
    cases h
    exact ⟨m', rfl, rfl⟩
  | exhausted => cases h

theorem failing_sink_truncates_twoLines : ∃ m : Machine,
    (∃ m', program 2 twoLines (m.limited 2) = .done () m' ∧ m'.sink.text = "a\nb\n" ∧
      program 2 twoLines m.unlimited = .done () m'.uncapped) ∧
    ∃ m' running expr before, program 2 twoLines (m.limited 1) = .failed (.output .closed) m' ∧
      m'.sink.text = "a\n" ∧
      ReachesAmid 2 twoLines m.unlimited running (.statement (.print expr)) before := by
  let m : Machine := Machine.initial .unlimited fun _ => 0
  have hboth : ending (program 2 twoLines (m.limited 2)) = some (none, "a\nb\n") := by
    decide +kernel
  have hone : ending (program 2 twoLines (m.limited 1)) = some (some (.output .closed), "a\n") := by
    decide +kernel
  obtain ⟨m', hdone, hall⟩ := exists_done_of_ending hboth
  obtain ⟨k', hfailed, hfirst⟩ := exists_failed_of_ending hone
  obtain ⟨-, hends, -⟩ := failing_sink_truncates m 2 2 twoLines
  obtain ⟨-, -, hfails⟩ := failing_sink_truncates m 1 2 twoLines
  obtain ⟨-, -, hcut⟩ := hfails _ k' hfailed
  obtain ⟨-, running, expr, before, -, -, -, -, -, -, -, -, -, -, hreach, -⟩ := hcut _ rfl
  exact ⟨m, ⟨m', hdone, hall, (hends m' hdone).2⟩, k', running, expr, before.uncapped, hfailed,
    hfirst, hreach⟩

end Run
end LoxLang
