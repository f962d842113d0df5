import LoxLang.Proofs.Session.History

/-!
# The context of a run

The current frame and the depth of calls are the context in which a program runs. Blocks and calls
change it for a while. Whatever ends them, a `return` or a fault at any depth included, they leave
it as it was (`context_restored`). So a session always goes on in the frame of the globals, with no
call running.
-/
namespace LoxLang

/-- The same frame is current and as many calls are running. -/
structure Machine.SameContext (m m' : Machine) : Prop where
  current : m'.current = m.current
  depth : m'.depth = m.depth

/-- Each step that changes the context puts it back. -/
theorem Machine.stable_sameContext : Machine.Stable Machine.SameContext where
  refl _ := ⟨rfl, rfl⟩
  trans h h' := ⟨h'.current.trans h.current, h'.depth.trans h.depth⟩
  heap _ _ _ := ⟨rfl, rfl⟩
  sink _ _ _ _ := ⟨rfl, rfl⟩
  taken _ := ⟨rfl, rfl⟩
  inFrame _ _ _ h := ⟨rfl, h.depth⟩
  deeper m m' h := by
    refine ⟨h.current, ?_⟩
    have hdepth : m'.depth = m.depth + 1 := h.depth
    simp [hdepth]

namespace Session

variable {s t : Session} {programs : List (List Stmt)}

/-- What holds across every program, and does not depend on distances or on the text that is
waiting, holds across every history. -/
theorem Leads.of_program {R : Machine → Machine → Prop} (refl : ∀ m, R m m)
    (trans : ∀ {m m' m''}, R m m' → R m' m'' → R m m'')
    (hprogram : ∀ fuel stmts, Run.Preserves R (Run.program fuel stmts))
    (hdistances : ∀ m distances, R m { m with distances })
    (hdrain : ∀ m, R m { m with sink := m.sink.drain.2 }) (h : Leads s programs t) :
    R s.machine t.machine := by
  induction h with
  | refl => exact refl _
  | drain _ ih => exact trans ih (hdrain _)
  | @run t u programs fuel source report _ hrun ih =>
    have hloaded : R s.machine (t.loaded source) := trans ih (hdistances _ _)
    have hprogram := hprogram fuel (t.parsed source).statements (t.loaded source)
    rw [run_eq] at hrun
    split_ifs at hrun
    · cases hrun
      exact ih
    · cases hrun
      exact hloaded
    · split at hrun
      · next hdone =>
        cases hrun
        exact trans hloaded (hprogram.of_done hdone)
      · next hfailed =>
        cases hrun
        exact trans hloaded (hprogram.of_failed hfailed)
      · cases hrun

theorem Leads.of_stable {R : Machine → Machine → Prop} (hR : Machine.Stable R)
    (hdistances : ∀ m distances, R m { m with distances })
    (hdrain : ∀ m, R m { m with sink := m.sink.drain.2 }) (h : Leads s programs t) :
    R s.machine t.machine :=
  h.of_program hR.refl hR.trans (Run.preserves_program hR) hdistances hdrain

/-- The context is restored on every way out. Whether it is done, with a value or by a `return`, or
fails, each evaluation, execution and call leaves the current frame and the depth of calls as they
were. The body of a call hands over the depth that it was given, one more than before the call, so
counting down takes back exactly what was counted up. After any history of a session the frame of
the globals is current and no call is running. -/
theorem context_restored :
    (∀ fuel,
      (∀ expr, Run.Preserves Machine.SameContext (Run.eval fuel expr)) ∧
      (∀ stmt, Run.Preserves Machine.SameContext (Run.exec fuel stmt)) ∧
      (∀ body frame, Run.Preserves Machine.SameContext (Run.block (Run.exec fuel) body frame)) ∧
      (∀ callee arguments,
        Run.Preserves Machine.SameContext (Run.call (Run.exec fuel) callee arguments)) ∧
      (∀ value paren arguments,
        Run.Preserves Machine.SameContext (Run.invoke (Run.exec fuel) value paren arguments)) ∧
      ∀ callee arguments (m : Machine),
        (Run.call (Run.exec fuel) callee arguments).Ensures { m with depth := m.depth + 1 }
          (fun _ m' => 0 < m'.depth ∧ m'.depth - 1 = m.depth)
          fun _ m' => 0 < m'.depth ∧ m'.depth - 1 = m.depth) ∧
    ∀ sink readings programs s, Leads (start sink readings) programs s →
      s.machine.current = Heap.globals ∧ s.machine.depth = 0 := by
  have hstable := Machine.stable_sameContext
  refine ⟨fun fuel => ?_, fun sink readings programs s h => ?_⟩
  · obtain ⟨heval, hexec⟩ := Run.preserves_eval_exec hstable fuel
    have hcall := Run.preserves_call hstable hexec
    refine ⟨heval, hexec, ?_, hcall, Run.preserves_invoke hstable hexec, ?_⟩
    · intro body frame
      exact (Run.preserves_sequence hstable hexec body).inFrame hstable frame
    · intro callee arguments m
      have hcounted : ∀ m', Machine.SameContext { m with depth := m.depth + 1 } m' →
          0 < m'.depth ∧ m'.depth - 1 = m.depth := by
        intro m' hm'
        have hdepth : m'.depth = m.depth + 1 := hm'.depth
        omega
      exact (hcall callee arguments _).mono (fun _ m' => hcounted m') fun _ m' => hcounted m'
  · have hcontext := h.of_stable hstable (fun _ _ => ⟨rfl, rfl⟩) fun _ => ⟨rfl, rfl⟩
    exact ⟨hcontext.current, hcontext.depth⟩

def failingCall : String :=
  "class A { m() { { var a; return -a; } } } fun f(a) { while (true) { a.m(); } } f(A());"

theorem context_restored_failingCall : ∃ report s,
    (start .unlimited fun _ => 0).run 20 failingCall = some (report, s) ∧
      report.halt = some (.operation ⟨.minus, "-", 1⟩ .operandNotNumber) ∧
        s.machine.current = Heap.globals ∧ s.machine.depth = 0 := by
  have hrun : ((start .unlimited fun _ => 0).run 20 failingCall).map (fun r => r.1.halt) =
      some (some (.operation ⟨.minus, "-", 1⟩ .operandNotNumber)) := by
    decide +kernel
  obtain ⟨⟨report, s⟩, hrun, hhalt⟩ := Option.map_eq_some_iff.mp hrun
  exact ⟨report, s, hrun, hhalt,
    context_restored.2 .unlimited _ _ s ((Leads.refl _).run hrun)⟩

end Session
end LoxLang
