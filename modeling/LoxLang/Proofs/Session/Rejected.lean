import LoxLang.Proofs.Binding.Relabeling
import LoxLang.Proofs.Execution.Viewing
import LoxLang.Proofs.Lexical.Semantics
import LoxLang.Proofs.Reading.Relabeling
import LoxLang.Proofs.Session.History

/-!
# Rejected sources

A source with static faults is not executed, but it does use up identities, and it can leave
distances behind. What is run later gets other identities, and so it is noted in other places.
Nothing else is different: all later runs come to what they come to if the rejected source was never
there (`rejected_leaves_no_trace`).
-/
namespace LoxLang

/-- The same machine with other identities, and with distances that agree. -/
def Viewing.relabeling (g : Nat → Nat) (own seen : Distances) : Viewing :=
  ⟨fun line => line, g, own, seen, [], 0, fun _ _ => False⟩

/-- What one machine holds is what the other one holds, with other identities. -/
structure Machine.Relabels (g : Nat → Nat) (m m' : Machine) : Prop where
  distances : m.distances.Agree g m'.distances
  machine : m' = (Viewing.relabeling g m.distances m'.distances).machine m

namespace Machine.Relabels

variable {g : Nat → Nat} {m m' : Machine}

theorem sink_eq (h : Relabels g m m') : m'.sink = m.sink := by
  rw [h.machine]
  simp [Viewing.machine, Viewing.sink, Viewing.relabeling]

theorem withDistances (h : Relabels g m m') {distances distances' : Distances}
    (hagree : distances.Agree g distances') :
    Relabels g { m with distances } { m' with distances := distances' } := by
  refine ⟨hagree, ?_⟩
  rw [h.machine]
  rfl

theorem drain (h : Relabels g m m') :
    Relabels g { m with sink := m.sink.drain.2 } { m' with sink := m'.sink.drain.2 } := by
  refine ⟨h.distances, ?_⟩
  rw [h.sink_eq, h.machine]
  rfl

theorem program (h : Relabels g m m') (fuel : Nat) (program : List Stmt) :
    Run.program fuel (Stmt.relabelAll g program) m' =
      (Viewing.relabeling g m.distances m'.distances).outcome (Run.program fuel program m) := by
  have heq := (Viewing.relabeling g m.distances m'.distances).program_eq_outcome_of_same
    h.distances rfl fuel program rfl (.inl rfl)
  rw [← h.machine] at heq
  simpa [Viewing.stmts, Viewing.relabeling, Stmt.renumberAll_id] using heq

end Machine.Relabels

namespace Session

variable {s t : Session} {g : Nat → Nat} {source : String} {fuel : Nat}

/-- The same source is read in both sessions, up to identities. -/
def ReadsRelabeled (g : Nat → Nat) (source : String) (s t : Session) : Prop :=
  (t.parsed source).statements = Stmt.relabelAll g (s.parsed source).statements ∧
    (t.parsed source).faults = (s.parsed source).faults

theorem ReadsRelabeled.readingFaults_eq (h : ReadsRelabeled g source s t) :
    t.readingFaults source = s.readingFaults source := by
  unfold readingFaults sourceFaults
  rw [h.2]

section Binding

variable (hmachine : s.machine.Relabels g t.machine) (hread : ReadsRelabeled g source s t)
  (hg : g.Injective)

include hmachine hread hg

theorem bind_relabels : (s.loaded source).Relabels g (t.loaded source) ∧
    t.scopeFaults source = s.scopeFaults source := by
  have hresolve := resolve_relabel hg hmachine.distances (s.parsed source).statements
  rw [← hread.1, resolve_eq, resolve_eq] at hresolve
  exact ⟨hmachine.withDistances hresolve.1, hresolve.2⟩

/-- One run in both sessions: the same is reported, and the same is held afterwards. -/
theorem run_relabels (fuel : Nat) :
    s.run fuel source = none ∧ t.run fuel source = none ∨
      ∃ report s' t', s.run fuel source = some (report, s') ∧
        t.run fuel source = some (report, t') ∧ s'.machine.Relabels g t'.machine := by
  obtain ⟨hloaded, hscope⟩ := bind_relabels hmachine hread hg
  rw [run_eq, run_eq, hread.readingFaults_eq, hscope, hread.1, hloaded.program]
  have hstable := Run.preserves_program stable_distances fuel (s.parsed source).statements
    (s.loaded source)
  split_ifs
  · exact .inr ⟨_, _, _, rfl, rfl, hmachine⟩
  · exact .inr ⟨_, _, _, rfl, rfl, hloaded⟩
  · -- distances stay as they are loaded, so the machines are seen in the same way at the end
    have hend : ∀ m : Machine, m.distances = (s.loaded source).distances →
        m.Relabels g ((Viewing.relabeling g (s.loaded source).distances
          (t.loaded source).distances).machine m) := by
      intro m hm
      rw [← hm]
      exact ⟨hm ▸ hloaded.distances, rfl⟩
    cases hx : Run.program fuel (s.parsed source).statements (s.loaded source) with
    | done _ m => exact .inr ⟨_, _, _, rfl, rfl, hend m (hstable.of_done hx)⟩
    | failed fault m =>
      rw [Viewing.outcome, Viewing.relabeling, fault.renumber_id]
      exact .inr ⟨_, _, _, rfl, rfl, hend m (hstable.of_failed hx)⟩
    | exhausted => exact .inl ⟨rfl, rfl⟩

end Binding

/-- From an identity on, some are skipped. -/
def skipping (first count id : Nat) : Nat := if id < first then id else id + count

theorem skipping_injective (first count : Nat) : (skipping first count).Injective := by
  intro id id' h
  unfold skipping at h
  split_ifs at h <;> omega

theorem readsRelabeled_skipping {first count : Nat} (hle : first ≤ s.nextId)
    (hnext : t.nextId = s.nextId + count) (source : String) :
    ReadsRelabeled (skipping first count) source s t ∧
      (t.parsed source).nextId = (s.parsed source).nextId + count := by
  have hadd := Program.ofTokens_add (scannedTokens (scan source)) s.nextId count
  rw [← hnext] at hadd
  have hstatements : Stmt.relabelAll (· + count) (s.parsed source).statements =
      Stmt.relabelAll (skipping first count) (s.parsed source).statements := by
    apply Stmt.relabelAll_congr
    intro id hid
    have hid' := (Program.distinctWithin_ofTokens (scannedTokens (scan source)) s.nextId).2.2 id hid
    rw [skipping, if_neg (Nat.not_lt.mpr (hle.trans hid'.1))]
  unfold ReadsRelabeled
  rw [← hstatements, parsed, hadd]
  exact ⟨⟨rfl, rfl⟩, rfl⟩

theorem readsRelabeled_refl {first : Nat} (count : Nat) (hle : (s.parsed source).nextId ≤ first) :
    ReadsRelabeled (skipping first count) source s s := by
  refine ⟨?_, rfl⟩
  have hsame : Stmt.relabelAll (skipping first count) (s.parsed source).statements =
      Stmt.relabelAll (fun id => id) (s.parsed source).statements := by
    apply Stmt.relabelAll_congr
    intro id hid
    have hid' := (Program.distinctWithin_ofTokens (scannedTokens (scan source)) s.nextId).2.2 id hid
    exact if_pos (hid'.2.trans_le hle)
  rw [hsame, Stmt.relabelAll_id]

section History

variable {sink : Sink} {readings : Nat → Float} {programs : List (List Stmt)}

/-- A session holds nothing with an identity that it has not given away yet. -/
theorem Leads.relabels_skipping (h : Leads (start sink readings) programs s) {first : Nat}
    (hle : s.nextId ≤ first) (count : Nat) :
    s.machine.Relabels (skipping first count) s.machine := by
  induction h with
  | refl =>
    refine ⟨fun _ => rfl, ?_⟩
    simp [start, Machine.initial, Heap.initial, Viewing.machine, Viewing.sink, Viewing.relabeling,
      Heap.recode]
  | drain _ ih => exact (ih hle).drain
  | @run t u programs fuel source report _ hrun ih =>
    have hnext := (run_accounts hrun).1
    have hle' := (Program.distinctWithin_ofTokens (scannedTokens (scan source)) t.nextId).1
    have hbefore := ih (hle'.trans (hnext ▸ hle))
    rcases run_relabels hbefore (readsRelabeled_refl count (hnext ▸ hle))
      (skipping_injective first count) fuel with ⟨hnone, -⟩ | ⟨_, _, _, hrun', hrun'', hafter⟩
    · rw [hrun] at hnone
      cases hnone
    · rw [hrun] at hrun' hrun''
      cases hrun'
      cases hrun''
      exact hafter

/-- Distances that are noted for skipped identities are never looked up. -/
theorem agree_noteAll_skipping {first count : Nat} {distances : Distances}
    {encounters : List Encounter} (h : distances.Agree (skipping first count) distances)
    (hids : ∀ id ∈ Encounter.ids encounters, first ≤ id ∧ id < first + count) :
    distances.Agree (skipping first count) (distances.noteAll encounters) := by
  intro id
  rw [Distances.getElem?_noteAll_of_notMem, h id]
  intro hmem
  have hid := hids _ hmem
  unfold skipping at hid
  split_ifs at hid <;> omega

/-- A rejected source leaves the machine as it was, but for distances, and uses up identities. -/
theorem run_of_faults {report : Report} (hrun : s.run fuel source = some (report, t))
    (hfaults : report.faults ≠ []) :
    report.halt = none ∧ t.machine = { s.machine with distances := t.machine.distances } ∧
      ∀ fuel', s.run fuel' source = some (report, t) := by
  rw [run_eq] at hrun
  simp only [run_eq]
  split_ifs at hrun ⊢ with hread hscope
  · cases hrun
    exact ⟨rfl, rfl, fun _ => rfl⟩
  · cases hrun
    exact ⟨rfl, rfl, fun _ => rfl⟩
  · split at hrun <;> cases hrun <;> exact absurd rfl hfaults

/-- A session and the one in which a source was rejected differ by the identities of that source. -/
theorem Leads.relabels_of_faults (h : Leads (start sink readings) programs s) {report : Report}
    (hrun : s.run fuel source = some (report, t)) (hfaults : report.faults ≠ []) :
    ∃ count, t.nextId = s.nextId + count ∧
      s.machine.Relabels (skipping s.nextId count) t.machine := by
  obtain ⟨hnext, hnotes⟩ := run_accounts hrun
  obtain ⟨hle, hids⟩ := Program.distinctWithin_ofTokens (scannedTokens (scan source)) s.nextId
  obtain ⟨count, hcount⟩ := Nat.exists_eq_add_of_le hle
  have hself := h.relabels_skipping le_rfl count
  refine ⟨count, hnext.trans hcount, ?_⟩
  rw [(run_of_faults hrun hfaults).2.1]
  apply hself.withDistances
  rw [hnotes]
  apply agree_noteAll_skipping hself.distances
  intro id hid
  rw [← hcount]
  apply hids.2 id
  unfold bound at hid
  split at hid
  · simpa [parsed] using (ids_flatMap_encountersOf _).mem_iff.mp hid
  · cases hid

theorem transcript_relabels {first count : Nat} (runs : List (Nat × String))
    (hmachine : s.machine.Relabels (skipping first count) t.machine) (hle : first ≤ s.nextId)
    (hnext : t.nextId = s.nextId + count) : t.transcript runs = s.transcript runs := by
  induction runs generalizing s t with
  | nil => rfl
  | cons run runs ih =>
    obtain ⟨fuel, source⟩ := run
    obtain ⟨hread, hnext'⟩ := readsRelabeled_skipping hle hnext source
    rw [transcript, transcript]
    rcases run_relabels hmachine hread (skipping_injective first count) fuel with
      ⟨hrun, hrun'⟩ | ⟨report, s', t', hrun, hrun', hafter⟩
    · rw [hrun, hrun']
    · have hids := (Program.distinctWithin_ofTokens (scannedTokens (scan source)) s.nextId).1
      have hle' : first ≤ s'.drain.2.nextId := by
        rw [drain, (run_accounts hrun).1]
        exact hle.trans hids
      have hnext'' : t'.drain.2.nextId = s'.drain.2.nextId + count := by
        rw [drain, drain, (run_accounts hrun).1, (run_accounts hrun').1, hnext']
      have htext : t'.drain.1 = s'.drain.1 := by
        rw [drain, drain, hafter.sink_eq]
      rw [hrun, hrun']
      simp only [htext, ih hafter.drain hle' hnext'']

/-- A run with static faults is not seen by the session. It prints nothing and has no other fault,
whatever the fuel; and all later runs report and print what they report and print in the session
without it. -/
theorem rejected_leaves_no_trace {report : Report} (h : Leads (start sink readings) programs s)
    (hrun : s.run fuel source = some (report, t)) (hfaults : report.faults ≠ []) :
    report.halt = none ∧ t.machine.sink = s.machine.sink ∧
      (∀ fuel', s.run fuel' source = some (report, t)) ∧
        ∀ runs, t.transcript runs = s.transcript runs := by
  obtain ⟨hhalt, hmachine, hfuel⟩ := run_of_faults hrun hfaults
  obtain ⟨count, hnext, hrelabels⟩ := h.relabels_of_faults hrun hfaults
  refine ⟨hhalt, ?_, hfuel, fun runs => transcript_relabels runs hrelabels le_rfl hnext⟩
  rw [hmachine]

/-- Binds a name, and then returns where there is nothing to return from. -/
def strayReturn : String := "{ var a; print a; return; }"

theorem rejected_leaves_no_trace_strayReturn : ∃ report t,
    (start .unlimited fun _ => 0).run 9 strayReturn = some (report, t) ∧ report.faults ≠ [] ∧
      t.machine.distances[0]? = some 0 ∧
      ∀ runs, t.transcript runs = (start .unlimited fun _ => 0).transcript runs := by
  have hrun : ((start .unlimited fun _ => 0).run 9 strayReturn).map
      (fun r => (r.1.faults.length, r.2.machine.distances[0]?)) = some (1, some 0) := by
    decide +kernel
  obtain ⟨⟨report, t⟩, hrun, hreport⟩ := Option.map_eq_some_iff.mp hrun
  rw [Prod.mk.injEq] at hreport
  have hfaults : report.faults ≠ [] := by
    intro hnil
    simp [hnil] at hreport
  obtain ⟨-, -, -, hlater⟩ := rejected_leaves_no_trace (.refl _) hrun hfaults
  exact ⟨report, t, hrun, hfaults, hreport.2, hlater⟩

end History

end Session
end LoxLang
