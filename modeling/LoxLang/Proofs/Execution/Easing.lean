import LoxLang.Proofs.Execution.Laws

/-!
# Runs under looser limits

Two limits can stop a run that would go on otherwise: the depth of calls and the capacity of the
sink. An `Easing` loosens them: it does not count some of the calls that are running, and puts
another sink in the place of the one that there is. Whatever a run comes to without being stopped by
a limit, it comes to under looser limits, with the same values, faults and heap
(`Easing.eases_eval_exec`), and on the way it passes the same points (`Easing.follows`).
-/
namespace LoxLang

/-- Looser limits of a run. -/
structure Easing where
  /-- The calls that are not counted. -/
  spared : Nat
  sink : Sink → Sink
  /-- The faults by which a limit stops a run. -/
  Limits : RunFault → Prop
  overflow : spared = 0 ∨ ∀ token, Limits (.operation token .stackOverflow)
  write : ∀ {s t : Sink} {piece : String}, s.write piece = .ok t →
    (sink s).write piece = .ok (sink t)
  refused : ∀ {s : Sink} {piece : String} {cause : OutputCause}, s.write piece = .error cause →
    Limits (.output cause) ∨ (sink s).write piece = .error cause
  not_native : ∀ text, ¬ Limits (.native text)

namespace Easing

def machine (e : Easing) (m : Machine) : Machine :=
  { m with depth := m.depth - e.spared, sink := e.sink m.sink }

/-- What `x` comes to from a machine, it comes to with looser limits, unless a limit stops it. -/
def Eases {α : Type} (e : Easing) (x : Run α) : Prop :=
  ∀ m, e.spared ≤ m.depth → x.Ensures m
    (fun a m' => m'.depth = m.depth ∧ x (e.machine m) = .done a (e.machine m'))
    fun fault m' => e.Limits fault ∨
      m'.depth = m.depth ∧ x (e.machine m) = .failed fault (e.machine m')

def Halts {α : Type} (stop : Run.Stops) (x : Run α) (m : Machine) : Prop :=
  (∃ running point m', stop running point m') ∧ ∃ m', x m = .failed .stopped m'

/-- What `x` comes to without being stopped by a limit, `x'` comes to with looser limits, unless it
is stopped at a point before. -/
def Follows {α : Type} (e : Easing) (stop : Run.Stops) (x x' : Run α) : Prop :=
  ∀ m, e.spared ≤ m.depth → x.Ensures m
    (fun a m' => m'.depth = m.depth ∧
      (x' (e.machine m) = .done a (e.machine m') ∨ Halts stop x' (e.machine m)))
    fun fault m' => e.Limits fault ∨ Halts stop x' (e.machine m) ∨
      m'.depth = m.depth ∧ x' (e.machine m) = .failed fault (e.machine m')

variable {e : Easing} {stop stop' : Run.Stops} {α β : Type}

section Rules

theorem Halts.bind {x : Run α} {m : Machine} (h : Halts stop x m) (f : α → Run β) :
    Halts stop (x >>= f) m := by
  obtain ⟨hstop, m', hrun⟩ := h
  exact ⟨hstop, m', by rw [Action.bind_apply, hrun]⟩

theorem Halts.of_eq {x : Run α} {y : Run β} {m m' : Machine} (h : Halts stop y m')
    (heq : ∀ n, y m' = .failed .stopped n → ∃ n', x m = .failed .stopped n') : Halts stop x m := by
  obtain ⟨hstop, n, hrun⟩ := h
  exact ⟨hstop, heq n hrun⟩

theorem follows_exhausted : e.Follows stop (Action.exhausted : Run α) Action.exhausted :=
  fun _ _ => trivial

theorem Follows.bind {x x' : Run α} {f f' : α → Run β} (hx : e.Follows stop x x')
    (hf : ∀ a, e.Follows stop (f a) (f' a)) : e.Follows stop (x >>= f) (x' >>= f') := by
  intro m hm
  rw [Action.ensures_bind]
  apply (hx m hm).mono
  · rintro a m₁ ⟨hdepth, hrun⟩
    have hsame (h : x' (e.machine m) = .done a (e.machine m₁)) :
        (x' >>= f') (e.machine m) = f' a (e.machine m₁) := by
      rw [Action.bind_apply, h]
    apply (hf a m₁ (hdepth ▸ hm)).mono
    · rintro b m₂ ⟨hdepth', hrest⟩
      refine ⟨hdepth'.trans hdepth, ?_⟩
      rcases hrun with hrun | hhalts
      · rw [Halts, hsame hrun]
        exact hrest
      · exact .inr (hhalts.bind _)
    · rintro fault m₂ hrest
      rcases hrun with hrun | hhalts
      · rw [Halts, hsame hrun]
        exact hrest.imp_right (Or.imp_right fun h => ⟨h.1.trans hdepth, h.2⟩)
      · exact .inr (.inl (hhalts.bind _))
  · rintro fault m₁ (hlimit | hhalts | ⟨hdepth, hrun⟩)
    · exact .inl hlimit
    · exact .inr (.inl (hhalts.bind _))
    · exact .inr (.inr ⟨hdepth, by rw [Action.bind_apply, hrun]⟩)

theorem follows_quiet {x : Run α} (hx : Run.Quiet x) : e.Follows stop x x := by
  intro m _
  apply (hx.ensures m).mono
  · rintro a m₁ ⟨hdepth, hsink, hdone⟩
    refine ⟨hdepth, .inl ?_⟩
    rw [machine, machine, hdepth, hsink]
    exact hdone _ _
  · rintro fault m₁ ⟨hdepth, hsink, -, hfailed⟩
    refine .inr (.inr ⟨hdepth, ?_⟩)
    rw [machine, machine, hdepth, hsink]
    exact hfailed _ _

theorem follows_pause {p p' : Machine → Prop} (h : ∀ m, p m → p' (e.machine m))
    (hstop : ∀ m, p' m → ∃ running point m', stop running point m') :
    e.Follows stop (Run.pause p) (Run.pause p') := by
  intro m _
  rw [Run.ensures_pause]
  constructor
  · intro hp
    exact .inr (.inr ⟨rfl, if_pos (h m hp)⟩)
  · intro _
    refine ⟨rfl, ?_⟩
    by_cases hp : p' (e.machine m)
    · exact .inr ⟨hstop _ hp, _, if_pos hp⟩
    · exact .inl (if_neg hp)

theorem Follows.inFrame {x x' : Run α} (hx : e.Follows stop x x') (frame : Nat) :
    e.Follows stop (Run.inFrame frame x) (Run.inFrame frame x') := by
  intro m hm
  have hhalts : Halts stop x' (e.machine { m with current := frame }) →
      Halts stop (Run.inFrame frame x') (e.machine m) := fun h =>
    h.of_eq fun n hrun => ⟨{ n with current := m.current }, by
      change x'.ensuring _ (e.machine { m with current := frame }) = _
      rw [Action.ensuring, hrun]
      rfl⟩
  change (x.ensuring _).Ensures { m with current := frame } _ _
  rw [Action.ensures_ensuring]
  apply (hx { m with current := frame } hm).mono
  · rintro a m₁ ⟨hdepth, hrun | hhalt⟩
    · refine ⟨hdepth, .inl ?_⟩
      change x'.ensuring _ (e.machine { m with current := frame }) = _
      rw [Action.ensuring, hrun]
      rfl
    · exact ⟨hdepth, .inr (hhalts hhalt)⟩
  · rintro fault m₁ (hlimit | hhalt | ⟨hdepth, hrun⟩)
    · exact .inl hlimit
    · exact .inr (.inl (hhalts hhalt))
    · refine .inr (.inr ⟨hdepth, ?_⟩)
      change x'.ensuring _ (e.machine { m with current := frame }) = _
      rw [Action.ensuring, hrun]
      rfl

theorem machine_deeper {m : Machine} (hm : e.spared ≤ m.depth) :
    { e.machine m with depth := (e.machine m).depth + 1 } =
      e.machine { m with depth := m.depth + 1 } := by
  have hdepth : m.depth - e.spared + 1 = m.depth + 1 - e.spared := by omega
  simp [machine, hdepth]

theorem machine_shallower {m : Machine} (e : Easing) :
    { e.machine m with depth := (e.machine m).depth - 1 } =
      e.machine { m with depth := m.depth - 1 } := by
  have hdepth : m.depth - e.spared - 1 = m.depth - 1 - e.spared := by omega
  simp [machine, hdepth]

theorem Follows.deeper {x x' : Run α} (hx : e.Follows stop x x') :
    e.Follows stop (Run.deeper x) (Run.deeper x') := by
  intro m hm
  have hcounted : ∀ {m₁ : Machine}, m₁.depth = m.depth + 1 → m₁.depth - 1 = m.depth := by omega
  have hstart : ∀ n, Run.deeper x' (e.machine m) = n ↔
      x'.ensuring (fun m' => { m' with depth := m'.depth - 1 })
        (e.machine { m with depth := m.depth + 1 }) = n := fun n => by
    rw [← machine_deeper hm]
    rfl
  have hhalts : Halts stop x' (e.machine { m with depth := m.depth + 1 }) →
      Halts stop (Run.deeper x') (e.machine m) := fun h =>
    h.of_eq fun n hrun => ⟨{ n with depth := n.depth - 1 }, (hstart _).mpr (by
      rw [Action.ensuring, hrun])⟩
  change (x.ensuring _).Ensures { m with depth := m.depth + 1 } _ _
  rw [Action.ensures_ensuring]
  apply (hx { m with depth := m.depth + 1 } (Nat.le_succ_of_le hm)).mono
  · rintro a m₁ ⟨hdepth, hrun | hhalt⟩
    · refine ⟨hcounted hdepth, .inl ((hstart _).mpr ?_)⟩
      rw [Action.ensuring, hrun]
      exact congrArg (Outcome.done a) e.machine_shallower
    · exact ⟨hcounted hdepth, .inr (hhalts hhalt)⟩
  · rintro fault m₁ (hlimit | hhalt | ⟨hdepth, hrun⟩)
    · exact .inl hlimit
    · exact .inr (.inl (hhalts hhalt))
    · refine .inr (.inr ⟨hcounted hdepth, (hstart _).mpr ?_⟩)
      rw [Action.ensuring, hrun]
      exact congrArg (Outcome.failed fault) e.machine_shallower

theorem Follows.blaming {x x' : Run α} (hx : e.Follows stop x x') (paren : Token) :
    e.Follows stop (Run.blaming paren x) (Run.blaming paren x') := by
  intro m hm
  have hhalts : Halts stop x' (e.machine m) → Halts stop (Run.blaming paren x') (e.machine m) :=
    fun h => h.of_eq fun n hrun => ⟨n, by rw [Run.blaming, hrun]; rfl⟩
  have h := hx m hm
  unfold Action.Ensures at h ⊢
  rw [Run.blaming]
  cases hrun : x m with
  | exhausted => trivial
  | done a m₁ =>
    rw [hrun] at h
    exact ⟨h.1, h.2.imp (fun hrun' => by rw [Run.blaming, hrun']) hhalts⟩
  | failed fault m₁ =>
    rw [hrun] at h
    rcases h with hlimit | hhalt | ⟨hdepth, hrun'⟩
    · left
      cases fault with
      | native text => exact absurd hlimit (e.not_native text)
      | operation token cause => exact hlimit
      | output cause => exact hlimit
    · exact .inr (.inl (hhalts hhalt))
    · exact .inr (.inr ⟨hdepth, by rw [Run.blaming, hrun']⟩)

theorem follows_write (piece : String) : e.Follows stop (Run.write piece) (Run.write piece) := by
  intro m _
  unfold Action.Ensures Run.write
  cases hwrite : m.sink.write piece with
  | ok sink =>
    have heased : (e.machine m).sink.write piece = .ok (e.sink sink) := e.write hwrite
    exact ⟨rfl, .inl (by rw [heased]; rfl)⟩
  | error cause =>
    rcases e.refused hwrite with hlimit | hrefused
    · exact .inl hlimit
    · have heased : (e.machine m).sink.write piece = .error cause := hrefused
      exact .inr (.inr ⟨rfl, by rw [heased]⟩)

theorem follows_print (value : Value) :
    e.Follows stop (Run.print value) (Run.print value) := by
  apply (follows_quiet (Run.quiet_view fun _ _ _ => rfl)).bind
  intro text
  apply (follows_write text).bind
  intro _
  exact follows_write "\n"

theorem follows_callNative (n : Native) (arguments : List Value) :
    e.Follows stop (Run.callNative n arguments) (Run.callNative n arguments) := by
  intro m _
  unfold Action.Ensures Run.callNative
  dsimp only [machine]
  cases n.run ⟨arguments, arguments.map m.heap.text, m.readings m.taken⟩ with
  | ok value => exact ⟨rfl, .inl rfl⟩
  | error text => exact .inr (.inr ⟨rfl, rfl⟩)

/-- The only step that looks at the depth. -/
theorem follows_invoke {exec exec' : Stmt → Run Flow} (value : Value) (paren : Token)
    (arguments : List Value) (hcall : ∀ callee,
      e.Follows stop (Run.call exec callee arguments) (Run.call exec' callee arguments)) :
    e.Follows stop (Run.invoke exec value paren arguments)
      (Run.invoke exec' value paren arguments) := by
  intro m hm
  have hheap : (e.machine m).heap = m.heap := rfl
  unfold Action.Ensures Halts
  rw [Run.invoke_apply, Run.invoke_apply, hheap]
  cases m.heap.callee? value with
  | none => exact .inr (.inr ⟨rfl, rfl⟩)
  | some callee =>
    dsimp only
    by_cases harity : arguments.length ≠ callee.arity
    · rw [if_pos harity, if_pos harity]
      exact .inr (.inr ⟨rfl, rfl⟩)
    rw [if_neg harity, if_neg harity]
    by_cases hdeep : maxDepth ≤ m.depth
    · rw [if_pos hdeep]
      rcases e.overflow with hnone | hlimit
      · have hdeep' : maxDepth ≤ (e.machine m).depth := by simpa [machine, hnone] using hdeep
        rw [if_pos hdeep']
        exact .inr (.inr ⟨rfl, rfl⟩)
      · exact .inl (hlimit paren)
    · have hdeep' : ¬ maxDepth ≤ (e.machine m).depth := by
        simp only [machine]
        omega
      rw [if_neg hdeep, if_neg hdeep']
      exact ((hcall callee).deeper.blaming paren) m hm

end Rules

/-- Runs follow runs under tighter limits, if they are stopped wherever these are. -/
theorem follows (h : ∀ running point m, stop running point m → stop' running point (e.machine m)) :
    Run.QuietLaw fun X => e.Follows stop' (X stop) (X stop') where
  exhausted := follows_exhausted
  bind hX hF := hX.bind hF
  quiet := follows_quiet
  pause running point :=
    follows_pause (h running point) fun m hm => ⟨running, point, m, hm⟩
  inFrame frame hX := hX.inFrame frame
  native := follows_callNative
  invoke := follows_invoke
  print := by
    intro fuel running expr heval
    simp only [Run.execAmid]
    apply Follows.bind (follows_pause (h running _) fun m hm => ⟨running, _, m, hm⟩)
    intro _
    apply heval.bind
    intro value
    apply (follows_print value).bind
    intro _
    exact follows_quiet (Run.quiet_pure _)

/-- Without points to stop at, nothing is stopped. -/
theorem eases_of_follows {x : Run α} (h : e.Follows Run.never x x) : e.Eases x := by
  have hnot : ∀ {m}, ¬ Halts Run.never x m := fun ⟨⟨_, _, _, hnever⟩, _⟩ => hnever
  intro m hm
  apply (h m hm).mono
  · rintro a m' ⟨hdepth, hrun⟩
    exact ⟨hdepth, hrun.resolve_right hnot⟩
  · rintro fault m' (hlimit | hhalts | hrun)
    · exact .inl hlimit
    · exact absurd hhalts hnot
    · exact .inr hrun

/-- Unless a limit stops it, a run comes to the same under looser limits. -/
theorem eases_eval_exec (e : Easing) (fuel : Nat) :
    (∀ expr, e.Eases (Run.eval fuel expr)) ∧ ∀ stmt, e.Eases (Run.exec fuel stmt) := by
  have hlaw : Run.QuietLaw fun X => e.Follows Run.never (X Run.never) (X Run.never) :=
    follows fun _ _ _ => id
  obtain ⟨heval, hexec⟩ := hlaw.law.evalAmid_execAmid fuel
  obtain ⟨heval', hexec'⟩ := Run.evalAmid_execAmid_never fuel []
  constructor
  · intro expr
    rw [← heval']
    exact eases_of_follows (heval [] expr)
  · intro stmt
    rw [← hexec']
    exact eases_of_follows (hexec [] stmt)

end Easing
end LoxLang
