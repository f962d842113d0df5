import LoxLang.Proofs.Execution.Laws
import LoxLang.Proofs.Execution.Mirror

/-!
# The heap only grows

Nothing on the heap goes away. Frames keep their parents and instances their classes, both keep
their names, and functions and classes stay as they were made (`Heap.Grows`). Each elementary change
of the heap is of this kind, and so is every run; between any two points of a run the heap has grown
as well (`Run.continues`). So what could be read once can be read forever.
-/
namespace LoxLang

theorem Table.isSome_get?_set {α : Type} {t : Table α} {name : String}
    (h : (t.get? name).isSome) (other : String) (value : α) :
    ((t.set other value).get? name).isSome := by
  rw [Table.get?_set]
  split
  · rfl
  · exact h

namespace Frames

variable {fs fs' : Frames} {i distance : Nat} {name : String}

/-- No frame is around itself, in any number of steps. -/
theorem ancestor?_lt {j : Nat} (h : fs.ancestor? i (distance + 1) = some j) : j < i := by
  induction distance generalizing i with
  | zero =>
    obtain ⟨p, hp, hj⟩ := Option.bind_eq_some_iff.mp h
    cases hj
    exact lt_of_parent? hp
  | succ distance ih =>
    obtain ⟨p, hp, hj⟩ := Option.bind_eq_some_iff.mp h
    exact (ih hj).trans (lt_of_parent? hp)

/-- A frame that exists keeps its chain. -/
theorem Grows.chain (h : fs.Grows fs') (hi : i < fs.next) : fs'.chain i = fs.chain i := by
  induction i using Nat.strong_induction_on with
  | _ i ih =>
    have hsame := h.parent? i hi
    cases hp : fs.parent? i with
    | none => rw [chain_of_outermost hp, chain_of_outermost (hsame.trans hp)]
    | some p =>
      have hlt := lt_of_parent? hp
      rw [chain_of_parent? hp, chain_of_parent? (hsame.trans hp), ih p hlt (hlt.trans hi)]

theorem chain_push {p : Nat} (hp : p < fs.next) (vars : Table Value) :
    (fs.push (some p) vars).chain fs.next = fs.next :: fs.chain p := by
  have hparent : (fs.push (some p) vars).parent? fs.next = some p := by
    simp [parent?_push, Option.filter, hp]
  rw [chain_of_parent? hparent, (grows_push fs (some p) vars).chain hp]

theorem holder?_of_not_isSome (h : ¬ (fs.getHere? i name).isSome) :
    fs.holder? i name = (fs.parent? i).bind (fs.holder? · name) := by
  rw [holder?, if_neg h]
  split
  · next hnone => rw [hnone, Option.bind_none]
  · next p hp => rw [hp, Option.bind_some]

/-- What is found in this many steps is found again, in a frame on the same chain. -/
theorem Grows.ancestor? (h : fs.Grows fs') {j : Nat} (hj : fs.ancestor? i distance = some j)
    (hname : (fs.getHere? j name).isSome) : fs'.ancestor? i distance = some j := by
  have hi : i < fs.next := by
    cases distance with
    | zero =>
      cases hj
      obtain ⟨value, hvalue⟩ := Option.isSome_iff_exists.mp hname
      exact lt_next_of_getHere? hvalue
    | succ distance =>
      obtain ⟨p, hp, -⟩ := Option.bind_eq_some_iff.mp hj
      exact lt_next_of_parent? hp
  rw [ancestor?_eq_getElem?_chain, h.chain hi, ← ancestor?_eq_getElem?_chain, hj]

/-- A name that is held is held again, if perhaps by a nearer frame. -/
theorem Grows.isSome_holder? (h : fs.Grows fs') (hname : (fs.holder? i name).isSome) :
    (fs'.holder? i name).isSome := by
  induction i using Nat.strong_induction_on with
  | _ i ih =>
    -- the frame may have got the name in the meantime
    by_cases hhere' : (fs'.getHere? i name).isSome
    · rw [holder?, if_pos hhere']
      rfl
    · have hhere : ¬ (fs.getHere? i name).isSome := fun hs => hhere' (h.bound i name hs)
      rw [holder?_of_not_isSome hhere] at hname
      rw [holder?_of_not_isSome hhere']
      cases hp : fs.parent? i with
      | none => simp [hp] at hname
      | some p =>
        rw [hp, Option.bind_some] at hname
        rw [h.parent? i (lt_next_of_parent? hp), hp, Option.bind_some]
        exact ih p (lt_of_parent? hp) hname

theorem Grows.isSome_holderAt? (h : fs.Grows fs')
    (hname : (fs.holderAt? i distance name).isSome) : (fs'.holderAt? i distance name).isSome := by
  obtain ⟨j, hj⟩ := Option.isSome_iff_exists.mp hname
  obtain ⟨hancestor, hbound⟩ := Option.filter_eq_some_iff.mp hj
  have hsame := h.ancestor? hancestor hbound
  rw [holderAt?, hsame, Option.filter_some, if_pos (h.bound j name hbound)]
  rfl

theorem isSome_getHere?_of_holder? {j : Nat} (h : fs.holder? i name = some j) :
    (fs.getHere? j name).isSome := by
  induction i using Nat.strong_induction_on with
  | _ i ih =>
    by_cases hhere : (fs.getHere? i name).isSome
    · rw [holder?, if_pos hhere] at h
      cases h
      exact hhere
    · rw [holder?_of_not_isSome hhere] at h
      obtain ⟨p, hp, hj⟩ := Option.bind_eq_some_iff.mp h
      exact ih p (lt_of_parent? hp) hj

theorem isSome_get? : (fs.get? i name).isSome = (fs.holder? i name).isSome := by
  unfold get?
  cases h : fs.holder? i name with
  | none => rfl
  | some j => exact isSome_getHere?_of_holder? h

theorem getAt?_eq_bind_holderAt? :
    fs.getAt? i distance name = (fs.holderAt? i distance name).bind (fs.getHere? · name) := by
  unfold getAt? holderAt?
  cases fs.ancestor? i distance with
  | none => rfl
  | some j =>
    rw [Option.bind_some, Option.filter_some]
    cases h : fs.getHere? j name <;> simp [h]

theorem isSome_getAt? :
    (fs.getAt? i distance name).isSome = (fs.holderAt? i distance name).isSome := by
  rw [getAt?_eq_bind_holderAt?]
  cases h : fs.holderAt? i distance name with
  | none => rfl
  | some j => exact (Option.filter_eq_some_iff.mp h).2

/-- Whoever could read or assign a name from a frame still can. -/
structure KeepsAccess (fs fs' : Frames) : Prop where
  get? : ∀ i name, (fs.get? i name).isSome → (fs'.get? i name).isSome
  getAt? : ∀ i distance name, (fs.getAt? i distance name).isSome →
    (fs'.getAt? i distance name).isSome
  assign? : ∀ i name value value', (fs.assign? i name value).isSome →
    (fs'.assign? i name value').isSome
  assignAt? : ∀ i distance name value value', (fs.assignAt? i distance name value).isSome →
    (fs'.assignAt? i distance name value').isSome

theorem Grows.keepsAccess (h : fs.Grows fs') : fs.KeepsAccess fs' where
  get? i name := by
    rw [isSome_get?, isSome_get?]
    exact h.isSome_holder?
  getAt? i distance name := by
    rw [isSome_getAt?, isSome_getAt?]
    exact h.isSome_holderAt?
  assign? i name value value' := by
    simp only [Frames.assign?, Option.isSome_map]
    exact h.isSome_holder?
  assignAt? i distance name value value' := by
    simp only [Frames.assignAt?, Option.isSome_map]
    exact h.isSome_holderAt?

end Frames

/-! ## Growing heaps -/

/-- Everything on the heap stays, with what belongs to it for good. -/
structure Heap.Grows (h h' : Heap) : Prop where
  frames : h.frames.Grows h'.frames
  closures : ∀ (place : Nat) c, h.closures[place]? = some c → h'.closures[place]? = some c
  classes : ∀ (place : Nat) cls, h.classes[place]? = some cls → h'.classes[place]? = some cls
  instances : ∀ (place : Nat) i, h.instances[place]? = some i →
    ∃ i', h'.instances[place]? = some i' ∧ i'.cls = i.cls ∧
      ∀ name, (i.fields.get? name).isSome → (i'.fields.get? name).isSome
  natives : h'.natives = h.natives

namespace Heap

variable {h h' h'' : Heap} {place : Nat} {name : String}

theorem Grows.refl (h : Heap) : h.Grows h where
  frames := .refl _
  closures _ _ hc := hc
  classes _ _ hcls := hcls
  instances _ i hi := ⟨i, hi, rfl, fun _ hname => hname⟩
  natives := rfl

theorem Grows.trans (hg : h.Grows h') (hg' : h'.Grows h'') : h.Grows h'' where
  frames := hg.frames.trans hg'.frames
  closures place c hc := hg'.closures place c (hg.closures place c hc)
  classes place cls hcls := hg'.classes place cls (hg.classes place cls hcls)
  instances place i hi := by
    obtain ⟨i', hi', hclass, hfields⟩ := hg.instances place i hi
    obtain ⟨i'', hi'', hclass', hfields'⟩ := hg'.instances place i' hi'
    exact ⟨i'', hi'', hclass'.trans hclass, fun name hname => hfields' name (hfields name hname)⟩
  natives := hg'.natives.trans hg.natives

theorem getElem?_push_of_some {α : Type} {xs : Array α} {x : α} (hx : xs[place]? = some x)
    (new : α) : (xs.push new)[place]? = some x := by
  have hlt := (Array.getElem?_eq_some_iff.mp hx).1
  rw [Array.getElem?_push, if_neg hlt.ne, hx]

/-- Each elementary change lets the heap grow. -/
theorem Step.grows (hstep : h.Step h') : h.Grows h' := by
  cases hstep with
  | define frame name value =>
    exact { Grows.refl h with frames := Frames.grows_define _ frame name value }
  | frame parent vars =>
    exact { Grows.refl h with frames := Frames.grows_push _ (some parent) vars }
  | closure c =>
    exact { Grows.refl h with closures := fun _ _ hc => getElem?_push_of_some hc c }
  | cls c =>
    exact { Grows.refl h with classes := fun _ _ hcls => getElem?_push_of_some hcls c }
  | inst cls =>
    refine { Grows.refl h with instances := fun place i hi => ?_ }
    exact ⟨i, getElem?_push_of_some hi _, rfl, fun _ hname => hname⟩
  | field place name value =>
    refine { Grows.refl h with instances := fun other i hi => ?_ }
    simp only [setField, Array.getElem?_modify, hi, Option.map_some]
    split
    · exact ⟨_, rfl, rfl, fun _ hname => Table.isSome_get?_set hname name value⟩
    · exact ⟨i, rfl, rfl, fun _ hname => hname⟩

theorem Grows.isSome_field? (hg : h.Grows h') (hname : (h.field? place name).isSome) :
    (h'.field? place name).isSome := by
  unfold field? at hname ⊢
  cases hi : h.instances[place]? with
  | none => simp [hi] at hname
  | some i =>
    obtain ⟨i', hi', -, hfields⟩ := hg.instances place i hi
    rw [hi, Option.bind_some] at hname
    rw [hi', Option.bind_some]
    exact hfields name hname

theorem field?_setField (hplace : place < h.instances.size) (name : String) (value : Value) :
    (h.setField place name value).field? place name = some value := by
  have hinst := Array.getElem?_eq_getElem hplace
  simp only [field?, setField, Array.getElem?_modify, hinst, Option.map_some, if_true,
    Option.bind_some, Table.get?_set_self]

end Heap

theorem Machine.stable_heapGrows : Machine.Stable fun m m' => m.heap.Grows m'.heap where
  refl _ := .refl _
  trans h h' := h.trans h'
  heap _ _ hstep := hstep.grows
  sink _ _ _ _ := .refl _
  taken _ := .refl _
  inFrame _ _ _ h := h
  deeper _ _ h := h

namespace Run

theorem readProperty_of_field {place : Nat} {name : Token} {m : Machine} {v : Value}
    (h : m.heap.field? place name.lexeme = some v) : readProperty place name m = .done v m := by
  simp only [readProperty, Action.bind_apply, Action.view, h]
  rfl

section Names

variable {id : Nat} {name : Token} {v v' : Value} {m m' m₁ : Machine}

theorem exists_readName_iff :
    (∃ v, readName id name m = .done v m) ↔ (m.valueOf? id name.lexeme).isSome := by
  simp only [readName, Action.bind_apply, Action.view]
  cases m.valueOf? id name.lexeme with
  | none => simp [fault, Action.fail]
  | some value => simp [Action.pure_apply]

theorem exists_writeName_iff :
    (∃ m₁, writeName id name v m = .done () m₁) ↔ (m.holderOf? id name.lexeme).isSome := by
  simp only [writeName, rebind, Action.bind_apply, Action.view]
  cases m.holderOf? id name.lexeme with
  | none => simp [fault, Action.fail]
  | some frame => simp [Action.change]

variable (hgrow : m.heap.Grows m'.heap) (hcurrent : m'.current = m.current)
  (hdistance : m'.distance? id = m.distance? id)
include hgrow hcurrent hdistance

/-- An occurrence of a name that could be read in a frame can be read in it later. -/
theorem exists_readName_of_grows (h : readName id name m = .done v m) :
    ∃ v', readName id name m' = .done v' m' := by
  have haccess := hgrow.frames.keepsAccess
  have hvalue := exists_readName_iff.mp ⟨v, h⟩
  rw [exists_readName_iff]
  unfold Machine.valueOf? at hvalue ⊢
  rw [hdistance, hcurrent]
  cases hfound : m.distance? id with
  | none =>
    rw [hfound] at hvalue
    exact haccess.get? _ _ hvalue
  | some distance =>
    rw [hfound] at hvalue
    exact haccess.getAt? _ _ _ hvalue

theorem exists_writeName_of_grows (h : writeName id name v m = .done () m₁) :
    ∃ m₁', writeName id name v' m' = .done () m₁' := by
  have hholder := exists_writeName_iff.mp ⟨m₁, h⟩
  rw [exists_writeName_iff]
  unfold Machine.holderOf? at hholder ⊢
  rw [hdistance, hcurrent]
  cases hfound : m.distance? id with
  | none =>
    rw [hfound] at hholder
    exact hgrow.frames.isSome_holder? hholder
  | some distance =>
    rw [hfound] at hholder
    exact hgrow.frames.isSome_holderAt? hholder

end Names

/-! ## From one point of a run to the next -/

section Continuation

variable {α β : Type} {m : Machine} {h : Heap}

/-- However the run ends, this heap has grown. -/
def Grown (h : Heap) : Outcome Machine RunFault α → Prop
  | .done _ m => h.Grows m.heap
  | .failed _ m => h.Grows m.heap
  | .exhausted => True

theorem Grown.of_ensures {x : Run α}
    (hx : x.Ensures m (fun _ m' => h.Grows m'.heap) fun _ m' => h.Grows m'.heap) :
    Grown h (x m) := by
  cases hrun : x m with
  | done a m' => exact hx.of_done hrun
  | failed fault m' => exact hx.of_failed hrun
  | exhausted => trivial

theorem Grown.bind {x : Run α} {f : α → Run β} (hx : Grown h (x m))
    (hf : ∀ a m', Grown m'.heap (f a m')) : Grown h ((x >>= f) m) := by
  rw [Action.bind_apply]
  cases hrun : x m with
  | done a m₁ =>
    rw [hrun] at hx
    have hrest := hf a m₁
    dsimp only
    cases hnext : f a m₁ with
    | done b m₂ =>
      rw [hnext] at hrest
      exact Heap.Grows.trans hx hrest
    | failed fault m₂ =>
      rw [hnext] at hrest
      exact Heap.Grows.trans hx hrest
    | exhausted => trivial
  | failed fault m₁ =>
    rw [hrun] at hx
    exact hx
  | exhausted => trivial

theorem Leaves.grown {f : Outcome Machine RunFault α → Outcome Machine RunFault α} (hf : Leaves f)
    {outcome : Outcome Machine RunFault α} (h' : Grown h outcome) : Grown h (f outcome) := by
  cases outcome with
  | done a m =>
    obtain ⟨current, depth, heq⟩ := hf.done a m
    rw [heq]
    exact h'
  | failed fault m =>
    obtain ⟨fault', current, depth, heq, -⟩ := hf.failed fault m
    rw [heq]
    exact h'
  | exhausted =>
    rw [hf.exhausted]
    trivial

/-- The run lets the heap of `m` grow. Where it is stopped it has come to a point to stop at, with
the heap that there is. With fewer points to stop at it goes on, and the heap grows on. -/
structure ContinuesAt (m : Machine) (X : Stops → Outcome Machine RunFault α) : Prop where
  same : Resumes X
  grows : ∀ stop, Grown m.heap (X stop)
  halts : ∀ {stop n}, X stop = .failed .stopped n →
    ∃ running point k, stop running point k ∧ k.heap = n.heap
  later : ∀ {stop stop' : Stops} {n}, stop'.Within stop → X stop = .failed .stopped n →
    Grown n.heap (X stop')

def Continues (X : Stops → Run α) : Prop := ∀ m, ContinuesAt m fun stop => X stop m

theorem continues_of_const {x : Run α} (hx : Preserves (fun m m' => m.heap.Grows m'.heap) x)
    (hstopped : ∀ m n, x m ≠ .failed .stopped n) : Continues fun _ => x := fun m => {
  same := resumes_const _
  grows := fun _ => .of_ensures (hx m)
  halts := fun h => absurd h (hstopped m _)
  later := fun _ h => absurd h (hstopped m _) }

theorem Continues.bind {X : Stops → Run α} {F : α → Stops → Run β} (hX : Continues X)
    (hF : ∀ a, Continues (F a)) : Continues fun stop => X stop >>= fun a => F a stop := by
  intro m
  refine ⟨(hX m).same.bind fun a m' => (hF a m').same, fun stop => ?_, ?_, ?_⟩
  · exact ((hX m).grows stop).bind fun a m' => (hF a m').grows stop
  · intro stop n hstopped
    rcases Action.bind_eq_failed_iff.mp hstopped with hfirst | ⟨a, m₁, -, hsecond⟩
    · exact (hX m).halts hfirst
    · exact (hF a m₁).halts hsecond
  · intro stop stop' n hstop hstopped
    rcases Action.bind_eq_failed_iff.mp hstopped with hfirst | ⟨a, m₁, hdone, hsecond⟩
    · exact ((hX m).later hstop hfirst).bind fun a m' => (hF a m').grows stop'
    · -- the first part was not stopped, so it comes to the same with fewer points
      have hsame : X stop' m = .done a m₁ := by
        rcases (hX m).same stop stop' hstop with heq | ⟨m', hfirst⟩
        · exact heq.trans hdone
        · cases hdone.symm.trans hfirst
      simp only [Action.bind_apply, hsame]
      exact (hF a m₁).later hstop hsecond

theorem continues_pause (running : List Expr) (point : Point) :
    Continues fun stop => pause (stop running point) := by
  intro m
  have hstay : ∀ stop : Stops, Grown m.heap (pause (stop running point) m) := fun stop =>
    .of_ensures (ensures_pause.mpr ⟨fun _ => .refl _, fun _ => .refl _⟩)
  have hhere : ∀ {stop : Stops} {n}, pause (stop running point) m = .failed .stopped n →
      stop running point m ∧ n = m := by
    intro stop n hstopped
    by_cases h : stop running point m
    · cases (if_pos h : pause (stop running point) m = _).symm.trans hstopped
      exact ⟨h, rfl⟩
    · cases (pause_of_not h).symm.trans hstopped
  refine ⟨resumes_pause running point m, hstay, fun hstopped => ?_, fun _ hstopped => ?_⟩
  · obtain ⟨hpoint, rfl⟩ := hhere hstopped
    exact ⟨running, point, _, hpoint, rfl⟩
  · obtain ⟨-, rfl⟩ := hhere hstopped
    exact hstay _

theorem ContinuesAt.leave {X : Stops → Outcome Machine RunFault α} {m₀ : Machine}
    (hX : ContinuesAt m₀ X) (hheap : m₀.heap = m.heap)
    {f : Outcome Machine RunFault α → Outcome Machine RunFault α} (hf : Leaves f) :
    ContinuesAt m fun stop => f (X stop) := by
  refine ⟨hX.same.leave hf, fun stop => hf.grown ?_, ?_, ?_⟩
  · rw [← hheap]
    exact hX.grows stop
  · intro stop n hstopped
    obtain ⟨m₁, current, depth, hrun, rfl⟩ := hf.of_output hstopped
    have hpoint : ∃ running point k, stop running point k ∧ k.heap = m₁.heap := hX.halts hrun
    exact hpoint
  · intro stop stop' n hstop hstopped
    obtain ⟨m₁, current, depth, hrun, rfl⟩ := hf.of_output hstopped
    have hgrown : Grown m₁.heap (X stop') := hX.later hstop hrun
    exact hf.grown hgrown

theorem continues : StopLaw Continues where
  exhausted := continues_of_const preserves_exhausted fun _ _ h => by cases h
  bind := .bind
  quiet hx := continues_of_const (hx.preserves Machine.stable_heapGrows) hx.ne_stopped
  view f := continues_of_const (preserves_view Machine.stable_heapGrows f) fun _ _ h => by cases h
  pause := continues_pause
  leave _ henter hf hX := fun m => (hX _).leave (henter m) (hf m)
  native n arguments :=
    continues_of_const (preserves_callNative Machine.stable_heapGrows n arguments)
      (callNative_ne_stopped n arguments)
  print := by
    intro fuel running expr heval
    simp only [execAmid]
    apply Continues.bind (continues_pause running _)
    intro _
    apply heval.bind
    intro value
    apply (continues_of_const (preserves_print Machine.stable_heapGrows value)
      (print_ne_stopped value)).bind
    intro _
    exact continues_of_const (preserves_pure Machine.stable_heapGrows _) fun _ _ h => by cases h

theorem continues_program (fuel : Nat) (stmts : List Stmt) :
    Continues fun stop => programWith (execAmid stop fuel []) stmts :=
  continues.quietLaw.law.programWith
    (continues_of_const (preserves_flush Machine.stable_heapGrows) flush_ne_stopped) fuel stmts

end Continuation

end Run
end LoxLang
