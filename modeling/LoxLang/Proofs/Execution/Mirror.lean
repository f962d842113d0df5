import LoxLang.Execution.Eval
import LoxLang.Proofs.Binding.Encounters

/-!
# Frames that mirror scopes

The walk that binds names opens a scope where a run opens a frame. A frame mirrors a stack of scopes
when its chain of parents has one frame for each scope, each of them binds the names that are ready
in its scope, and behind them comes the frame of the globals. Frames are only added and names are
never removed from them, so what mirrors a stack once mirrors it forever.
-/
namespace LoxLang

namespace Scope

/-- Every name that is ready in the scope is one of these. -/
def ReadyWithin (scope : Scope) (bound : String → Prop) : Prop :=
  ∀ name, scope.get? name = some true → bound name

theorem ReadyWithin.mono {scope : Scope} {bound bound' : String → Prop}
    (h : scope.ReadyWithin bound) (hb : ∀ name, bound name → bound' name) :
    scope.ReadyWithin bound' := fun name hname => hb name (h name hname)

theorem readyWithin_empty (bound : String → Prop) : (∅ : Scope).ReadyWithin bound := by
  intro name h
  simp at h

theorem ReadyWithin.set {scope : Scope} {bound : String → Prop} {name : String} {ready : Bool}
    (h : scope.ReadyWithin bound) (hname : ready = true → bound name) :
    Scope.ReadyWithin (scope.set name ready) bound := by
  intro other hother
  rw [Table.get?_set] at hother
  split at hother
  · next heq =>
    subst heq
    exact hname (Option.some.inj hother)
  · exact h other hother

end Scope

namespace Scopes

/-- No name is waiting for its initializer. -/
def Ready (scopes : List Scope) : Prop :=
  ∀ scope ∈ scopes, ∀ name, scope.get? name ≠ some false

/-- At most names of the innermost scope are waiting for an initializer, and `this` is not. -/
def Readable (scopes : List Scope) : Prop :=
  Ready scopes.tail ∧ scopes.head?.bind (·.get? "this") ≠ some false

theorem Ready.readable {scopes : List Scope} (h : Ready scopes) : Readable scopes := by
  refine ⟨fun scope hscope => h scope (List.mem_of_mem_tail hscope), ?_⟩
  cases scopes with
  | nil => simp
  | cons scope outer => exact h scope List.mem_cons_self "this"

/-- A name that does not wait in the innermost scope waits nowhere. -/
theorem Readable.get?_ne {scopes : List Scope} (h : Readable scopes) {name : String}
    (hhead : scopes.head?.bind (·.get? name) ≠ some false) :
    ∀ scope ∈ scopes, scope.get? name ≠ some false := by
  cases scopes with
  | nil => simp
  | cons scope outer =>
    simp only [List.forall_mem_cons]
    exact ⟨hhead, fun s hs => h.1 s hs name⟩

theorem ready_nil : Ready [] := by simp [Ready]

theorem Ready.cons {scope : Scope} {outer : List Scope} (h : Ready outer)
    (hscope : ∀ name, scope.get? name ≠ some false) : Ready (scope :: outer) := by
  simp only [Ready, List.mem_cons, forall_eq_or_imp]
  exact ⟨hscope, h⟩

theorem Ready.enter {outer : List Scope} (h : Ready outer) : Ready (∅ :: outer) :=
  h.cons fun name => by simp

theorem Ready.ofThis {outer : List Scope} (h : Ready outer) : Ready (Scopes.ofThis :: outer) := by
  refine h.cons fun name => ?_
  simp only [Scopes.ofThis, Table.get?_set]
  split <;> simp

/-- Only the name that is declared can start to wait. -/
theorem get?_declare {name other : String} {scope : Scope} {outer : List Scope}
    (h : (scope.get? other) ≠ some false) (hne : name ≠ other) :
    (declare name (scope :: outer)).head?.bind (·.get? other) ≠ some false := by
  simp only [declare]
  split
  · simpa using h
  · simpa [Table.get?_set, hne] using h

theorem Ready.introduce {scopes : List Scope} (h : Ready scopes) (name : String) :
    Ready (introduce name scopes) := by
  cases scopes with
  | nil => exact h
  | cons scope outer =>
    have houter : Ready outer := fun s hs => h s (List.mem_cons_of_mem _ hs)
    have hscope := h scope List.mem_cons_self
    refine houter.cons fun other => ?_
    rw [Table.get?_set]
    split
    · simp
    · next hne =>
      split
      · exact hscope other
      · rw [Table.get?_set, if_neg hne]
        exact hscope other

theorem Ready.introduceAll {scopes : List Scope} (h : Ready scopes) (names : List Token) :
    Ready (introduceAll names scopes) := by
  induction names generalizing scopes with
  | nil => exact h
  | cons name names ih => exact ih (h.introduce name.lexeme)

/-- While an initializer is passed, only the name that is declared waits for it. -/
theorem Ready.declare {scopes : List Scope} (h : Ready scopes) {name : String}
    (hname : name ≠ "this") : Readable (declare name scopes) := by
  cases scopes with
  | nil => exact h.readable
  | cons scope outer =>
    have hscope := h scope List.mem_cons_self "this"
    exact ⟨fun s hs => h s (List.mem_cons_of_mem _ hs), get?_declare hscope hname⟩

/-- Behind a statement no name is waiting. -/
theorem Ready.scopesAfter {scopes : List Scope} (h : Ready scopes) (stmt : Stmt) :
    Ready (stmt.scopesAfter scopes) := by
  cases stmt <;> simp only [Stmt.scopesAfter] <;> try exact h
  case varDecl name _ => exact h.introduce name.lexeme
  case funDecl declaration => exact h.introduce declaration.name.lexeme
  case classDecl name _ => exact h.introduce name.lexeme
  case ifThen thenBranch => exact h.scopesAfter thenBranch
  case ifElse thenBranch elseBranch => exact (h.scopesAfter thenBranch).scopesAfter elseBranch
  case whileLoop body => exact h.scopesAfter body

end Scopes

namespace Frames

variable {fs fs' fs'' : Frames}

/-- A frame and the frames around it, innermost first. -/
def chain (fs : Frames) (i : Nat) : List Nat :=
  i :: match _h : fs.parent? i with
    | none => []
    | some p => fs.chain p
termination_by i
decreasing_by exact lt_of_parent? _h

theorem chain_of_parent? {i p : Nat} (h : fs.parent? i = some p) :
    fs.chain i = i :: fs.chain p := by
  rw [chain]
  split
  · next hnone => simp [h] at hnone
  · next q hq =>
    rw [h] at hq
    rw [Option.some.inj hq]

theorem chain_of_outermost {i : Nat} (h : fs.parent? i = none) : fs.chain i = [i] := by
  rw [chain]
  split
  · rfl
  · next p hp => simp [h] at hp

/-- Going up a number of steps is going along the chain. -/
theorem ancestor?_eq_getElem?_chain (fs : Frames) (i distance : Nat) :
    fs.ancestor? i distance = (fs.chain i)[distance]? := by
  induction distance generalizing i with
  | zero => cases hp : fs.parent? i <;> simp [ancestor?, chain_of_parent?, chain_of_outermost, hp]
  | succ distance ih =>
    cases hp : fs.parent? i with
    | none => simp [ancestor?, chain_of_outermost hp, hp]
    | some p => simp [ancestor?, chain_of_parent? hp, hp, ih]

structure Grows (fs fs' : Frames) : Prop where
  next_le : fs.next ≤ fs'.next
  parent? : ∀ i, i < fs.next → fs'.parent? i = fs.parent? i
  bound : ∀ i name, (fs.getHere? i name).isSome → (fs'.getHere? i name).isSome

theorem Grows.refl (fs : Frames) : fs.Grows fs := ⟨le_rfl, fun _ _ => rfl, fun _ _ h => h⟩

theorem Grows.trans (h : fs.Grows fs') (h' : fs'.Grows fs'') : fs.Grows fs'' where
  next_le := h.next_le.trans h'.next_le
  parent? i hi := (h'.parent? i (hi.trans_le h.next_le)).trans (h.parent? i hi)
  bound i name hname := h'.bound i name (h.bound i name hname)

theorem grows_push (fs : Frames) (parent : Option Nat) (vars : Table Value) :
    fs.Grows (fs.push parent vars) where
  next_le := by simp
  parent? i hi := by
    rw [parent?_push, if_neg hi.ne]
  bound i name h := by
    have hi : i ≠ fs.next := by
      rintro rfl
      simp [getHere?] at h
    rw [getHere?_push, if_neg hi]
    exact h

theorem grows_define (fs : Frames) (i : Nat) (name : String) (value : Value) :
    fs.Grows (fs.define i name value) where
  next_le := by simp
  parent? j _ := by simp
  bound j other h := by
    rw [getHere?_define]
    split
    · rfl
    · exact h

theorem lt_next_of_parent? {i p : Nat} (h : fs.parent? i = some p) : i < fs.next := by
  obtain ⟨f, hf, -⟩ := Option.bind_eq_some_iff.mp h
  exact (Array.getElem?_eq_some_iff.mp hf).1

theorem lt_next_of_getHere? {i : Nat} {name : String} {value : Value}
    (h : fs.getHere? i name = some value) : i < fs.next := by
  obtain ⟨f, hf, -⟩ := Option.bind_eq_some_iff.mp h
  exact (Array.getElem?_eq_some_iff.mp hf).1

def Binds (fs : Frames) (i : Nat) (name : String) : Prop := (fs.getHere? i name).isSome

/-- A frame and its parents bind the names that are ready in these scopes, and end at the frame of
the globals. -/
def Mirrors (fs : Frames) : Nat → List Scope → Prop
  | i, [] => i = Heap.globals ∧ i < fs.next
  | i, scope :: outer =>
    scope.ReadyWithin (fs.Binds i) ∧ ∃ p, fs.parent? i = some p ∧ fs.Mirrors p outer

theorem Mirrors.lt_next {i : Nat} {scopes : List Scope} (h : fs.Mirrors i scopes) :
    i < fs.next := by
  cases scopes with
  | nil => exact h.2
  | cons scope outer =>
    obtain ⟨-, p, hp, -⟩ := h
    exact lt_next_of_parent? hp

theorem Mirrors.mono {i : Nat} {scopes : List Scope} (h : fs.Mirrors i scopes)
    (hgrow : fs.Grows fs') : fs'.Mirrors i scopes := by
  induction scopes generalizing i with
  | nil => exact ⟨h.1, h.2.trans_le hgrow.next_le⟩
  | cons scope outer ih =>
    obtain ⟨hready, p, hp, houter⟩ := h
    have hi := lt_next_of_parent? hp
    refine ⟨hready.mono fun name => hgrow.bound i name, p, ?_, ih houter⟩
    rw [hgrow.parent? i hi, hp]

/-- A new frame mirrors one more scope. -/
theorem Mirrors.push {i : Nat} {scope : Scope} {outer : List Scope} (h : fs.Mirrors i outer)
    {vars : Table Value} (hvars : scope.ReadyWithin fun name => (vars.get? name).isSome) :
    (fs.push (some i) vars).Mirrors fs.next (scope :: outer) := by
  refine ⟨hvars.mono fun name hname => ?_, i, ?_, h.mono (grows_push fs _ _)⟩
  · simpa [Binds, getHere?_push] using hname
  · simp [parent?_push, Option.filter, h.lt_next]

theorem Mirrors.declare {i : Nat} {scopes : List Scope} (h : fs.Mirrors i scopes) (name : String) :
    fs.Mirrors i (Scopes.declare name scopes) := by
  cases scopes with
  | nil => exact h
  | cons scope outer =>
    obtain ⟨hready, hparent⟩ := h
    refine ⟨?_, hparent⟩
    split
    · exact hready
    · exact hready.set (by simp)

theorem Mirrors.define {i : Nat} {scopes : List Scope} (h : fs.Mirrors i scopes) (name : String)
    (value : Value) : (fs.define i name value).Mirrors i (Scopes.introduce name scopes) := by
  have hgrow := grows_define fs i name value
  have hi := h.lt_next
  have hdeclared := (h.mono hgrow).declare name
  cases scopes with
  | nil => exact hdeclared
  | cons scope outer =>
    have hname : (fs.define i name value).Binds i name := by
      simp [Binds, getHere?_define, hi]
    exact ⟨hdeclared.1.set fun _ => hname, hdeclared.2⟩

/-- Of a stack of scopes, the frames on the chain and that of the globals behind them. -/
theorem Mirrors.exists_chain {i : Nat} {scopes : List Scope} (h : fs.Mirrors i scopes) :
    ∃ locals, fs.chain i = locals ++ [Heap.globals] ∧ locals.length = scopes.length ∧
      Heap.globals ∉ locals ∧ ∀ (j : Nat) (scope : Scope) frame, scopes[j]? = some scope →
        locals[j]? = some frame → scope.ReadyWithin (fs.Binds frame) := by
  induction scopes generalizing i with
  | nil =>
    obtain ⟨rfl, -⟩ := h
    refine ⟨[], chain_of_outermost ?_, rfl, by simp, by simp⟩
    cases hp : fs.parent? Heap.globals with
    | none => rfl
    | some p => exact absurd (lt_of_parent? hp) (Nat.not_lt_zero p)
  | cons scope outer ih =>
    obtain ⟨hready, p, hp, houter⟩ := h
    obtain ⟨locals, hchain, hlength, hglobals, hbound⟩ := ih houter
    have hi : i ≠ Heap.globals := Nat.ne_zero_of_lt (lt_of_parent? hp)
    refine ⟨i :: locals, by rw [chain_of_parent? hp, hchain, List.cons_append],
      by simp [hlength], by simp [hglobals, hi.symm], ?_⟩
    intro j s frame hs hframe
    cases j with
    | zero =>
      simp only [List.getElem?_cons_zero, Option.some.injEq] at hs hframe
      subst hs hframe
      exact hready
    | succ j => exact hbound j s frame hs hframe

end Frames

namespace Run

theorem readyWithin_bindAll {params : List Token} {arguments : List Value} {scope : Scope}
    {vars : Table Value} (hlength : arguments.length = params.length)
    (h : scope.ReadyWithin fun name => (vars.get? name).isSome) (outer : List Scope) :
    ∃ inner : Scope, Scopes.introduceAll params (scope :: outer) = inner :: outer ∧
      inner.ReadyWithin fun name => ((bindAll params arguments vars).get? name).isSome := by
  induction params generalizing arguments scope vars with
  | nil => exact ⟨scope, rfl, h⟩
  | cons param params ih =>
    cases arguments with
    | nil => simp at hlength
    | cons argument arguments =>
      have hvars : scope.ReadyWithin fun name =>
          ((vars.set param.lexeme argument).get? name).isSome := by
        refine h.mono fun name hname => ?_
        rw [Table.get?_set]
        split
        · rfl
        · exact hname
      refine ih (by simpa using hlength) ?_
      split
      · exact hvars.set fun _ => by simp
      · exact (hvars.set (by simp)).set fun _ => by simp

end Run
end LoxLang
