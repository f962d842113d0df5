import LoxLang.Proofs.Lexical.Matching

/-!
# Two meanings of a program, step by step

A run with frames and a run with persistent scopes go side by side. A `Config` is a pair of states
that hold the same: the same values at the same places, functions of the same declarations whose
frames match their scopes, and the same output. `Agree` says that two actions from such a pair end
alike, in such a pair again. One rule for each elementary step, and one for sequences, carry this
through a whole run.
-/
namespace LoxLang

namespace Lexical

variable {V : Encounter → Prop} {α β γ δ : Type}

/-- Related options are both absent, or present and related. -/
theorem rel_cases {R : α → β → Prop} {x : Option α} {y : Option β} (h : Option.Rel R x y) :
    (x = none ∧ y = none) ∨ ∃ a b, x = some a ∧ y = some b ∧ R a b := by
  cases h with
  | some hab => exact .inr ⟨_, _, rfl, rfl, hab⟩
  | none => exact .inl ⟨rfl, rfl⟩

theorem rel_mono {R R' : α → β → Prop} (hR : ∀ a b, R a b → R' a b) {x : Option α} {y : Option β}
    (h : Option.Rel R x y) : Option.Rel R' x y := by
  cases h with
  | some hab => exact .some (hR _ _ hab)
  | none => exact .none

section Paired

/-- Two arrays of the same size with related elements. -/
structure Paired (R : α → β → Prop) (xs : Array α) (ys : Array β) : Prop where
  size : ys.size = xs.size
  get : ∀ i : Nat, Option.Rel R xs[i]? ys[i]?

variable {R R' : α → β → Prop} {xs : Array α} {ys : Array β}

theorem Paired.empty : Paired R #[] #[] := ⟨rfl, fun _ => by simp⟩

theorem Paired.mono (h : Paired R xs ys) (hR : ∀ x y, R x y → R' x y) : Paired R' xs ys where
  size := h.size
  get i := rel_mono hR (h.get i)

theorem Paired.push (h : Paired R xs ys) {x : α} {y : β} (hxy : R x y) :
    Paired R (xs.push x) (ys.push y) where
  size := by simp [h.size]
  get i := by
    rw [Array.getElem?_push, Array.getElem?_push, h.size]
    split
    · exact .some hxy
    · exact h.get i

end Paired

/-- The same function in both meanings, with a frame that matches its scope. -/
structure Closure.Like (V : Encounter → Prop) (places : Placing) (fs : Frames)
    (around : List LoxLang.Scope) (c : LoxLang.Closure) (d : Closure) : Prop where
  declaration : d.declaration = c.declaration
  isInitializer : d.isInitializer = c.isInitializer
  met : ∃ scopes inClass, Matches places fs c.frame scopes d.scope ∧ Scopes.Ready scopes ∧
    c.declaration.Met V (around ++ scopes) inClass ∧
    (c.isInitializer = true → (around ++ scopes).head? = some Scopes.ofThis)

structure Class.Like (V : Encounter → Prop) (places : Placing) (fs : Frames) (c : LoxLang.Class)
    (d : Class) : Prop where
  name : d.name = c.name
  methods : ∀ name, Option.Rel (Closure.Like V places fs [Scopes.ofThis]) (c.methods.get? name)
    (d.methods.get? name)

section Like

variable {places places' : Placing} {fs fs' : Frames}

theorem Closure.Like.mono {around : List LoxLang.Scope} {c : LoxLang.Closure} {d : Closure}
    (h : Closure.Like V places fs around c d) (hgrow : fs.Grows fs')
    (hplaces : places <+: places') : Closure.Like V places' fs' around c d := by
  obtain ⟨scopes, inClass, hmatch, hrest⟩ := h.met
  exact ⟨h.declaration, h.isInitializer, scopes, inClass, hmatch.mono hgrow hplaces, hrest⟩

theorem Closure.Like.weaken {V' : Encounter → Prop} {around : List LoxLang.Scope}
    {c : LoxLang.Closure} {d : Closure} (h : Closure.Like V places fs around c d)
    (hV : ∀ x, V x → V' x) : Closure.Like V' places fs around c d := by
  obtain ⟨scopes, inClass, hmatch, hready, ⟨hform, hmet⟩, hthis⟩ := h.met
  exact ⟨h.declaration, h.isInitializer, scopes, inClass, hmatch, hready,
    ⟨hform, fun x hx => hV x (hmet x hx)⟩, hthis⟩

theorem Class.Like.mono {c : LoxLang.Class} {d : Class} (h : Class.Like V places fs c d)
    (hgrow : fs.Grows fs') (hplaces : places <+: places') : Class.Like V places' fs' c d where
  name := h.name
  methods name := rel_mono (fun _ _ hlike => hlike.mono hgrow hplaces) (h.methods name)

theorem Class.Like.weaken {V' : Encounter → Prop} {c : LoxLang.Class} {d : Class}
    (h : Class.Like V places fs c d) (hV : ∀ x, V x → V' x) : Class.Like V' places fs c d where
  name := h.name
  methods name := rel_mono (fun _ _ hlike => hlike.weaken hV) (h.methods name)

end Like

/-- Two states that hold the same. -/
structure Sim (V : Encounter → Prop) (places : Placing) (m : Machine) (t : Store) : Prop where
  vars : SameVariables places m.heap.frames t.globals t.cells
  closures : Paired (Closure.Like V places m.heap.frames []) m.heap.closures t.closures
  classes : Paired (Class.Like V places m.heap.frames) m.heap.classes t.classes
  instances : t.instances = m.heap.instances
  natives : t.natives = m.heap.natives
  depth : t.depth = m.depth
  sink : t.sink = m.sink
  readings : t.readings = m.readings
  taken : t.taken = m.taken
  noted : ∀ scopes inClass expr, V (.expression scopes inClass expr) →
    m.distance? expr.id = (Encounter.expression scopes inClass expr).note?.map Prod.snd

/-- Two states that hold the same, with the placing that says how. -/
structure Config (V : Encounter → Prop) where
  places : Placing
  machine : Machine
  store : Store
  sim : Sim V places machine store

namespace Config

variable {c c' c'' : Config V}

/-- What holds from one pair of states to a later one. New locations stand for variables of new
frames and, with `own`, of the current one. -/
structure Leads (own : Bool) (c c' : Config V) : Prop where
  machine : c.machine.Grows c'.machine
  places : c.places <+: c'.places
  fresh : ∀ entry ∈ c'.places, entry ∈ c.places ∨ c.machine.heap.frames.next ≤ entry.1 ∨
    own = true ∧ entry.1 = c.machine.current

theorem Leads.refl (own : Bool) (c : Config V) : Leads own c c :=
  ⟨.refl _, List.prefix_refl _, fun _ h => .inl h⟩

theorem Leads.trans {own : Bool} (h : Leads own c c') (h' : Leads own c' c'') :
    Leads own c c'' where
  machine := h.machine.trans h'.machine
  places := h.places.trans h'.places
  fresh entry hentry := by
    have hnext := h.machine.frames.next_le
    rcases h'.fresh entry hentry with hmem | hlater | ⟨hown, hcurrent⟩
    · exact h.fresh entry hmem
    · exact .inr (.inl (hnext.trans hlater))
    · rw [h.machine.current] at hcurrent
      exact .inr (.inr ⟨hown, hcurrent⟩)

theorem Leads.weaken {own : Bool} (h : Leads false c c') : Leads own c c' where
  machine := h.machine
  places := h.places
  fresh entry hentry := by
    rcases h.fresh entry hentry with hmem | hlater | ⟨hown, -⟩
    · exact .inl hmem
    · exact .inr (.inl hlater)
    · simp at hown

/-- The current frame matches the scope, and its variables are those that are ready in the innermost
scope. -/
structure Fits (c : Config V) (scopes : List LoxLang.Scope) (scope : Scope) : Prop where
  offers : Matches c.places c.machine.heap.frames c.machine.current scopes scope
  own : ∀ name, (c.machine.current, name) ∈ c.places →
    scopes.head?.bind (·.get? name) = some true

theorem Fits.mono {scopes : List LoxLang.Scope} {scope : Scope} (h : c.Fits scopes scope)
    (hleads : Leads false c c') : c'.Fits scopes scope where
  offers := by
    rw [hleads.machine.current]
    exact h.offers.mono hleads.machine.frames hleads.places
  own name hname := by
    rw [hleads.machine.current] at hname
    have hlt := h.offers.lt_next c.sim.vars.globals_lt
    rcases hleads.fresh _ hname with hmem | hlater | ⟨hown, -⟩
    · exact h.own name hmem
    · exact absurd hlater (Nat.not_le.mpr hlt)
    · simp at hown

end Config

namespace Sim

variable {places places' : Placing} {m : Machine} {t : Store}

/-- Variables may change in both states, and become more. -/
theorem withVars (h : Sim V places m t) {fs : Frames} {globals : Table Value} {cells : Array Value}
    (hvars : SameVariables places' fs globals cells) (hgrow : m.heap.frames.Grows fs)
    (hplaces : places <+: places') :
    Sim V places' { m with heap := { m.heap with frames := fs } } { t with globals, cells } :=
  { h with
    vars := hvars
    closures := h.closures.mono fun _ _ hlike => hlike.mono hgrow hplaces
    classes := h.classes.mono fun _ _ hlike => hlike.mono hgrow hplaces }

theorem addClosure (h : Sim V places m t) {c : LoxLang.Closure} {d : Closure}
    (hlike : Closure.Like V places m.heap.frames [] c d) :
    Sim V places { m with heap := (m.heap.addClosure c).2 }
      { t with closures := t.closures.push d } :=
  { h with closures := h.closures.push hlike }

theorem addClass (h : Sim V places m t) {c : LoxLang.Class} {d : Class}
    (hlike : Class.Like V places m.heap.frames c d) :
    Sim V places { m with heap := (m.heap.addClass c).2 } { t with classes := t.classes.push d } :=
  { h with classes := h.classes.push hlike }

theorem withNotes {V' : Encounter → Prop} (h : Sim V places m t) (hV : ∀ x, V x → V' x)
    {distances : Distances} (hnoted : ∀ scopes inClass expr, V' (.expression scopes inClass expr) →
      distances[expr.id]? = (Encounter.expression scopes inClass expr).note?.map Prod.snd) :
    Sim V' places { m with distances } t :=
  { h with
    closures := h.closures.mono fun _ _ hlike => hlike.weaken hV
    classes := h.classes.mono fun _ _ hlike => hlike.weaken hV
    noted := hnoted }

theorem className (h : Sim V places m t) (place : Nat) :
    t.className place = m.heap.className place := by
  unfold Store.className Heap.className
  rcases rel_cases (h.classes.get place) with ⟨hc, hd⟩ | ⟨c, d, hc, hd, hlike⟩
  · simp [hc, hd]
  · simp [hc, hd, hlike.name]

theorem text (h : Sim V places m t) (value : Value) : t.text value = m.heap.text value := by
  cases value <;> simp only [Store.text, Heap.text]
  case bool b => cases b <;> rfl
  case function place =>
    rcases rel_cases (h.closures.get place) with ⟨hc, hd⟩ | ⟨c, d, hc, hd, hlike⟩
    · simp [hc, hd]
    · simp [hc, hd, hlike.declaration, LoxLang.Closure.name]
  case cls place => exact h.className place
  case inst place =>
    have hname : t.className = m.heap.className := funext h.className
    simp [Heap.instanceText, h.instances, hname]

inductive LikeCallee (V : Encounter → Prop) (places : Placing) (fs : Frames) :
    LoxLang.Callee → Callee → Prop
  | native (n : Native) : LikeCallee V places fs (.native n) (.native n)
  | function {c : LoxLang.Closure} {d : Closure} (h : Closure.Like V places fs [] c d) :
    LikeCallee V places fs (.function c) (.function d)
  | cls (place : Nat) {c : LoxLang.Class} {d : Class} (h : Class.Like V places fs c d) :
    LikeCallee V places fs (.cls place c) (.cls place d)

theorem callee? (h : Sim V places m t) (value : Value) :
    Option.Rel (LikeCallee V places m.heap.frames) (m.heap.callee? value) (t.callee? value) := by
  cases value <;> simp only [Heap.callee?, Store.callee?] <;> try exact .none
  case native place =>
    rw [h.natives]
    cases m.heap.natives[place]? with
    | none => exact .none
    | some n => exact .some (.native n)
  case function place =>
    rcases rel_cases (h.closures.get place) with ⟨hc, hd⟩ | ⟨c, d, hc, hd, hlike⟩
    · rw [hc, hd]
      exact .none
    · rw [hc, hd]
      exact .some (.function hlike)
  case cls place =>
    rcases rel_cases (h.classes.get place) with ⟨hc, hd⟩ | ⟨c, d, hc, hd, hlike⟩
    · rw [hc, hd]
      exact .none
    · rw [hc, hd]
      exact .some (.cls place hlike)

theorem method? (h : Sim V places m t) (place : Nat) (name : String) :
    Option.Rel (Closure.Like V places m.heap.frames [Scopes.ofThis])
      (m.heap.method? place name) (t.method? place name) := by
  unfold Heap.method? Store.method?
  rw [h.instances]
  cases m.heap.instances[place]? with
  | none => exact .none
  | some inst =>
    simp only [Option.bind_some]
    rcases rel_cases (h.classes.get inst.cls) with ⟨hc, hd⟩ | ⟨c, d, hc, hd, hlike⟩
    · rw [hc, hd]
      exact .none
    · rw [hc, hd]
      exact hlike.methods name

end Sim

theorem Class.Like.arity {places : Placing} {fs : Frames} {c : LoxLang.Class} {d : Class}
    (h : Class.Like V places fs c d) : d.arity = c.arity := by
  unfold Class.arity LoxLang.Class.arity Class.initializer? LoxLang.Class.initializer?
  rcases rel_cases (h.methods "init") with ⟨hc, hd⟩ | ⟨c', d', hc, hd, hlike⟩
  · simp [hc, hd]
  · simp [hc, hd, hlike.declaration, LoxLang.Closure.arity]

theorem Sim.LikeCallee.arity {places : Placing} {fs : Frames} {c : LoxLang.Callee} {d : Callee}
    (h : Sim.LikeCallee V places fs c d) : d.arity = c.arity := by
  cases h with
  | native n => rfl
  | function h => simp [Callee.arity, LoxLang.Callee.arity, LoxLang.Closure.arity, h.declaration]
  | cls place h => exact h.arity

/-- The two actions end alike from a pair of states, in a later pair. -/
def Agree (own : Bool) (c : Config V) (x : LoxLang.Run α) (y : Run β)
    (Q : α → β → Config V → Prop) : Prop :=
  Action.Related x y c.machine c.store
    (fun a b m t => ∃ c' : Config V, c'.machine = m ∧ c'.store = t ∧ c.Leads own c' ∧ Q a b c')
    fun fault fault' m t => fault' = fault ∧
      ∃ c' : Config V, c'.machine = m ∧ c'.store = t ∧ c.Leads true c'

namespace Agree

variable {own : Bool} {c : Config V} {x : LoxLang.Run α} {y : Run β} {Q : α → β → Config V → Prop}

theorem mono {Q' : α → β → Config V → Prop} (h : Agree own c x y Q)
    (hQ : ∀ a b c', c.Leads own c' → Q a b c' → Q' a b c') : Agree own c x y Q' := by
  apply Action.Related.mono h
  · rintro a b m t ⟨c', hm, ht, hleads, hq⟩
    exact ⟨c', hm, ht, hleads, hQ a b c' hleads hq⟩
  · intro fault fault' m t h'
    exact h'

theorem weaken (h : Agree false c x y Q) : Agree own c x y Q := by
  apply Action.Related.mono h
  · rintro a b m t ⟨c', hm, ht, hleads, hq⟩
    exact ⟨c', hm, ht, hleads.weaken, hq⟩
  · intro fault fault' m t h'
    exact h'

theorem bind {f : α → LoxLang.Run γ} {g : β → Run δ} {Q' : γ → δ → Config V → Prop}
    (h : Agree own c x y Q)
    (hnext : ∀ a b c', c.Leads own c' → Q a b c' → Agree own c' (f a) (g b) Q') :
    Agree own c (x >>= f) (y >>= g) Q' := by
  apply Action.related_bind
  apply Action.Related.mono h
  · rintro a b m t ⟨c', rfl, rfl, hleads, hq⟩
    apply Action.Related.mono (hnext a b c' hleads hq)
    · rintro a' b' m t ⟨c'', hm, ht, hleads', hq'⟩
      exact ⟨c'', hm, ht, hleads.trans hleads', hq'⟩
    · rintro fault fault' m t ⟨heq, c'', hm, ht, hleads'⟩
      cases own with
      | true => exact ⟨heq, c'', hm, ht, hleads.trans hleads'⟩
      | false => exact ⟨heq, c'', hm, ht, hleads.weaken.trans hleads'⟩
  · intro fault fault' m t h'
    exact h'

theorem pure {a : α} {b : β} (hQ : Q a b c) : Agree own c (pure a) (pure b) Q :=
  ⟨c, rfl, rfl, .refl own c, hQ⟩

theorem fault (token : Token) (cause : RunCause) :
    Agree own c (LoxLang.Run.fault token cause) (Run.fault token cause) Q :=
  ⟨rfl, c, rfl, rfl, .refl true c⟩

theorem view {f : Machine → α} {g : Store → β} (hQ : Q (f c.machine) (g c.store) c) :
    Agree own c (Action.view f) (Action.view g) Q :=
  ⟨c, rfl, rfl, .refl own c, hQ⟩

theorem ofExcept (r : Except RunFault α) :
    Agree own c (Action.ofExcept r) (Action.ofExcept r) fun a b _ => b = a := by
  apply Action.related_ofExcept
  · intro a _
    exact ⟨c, rfl, rfl, .refl own c, rfl⟩
  · intro e _
    exact ⟨rfl, c, rfl, rfl, .refl true c⟩

theorem exhausted : Agree own c Action.exhausted Action.exhausted Q := trivial

end Agree

theorem Config.Leads.of_same {c c' : Config V}
    (hheap : c'.machine.heap.frames = c.machine.heap.frames)
    (hcurrent : c'.machine.current = c.machine.current) (hplaces : c'.places = c.places) :
    c.Leads false c' where
  machine := ⟨hheap ▸ .refl _, hcurrent⟩
  places := hplaces ▸ List.prefix_refl _
  fresh _ hentry := .inl (hplaces ▸ hentry)

section Steps

variable {own : Bool} {c : Config V}

theorem agree_write (piece : String) :
    Agree false c (LoxLang.Run.write piece) (Run.write piece) fun _ _ _ => True := by
  unfold Agree Action.Related LoxLang.Run.write Run.write
  rw [c.sim.sink]
  cases hwrite : c.machine.sink.write piece with
  | ok sink =>
    refine ⟨⟨c.places, { c.machine with sink }, { c.store with sink }, { c.sim with sink := rfl }⟩,
      rfl, rfl, .of_same rfl rfl rfl, trivial⟩
  | error cause => exact ⟨rfl, c, rfl, rfl, .refl true c⟩

theorem agree_print (value : Value) :
    Agree false c (LoxLang.Run.print value) (Run.print value) fun _ _ _ => True := by
  have htext : Agree false c (Action.view (·.heap.text value)) (Action.view (·.text value))
      fun a b _ => b = a := Agree.view (c.sim.text value)
  apply htext.bind
  rintro _ text c₁ - rfl
  apply (agree_write text).bind
  intro _ _ c₂ _ _
  exact agree_write "\n"

theorem agree_flush : Agree false c LoxLang.Run.flush Run.flush fun _ _ _ => True := by
  unfold Agree Action.Related LoxLang.Run.flush Run.flush
  rw [c.sim.sink]
  cases hflush : c.machine.sink.flush with
  | ok _ => exact ⟨c, rfl, rfl, .refl false c, trivial⟩
  | error cause => exact ⟨rfl, c, rfl, rfl, .refl true c⟩

theorem agree_callNative (n : Native) (arguments : List Value) :
    Agree false c (LoxLang.Run.callNative n arguments) (Run.callNative n arguments)
      fun a b _ => b = a := by
  have htext : c.store.text = c.machine.heap.text := funext c.sim.text
  unfold Agree Action.Related LoxLang.Run.callNative Run.callNative
  rw [htext, c.sim.readings, c.sim.taken]
  dsimp only
  have htaken : Sim V c.places { c.machine with taken := c.machine.taken + 1 }
      { c.store with readings := c.machine.readings, taken := c.machine.taken + 1 } :=
    { c.sim with readings := rfl, taken := rfl }
  generalize n.run _ = result
  cases result with
  | ok value => exact ⟨⟨_, _, _, htaken⟩, rfl, rfl, .of_same rfl rfl rfl, rfl⟩
  | error text => exact ⟨rfl, ⟨_, _, _, htaken⟩, rfl, rfl, .weaken (.of_same rfl rfl rfl)⟩

theorem agree_writeField (place : Nat) (name : String) (value : Value) :
    Agree false c (LoxLang.Run.writeField place name value) (Run.writeField place name value)
      fun _ _ _ => True := by
  have hsim : Sim V c.places { c.machine with heap := c.machine.heap.setField place name value }
      (c.store.setField place name value) :=
    { c.sim with instances := by simp [Store.setField, Heap.setField, c.sim.instances] }
  exact ⟨⟨_, _, _, hsim⟩, rfl, rfl, .of_same rfl rfl rfl, trivial⟩

end Steps

end Lexical
end LoxLang
