import LoxLang.Proofs.Lexical.Simulation

/-!
# Evaluation agrees in both meanings

Names resolve alike: a distance leads to the frame whose variable the location stands for
(`Config.Fits.resolve`). Declarations extend both sides alike (`Config.Fits.declare`), blocks and
calls open a frame on one side and go on in a longer scope on the other (`Config.Inside`). From this
every kind of expression and every kind of statement agrees, provided that its parts do.
-/
namespace LoxLang

namespace Frames

/-- A frame that was just added takes one more name as if it had been added with it. -/
theorem define_push (fs : Frames) (parent : Option Nat) (vars : Table Value) (name : String)
    (value : Value) :
    (fs.push parent vars).define fs.next name value = fs.push parent (vars.set name value) := by
  have hall : ((fs.push parent vars).define fs.next name value).all =
      (fs.push parent (vars.set name value)).all := by
    simp only [push, define]
    apply Array.ext
    · simp
    · intro i hi hi'
      simp only [Array.size_modify, Array.size_push] at hi
      rw [Array.getElem_modify, Array.getElem_push, Array.getElem_push]
      by_cases h : fs.all.size = i
      · simp [h]
      · have hlt : i < fs.all.size := by omega
        simp [h, hlt]
  cases hx : (fs.push parent vars).define fs.next name value
  cases hy : fs.push parent (vars.set name value)
  rw [hx, hy] at hall
  cases hall
  rfl

theorem parent?_globals (fs : Frames) : fs.parent? Heap.globals = none := by
  cases hp : fs.parent? Heap.globals with
  | none => rfl
  | some p => exact absurd (lt_of_parent? hp) (Nat.not_lt_zero p)

theorem holder?_of_isSome {fs : Frames} {i : Nat} {name : String}
    (h : (fs.getHere? i name).isSome = true) : fs.holder? i name = some i := by
  rw [holder?, if_pos h]

theorem holder?_globals (fs : Frames) (name : String) :
    fs.holder? Heap.globals name =
      if (fs.getHere? Heap.globals name).isSome then some Heap.globals else none := by
  rw [holder?]
  split
  · rfl
  · split
    · rfl
    · next p hp => simp [parent?_globals] at hp

theorem get?_globals (fs : Frames) (name : String) :
    fs.get? Heap.globals name = fs.getHere? Heap.globals name := by
  rw [get?, holder?_globals]
  cases h : fs.getHere? Heap.globals name <;> simp [h]

end Frames

namespace Scopes

/-- A name that was not known starts to wait when it is declared; the others stay as they were. -/
theorem head_declare {name : String} (other : String) {inner : Scope} {outer : List Scope}
    (hname : inner.contains name = false) :
    (declare name (inner :: outer)).head?.bind (·.get? other) =
      if name = other then some false else inner.get? other := by
  simp only [declare, hname, Bool.false_eq_true, if_false, List.head?_cons, Option.bind_some,
    Table.get?_set]

theorem head_introduce (name other : String) (inner : Scope) (outer : List Scope) :
    (introduce name (inner :: outer)).head?.bind (·.get? other) =
      if name = other then some true else inner.get? other := by
  simp only [introduce, declare, define, List.head?_cons, Option.bind_some, Table.get?_set]
  by_cases heq : name = other
  · simp [heq]
  · cases inner.contains name <;> simp [Table.get?_set, heq]

end Scopes

namespace Lexical

variable {V : Encounter → Prop}

namespace Config

variable {c c' : Config V} {scopes : List LoxLang.Scope} {scope : Scope}

theorem Fits.declare (h : c.Fits scopes scope) {name : String}
    (hname : scopes.head?.any (·.contains name) = false) (value : Value) :
    ∃ c' : Config V,
      c'.machine = { c.machine with heap := { c.machine.heap with
        frames := c.machine.heap.frames.define c.machine.current name value } } ∧
      c'.store = c.store.declare scope name value ∧ c.Leads true c' ∧
      c'.Fits (Scopes.introduce name scopes) (scope.extend name c.store.cells.size) := by
  have hgrow := Frames.grows_define c.machine.heap.frames c.machine.current name value
  cases scopes with
  | nil =>
    obtain ⟨hcurrent, rfl⟩ := h.offers
    have hvars := c.sim.vars.setGlobal name value
    rw [← hcurrent] at hvars
    exact ⟨⟨_, _, _, c.sim.withVars hvars hgrow (List.prefix_refl _)⟩, rfl, rfl,
      ⟨⟨hgrow, rfl⟩, List.prefix_refl _, fun _ hentry => .inl hentry⟩, ⟨hcurrent, rfl⟩, h.own⟩
  | cons inner outer =>
    simp only [List.head?_cons, Option.any_some] at hname
    obtain ⟨p, here, outside, hp, -, hscope, -⟩ := h.offers
    have hlocal : Heap.globals < c.machine.current := by
      have := Frames.lt_of_parent? hp
      unfold Heap.globals
      omega
    have hnew : (c.machine.current, name) ∉ c.places := by
      intro hmem
      have := h.own name hmem
      simp_all [Table.contains]
    have hvars := c.sim.vars.declare hlocal (Frames.lt_next_of_parent? hp) hnew value
    have hstore : c.store.declare scope name value =
        { c.store with globals := c.store.globals, cells := c.store.cells.push value } := by
      simp [Store.declare, hscope]
    have hsim := c.sim.withVars hvars hgrow (List.prefix_append _ _)
    have hoffers := (h.offers.extend hname).mono hgrow (List.prefix_refl _)
    rw [← c.sim.vars.size] at hoffers
    refine ⟨⟨_, _, _, hsim⟩, rfl, hstore.symm, ?_, hoffers, ?_⟩
    · refine ⟨⟨hgrow, rfl⟩, List.prefix_append _ _, fun entry hentry => ?_⟩
      rcases List.mem_append.mp hentry with hold | hlast
      · exact .inl hold
      · rw [List.mem_singleton.mp hlast]
        exact .inr (.inr ⟨rfl, rfl⟩)
    · intro other hother
      rw [Scopes.head_introduce]
      rcases List.mem_append.mp hother with hold | hlast
      · have hinner : inner.get? other = some true := h.own other hold
        simp [hinner]
      · simp only [List.mem_singleton, Prod.mk.injEq] at hlast
        simp [hlast]

/-- A name resolves alike: at a location that stands for the variable at its distance, or among the
globals. -/
theorem Fits.resolve (h : c.Fits scopes scope) {inClass : Bool} {expr : Expr} {name : Token}
    (hmet : V (.expression scopes inClass expr)) (href : expr.reference? inClass = some name)
    (hready : ∀ s ∈ scopes, s.get? name.lexeme ≠ some false) :
    (∃ distance location frame, c.machine.distance? expr.id = some distance ∧
      scope.find? name.lexeme = some location ∧
      c.machine.heap.frames.ancestor? c.machine.current distance = some frame ∧
      c.places[location]? = some (frame, name.lexeme)) ∨
    c.machine.distance? expr.id = none ∧ scope.find? name.lexeme = none := by
  have hnoted := c.sim.noted scopes inClass expr hmet
  simp only [Encounter.note?, href, Option.bind_some, Option.map_map] at hnoted
  have hfind := h.offers.find? hready
  cases hd : Scopes.distance? scopes name.lexeme with
  | none =>
    rw [hd] at hnoted hfind
    exact .inr ⟨hnoted, hfind⟩
  | some distance =>
    rw [hd] at hnoted hfind
    obtain ⟨location, frame, hlocation, hframe, hplace⟩ := hfind
    exact .inl ⟨distance, location, frame, hnoted, hlocation, hframe, hplace⟩

end Config

section Names

variable {c : Config V} {scopes : List LoxLang.Scope} {scope : Scope} {inClass : Bool}
  {expr : Expr} {name : Token}

theorem agree_readName (h : c.Fits scopes scope) (hmet : V (.expression scopes inClass expr))
    (href : expr.reference? inClass = some name)
    (hready : ∀ s ∈ scopes, s.get? name.lexeme ≠ some false) :
    Agree false c (LoxLang.Run.readName expr.id name) (Run.readName scope name)
      fun a b _ => b = a := by
  have hvalue : c.store.valueOf? scope name.lexeme =
      c.machine.valueOf? expr.id name.lexeme := by
    unfold Store.valueOf? Machine.valueOf?
    rcases h.resolve hmet href hready with
      ⟨distance, location, frame, hdistance, hlocation, hframe, hplace⟩ | ⟨hdistance, hlocation⟩
    · rw [hdistance, hlocation]
      simp [Frames.getAt?, hframe, c.sim.vars.placed location frame _ hplace]
    · rw [hdistance, hlocation]
      simp [Frames.get?_globals, c.sim.vars.globals]
  have hview : Agree false c (Action.view (·.valueOf? expr.id name.lexeme))
      (Action.view (·.valueOf? scope name.lexeme)) fun a b _ => b = a := .view hvalue
  apply hview.bind
  rintro _ found c₁ - rfl
  cases found with
  | some value => exact .pure rfl
  | none => exact .fault _ _

/-- Another value for the variable of a location, wherever the other meaning finds its frame. -/
theorem agree_rebind_local {location frame : Nat} {holder? : Machine → Option Nat}
    (hfind : scope.find? name.lexeme = some location)
    (hplace : c.places[location]? = some (frame, name.lexeme))
    (hholder : holder? c.machine = some frame) (value : Value) :
    Agree false c (LoxLang.Run.rebind name value holder?) (Run.writeName scope name value)
      fun _ _ _ => True := by
  have hgrow := Frames.grows_define c.machine.heap.frames frame name.lexeme value
  have hsim := c.sim.withVars (c.sim.vars.assign hplace value) hgrow (List.prefix_refl _)
  apply Action.related_view_left
  simp only [hholder]
  unfold Action.Related Run.writeName Store.assign?
  simp only [hfind]
  exact ⟨⟨_, _, _, hsim⟩, rfl, rfl,
    ⟨⟨hgrow, rfl⟩, List.prefix_refl _, fun _ hentry => .inl hentry⟩, trivial⟩

/-- Another value for a global name, or a fault in both meanings. -/
theorem agree_rebind_global {holder? : Machine → Option Nat}
    (hfind : scope.find? name.lexeme = none)
    (hholder : holder? c.machine = c.machine.heap.frames.holder? Heap.globals name.lexeme)
    (value : Value) :
    Agree false c (LoxLang.Run.rebind name value holder?) (Run.writeName scope name value)
      fun _ _ _ => True := by
  have hgrow := Frames.grows_define c.machine.heap.frames Heap.globals name.lexeme value
  have hsim := c.sim.withVars (c.sim.vars.setGlobal name.lexeme value) hgrow (List.prefix_refl _)
  apply Action.related_view_left
  rw [hholder, Frames.holder?_globals, c.sim.vars.globals]
  unfold Action.Related Run.writeName Store.assign? Table.contains
  simp only [hfind]
  cases hget : c.store.globals.get? name.lexeme with
  | none => exact ⟨rfl, c, rfl, rfl, .refl true c⟩
  | some old =>
    exact ⟨⟨_, _, _, hsim⟩, rfl, rfl,
      ⟨⟨hgrow, rfl⟩, List.prefix_refl _, fun _ hentry => .inl hentry⟩, trivial⟩

theorem isSome_getHere?_of_placed {location frame : Nat} {name : String}
    (hplace : c.places[location]? = some (frame, name)) :
    (c.machine.heap.frames.getHere? frame name).isSome = true := by
  have hlt := (List.getElem?_eq_some_iff.mp hplace).1
  rw [← c.sim.vars.size] at hlt
  rw [c.sim.vars.placed location frame name hplace, Array.getElem?_eq_getElem hlt]
  rfl

theorem agree_writeName (h : c.Fits scopes scope) (hmet : V (.expression scopes inClass expr))
    (href : expr.reference? inClass = some name)
    (hready : ∀ s ∈ scopes, s.get? name.lexeme ≠ some false) (value : Value) :
    Agree false c (LoxLang.Run.writeName expr.id name value) (Run.writeName scope name value)
      fun _ _ _ => True := by
  rcases h.resolve hmet href hready with
    ⟨distance, location, frame, hdistance, hlocation, hframe, hplace⟩ | ⟨hdistance, hlocation⟩
  · apply agree_rebind_local hlocation hplace
    simp [Machine.holderOf?, hdistance, Frames.holderAt?, hframe,
      isSome_getHere?_of_placed hplace, Option.filter]
  · apply agree_rebind_global hlocation
    simp [Machine.holderOf?, hdistance]

/-- A name that was declared in the current frame is found there. -/
theorem agree_assignAlong (h : c.Fits (Scopes.introduce name.lexeme scopes) scope)
    (hready : Scopes.Ready scopes)
    (hbound : (c.machine.heap.frames.getHere? c.machine.current name.lexeme).isSome = true)
    (value : Value) :
    Agree false c (LoxLang.Run.assignAlong name value) (Run.writeName scope name value)
      fun _ _ _ => True := by
  cases scopes with
  | nil =>
    obtain ⟨hcurrent, rfl⟩ := h.offers
    apply agree_rebind_global rfl
    rw [hcurrent]
  | cons inner outer =>
    have hscopes := hready.introduce name.lexeme
    have hfind := h.offers.find? fun s hs => hscopes s hs name.lexeme
    have hdistance : Scopes.distance? (Scopes.introduce name.lexeme (inner :: outer))
        name.lexeme = some 0 := by
      simp [Scopes.distance?, Scopes.introduce, Scopes.declare, Scopes.define,
        List.findIdx?_cons, Table.contains]
    rw [hdistance] at hfind
    obtain ⟨location, frame, hlocation, hframe, hplace⟩ := hfind
    cases hframe
    exact agree_rebind_local hlocation hplace (Frames.holder?_of_isSome hbound) value

end Names

/-- A pair of states inside a new frame of the first. -/
structure Config.Inside (c inner : Config V) : Prop where
  frames : c.machine.heap.frames.Grows inner.machine.heap.frames
  places : c.places <+: inner.places
  fresh : ∀ entry ∈ inner.places, entry ∈ c.places ∨ c.machine.heap.frames.next ≤ entry.1
  current : c.machine.heap.frames.next ≤ inner.machine.current

section Frames

variable {c : Config V} {scopes : List LoxLang.Scope} {scope : Scope} {α β : Type}

theorem Config.exists_inside {frame : Nat}
    (h : Matches c.places c.machine.heap.frames frame scopes scope) :
    ∃ inner : Config V,
      inner.machine = { c.machine with
        heap := (c.machine.heap.addFrame (some frame) ∅).2
        current := c.machine.heap.frames.next } ∧
      inner.store = c.store ∧ c.Inside inner ∧ inner.Fits (∅ :: scopes) scope.enter := by
  have hgrow := Frames.grows_push c.machine.heap.frames (some frame) ∅
  have hsim : Sim V c.places
      { c.machine with
        heap := (c.machine.heap.addFrame (some frame) ∅).2
        current := c.machine.heap.frames.next } c.store :=
    { c.sim.withVars (c.sim.vars.push (some frame)) hgrow (List.prefix_refl _) with }
  refine ⟨⟨_, _, _, hsim⟩, rfl, rfl, ⟨hgrow, List.prefix_refl _, fun _ h => .inl h, le_rfl⟩, ?_, ?_⟩
  · exact h.push c.sim.vars.globals_lt
  · intro name hname
    have := (c.sim.vars.inside _ hname).2
    simp at this

theorem Config.Inside.trans {inner inner' : Config V} (h : c.Inside inner)
    (hleads : inner.Leads true inner') : c.Inside inner' where
  frames := h.frames.trans hleads.machine.frames
  places := h.places.trans hleads.places
  fresh entry hentry := by
    rcases hleads.fresh entry hentry with hmem | hlater | ⟨-, hcurrent⟩
    · exact h.fresh entry hmem
    · exact .inr (h.frames.next_le.trans hlater)
    · exact .inr (hcurrent ▸ h.current)
  current := by
    rw [hleads.machine.current]
    exact h.current

theorem Config.Inside.leave {inner : Config V} (h : c.Inside inner) :
    ∃ c' : Config V, c'.machine = { inner.machine with current := c.machine.current } ∧
      c'.store = inner.store ∧ c'.places = inner.places ∧ c.Leads false c' := by
  have hsim : Sim V inner.places { inner.machine with current := c.machine.current }
      inner.store := { inner.sim with }
  refine ⟨⟨_, _, _, hsim⟩, rfl, rfl, rfl, ⟨h.frames, rfl⟩, h.places, fun entry hentry => ?_⟩
  rcases h.fresh entry hentry with hmem | hlater
  · exact .inl hmem
  · exact .inr (.inl hlater)

/-- What agrees inside a new frame agrees when the frame is left at the end. -/
theorem Config.Inside.inFrame {inner : Config V} (h : c.Inside inner) {x : LoxLang.Run α}
    {y : Run β} {Q : α → β → Config V → Prop} {R : α → β → Prop} (hxy : Agree true inner x y Q)
    (hR : ∀ a b c', Q a b c' → R a b) :
    Action.Related (LoxLang.Run.inFrame inner.machine.current x) y
      { inner.machine with current := c.machine.current } inner.store
      (fun a b m t => ∃ c' : Config V,
        c'.machine = m ∧ c'.store = t ∧ c.Leads false c' ∧ R a b)
      fun fault fault' m t => fault' = fault ∧
        ∃ c' : Config V, c'.machine = m ∧ c'.store = t ∧ c.Leads true c' := by
  apply Action.related_ensuring_left
  apply Action.Related.mono hxy
  · rintro a b m t ⟨c₁, rfl, rfl, hleads, hQ⟩
    obtain ⟨c₂, hm, ht, -, hleads'⟩ := (h.trans hleads).leave
    exact ⟨c₂, hm, ht, hleads', hR a b c₁ hQ⟩
  · rintro fault fault' m t ⟨heq, c₁, rfl, rfl, hleads⟩
    obtain ⟨c₂, hm, ht, -, hleads'⟩ := (h.trans hleads).leave
    exact ⟨heq, c₂, hm, ht, hleads'.weaken⟩

/-- The parameters of a call are declared one after the other; the frame gets them all at once. -/
theorem Config.Fits.declareAll {frames : Frames} {parent : Option Nat} {vars : Table Value}
    {params : List Token} {arguments : List Value} (h : c.Fits scopes scope)
    (hframes : c.machine.heap.frames = frames.push parent vars)
    (hcurrent : c.machine.current = frames.next)
    (hlength : arguments.length = params.length)
    (hmet : ∀ x ∈ Scopes.parameters scopes params, x.fault? = none) :
    ∃ (c' : Config V) (scope' : Scope),
      Run.declareAll params arguments scope c.store = .done scope' c'.store ∧
      c'.machine = { c.machine with heap := { c.machine.heap with
        frames := frames.push parent (LoxLang.Run.bindAll params arguments vars) } } ∧
      c.Leads true c' ∧ c'.Fits (Scopes.introduceAll params scopes) scope' := by
  induction params generalizing c scopes scope arguments vars with
  | nil =>
    refine ⟨c, scope, rfl, ?_, .refl true c, h⟩
    simp only [LoxLang.Run.bindAll]
    rw [← hframes]
  | cons param params ih =>
    cases arguments with
    | nil => simp at hlength
    | cons argument arguments =>
      simp only [Scopes.parameters, List.forall_mem_cons] at hmet
      have hname : scopes.head?.any (·.contains param.lexeme) = false := by
        have := hmet.1
        simpa [Encounter.fault?] using this
      obtain ⟨c₁, hmachine, hstore, hleads, hfits⟩ := h.declare hname argument
      have hframes₁ : c₁.machine.heap.frames =
          frames.push parent (vars.set param.lexeme argument) := by
        rw [hmachine, hcurrent]
        simp only [hframes, Frames.define_push]
      have hcurrent₁ : c₁.machine.current = frames.next := by rw [hmachine, hcurrent]
      obtain ⟨c₂, scope', hdone, hmachine', hleads', hfits'⟩ :=
        ih hfits hframes₁ hcurrent₁ (by simpa using hlength) hmet.2
      refine ⟨c₂, scope', ?_, ?_, hleads.trans hleads', hfits'⟩
      · rw [← hdone, hstore]
        rfl
      · rw [hmachine', hmachine]
        rfl

theorem agree_bind {method : LoxLang.Closure} {method' : Closure}
    (h : Closure.Like V c.places c.machine.heap.frames [Scopes.ofThis] method method')
    (place : Nat) :
    Agree false c (LoxLang.Run.onHeap (·.bind method place)) (Run.bind method' place)
      fun bound bound' c' => Closure.Like V c'.places c'.machine.heap.frames [] bound bound' ∧
        bound.declaration = method.declaration := by
  obtain ⟨scopes, inClass, hmatch, hready, hmet, -⟩ := h.met
  obtain ⟨inner, hmachine, hstore, hinside, hfits⟩ := Config.exists_inside hmatch
  have hnew : (∅ :: scopes).head?.any (Table.contains · "this") = false := rfl
  obtain ⟨inner', hmachine', hstore', hleads, hfits'⟩ := hfits.declare hnew (.inst place)
  obtain ⟨c', hm, ht, hplaces, hleads'⟩ := (hinside.trans hleads).leave
  refine ⟨c', ?_, ?_, hleads', ⟨h.declaration, h.isInitializer, ?_⟩, rfl⟩
  · rw [hm, hmachine', hmachine]
    simp [Heap.addFrame, Frames.define_push]
  · rw [ht, hstore', hstore]
  · have hoffers := hfits'.offers
    rw [← hplaces, hmachine', hmachine] at hoffers
    refine ⟨Scopes.ofThis :: scopes, inClass, ?_, hready.ofThis, hmet, fun _ => rfl⟩
    rw [hm, hmachine', hmachine]
    rw [hstore] at hoffers
    exact hoffers

end Frames
end Lexical
end LoxLang
