import LoxLang.Proofs.Execution.Visits
import LoxLang.Proofs.Lexical.Semantics

/-!
# Frames and persistent scopes

A local variable lives in a frame under its name in one meaning of programs, and at a location in
the other. A `Placing` says which frame and name each location stands for. A frame matches a
persistent scope when the two offer the same variables under the names that were in scope at that
point of the program. The frame may hold more: what is declared later in the same block goes to the
same frame, but not to a scope that was kept before. So a match is about the scopes of the walk that
bound the names, and not about all that is in the frame.
-/
namespace LoxLang
namespace Lexical

/-- For each location, the frame and the name of the variable. -/
abbrev Placing := List (Nat × String)

/-- The chain of a frame offers the variables of a scope, one frame for each scope of the walk. -/
def Matches (places : Placing) (fs : Frames) : Nat → List LoxLang.Scope → Scope → Prop
  | i, [], scope => i = Heap.globals ∧ scope = .global
  | i, inner :: outer, scope =>
    ∃ p here outside, fs.parent? i = some p ∧ Matches places fs p outer outside ∧
      scope = ⟨true, here ++ outside.names⟩ ∧
      (∀ name, inner.get? name = some true ↔ name ∈ here.map Prod.fst) ∧
      ∀ name location, (name, location) ∈ here → places[location]? = some (i, name)

namespace Matches

variable {places places' : Placing} {fs fs' : Frames} {i : Nat} {scopes : List LoxLang.Scope}
  {scope : Scope}

theorem lt_next (h : Matches places fs i scopes scope) (hglobals : Heap.globals < fs.next) :
    i < fs.next := by
  cases scopes with
  | nil =>
    obtain ⟨rfl, -⟩ := h
    exact hglobals
  | cons inner outer =>
    obtain ⟨p, _, _, hp, -⟩ := h
    exact Frames.lt_next_of_parent? hp

theorem mono (h : Matches places fs i scopes scope) (hgrow : fs.Grows fs')
    (hplaces : places <+: places') : Matches places' fs' i scopes scope := by
  induction scopes generalizing i scope with
  | nil => exact h
  | cons inner outer ih =>
    obtain ⟨p, here, outside, hp, houter, rfl, hnames, hhere⟩ := h
    have hi := Frames.lt_next_of_parent? hp
    refine ⟨p, here, outside, (hgrow.parent? i hi).trans hp, ih houter, rfl, hnames, ?_⟩
    intro name location hmem
    have hplace := hhere name location hmem
    obtain ⟨more, rfl⟩ := hplaces
    have hlt := (List.getElem?_eq_some_iff.mp hplace).1
    rw [List.getElem?_append_left hlt, hplace]

/-- A new frame matches the scope of a block before its first declaration. -/
theorem push (h : Matches places fs i scopes scope) (hglobals : Heap.globals < fs.next) :
    Matches places (fs.push (some i) ∅) fs.next (∅ :: scopes) scope.enter := by
  have hi := h.lt_next hglobals
  refine ⟨i, [], scope, ?_, h.mono (Frames.grows_push _ _ _) (List.prefix_refl _), rfl, ?_, ?_⟩
  · simp [Frames.parent?_push, Option.filter, hi]
  · simp
  · simp

theorem declare (h : Matches places fs i scopes scope) {name : String}
    (hname : scopes.head?.any (·.contains name) = false) :
    Matches places fs i (Scopes.declare name scopes) scope := by
  cases scopes with
  | nil => exact h
  | cons inner outer =>
    obtain ⟨p, here, outside, hp, houter, rfl, hnames, hhere⟩ := h
    simp only [List.head?_cons, Option.any_some] at hname
    have hnone : inner.get? name = none := by simpa [Table.contains] using hname
    refine ⟨p, here, outside, hp, houter, rfl, ?_, hhere⟩
    intro other
    simp only [hname, Bool.false_eq_true, if_false, Table.get?_set]
    rw [← hnames other]
    split
    · next heq =>
      subst heq
      simp [hnone]
    · exact Iff.rfl

theorem extend {inner : LoxLang.Scope} {outer : List LoxLang.Scope}
    (h : Matches places fs i (inner :: outer) scope) {name : String}
    (hname : inner.contains name = false) :
    Matches (places ++ [(i, name)]) fs i (Scopes.introduce name (inner :: outer))
      (scope.extend name places.length) := by
  have hwide := h.mono (Frames.Grows.refl fs) (List.prefix_append places [(i, name)])
  obtain ⟨p, here, outside, hp, houter, rfl, hnames, hhere⟩ := hwide
  refine ⟨p, (name, places.length) :: here, outside, hp, houter, rfl, ?_, ?_⟩
  · intro other
    simp only [hname, Bool.false_eq_true, if_false, Table.get?_set, List.map_cons, List.mem_cons]
    rw [← hnames other]
    by_cases hother : name = other
    · simp [hother]
    · simp [hother, Ne.symm hother]
  · intro other location hmem
    rcases List.mem_cons.mp hmem with heq | hmem
    · cases heq
      simp
    · exact hhere other location hmem

/-- The location that a persistent scope has for a name stands for that name in the frame that the
distance leads to, and a name without a distance has no location. -/
theorem find? (h : Matches places fs i scopes scope) {name : String}
    (hready : ∀ s ∈ scopes, s.get? name ≠ some false) :
    match Scopes.distance? scopes name with
    | some distance => ∃ location frame, scope.find? name = some location ∧
        fs.ancestor? i distance = some frame ∧ places[location]? = some (frame, name)
    | none => scope.find? name = none := by
  induction scopes generalizing i scope with
  | nil =>
    obtain ⟨-, rfl⟩ := h
    rfl
  | cons inner outer ih =>
    obtain ⟨p, here, outside, hp, houter, rfl, hnames, hhere⟩ := h
    have hfind : Scope.find? ⟨true, here ++ outside.names⟩ name =
        (here.lookup name).or (outside.find? name) := List.lookup_append
    by_cases hin : inner.get? name = some true
    · -- the name is offered by this frame
      have hdistance : Scopes.distance? (inner :: outer) name = some 0 := by
        simp [Scopes.distance?, List.findIdx?_cons, Table.contains, hin]
      have hlookup : ∃ location, here.lookup name = some location := by
        have hmem := (hnames name).mp hin
        rw [← Option.isSome_iff_exists, List.lookup_isSome_iff]
        obtain ⟨entry, hentry, heq⟩ := List.mem_map.mp hmem
        exact ⟨entry, hentry, by simp [heq]⟩
      obtain ⟨location, hlocation⟩ := hlookup
      rw [hdistance]
      refine ⟨location, i, by rw [hfind, hlocation, Option.some_or], rfl, ?_⟩
      apply hhere
      obtain ⟨l₁, l₂, hsplit, -⟩ := List.lookup_eq_some_iff.mp hlocation
      rw [hsplit]
      simp
    · have hnone : inner.get? name = none := by
        have hfalse := hready inner List.mem_cons_self
        cases hget : inner.get? name with
        | none => rfl
        | some ready => cases ready <;> simp_all
      have hdistance : Scopes.distance? (inner :: outer) name =
          (Scopes.distance? outer name).map (· + 1) := by
        simp [Scopes.distance?, List.findIdx?_cons, Table.contains, hnone]
      have hlookup : here.lookup name = none := by
        rw [List.lookup_eq_none_iff]
        intro entry hentry
        have hne : entry.1 ≠ name := by
          intro heq
          exact hin ((hnames name).mpr (List.mem_map.mpr ⟨entry, hentry, heq⟩))
        simpa using hne.symm
      have hrec := ih houter fun s hs => hready s (List.mem_cons_of_mem _ hs)
      rw [hdistance, hfind, hlookup, Option.none_or]
      cases hd : Scopes.distance? outer name with
      | none =>
        rw [hd] at hrec
        exact hrec
      | some distance =>
        rw [hd] at hrec
        obtain ⟨location, frame, hlocation, hframe, hplace⟩ := hrec
        refine ⟨location, frame, hlocation, ?_, hplace⟩
        simp [Frames.ancestor?, hp, hframe]

end Matches

/-- Frames hold what the locations and the globals hold. No two locations stand for the same
variable, and none for a global one. Every local variable has its location. -/
structure SameVariables (places : Placing) (fs : Frames) (globals : Table Value)
    (cells : Array Value) : Prop where
  size : cells.size = places.length
  placed : ∀ (location frame : Nat) (name : String), places[location]? = some (frame, name) →
    fs.getHere? frame name = cells[location]?
  bound : ∀ (frame : Nat) (name : String), frame ≠ Heap.globals →
    (fs.getHere? frame name).isSome = true → (frame, name) ∈ places
  nodup : places.Nodup
  inside : ∀ entry ∈ places, Heap.globals < entry.1 ∧ entry.1 < fs.next
  globals : ∀ name, fs.getHere? Heap.globals name = globals.get? name
  globals_lt : Heap.globals < fs.next

namespace SameVariables

variable {places : Placing} {fs : Frames} {globals : Table Value} {cells : Array Value}

theorem push (h : SameVariables places fs globals cells) (parent : Option Nat) :
    SameVariables places (fs.push parent ∅) globals cells where
  size := h.size
  placed location frame name hplace := by
    have hlt := (h.inside _ (List.mem_of_getElem? hplace)).2
    rw [Frames.getHere?_push, if_neg hlt.ne]
    exact h.placed location frame name hplace
  bound frame name hlocal hbound := by
    rw [Frames.getHere?_push] at hbound
    split at hbound
    · simp at hbound
    · exact h.bound frame name hlocal hbound
  nodup := h.nodup
  inside entry hentry := by
    have hin := h.inside entry hentry
    refine ⟨hin.1, ?_⟩
    rw [Frames.next_push]
    omega
  globals name := by
    rw [Frames.getHere?_push, if_neg h.globals_lt.ne]
    exact h.globals name
  globals_lt := by
    have := h.globals_lt
    rw [Frames.next_push]
    omega

theorem declare (h : SameVariables places fs globals cells) {frame : Nat} {name : String}
    (hlocal : Heap.globals < frame) (hframe : frame < fs.next) (hnew : (frame, name) ∉ places)
    (value : Value) :
    SameVariables (places ++ [(frame, name)]) (fs.define frame name value) globals
      (cells.push value) where
  size := by simp [h.size]
  placed location frame' name' hplace := by
    rw [Frames.getHere?_define, Array.getElem?_push, h.size]
    by_cases hlast : location = places.length
    · simp only [hlast, List.getElem?_concat_length, Option.some.injEq, Prod.mk.injEq] at hplace
      obtain ⟨rfl, rfl⟩ := hplace
      simp [hlast, hframe]
    · have hlt := (List.getElem?_eq_some_iff.mp hplace).1
      have hold : location < places.length := by
        simp only [List.length_append, List.length_singleton] at hlt
        omega
      rw [List.getElem?_append_left hold] at hplace
      have hne : ¬ (frame = frame' ∧ name = name' ∧ frame' < fs.next) := by
        rintro ⟨rfl, rfl, -⟩
        exact hnew (List.mem_of_getElem? hplace)
      rw [if_neg hne, if_neg hlast]
      exact h.placed location frame' name' hplace
  bound frame' name' hlocal' hbound := by
    rw [Frames.getHere?_define] at hbound
    split at hbound
    · next hsame =>
      obtain ⟨rfl, rfl, -⟩ := hsame
      simp
    · exact List.mem_append_left _ (h.bound frame' name' hlocal' hbound)
  nodup := by
    rw [List.nodup_append]
    refine ⟨h.nodup, List.nodup_singleton _, ?_⟩
    rintro entry hentry other hother rfl
    rw [List.mem_singleton.mp hother] at hentry
    exact hnew hentry
  inside entry hentry := by
    rw [Frames.next_define]
    rcases List.mem_append.mp hentry with hold | hlast
    · exact h.inside entry hold
    · rw [List.mem_singleton.mp hlast]
      exact ⟨hlocal, hframe⟩
  globals other := by
    rw [Frames.getHere?_define, if_neg fun hsame => hlocal.ne' hsame.1]
    exact h.globals other
  globals_lt := by
    rw [Frames.next_define]
    exact h.globals_lt

theorem assign (h : SameVariables places fs globals cells) {location frame : Nat} {name : String}
    (hplace : places[location]? = some (frame, name)) (value : Value) :
    SameVariables places (fs.define frame name value) globals
      (cells.setIfInBounds location value) where
  size := by simp [h.size]
  placed location' frame' name' hplace' := by
    have hlt := (List.getElem?_eq_some_iff.mp hplace).1
    have hin := (h.inside _ (List.mem_of_getElem? hplace)).2
    rw [Frames.getHere?_define, Array.getElem?_setIfInBounds, h.size]
    by_cases hsame : location = location'
    · subst hsame
      rw [hplace] at hplace'
      cases hplace'
      simp [hin, hlt]
    · have hne : ¬ (frame = frame' ∧ name = name' ∧ frame' < fs.next) := by
        rintro ⟨rfl, rfl, -⟩
        exact hsame ((List.getElem?_inj hlt h.nodup).mp (hplace.trans hplace'.symm))
      rw [if_neg hne, if_neg hsame]
      exact h.placed location' frame' name' hplace'
  bound frame' name' hlocal' hbound := by
    rw [Frames.getHere?_define] at hbound
    split at hbound
    · next hsame =>
      obtain ⟨rfl, rfl, -⟩ := hsame
      exact List.mem_of_getElem? hplace
    · exact h.bound frame' name' hlocal' hbound
  nodup := h.nodup
  inside entry hentry := by
    rw [Frames.next_define]
    exact h.inside entry hentry
  globals other := by
    have hin := (h.inside _ (List.mem_of_getElem? hplace)).1
    rw [Frames.getHere?_define, if_neg fun hsame => hin.ne' hsame.1]
    exact h.globals other
  globals_lt := by
    rw [Frames.next_define]
    exact h.globals_lt

theorem setGlobal (h : SameVariables places fs globals cells) (name : String) (value : Value) :
    SameVariables places (fs.define Heap.globals name value) (globals.set name value) cells where
  size := h.size
  placed location frame name' hplace := by
    have hin := (h.inside _ (List.mem_of_getElem? hplace)).1
    rw [Frames.getHere?_define, if_neg fun hsame => hin.ne hsame.1]
    exact h.placed location frame name' hplace
  bound frame name' hlocal hbound := by
    rw [Frames.getHere?_define, if_neg fun hsame => hlocal hsame.1.symm] at hbound
    exact h.bound frame name' hlocal hbound
  nodup := h.nodup
  inside entry hentry := by
    rw [Frames.next_define]
    exact h.inside entry hentry
  globals other := by
    rw [Frames.getHere?_define, Table.get?_set]
    by_cases hsame : name = other
    · simp [hsame, h.globals_lt]
    · simp [hsame, h.globals]
  globals_lt := by
    rw [Frames.next_define]
    exact h.globals_lt

end SameVariables
end Lexical
end LoxLang
