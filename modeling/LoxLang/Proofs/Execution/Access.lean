import Mathlib
import LoxLang.Proofs.Execution.Growth

/-!
# Access along the chain and by distance

A name is found by a walk along the chain of frames, which stops at the first frame that binds it,
or in the frame a known number of steps up. Both are views of the chain: the walk comes to its first
frame with the name (`Frames.holder?_eq_find?_chain`), and so many steps lead to the frame with this
index. At the least distance of a frame with the name they read the same value and rebind the name
in the same frame, and nothing else is changed (`Frames.access_by_distance`).
-/
namespace LoxLang
namespace Frames

section Chain

variable (fs : Frames) (i : Nat) (name : String)

/-- The walk along the chain stops at the first frame that binds the name. -/
theorem holder?_eq_find?_chain :
    fs.holder? i name = (fs.chain i).find? fun j => (fs.getHere? j name).isSome := by
  induction i using Nat.strong_induction_on with
  | _ i ih =>
    by_cases hhere : (fs.getHere? i name).isSome
    · rw [holder?, if_pos hhere, chain, List.find?_cons, hhere]
    · rw [holder?_of_not_isSome hhere]
      rw [Bool.not_eq_true] at hhere
      cases hp : fs.parent? i with
      | none => rw [chain_of_outermost hp, List.find?_cons, hhere, Option.bind_none, List.find?_nil]
      | some p =>
        rw [chain_of_parent? hp, List.find?_cons, hhere, Option.bind_some, ih p (lt_of_parent? hp)]

theorem isSome_ancestor?_iff (distance : Nat) :
    (fs.ancestor? i distance).isSome ↔ distance < (fs.chain i).length := by
  rw [ancestor?_eq_getElem?_chain, isSome_getElem?]

theorem ancestor?_add (a b : Nat) :
    fs.ancestor? i (a + b) = (fs.ancestor? i a).bind (fs.ancestor? · b) := by
  induction a generalizing i with
  | zero => rw [Nat.zero_add, ancestor?, Option.bind_some]
  | succ a ih =>
    rw [Nat.succ_add, ancestor?, ancestor?, Option.bind_assoc]
    exact Option.bind_congr fun p _ => ih p

/-- The frame this many steps along the chain binds the name. -/
def BindsAt (distance : Nat) : Prop :=
  ∃ j, (fs.chain i)[distance]? = some j ∧ (fs.getHere? j name).isSome

end Chain

section Holders

variable {fs : Frames} {i distance j : Nat} {name : String}

theorem holderAt?_eq_some_iff : fs.holderAt? i distance name = some j ↔
    (fs.chain i)[distance]? = some j ∧ (fs.getHere? j name).isSome := by
  rw [holderAt?, ancestor?_eq_getElem?_chain, Option.filter_eq_some_iff]

theorem holderAt?_eq_none (h : ¬fs.BindsAt i name distance) :
    fs.holderAt? i distance name = none := by
  rw [Option.eq_none_iff_forall_ne_some]
  intro j hj
  exact h ⟨j, holderAt?_eq_some_iff.mp hj⟩

theorem holder?_eq_none (h : ∀ distance, ¬fs.BindsAt i name distance) :
    fs.holder? i name = none := by
  rw [holder?_eq_find?_chain, List.find?_eq_none]
  intro j hj hbound
  obtain ⟨distance, hdistance⟩ := List.mem_iff_getElem?.mp hj
  exact h distance ⟨j, hdistance, hbound⟩

/-- The walk along the chain comes to the frame at the least distance. -/
theorem holder?_of_isLeast (h : IsLeast {d | fs.BindsAt i name d} distance)
    (hj : fs.holderAt? i distance name = some j) : fs.holder? i name = some j := by
  obtain ⟨hchain, hbound⟩ := holderAt?_eq_some_iff.mp hj
  obtain ⟨hlt, hget⟩ := List.getElem?_eq_some_iff.mp hchain
  rw [holder?_eq_find?_chain, List.find?_eq_some_iff_getElem]
  refine ⟨hbound, distance, hlt, hget, fun nearer hnearer => ?_⟩
  have hnot : ¬fs.BindsAt i name nearer := fun hbinds =>
    absurd (h.2 hbinds) (Nat.not_le.mpr hnearer)
  by_contra hbinds
  rw [Bool.not_eq_true', Bool.not_eq_false] at hbinds
  exact hnot ⟨_, List.getElem?_eq_getElem (hnearer.trans hlt), hbinds⟩

/-- The other frames differ from these in the value of one name in one frame. -/
structure Rebinds (fs fs' : Frames) (j : Nat) (name : String) (value : Value) : Prop where
  next : fs'.next = fs.next
  parent? : ∀ k, fs'.parent? k = fs.parent? k
  getHere? : ∀ k other, fs'.getHere? k other =
    if k = j ∧ other = name then some value else fs.getHere? k other

theorem rebinds_define (h : (fs.getHere? j name).isSome) (value : Value) :
    fs.Rebinds (fs.define j name value) j name value where
  next := next_define fs j name value
  parent? k := parent?_define fs j k name value
  getHere? k other := by
    obtain ⟨held, hheld⟩ := Option.isSome_iff_exists.mp h
    have hlt := lt_next_of_getHere? hheld
    rw [getHere?_define]
    by_cases hk : k = j
    · simp only [hk, hlt, true_and, and_true, eq_comm]
    · simp only [hk, Ne.symm hk, false_and]

end Holders

end Frames

/-- What the machine comes to when its frames are replaced, or when there are none to replace them:
then it is as it was. -/
def Machine.rebound (m : Machine) : Except RunFault Frames → Outcome Machine RunFault Unit
  | .ok frames => .done () { m with heap := { m.heap with frames } }
  | .error fault => .failed fault m

namespace Run

variable (name : Token) (value : Value) (m : Machine)

theorem rebind_eq_rebound (holder? : Machine → Option Nat) : rebind name value holder? m =
    m.rebound (Frames.orUndefined name
      ((holder? m).map (m.heap.frames.define · name.lexeme value))) := by
  rw [rebind, Action.bind_apply, Action.view]
  cases holder? m <;> rfl

theorem assignAlong_eq_rebound : assignAlong name value m = m.rebound
    (Frames.orUndefined name (m.heap.frames.assign? m.current name.lexeme value)) :=
  rebind_eq_rebound name value m _

theorem writeName_eq_rebound {id distance : Nat} (h : m.distance? id = some distance) :
    writeName id name value m = m.rebound
      (Frames.orUndefined name (m.heap.frames.assignAt? m.current distance name.lexeme value)) := by
  rw [writeName, rebind_eq_rebound, Machine.holderOf?, h]
  rfl

/-- A name that cannot be rebound leaves the machine as it was. -/
theorem eq_of_rebind_eq_failed {holder? : Machine → Option Nat} {fault : RunFault} {m' : Machine}
    (h : rebind name value holder? m = .failed fault m') : m' = m := by
  rw [rebind_eq_rebound] at h
  cases hholder : holder? m with
  | none =>
    rw [hholder] at h
    cases h
    rfl
  | some j =>
    rw [hholder] at h
    cases h

end Run

namespace Frames

def undefined (name : Token) : RunFault := .operation name (.undefinedVariable name.lexeme)

/-- Access by distance agrees with the walk along the chain. At the least distance of a frame that
binds the name, both read the value that it has there, and both rebind it there and change nothing
else. If no frame of the chain binds the name, it is undefined for the walk and at every distance,
and the machine stays as it was whenever a name cannot be rebound. There is a frame so many steps up
exactly if the chain is longer than that, and steps can be taken in two goes. -/
theorem access_by_distance (fs : Frames) (i : Nat) (name : Token) (value : Value) :
    (∀ distance, IsLeast {d | fs.BindsAt i name.lexeme d} distance →
      ∃ j held fs', fs.ancestor? i distance = some j ∧ fs.getHere? j name.lexeme = some held ∧
        orUndefined name (fs.get? i name.lexeme) = .ok held ∧
        orUndefined name (fs.getAt? i distance name.lexeme) = .ok held ∧
        orUndefined name (fs.assign? i name.lexeme value) = .ok fs' ∧
        orUndefined name (fs.assignAt? i distance name.lexeme value) = .ok fs' ∧
        fs.Rebinds fs' j name.lexeme value) ∧
    ((∀ distance, ¬fs.BindsAt i name.lexeme distance) →
      orUndefined name (fs.get? i name.lexeme) = .error (undefined name) ∧
      orUndefined name (fs.assign? i name.lexeme value) = .error (undefined name) ∧
      ∀ distance,
        orUndefined name (fs.getAt? i distance name.lexeme) = .error (undefined name) ∧
        orUndefined name (fs.assignAt? i distance name.lexeme value) = .error (undefined name)) ∧
    (∀ (m : Machine) id, m.heap.frames = fs → m.current = i →
      Run.assignAlong name value m =
        m.rebound (orUndefined name (fs.assign? i name.lexeme value)) ∧
      (∀ distance, m.distance? id = some distance → Run.writeName id name value m =
        m.rebound (orUndefined name (fs.assignAt? i distance name.lexeme value))) ∧
      ∀ fault m', Run.assignAlong name value m = .failed fault m' ∨
        Run.writeName id name value m = .failed fault m' → m' = m) ∧
    (∀ distance, (fs.ancestor? i distance).isSome ↔ distance < (fs.chain i).length) ∧
    ∀ a b, fs.ancestor? i (a + b) = (fs.ancestor? i a).bind (fs.ancestor? · b) := by
  refine ⟨fun distance hleast => ?_, fun hnone => ?_, ?_, fs.isSome_ancestor?_iff i,
    fs.ancestor?_add i⟩
  · obtain ⟨j, hchain, hbound⟩ := hleast.1
    obtain ⟨held, hheld⟩ := Option.isSome_iff_exists.mp hbound
    have hat : fs.holderAt? i distance name.lexeme = some j :=
      holderAt?_eq_some_iff.mpr ⟨hchain, hbound⟩
    have hwalk := holder?_of_isLeast hleast hat
    refine ⟨j, held, fs.define j name.lexeme value, ?_, hheld, ?_, ?_, ?_, ?_,
      rebinds_define hbound value⟩
    · rw [ancestor?_eq_getElem?_chain, hchain]
    · rw [get?, hwalk, Option.bind_some, hheld, orUndefined]
    · rw [getAt?_eq_bind_holderAt?, hat, Option.bind_some, hheld, orUndefined]
    · rw [assign?, hwalk, Option.map_some, orUndefined]
    · rw [assignAt?, hat, Option.map_some, orUndefined]
  · have hwalk := holder?_eq_none hnone
    refine ⟨?_, ?_, fun distance => ⟨?_, ?_⟩⟩
    · rw [get?, hwalk]
      rfl
    · rw [assign?, hwalk]
      rfl
    · rw [getAt?_eq_bind_holderAt?, holderAt?_eq_none (hnone distance)]
      rfl
    · rw [assignAt?, holderAt?_eq_none (hnone distance)]
      rfl
  · rintro m id rfl rfl
    refine ⟨Run.assignAlong_eq_rebound name value m,
      fun distance => Run.writeName_eq_rebound name value m, fun fault m' hfailed => ?_⟩
    rcases hfailed with h | h
    · exact Run.eq_of_rebind_eq_failed name value m h
    · exact Run.eq_of_rebind_eq_failed name value m h

/-- Three frames inside each other; the outer two bind `x`. -/
def nested : Frames :=
  ((empty.push none (Table.empty.set "x" (.bool true))).push (some 0)
    (Table.empty.set "x" .nil)).push (some 1) ∅

def nestedName (name : String) : Token := ⟨.identifier, name, 1⟩

def nestedMachine : Machine :=
  { Machine.initial .unlimited (fun _ => 0) with
    heap := { Heap.initial with frames := nested }
    current := 2 }

theorem chain_nested : nested.chain 2 = [2, 1, 0] := by decide +kernel

theorem isLeast_nested : IsLeast {d | nested.BindsAt 2 "x" d} 1 := by
  refine ⟨⟨1, by rw [chain_nested]; rfl, by decide⟩, ?_⟩
  rintro (_ | d) ⟨j, hchain, hbound⟩
  · rw [chain_nested] at hchain
    cases hchain
    exact absurd hbound (by decide)
  · exact Nat.succ_pos d

theorem not_bindsAt_nested (d : Nat) : ¬nested.BindsAt 2 "y" d := by
  rintro ⟨j, hchain, hbound⟩
  have hmem : j ∈ nested.chain 2 := List.mem_of_getElem? hchain
  rw [chain_nested] at hmem
  have hunbound : ∀ k ∈ [2, 1, 0], (nested.getHere? k "y").isSome = false := by decide
  exact absurd hbound (Bool.eq_false_iff.mp (hunbound j hmem))

theorem access_by_distance_nested :
    (∃ fs', orUndefined (nestedName "x") (nested.get? 2 "x") = .ok .nil ∧
      orUndefined (nestedName "x") (nested.getAt? 2 1 "x") = .ok .nil ∧
      orUndefined (nestedName "x") (nested.assign? 2 "x" (.bool false)) = .ok fs' ∧
      orUndefined (nestedName "x") (nested.assignAt? 2 1 "x" (.bool false)) = .ok fs' ∧
      nested.Rebinds fs' 1 "x" (.bool false)) ∧
    orUndefined (nestedName "y") (nested.getAt? 2 1 "y") = .error (undefined (nestedName "y")) ∧
    Run.assignAlong (nestedName "y") .nil nestedMachine =
      .failed (undefined (nestedName "y")) nestedMachine := by
  obtain ⟨hleast, -⟩ := access_by_distance nested 2 (nestedName "x") (.bool false)
  obtain ⟨j, held, fs', hj, hheld, hget, hgetAt, hassign, hassignAt, hrebinds⟩ :=
    hleast 1 isLeast_nested
  rw [ancestor?_eq_getElem?_chain, chain_nested] at hj
  cases hj
  cases hheld
  obtain ⟨-, hnone, hmachine, -⟩ := access_by_distance nested 2 (nestedName "y") .nil
  obtain ⟨-, hundefined, hdistances⟩ := hnone not_bindsAt_nested
  obtain ⟨hstep, -⟩ := hmachine nestedMachine 0 rfl rfl
  rw [hundefined] at hstep
  exact ⟨⟨fs', hget, hgetAt, hassign, hassignAt, hrebinds⟩, (hdistances 1).1, hstep⟩

end Frames
end LoxLang
