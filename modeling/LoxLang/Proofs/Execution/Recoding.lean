import LoxLang.Proofs.Execution.Breakpoints

/-!
# Heaps with other code

A heap keeps code, in closures and in the methods of classes. Of this code it uses the names of
functions and of their parameters, and nothing else. So if all code is exchanged for code with the
same names, whatever is looked up in the heap is found in the same place, with the other code.
-/
namespace LoxLang

namespace Table

variable {α β : Type}

def map (g : α → β) (t : Table α) : Table β := ⟨t.entries.map fun entry => (entry.1, g entry.2)⟩

theorem get?_map (g : α → β) (t : Table α) (name : String) :
    (t.map g).get? name = (t.get? name).map g := by
  unfold get? map
  induction t.entries with
  | nil => rfl
  | cons entry rest ih =>
    obtain ⟨key, value⟩ := entry
    by_cases hkey : key = name
    · simp [lookup, hkey]
    · simpa [lookup, hkey] using ih

theorem map_set (g : α → β) (t : Table α) (name : String) (value : α) :
    (t.set name value).map g = (t.map g).set name (g value) := by
  unfold set map
  rw [mk.injEq]
  induction t.entries with
  | nil => rfl
  | cons entry rest ih =>
    obtain ⟨key, old⟩ := entry
    by_cases hkey : key = name
    · simp [replace, hkey]
    · simpa [replace, hkey] using ih

theorem map_map {γ : Type} (g : α → β) (g' : β → γ) (t : Table α) :
    (t.map g).map g' = t.map fun a => g' (g a) := by
  simp [map, Function.comp_def]

theorem map_id (t : Table α) : (t.map fun a => a) = t := by
  simp [map]

end Table

/-- Other code for each function, with the same names. -/
structure Recoding where
  code : FunctionDecl → FunctionDecl
  name : ∀ declaration, (code declaration).name.lexeme = declaration.name.lexeme
  params : ∀ declaration,
    (code declaration).params.map Token.lexeme = declaration.params.map Token.lexeme

theorem Recoding.length_params (r : Recoding) (declaration : FunctionDecl) :
    (r.code declaration).params.length = declaration.params.length := by
  simpa using congrArg List.length (r.params declaration)

def Closure.recode (r : Recoding) (c : Closure) : Closure :=
  { c with declaration := r.code c.declaration }

def Class.recode (r : Recoding) (c : Class) : Class :=
  { c with methods := c.methods.map (Closure.recode r) }

def Callee.recode (r : Recoding) : Callee → Callee
  | native n => native n
  | function c => function (c.recode r)
  | cls place c => cls place (c.recode r)

def Heap.recode (r : Recoding) (h : Heap) : Heap :=
  { h with
    closures := h.closures.map (Closure.recode r)
    classes := h.classes.map (Class.recode r) }

section Code

variable (r : Recoding)

@[simp] theorem Closure.name_recode (c : Closure) : (c.recode r).name = c.name :=
  r.name c.declaration

@[simp] theorem Closure.arity_recode (c : Closure) : (c.recode r).arity = c.arity :=
  r.length_params c.declaration

theorem Class.initializer?_recode (c : Class) :
    (c.recode r).initializer? = c.initializer?.map (Closure.recode r) :=
  Table.get?_map _ _ _

@[simp] theorem Callee.arity_recode (callee : Callee) :
    (callee.recode r).arity = callee.arity := by
  cases callee with
  | native n => rfl
  | function c => exact c.arity_recode r
  | cls place c =>
    simp only [recode, arity, Class.arity, Class.initializer?_recode, Option.map_map]
    cases c.initializer? <;> simp

theorem Run.methodTable_recode (frame : Nat) (methods : List FunctionDecl)
    (table : Table Closure) :
    methodTable frame (methods.map r.code) (table.map (Closure.recode r)) =
      (methodTable frame methods table).map (Closure.recode r) := by
  induction methods generalizing table with
  | nil => rfl
  | cons method methods ih =>
    rw [List.map_cons, methodTable, methodTable, ← ih, Table.map_set]
    simp [Closure.recode, r.name]

theorem Run.bindAll_congr {params params' : List Token}
    (h : params'.map Token.lexeme = params.map Token.lexeme) (arguments : List Value)
    (vars : Table Value) : bindAll params' arguments vars = bindAll params arguments vars := by
  induction params generalizing params' arguments vars with
  | nil =>
    rw [List.map_nil, List.map_eq_nil_iff] at h
    rw [h]
  | cons param params ih =>
    obtain ⟨param', params', rfl, hparam, hparams⟩ := List.map_eq_cons_iff.mp h
    cases arguments with
    | nil => rfl
    | cons argument arguments =>
      rw [bindAll, bindAll, hparam]
      exact ih hparams _ _

end Code

namespace Heap

variable (r : Recoding) (h : Heap)

theorem addClosure_recode (c : Closure) :
    (h.recode r).addClosure (c.recode r) = ((h.addClosure c).1, (h.addClosure c).2.recode r) := by
  simp [addClosure, recode]

theorem addClass_recode (c : Class) :
    (h.recode r).addClass (c.recode r) = ((h.addClass c).1, (h.addClass c).2.recode r) := by
  simp [addClass, recode]

theorem className_recode (place : Nat) : (h.recode r).className place = h.className place := by
  unfold className recode
  cases hclass : h.classes[place]? <;> simp [hclass, Class.recode]

theorem method?_recode (place : Nat) (name : String) :
    (h.recode r).method? place name = (h.method? place name).map (Closure.recode r) := by
  unfold method? recode
  cases hinst : h.instances[place]? with
  | none => simp
  | some inst =>
    cases hclass : h.classes[inst.cls]? <;> simp [hclass, Class.recode, Table.get?_map]

theorem callee?_recode (value : Value) :
    (h.recode r).callee? value = (h.callee? value).map (Callee.recode r) := by
  cases value <;> simp [callee?, recode, Callee.recode, Function.comp_def]

theorem text_recode (value : Value) : (h.recode r).text value = h.text value := by
  cases value with
  | bool b => cases b <;> rfl
  | function place =>
    cases hclosure : h.closures[place]? <;> simp [text, recode, hclosure]
  | cls place => exact h.className_recode r place
  | inst place =>
    have hname : (h.recode r).className = h.className := funext (h.className_recode r)
    simp only [text, instanceText, hname]
    rfl
  | _ => rfl

end Heap

end LoxLang
