import LoxLang.Proofs.Execution.Recoding
import LoxLang.Proofs.Renumbering

/-!
# Heaps on other lines

A heap keeps code, in closures and in the methods of classes, and with it the lines that faults are
reported on.
-/
namespace LoxLang

def RunFault.renumber (f : Nat → Nat) : RunFault → RunFault
  | operation token cause => operation (token.renumber f) cause
  | native text => native text
  | output cause => output cause

theorem RunFault.blame_renumber (f : Nat → Nat) (paren : Token) (fault : RunFault) :
    (fault.renumber f).blame (paren.renumber f) = (fault.blame paren).renumber f := by
  cases fault <;> rfl

def Closure.renumber (f : Nat → Nat) (c : Closure) : Closure :=
  { c with declaration := c.declaration.renumber f }

def Class.renumber (f : Nat → Nat) (c : Class) : Class :=
  { c with methods := c.methods.map (Closure.renumber f) }

/-- The same heap with all code on other lines. -/
def Heap.renumber (f : Nat → Nat) (h : Heap) : Heap :=
  { h with
    closures := h.closures.map (Closure.renumber f)
    classes := h.classes.map (Class.renumber f) }

/-- Code on other lines is other code with the same names. -/
theorem Heap.recode_eq_renumber {r : Recoding} {f : Nat → Nat}
    (hcode : ∀ declaration, r.code declaration = declaration.renumber f) (h : Heap) :
    h.recode r = h.renumber f := by
  have hclosure : Closure.recode r = Closure.renumber f := by
    funext c
    rw [Closure.recode, Closure.renumber, hcode]
  have hclass : Class.recode r = Class.renumber f := by
    funext c
    rw [Class.recode, Class.renumber, hclosure]
  rw [recode, renumber, hclosure, hclass]

section Composition

variable (f g : Nat → Nat)

theorem Closure.renumber_renumber (c : Closure) :
    (c.renumber f).renumber g = c.renumber fun line => g (f line) := by
  simp [renumber, FunctionDecl.renumber_renumber]

theorem Class.renumber_renumber (c : Class) :
    (c.renumber f).renumber g = c.renumber fun line => g (f line) := by
  simp [renumber, Table.map_map, Closure.renumber_renumber]

theorem Heap.renumber_renumber (h : Heap) :
    (h.renumber f).renumber g = h.renumber fun line => g (f line) := by
  simp [renumber, Function.comp_def, Closure.renumber_renumber, Class.renumber_renumber]

theorem Closure.renumber_id (c : Closure) : c.renumber (fun line => line) = c := by
  simp [renumber, FunctionDecl.renumber_id]

theorem Class.renumber_id (c : Class) : c.renumber (fun line => line) = c := by
  have hmethod : Closure.renumber (fun line => line) = fun c => c := funext Closure.renumber_id
  simp [renumber, hmethod, Table.map_id]

@[simp] theorem Heap.renumber_id (h : Heap) : h.renumber (fun line => line) = h := by
  have hclosure : Closure.renumber (fun line => line) = fun c => c := funext Closure.renumber_id
  have hclass : Class.renumber (fun line => line) = fun c => c := funext Class.renumber_id
  simp [renumber, hclosure, hclass]

@[simp] theorem RunFault.renumber_id (fault : RunFault) :
    fault.renumber (fun line => line) = fault := by
  cases fault <;> rfl

end Composition

end LoxLang
