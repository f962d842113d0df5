import LoxLang.Proofs.Binding.Encounters

/-!
# Distances are noted once

Every expression of a program is met exactly once. So where identities are distinct, no distance is
noted over another one, and the table holds exactly what was noted.
-/
namespace LoxLang

/-- The identities of the expressions that are met. -/
def Encounter.ids (encounters : List Encounter) : List Nat := encounters.filterMap Encounter.id?

@[simp] theorem Encounter.ids_append (left right : List Encounter) :
    Encounter.ids (left ++ right) = Encounter.ids left ++ Encounter.ids right :=
  List.filterMap_append

@[simp] theorem Encounter.ids_expression (scopes : List Scope) (inClass : Bool) (expr : Expr) :
    Encounter.ids [.expression scopes inClass expr] = [expr.id] := rfl

@[simp] theorem Encounter.ids_declaration (scopes : List Scope) (name : Token)
    (rest : List Encounter) :
    Encounter.ids (.declaration scopes name :: rest) = Encounter.ids rest :=
  rfl

@[simp] theorem Encounter.ids_returning (inFunction : Bool) (keyword : Token)
    (rest : List Encounter) :
    Encounter.ids (.returning inFunction keyword :: rest) = Encounter.ids rest := rfl

@[simp] theorem Encounter.ids_parameters (scopes : List Scope) (names : List Token) :
    Encounter.ids (Scopes.parameters scopes names) = [] := by
  induction names generalizing scopes with
  | nil => rfl
  | cons name names ih => simp [Scopes.parameters, ih]

mutual

/-- Every part of an expression is met once. -/
theorem Expr.ids_encounters (scopes : List Scope) (inClass : Bool) :
    ∀ expr : Expr, (Encounter.ids (expr.encounters scopes inClass)).Perm expr.ids
  | .literal id value => .refl _
  | .grouping id inner => by
    simpa [encounters, ids, Expr.id] using (inner.ids_encounters scopes inClass).append_right [id]
  | .unary id operator right => by
    simpa [encounters, ids, Expr.id] using (right.ids_encounters scopes inClass).append_right [id]
  | .binary id left operator right => by
    have h := (left.ids_encounters scopes inClass).append (right.ids_encounters scopes inClass)
    simpa [encounters, ids, Expr.id] using h.append_right [id]
  | .logical id left operator right => by
    have h := (left.ids_encounters scopes inClass).append (right.ids_encounters scopes inClass)
    simpa [encounters, ids, Expr.id] using h.append_right [id]
  | .var id name => .refl _
  | .assign id name value => by
    simpa [encounters, ids, Expr.id] using (value.ids_encounters scopes inClass).append_right [id]
  | .call id callee paren arguments => by
    have h := (callee.ids_encounters scopes inClass).append
      (Expr.ids_encountersAll scopes inClass arguments)
    simpa [encounters, ids, Expr.id] using h.append_right [id]
  | .get id object name => by
    simpa [encounters, ids, Expr.id] using (object.ids_encounters scopes inClass).append_right [id]
  | .set id object name value => by
    -- the value is met before the object
    have h := (value.ids_encounters scopes inClass).append (object.ids_encounters scopes inClass)
    have hswap := (h.trans List.perm_append_comm).append_right [id]
    simpa [encounters, ids, Expr.id] using hswap
  | .this id keyword => .refl _

theorem Expr.ids_encountersAll (scopes : List Scope) (inClass : Bool) :
    ∀ exprs : List Expr,
      (Encounter.ids (Expr.encountersAll scopes inClass exprs)).Perm (Expr.idsAll exprs)
  | [] => .refl _
  | expr :: exprs => by
    have h := (expr.ids_encounters scopes inClass).append
      (Expr.ids_encountersAll scopes inClass exprs)
    simpa [encountersAll, idsAll] using h

end

theorem Expr.ids_encountersOption (scopes : List Scope) (inClass : Bool) (expr : Option Expr) :
    (Encounter.ids (Expr.encountersOption scopes inClass expr)).Perm (Expr.idsOption expr) := by
  cases expr with
  | none => exact .refl _
  | some expr => exact expr.ids_encounters scopes inClass

mutual

theorem Stmt.ids_encounters (scopes : List Scope) (inFunction inClass : Bool) :
    ∀ stmt : Stmt, (Encounter.ids (stmt.encounters scopes inFunction inClass)).Perm stmt.ids
  | .expression expr => expr.ids_encounters scopes inClass
  | .print expr => expr.ids_encounters scopes inClass
  | .varDecl name initializer => Expr.ids_encountersOption _ inClass initializer
  | .block body => Stmt.ids_encountersAll _ inFunction inClass body
  | .ifThen condition thenBranch => by
    have h := (condition.ids_encounters scopes inClass).append
      (thenBranch.ids_encounters scopes inFunction inClass)
    simpa [Stmt.encounters, Stmt.ids] using h
  | .ifElse condition thenBranch elseBranch => by
    have h := (condition.ids_encounters scopes inClass).append
      (thenBranch.ids_encounters scopes inFunction inClass)
    have h' := h.append
      (elseBranch.ids_encounters (thenBranch.scopesAfter scopes) inFunction inClass)
    simpa [Stmt.encounters, Stmt.ids] using h'
  | .whileLoop condition body => by
    have h := (condition.ids_encounters scopes inClass).append
      (body.ids_encounters scopes inFunction inClass)
    simpa [Stmt.encounters, Stmt.ids] using h
  | .funDecl declaration => declaration.ids_encounters _ inClass
  | .returnStmt keyword value => Expr.ids_encountersOption scopes inClass value
  | .classDecl name methods => FunctionDecl.ids_encountersMethods _ methods

theorem Stmt.ids_encountersAll (scopes : List Scope) (inFunction inClass : Bool) :
    ∀ stmts : List Stmt,
      (Encounter.ids (Stmt.encountersAll scopes inFunction inClass stmts)).Perm (Stmt.idsAll stmts)
  | [] => .refl _
  | stmt :: stmts => by
    have h := (stmt.ids_encounters scopes inFunction inClass).append
      (Stmt.ids_encountersAll (stmt.scopesAfter scopes) inFunction inClass stmts)
    simpa [Stmt.encountersAll, Stmt.idsAll] using h

theorem FunctionDecl.ids_encounters (scopes : List Scope) (inClass : Bool) :
    ∀ declaration : FunctionDecl,
      (Encounter.ids (declaration.encounters scopes inClass)).Perm declaration.ids
  | ⟨name, params, body⟩ => by
    simpa [FunctionDecl.encounters, FunctionDecl.ids] using
      Stmt.ids_encountersAll _ true inClass body

theorem FunctionDecl.ids_encountersMethods (scopes : List Scope) :
    ∀ methods : List FunctionDecl,
      (Encounter.ids (FunctionDecl.encountersMethods scopes methods)).Perm
        (FunctionDecl.idsAll methods)
  | [] => .refl _
  | method :: methods => by
    have h := (method.ids_encounters (Scopes.ofThis :: scopes) true).append
      (FunctionDecl.ids_encountersMethods scopes methods)
    simpa [FunctionDecl.encountersMethods, FunctionDecl.idsAll] using h

end

namespace Encounter

theorem id?_of_note? {x : Encounter} {note : Nat × Nat} (h : x.note? = some note) :
    x.id? = some note.1 := by
  cases x with
  | expression scopes inClass expr =>
    obtain ⟨name, -, hmap⟩ := Option.bind_eq_some_iff.mp h
    obtain ⟨distance, -, rfl⟩ := Option.map_eq_some_iff.mp hmap
    rfl
  | declaration => simp at h
  | returning => simp at h

theorem mem_ids_of_mem_note? {encounters : List Encounter} {note : Nat × Nat}
    (h : note ∈ encounters.filterMap note?) : note.1 ∈ ids encounters := by
  obtain ⟨x, hx, hnote⟩ := List.mem_filterMap.mp h
  exact List.mem_filterMap.mpr ⟨x, hx, id?_of_note? hnote⟩

theorem fst_notes_sublist (encounters : List Encounter) :
    ((encounters.filterMap note?).map Prod.fst).Sublist (ids encounters) := by
  induction encounters with
  | nil => exact .refl _
  | cons x rest ih =>
    cases hnote : x.note? with
    | none =>
      simp only [List.filterMap_cons, hnote]
      exact ih.trans ((List.sublist_cons_self x rest).filterMap id?)
    | some note =>
      simp only [List.filterMap_cons, hnote, ids, id?_of_note? hnote, List.map_cons]
      exact ih.cons_cons note.1

/-- Where identities are distinct, a distance is noted at most once for each. -/
theorem nodup_noted {encounters : List Encounter} (h : (ids encounters).Nodup) :
    ((encounters.filterMap note?).map Prod.fst).Nodup :=
  h.sublist (fst_notes_sublist encounters)

theorem notMem_ids_before {before after : List Encounter} {x : Encounter} {note : Nat × Nat}
    (h : (ids (before ++ x :: after)).Nodup) (hnote : x.note? = some note) :
    note.1 ∉ ids before := by
  intro hmem
  rw [ids_append, ids, ids, List.filterMap_cons, id?_of_note? hnote] at h
  exact (List.nodup_append.mp h).2.2 note.1 hmem note.1 List.mem_cons_self rfl

/-- Where identities are distinct, an identity leads to one encounter only. -/
theorem eq_of_id?_eq {encounters : List Encounter} (hnodup : (ids encounters).Nodup)
    {x y : Encounter} (hx : x ∈ encounters) (hy : y ∈ encounters) {id : Nat}
    (hxid : x.id? = some id) (hyid : y.id? = some id) : x = y := by
  induction encounters with
  | nil => simp at hx
  | cons z rest ih =>
    have hnot {u : Encounter} (hu : u ∈ rest) (huid : u.id? = some id) (hz : z.id? = some id) :
        False := by
      simp [ids, hz] at hnodup
      exact hnodup.1 u hu huid
    have hrest : (ids rest).Nodup := hnodup.sublist ((List.sublist_cons_self z rest).filterMap _)
    rcases List.mem_cons.mp hx with hxz | hxrest
    · subst hxz
      rcases List.mem_cons.mp hy with hyz | hyrest
      · exact hyz.symm
      · exact (hnot hyrest hyid hxid).elim
    · rcases List.mem_cons.mp hy with hyz | hyrest
      · subst hyz
        exact (hnot hxrest hxid hyid).elim
      · exact ih hrest hxrest hyrest

end Encounter

namespace Distances

theorem getElem?_foldl_insert_of_notMem {notes : List (Nat × Nat)} {id : Nat}
    (h : id ∉ notes.map Prod.fst) (distances : Distances) :
    (notes.foldl (fun d note => d.insert note.1 note.2) distances)[id]? = distances[id]? := by
  induction notes generalizing distances with
  | nil => rfl
  | cons note notes ih =>
    simp only [List.map_cons, List.mem_cons, not_or] at h
    rw [List.foldl_cons, ih h.2, Std.TreeMap.getElem?_insert]
    simp [Ne.symm h.1]

theorem getElem?_noteAll_of_notMem {encounters : List Encounter} {id : Nat}
    (h : id ∉ Encounter.ids encounters) (distances : Distances) :
    (distances.noteAll encounters)[id]? = distances[id]? := by
  apply getElem?_foldl_insert_of_notMem
  intro hmem
  obtain ⟨note, hnote, rfl⟩ := List.mem_map.mp hmem
  exact h (Encounter.mem_ids_of_mem_note? hnote)

/-- Where identities are distinct, an expression that is met gets the distance of that encounter,
and keeps what it had if that has none. -/
theorem getElem?_noteAll_of_mem {encounters : List Encounter}
    (hnodup : (Encounter.ids encounters).Nodup) {x : Encounter} (hx : x ∈ encounters) {id : Nat}
    (hid : x.id? = some id) {distances : Distances} (hfresh : distances[id]? = none) :
    (distances.noteAll encounters)[id]? = x.note?.map Prod.snd := by
  obtain ⟨before, after, rfl⟩ := List.append_of_mem hx
  simp only [Encounter.ids, List.filterMap_append, List.filterMap_cons, hid] at hnodup
  have hbefore : id ∉ Encounter.ids before := by
    intro h
    exact (List.nodup_append.mp hnodup).2.2 id h id (List.mem_cons_self) rfl
  have hafter : id ∉ Encounter.ids after := by
    have := (List.nodup_append.mp hnodup).2.1
    exact (List.nodup_cons.mp this).1
  rw [← List.singleton_append, noteAll_append, noteAll_append, getElem?_noteAll_of_notMem hafter]
  cases hnote : x.note? with
  | none =>
    have hsame : (distances.noteAll before).noteAll [x] = distances.noteAll before := by
      simp [noteAll, hnote]
    rw [hsame, getElem?_noteAll_of_notMem hbefore, hfresh]
    rfl
  | some note =>
    have hfst : note.1 = id := by
      rw [Encounter.id?_of_note? hnote] at hid
      exact Option.some.inj hid
    have hinsert : (distances.noteAll before).noteAll [x] =
        (distances.noteAll before).insert note.1 note.2 := by
      simp [noteAll, hnote]
    rw [hinsert, hfst, Std.TreeMap.getElem?_insert_self]
    rfl

end Distances
end LoxLang
