import Mathlib.Data.List.TakeWhile
import LoxLang.Proofs.Reading.Bounds

/-!
# Where one statement ends and the next begins

A list of tokens that is read without a fault can stand before any other that starts with no `else`:
each is read as it is alone, identities going on from the first to the second. A list that is one
rejected statement up to its semicolon can stand before any other too: it is skipped, and nothing of
what follows is lost.
-/
namespace LoxLang

namespace Cursor

variable {left right : List Token}

theorem ahead_start_of_forall (h : ∀ token ∈ left, token.kind ≠ .eof) (firstId : Nat) :
    (start left firstId).ahead = left := by
  rw [ahead_start, List.takeWhile_eq_self_iff.mpr (by simpa using h)]

theorem ahead_start_append (h : ∀ token ∈ left, token.kind ≠ .eof) (right : List Token)
    (firstId : Nat) :
    (start (left ++ right) firstId).ahead = left ++ right.takeWhile (·.kind ≠ .eof) := by
  rw [ahead_start, List.takeWhile_append_of_pos (by simpa using h)]

theorem endingOf_append (h : ∀ token ∈ left, token.kind ≠ .eof) (hright : right ≠ []) :
    endingOf (left ++ right) = endingOf right := by
  have hnone : left.find? (·.kind = .eof) = none := List.find?_eq_none.mpr (by simpa using h)
  rw [endingOf, endingOf, List.find?_append, hnone, Option.none_or, List.getLast?_append,
    List.getLast?_eq_some_getLast hright, Option.some_or]

theorem resume_append_of_plain {skipped rest : List Token}
    (honly : ∀ token ∈ skipped, token.kind ≠ .semicolon)
    (hkeyword : ∀ token ∈ skipped.tail, startsStatement token.kind = false)
    (hrest : ∀ token ∈ rest.head?, startsStatement token.kind = false) :
    resume (skipped ++ rest) = resume rest := by
  induction skipped with
  | nil => rfl
  | cons first skipped ih =>
    have hfirst : first.kind ≠ .semicolon := honly first List.mem_cons_self
    have hnext : ¬ (skipped ++ rest).head?.any (startsStatement ·.kind) = true := by
      cases skipped with
      | nil => cases rest <;> simp_all
      | cons second skipped => simpa using hkeyword second List.mem_cons_self
    rw [List.cons_append, resume, if_neg hfirst, if_neg hnext]
    apply ih
    · exact fun token hmem => honly token (List.mem_cons_of_mem _ hmem)
    · exact fun token hmem => hkeyword token (List.mem_of_mem_tail hmem)

/-- Skipping stops behind the only semicolon if no keyword comes before it. -/
theorem resume_append_semicolon {skipped : List Token} {semicolon : Token}
    (hsemicolon : semicolon.kind = .semicolon)
    (honly : ∀ token ∈ skipped, token.kind ≠ .semicolon)
    (hkeyword : ∀ token ∈ skipped.tail, startsStatement token.kind = false) (tail : List Token) :
    resume (skipped ++ semicolon :: tail) = tail := by
  rw [resume_append_of_plain honly hkeyword (by simp [hsemicolon, startsStatement]), resume,
    if_pos hsemicolon]

/-- So it does from everywhere in a list that ends with its only semicolon. -/
theorem resume_suffix_append {skipped tokens : List Token} {semicolon : Token}
    (hsemicolon : semicolon.kind = .semicolon)
    (honly : ∀ token ∈ skipped, token.kind ≠ .semicolon)
    (hkeyword : ∀ token ∈ skipped.tail, startsStatement token.kind = false)
    (hsuffix : tokens <:+ skipped ++ [semicolon]) (htokens : tokens ≠ []) (tail : List Token) :
    resume (tokens ++ tail) = tail := by
  obtain ⟨rest, rfl, front, rfl⟩ := (List.suffix_concat_iff.mp hsuffix).resolve_left htokens
  rw [List.append_assoc]
  apply resume_append_semicolon hsemicolon
  · exact fun token hmem => honly token (List.mem_append_right front hmem)
  · intro token hmem
    cases front with
    | nil => exact hkeyword token hmem
    | cons first front =>
      exact hkeyword token (List.mem_append_right front (List.mem_of_mem_tail hmem))

end Cursor

namespace Reading

/-- A list in which nothing is read and no fault is found at the end holds one declaration that
fails before the end. -/
theorem declared_failed_of_statements_eq_nil {c : Cursor} {fuel : Nat}
    (hahead : c.ahead ≠ []) (hskip : ∀ tokens, tokens <:+ c.ahead → Cursor.resume tokens = [])
    {c₁ : Cursor} (hdone : declarations (fuel + 2) .eof c = .done [] c₁)
    (hbefore : ∀ fault ∈ c₁.faults, fault.token.kind ≠ .eof) :
    ∃ fault c₀, declared fuel c = .failed fault c₀ ∧ c₀.ahead ≠ [] ∧ c₀.ahead <:+ c.ahead ∧
      c₁ = (c₀.report fault).synchronize := by
  rcases declarations_cases hdone with ⟨hnil, -⟩ | ⟨stmt, c₂, stmts', -, hstmt, hrest, hstmts⟩
  · exact absurd hnil hahead
  have hforward := ((everyRule_persists (Nat.le_refl fuel) #[] [] True).declared c).1
  unfold Forward Action.Ensures at hforward
  cases hresult : declared fuel c with
  | done stmt' c₀ =>
    rw [declaration_of_done hresult] at hstmt
    cases hstmt
    simp at hstmts
  | exhausted =>
    rw [declaration, Action.bind_apply, Action.attempt, hresult] at hstmt
    cases hstmt
  | failed fault c₀ =>
    rw [declaration_of_failed hresult] at hstmt
    rw [hresult] at hforward
    obtain ⟨hreach, htoken⟩ := hforward
    cases hstmt
    -- whatever the declaration failed at, skipping leaves nothing to read
    have hresume : (c₀.report fault).synchronize.ahead = [] := by
      rw [Cursor.ahead_synchronize, Cursor.ahead_report, hskip c₀.ahead hreach.ahead]
    rw [declarations_of_nil hresume] at hrest
    cases hrest
    refine ⟨fault, c₀, rfl, fun hnil => ?_, hreach.ahead, rfl⟩
    apply hbefore fault (by simp)
    rw [htoken, Cursor.peek_eq, hnil]
    exact c₀.kind_ending

end Reading

namespace Program

variable {left right : List Token} {firstId : Nat}

theorem ofTokens_nil (firstId : Nat) : ofTokens [] firstId = ⟨[], [], firstId⟩ := by
  rw [ofTokens_eq_of_done (Nat.le_refl _) (Reading.declarations_of_nil rfl _)]
  rfl

/-- Behind tokens that are read without a fault, any others are read as they are alone, unless they
start with an `else`. -/
theorem ofTokens_append_of_faults_eq_nil (hleft : ∀ token ∈ left, token.kind ≠ .eof)
    (h : (ofTokens left firstId).faults = []) (helse : Reading.NoElse right) :
    ofTokens (left ++ right) firstId =
      let first := ofTokens left firstId
      let second := ofTokens right first.nextId
      ⟨first.statements ++ second.statements, second.faults, second.nextId⟩ := by
  by_cases hright : right = []
  · dsimp only
    rw [hright, List.append_nil, ofTokens_nil, List.append_nil, ← h]
  obtain ⟨c₁, hahead₁, hfaults₁, hnext₁, hread₁⟩ := exists_read left firstId
  have hnone : c₁.faults = #[] := Array.toList_eq_nil_iff.mp (hfaults₁.trans h)
  obtain ⟨tail, htail⟩ : ∃ tail, tail = right.takeWhile (·.kind ≠ .eof) := ⟨_, rfl⟩
  have hstart := Cursor.ahead_start_of_forall hleft firstId
  have hboth := Cursor.ahead_start_append hleft right firstId
  rw [← htail] at hboth
  have helse' : Reading.NoElse tail := by
    intro token hmem
    rw [htail, List.head?_takeWhile] at hmem
    exact helse token (Option.filter_eq_some_iff.mp hmem).1
  have hprecedes : (Cursor.start left firstId).Precedes (fun line => line) tail
      (Cursor.start (left ++ right) firstId) :=
    ⟨by rw [hboth, hstart, Token.map_renumber_id], rfl, rfl⟩
  obtain ⟨fuel, hfuel⟩ : ∃ fuel, fuel = 33 * (left.length + tail.length) + 13 := ⟨_, rfl⟩
  have hle : 32 * (Cursor.start left firstId).ahead.length + 13 ≤ fuel := by
    rw [hstart]
    omega
  obtain ⟨-, n, c₂, hn, hc₂, hending₂, hjoined⟩ := Reading.declarations_append
    (hread₁ _ (Nat.le_refl _)) hnone hprecedes helse' hle
  have hahead₂ : c₂.ahead = tail := by rw [hc₂.ahead, hahead₁, List.map_nil, List.nil_append]
  -- the second list stands where the first one ends
  have hsecond : (Cursor.start right (ofTokens left firstId).nextId).Amid #[] [] True c₂ := by
    refine ⟨?_, fun _ => ⟨rfl, ?_⟩, hc₂.nextId.trans hnext₁, hc₂.faults⟩
    · rw [hahead₂, htail, List.append_nil, Cursor.ahead_start]
    · rw [hending₂, Cursor.ending_start, Cursor.ending_start,
        Cursor.endingOf_append hleft hright]
  rw [hstart] at hn
  obtain ⟨c₃, hread₃, hfaults₃, hnext₃⟩ :=
    declarations_of_amid (fuel - n) hsecond (by rw [hahead₂]; omega)
  rw [Action.bind_apply, hread₃, Stmt.renumberAll_id] at hjoined
  have hlength : (Cursor.start (left ++ right) firstId).ahead.length =
      left.length + tail.length := by
    rw [hboth, List.length_append]
  rw [ofTokens_eq_of_done (by omega) hjoined, hfaults₃, hnext₃]
  rfl

/-- `print true;` -/
def plainPrint : List Token := [⟨.printKw, "print", 1⟩, ⟨.trueKw, "true", 1⟩, ⟨.semicolon, ";", 1⟩]

/-- `print;` on the next line. -/
def emptyPrint : List Token := [⟨.printKw, "print", 2⟩, ⟨.semicolon, ";", 2⟩]

theorem ofTokens_plainPrint_append :
    (ofTokens plainPrint 0).faults = [] ∧
    ofTokens (plainPrint ++ emptyPrint) 0 =
      ⟨(ofTokens plainPrint 0).statements ++ (ofTokens emptyPrint 1).statements,
        [⟨⟨.semicolon, ";", 2⟩, .expect .expression⟩], 1⟩ := by
  have hread : (ofTokens plainPrint 0).faults = [] := by decide +kernel
  have hnext : (ofTokens plainPrint 0).nextId = 1 := by decide +kernel
  have hfaults : (ofTokens emptyPrint 1).faults =
      [⟨⟨.semicolon, ";", 2⟩, .expect .expression⟩] := by
    decide +kernel
  have hnext' : (ofTokens emptyPrint 1).nextId = 1 := by decide +kernel
  have helse : Reading.NoElse emptyPrint := by simp [Reading.NoElse, emptyPrint]
  have hjoined := ofTokens_append_of_faults_eq_nil (by simp [plainPrint]) hread helse
  dsimp only at hjoined
  rw [hnext, hfaults, hnext'] at hjoined
  exact ⟨hread, hjoined⟩

/-- Where the first declaration fails, the program is what stands behind the skipped tokens, and the
faults come behind those of the declaration. -/
theorem ofTokens_of_declared_failed {tokens : List Token} {fuel : Nat} {fault : GrammarFault}
    {c : Cursor} (hahead : (Cursor.start tokens firstId).ahead ≠ [])
    (hfuel : 32 * (Cursor.start tokens firstId).ahead.length + 11 ≤ fuel)
    (hfailed : Reading.declared fuel (Cursor.start tokens firstId) = .failed fault c)
    (hresume : Cursor.resume c.ahead = right.takeWhile (·.kind ≠ .eof))
    (hending : Cursor.endingOf right = Cursor.endingOf tokens) :
    ofTokens tokens firstId =
      let second := ofTokens right c.nextId
      ⟨second.statements, (c.faults.push fault).toList ++ second.faults, second.nextId⟩ := by
  have hskipped := Reading.declaration_of_failed hfailed
  have hpass := (Reading.statementsEnd (fuel + 1)).declaration _ hahead
  unfold Reading.Ends at hpass
  rw [hskipped] at hpass
  have hfewer := hpass.length_le
  have hsecond : (Cursor.start right c.nextId).Amid (c.faults.push fault) [] True
      (c.report fault).synchronize := by
    refine ⟨?_, fun _ => ⟨rfl, ?_⟩, ?_, ?_⟩
    · rw [Cursor.ahead_synchronize, Cursor.ahead_report, hresume, List.append_nil,
        Cursor.ahead_start]
    · rw [hpass.ending, Cursor.ending_start, Cursor.ending_start, hending]
    · rw [Cursor.nextId_synchronize, Cursor.nextId_report]
      rfl
    · rw [Cursor.faults_synchronize, Cursor.faults_report]
      simp [Cursor.start]
  obtain ⟨c', hread, hfaults, hnext⟩ := declarations_of_amid (fuel + 1) hsecond (by omega)
  have hdone : Reading.declarations (fuel + 2) .eof (Cursor.start tokens firstId) =
      .done (ofTokens right c.nextId).statements c' := by
    rw [Reading.declarations_of_ne_nil hahead, Action.bind_apply, hskipped]
    dsimp only
    rw [Action.bind_apply, hread]
    rfl
  rw [ofTokens_eq_of_done (by omega) hdone, hfaults, hnext]

/-- A rejected statement up to its semicolon, with no fault at its end, is skipped: what stands
behind it is read as it is alone, and its faults come behind those of the statement. -/
theorem ofTokens_append_of_rejected {skipped : List Token} {semicolon : Token}
    (hsemicolon : semicolon.kind = .semicolon)
    (honly : ∀ token ∈ skipped, token.kind ≠ .semicolon ∧ token.kind ≠ .eof)
    (hkeyword : ∀ token ∈ skipped.tail, Cursor.startsStatement token.kind = false)
    (hnothing : (ofTokens (skipped ++ [semicolon]) firstId).statements = [])
    (hbefore : ∀ fault ∈ (ofTokens (skipped ++ [semicolon]) firstId).faults,
      fault.token.kind ≠ .eof) :
    ofTokens (skipped ++ [semicolon] ++ right) firstId =
      let first := ofTokens (skipped ++ [semicolon]) firstId
      let second := ofTokens right first.nextId
      ⟨second.statements, first.faults ++ second.faults, second.nextId⟩ := by
  by_cases hright : right = []
  · dsimp only
    rw [hright, List.append_nil, ofTokens_nil, List.append_nil, ← hnothing]
  obtain ⟨left, hleft⟩ : ∃ left, left = skipped ++ [semicolon] := ⟨_, rfl⟩
  have hnoEnd : ∀ token ∈ left, token.kind ≠ .eof := by
    intro token hmem
    rw [hleft, List.mem_append, List.mem_singleton] at hmem
    rcases hmem with hmem | rfl
    · exact (honly token hmem).2
    · simp [hsemicolon]
  -- skipping from anywhere in the statement comes to its end
  have hskip (tokens tail : List Token) (hsuffix : tokens <:+ left) (htokens : tokens ≠ []) :
      Cursor.resume (tokens ++ tail) = tail :=
    Cursor.resume_suffix_append hsemicolon (fun token hmem => (honly token hmem).1) hkeyword
      (hleft ▸ hsuffix) htokens tail
  have hskipAll (tokens : List Token) (hsuffix : tokens <:+ left) : Cursor.resume tokens = [] := by
    by_cases htokens : tokens = []
    · rw [htokens, Cursor.resume]
    · simpa using hskip tokens [] hsuffix htokens
  rw [← hleft] at hnothing hbefore ⊢
  have halone := Cursor.ahead_start_of_forall hnoEnd firstId
  have hboth := Cursor.ahead_start_append hnoEnd right firstId
  obtain ⟨tail, htail⟩ : ∃ tail, tail = right.takeWhile (·.kind ≠ .eof) := ⟨_, rfl⟩
  rw [← htail] at hboth
  obtain ⟨fuel, hfuel⟩ : ∃ fuel, fuel = 32 * (left.length + tail.length) + 11 := ⟨_, rfl⟩
  obtain ⟨c₁, hahead₁, hfaults₁, hnext₁, hread₁⟩ := exists_read left firstId
  rw [← hfaults₁] at hbefore
  rw [hnothing, halone] at hread₁
  rw [← halone] at hskipAll
  have hmore : (Cursor.start left firstId).ahead ≠ [] := by
    rw [halone, hleft]
    simp
  obtain ⟨fault, c₀, hfailed, hahead₀, hsuffix, rfl⟩ :=
    Reading.declared_failed_of_statements_eq_nil hmore hskipAll (hread₁ (fuel + 2) (by omega))
      (by simpa using hbefore)
  rw [halone] at hsuffix
  -- with more behind it, the declaration fails in the same way
  have hpersists := ((Reading.everyRule_persists (Nat.le_refl fuel) #[] tail False).declared
    (Cursor.start left firstId)).2
  obtain ⟨c₂, hfailed₂, hc₂⟩ := hpersists.of_failed hfailed (fun hnil => absurd hnil hahead₀)
    (Cursor.start (left ++ right) firstId) ⟨by rw [hboth, halone], False.elim, rfl, rfl⟩
  have hresume₂ : Cursor.resume c₂.ahead = tail := by
    rw [hc₂.ahead, hskip c₀.ahead tail hsuffix hahead₀]
  have hahead : (Cursor.start (left ++ right) firstId).ahead ≠ [] := by
    rw [hboth]
    simp [hleft]
  rw [ofTokens_of_declared_failed hahead (by simp [hboth, hfuel]) hfailed₂
    (hresume₂.trans htail) (Cursor.endingOf_append hnoEnd hright).symm]
  rw [Cursor.faults_synchronize, Cursor.faults_report] at hfaults₁
  rw [Cursor.nextId_synchronize, Cursor.nextId_report] at hnext₁
  dsimp only
  rw [← hfaults₁, ← hnext₁, hc₂.nextId, hc₂.faults, Array.empty_append]

/-- `var = true;` without its semicolon. -/
def namelessVariable : List Token :=
  [⟨.varKw, "var", 1⟩, ⟨.equal, "=", 1⟩, ⟨.trueKw, "true", 1⟩]

theorem ofTokens_namelessVariable_append :
    ofTokens (namelessVariable ++ [⟨.semicolon, ";", 1⟩] ++ emptyPrint) 0 =
      ⟨(ofTokens emptyPrint 0).statements,
        [⟨⟨.equal, "=", 1⟩, .expect .variableName⟩, ⟨⟨.semicolon, ";", 2⟩, .expect .expression⟩],
        0⟩ := by
  have hnothing : (ofTokens (namelessVariable ++ [⟨.semicolon, ";", 1⟩]) 0).statements = [] :=
    List.isEmpty_iff.mp (by decide +kernel)
  have hfaults : (ofTokens (namelessVariable ++ [⟨.semicolon, ";", 1⟩]) 0).faults =
      [⟨⟨.equal, "=", 1⟩, .expect .variableName⟩] := by decide +kernel
  have hnext : (ofTokens (namelessVariable ++ [⟨.semicolon, ";", 1⟩]) 0).nextId = 0 := by
    decide +kernel
  have hfaults' : (ofTokens emptyPrint 0).faults =
      [⟨⟨.semicolon, ";", 2⟩, .expect .expression⟩] := by decide +kernel
  have hnext' : (ofTokens emptyPrint 0).nextId = 0 := by decide +kernel
  have hjoined : ofTokens (namelessVariable ++ [⟨.semicolon, ";", 1⟩] ++ emptyPrint) 0 = _ :=
    ofTokens_append_of_rejected rfl (by simp [namelessVariable])
      (by simp [namelessVariable, Cursor.startsStatement]) hnothing (by simp [hfaults])
  dsimp only at hjoined
  rw [hfaults, hnext, hfaults', hnext'] at hjoined
  exact hjoined

end Program
end LoxLang
