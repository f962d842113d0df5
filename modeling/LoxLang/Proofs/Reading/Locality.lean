import LoxLang.Proofs.Actions
import LoxLang.Proofs.Reading.Laws
import LoxLang.Proofs.Reading.Progress

/-!
# What a reading depends on

A reading moves forward over the tokens that are ahead, and where it fails it blames the next token.
As long as it stops before the last token, what stands behind the tokens makes no difference; nor do
the faults that were reported before, nor more fuel (`everyRule_persists`). Unlike an account of
readings without a fault, this includes failures and what is read after them.
-/
namespace LoxLang

namespace Cursor

/-- A later cursor over the same tokens. -/
structure Reaches (c c' : Cursor) : Prop where
  ahead : c'.ahead <:+ c.ahead
  ending : c'.ending = c.ending

theorem Reaches.refl (c : Cursor) : c.Reaches c := ⟨List.suffix_rfl, rfl⟩

theorem Reaches.trans {c c' c'' : Cursor} (h : c.Reaches c') (h' : c'.Reaches c'') :
    c.Reaches c'' :=
  ⟨h'.ahead.trans h.ahead, h'.ending.trans h.ending⟩

theorem Reaches.eq_nil {c c' : Cursor} (h : c.Reaches c') (hnil : c.ahead = []) :
    c'.ahead = [] :=
  List.suffix_nil.mp (hnil ▸ h.ahead)

/-- The same cursor where more tokens stand behind, and other faults were reported before; if it is
closed, nothing stands behind and the end is the same. -/
structure Amid (earlier : Array GrammarFault) (tail : List Token) (closed : Prop) (c c' : Cursor) :
    Prop where
  ahead : c'.ahead = c.ahead ++ tail
  ending : closed → tail = [] ∧ c'.ending = c.ending
  nextId : c'.nextId = c.nextId
  faults : c'.faults = earlier ++ c.faults

variable {earlier : Array GrammarFault} {tail : List Token} {closed : Prop} {c c' : Cursor}

theorem Amid.peek (h : c.Amid earlier tail closed c') (hmore : c.ahead = [] → closed) :
    c'.peek = c.peek := by
  rw [peek_eq, peek_eq, h.ahead]
  cases hahead : c.ahead with
  | nil =>
    obtain ⟨htail, hending⟩ := h.ending (hmore hahead)
    simp [htail, hending]
  | cons token rest => rfl

theorem Amid.isAtEnd (h : c.Amid earlier tail closed c') (hmore : c.ahead = [] → closed) :
    c'.isAtEnd = c.isAtEnd := by
  rw [Cursor.isAtEnd, h.peek hmore]
  rfl

theorem Reaches.advance (c : Cursor) : c.Reaches c.advance :=
  ⟨c.ahead_advance ▸ List.drop_suffix 1 c.ahead, c.ending_advance⟩

theorem Amid.advance (h : c.Amid earlier tail closed c') (hmore : c.advance.ahead = [] → closed) :
    c.advance.Amid earlier tail closed c'.advance := by
  rw [ahead_advance] at hmore
  refine ⟨?_, ?_, ?_, ?_⟩
  · rw [ahead_advance, ahead_advance, h.ahead]
    cases hahead : c.ahead with
    | nil => simp [(h.ending (hmore (by simp [hahead]))).1]
    | cons token rest => rfl
  · simpa using h.ending
  · simpa using h.nextId
  · simpa using h.faults

theorem resume_suffix (tokens : List Token) : resume tokens <:+ tokens := by
  induction tokens with
  | nil => exact List.suffix_rfl
  | cons skipped rest ih =>
    have hrest : rest <:+ skipped :: rest := List.suffix_cons skipped rest
    unfold resume
    split
    · exact hrest
    split
    · exact hrest
    · exact ih.trans hrest

theorem kind_ne_eof_of_mem_resume {tokens : List Token} (h : ∀ token ∈ tokens, token.kind ≠ .eof) :
    ∀ token ∈ resume tokens, token.kind ≠ .eof :=
  fun token hmem => h token ((resume_suffix tokens).subset hmem)

theorem resume_append {tokens : List Token} (h : resume tokens ≠ []) (tail : List Token) :
    resume (tokens ++ tail) = resume tokens ++ tail := by
  induction tokens with
  | nil => exact absurd rfl h
  | cons skipped rest ih =>
    rw [List.cons_append]
    by_cases hskipped : skipped.kind = .semicolon
    · simp [resume, hskipped]
    cases rest with
    | nil => simp [resume, hskipped] at h
    | cons token rest =>
      by_cases hstart : startsStatement token.kind = true
      · simp [resume, hskipped, hstart]
      · rw [resume, if_neg hskipped, if_neg (by simpa using hstart)] at h ⊢
        rw [resume, if_neg hskipped, if_neg (by simpa using hstart)]
        exact ih h

theorem Reaches.synchronize (c : Cursor) : c.Reaches c.synchronize :=
  ⟨c.ahead_synchronize ▸ resume_suffix c.ahead, c.ending_synchronize⟩

theorem Amid.synchronize (h : c.Amid earlier tail closed c')
    (hmore : c.synchronize.ahead = [] → closed) :
    c.synchronize.Amid earlier tail closed c'.synchronize := by
  rw [ahead_synchronize] at hmore
  refine ⟨?_, ?_, ?_, ?_⟩
  · rw [ahead_synchronize, ahead_synchronize, h.ahead]
    by_cases hnil : resume c.ahead = []
    · rw [(h.ending (hmore hnil)).1, List.append_nil, List.append_nil]
    · exact resume_append hnil tail
  · simpa using h.ending
  · simpa using h.nextId
  · simpa using h.faults

end Cursor

namespace Reading

variable {α : Type} {earlier : Array GrammarFault} {tail : List Token} {closed : Prop}

/-- Reading goes forward, and a fault that ends it is found at the next token. -/
def Forward (x : Reading α) (c : Cursor) : Prop :=
  x.Ensures c (fun _ c' => c.Reaches c') fun fault c' => c.Reaches c' ∧ fault.token = c'.peek

/-- What `x` comes to before its last token, `y` comes to amid more; and at the end too, if nothing
stands behind it. -/
def Persists (earlier : Array GrammarFault) (tail : List Token) (closed : Prop) (x y : Reading α)
    (c : Cursor) : Prop :=
  x.Ensures c
    (fun a c₁ => (c₁.ahead = [] → closed) → ∀ c', c.Amid earlier tail closed c' →
      ∃ c₁', y c' = .done a c₁' ∧ c₁.Amid earlier tail closed c₁')
    fun fault c₁ => (c₁.ahead = [] → closed) → ∀ c', c.Amid earlier tail closed c' →
      ∃ c₁', y c' = .failed fault c₁' ∧ c₁.Amid earlier tail closed c₁'

section Laws

theorem forward_view {β : Type} (g : Cursor → β) (c : Cursor) :
    Forward (Action.view g : Reading β) c := Cursor.Reaches.refl c

theorem forward_change {g : Cursor → Cursor} {c : Cursor} (h : c.Reaches (g c)) :
    Forward (Action.change g : Reading Unit) c := h

theorem forward_takeIf (p : Kind → Bool) (c : Cursor) : Forward (takeIf p) c := by
  unfold Forward Action.Ensures
  rcases takeIf_cases p c with ⟨token, rest, hahead, -, htake⟩ | ⟨-, htake⟩
  · rw [htake]
    exact .advance c
  · rw [htake]
    exact .refl c

theorem Forward.bind {β : Type} {x : Reading α} {f : α → Reading β} {c : Cursor} (hx : Forward x c)
    (hf : ∀ a c₁, x c = .done a c₁ → Forward (f a) c₁) : Forward (x >>= f) c := by
  unfold Forward at hx ⊢
  rw [Action.ensures_bind]
  unfold Action.Ensures at hx ⊢
  cases hresult : x c with
  | done a c₁ =>
    rw [hresult] at hx
    exact (hf a c₁ hresult).mono (fun _ _ h => hx.trans h) fun _ _ h => ⟨hx.trans h.1, h.2⟩
  | failed fault c₁ =>
    rw [hresult] at hx
    exact hx
  | exhausted => trivial

theorem Forward.attempt {x : Reading α} {c : Cursor} (hx : Forward x c) : Forward x.attempt c := by
  unfold Forward
  rw [Action.ensures_attempt]
  exact hx.mono (fun _ _ h => h) fun _ _ h => h.1

/-- Every step goes forward. -/
theorem law_forward : Law fun x _ c => Forward x c where
  pure _ c := Cursor.Reaches.refl c
  exhausted _ _ := trivial
  bind := Forward.bind
  attempt := Forward.attempt
  fail _ c hfault := ⟨.refl c, hfault⟩
  peek := forward_view _
  isAtEnd := forward_view _
  nextKind := forward_view _
  advance c := forward_change (.advance c)
  takeIf := forward_takeIf
  note _ _ := forward_change ⟨List.suffix_rfl, rfl⟩
  node _ _ := ⟨List.suffix_rfl, rfl⟩
  resume c := forward_change (.synchronize c)

theorem persists_view {β : Type} {g : Cursor → β} {c : Cursor}
    (h : ∀ c', c.Amid earlier tail closed c' → (c.ahead = [] → closed) → g c' = g c) :
    Persists earlier tail closed (Action.view g : Reading β) (Action.view g) c := by
  intro hmore c' hc'
  exact ⟨c', by rw [Action.view, h c' hc' hmore], hc'⟩

theorem persists_change {g : Cursor → Cursor} {c : Cursor}
    (h : ∀ c', c.Amid earlier tail closed c' → ((g c).ahead = [] → closed) →
      (g c).Amid earlier tail closed (g c')) :
    Persists earlier tail closed (Action.change g : Reading Unit) (Action.change g) c :=
  fun hmore c' hc' => ⟨g c', rfl, h c' hc' hmore⟩

theorem persists_takeIf (p : Kind → Bool) (c : Cursor) :
    Persists earlier tail closed (takeIf p) (takeIf p) c := by
  unfold Persists Action.Ensures
  rcases takeIf_cases p c with ⟨token, rest, hahead, hp, htake⟩ | ⟨hp, htake⟩
  · rw [htake]
    intro hmore c' hc'
    have hahead' : c'.ahead = token :: (rest ++ tail) := by rw [hc'.ahead, hahead, List.cons_append]
    exact ⟨c'.advance, takeIf_of_head hahead' hp, hc'.advance hmore⟩
  · rw [htake]
    intro hmore c' hc'
    refine ⟨c', takeIf_of_forall ?_, hc'⟩
    rw [hc'.ahead]
    cases hahead : c.ahead with
    | nil => simp [(hc'.ending (hmore hahead)).1]
    | cons token rest => simpa [hahead] using hp

/-- What a sequence comes to before its last token, its first part came to before that. -/
theorem Persists.bind {β : Type} {x y : Reading α} {f g : α → Reading β} {c : Cursor}
    (hx : Persists earlier tail closed x y c)
    (hf : ∀ a c₁, x c = .done a c₁ →
      Forward (f a) c₁ ∧ Persists earlier tail closed (f a) (g a) c₁) :
    Persists earlier tail closed (x >>= f) (y >>= g) c := by
  unfold Persists at hx ⊢
  rw [Action.ensures_bind]
  unfold Action.Ensures at hx ⊢
  cases hresult : x c with
  | done a c₁ =>
    rw [hresult] at hx
    obtain ⟨hforward, hnext⟩ := hf a c₁ hresult
    unfold Persists Action.Ensures at hnext
    unfold Forward Action.Ensures at hforward
    dsimp only at hx ⊢
    cases hresult₁ : f a c₁ with
    | done b c₂ =>
      rw [hresult₁] at hnext hforward
      intro hmore c' hc'
      obtain ⟨c₁', hy, hc₁'⟩ := hx (fun hnil => hmore (hforward.eq_nil hnil)) c' hc'
      obtain ⟨c₂', hg, hc₂'⟩ := hnext hmore c₁' hc₁'
      exact ⟨c₂', Action.bind_eq_done_iff.mpr ⟨a, c₁', hy, hg⟩, hc₂'⟩
    | failed fault c₂ =>
      rw [hresult₁] at hnext hforward
      intro hmore c' hc'
      obtain ⟨c₁', hy, hc₁'⟩ := hx (fun hnil => hmore (hforward.1.eq_nil hnil)) c' hc'
      obtain ⟨c₂', hg, hc₂'⟩ := hnext hmore c₁' hc₁'
      exact ⟨c₂', Action.bind_eq_failed_iff.mpr (.inr ⟨a, c₁', hy, hg⟩), hc₂'⟩
    | exhausted => trivial
  | failed fault c₁ =>
    rw [hresult] at hx
    intro hmore c' hc'
    obtain ⟨c₁', hy, hc₁'⟩ := hx hmore c' hc'
    exact ⟨c₁', Action.bind_eq_failed_iff.mpr (.inl hy), hc₁'⟩
  | exhausted => trivial

theorem Persists.attempt {x y : Reading α} {c : Cursor} (hx : Persists earlier tail closed x y c) :
    Persists earlier tail closed x.attempt y.attempt c := by
  unfold Persists
  rw [Action.ensures_attempt]
  apply hx.mono
  · intro a c₁ h hmore c' hc'
    obtain ⟨c₁', hy, hc₁'⟩ := h hmore c' hc'
    exact ⟨c₁', by simp [Action.attempt, hy], hc₁'⟩
  · intro fault c₁ h hmore c' hc'
    obtain ⟨c₁', hy, hc₁'⟩ := h hmore c' hc'
    exact ⟨c₁', by simp [Action.attempt, hy], hc₁'⟩

theorem law_persists (earlier : Array GrammarFault) (tail : List Token) (closed : Prop) :
    Law fun x y c => Forward x c ∧ Persists earlier tail closed x y c where
  pure _ c := ⟨.refl c, fun _ c' hc' => ⟨c', rfl, hc'⟩⟩
  exhausted _ _ := ⟨trivial, trivial⟩
  bind hx hf := ⟨hx.1.bind fun a c₁ hdone => (hf a c₁ hdone).1, hx.2.bind hf⟩
  attempt hx := ⟨hx.1.attempt, hx.2.attempt⟩
  fail _ c hfault := ⟨⟨.refl c, hfault⟩, fun _ c' hc' => ⟨c', rfl, hc'⟩⟩
  peek c := ⟨law_forward.peek c, persists_view fun _ hc' hmore => hc'.peek hmore⟩
  isAtEnd c := ⟨law_forward.isAtEnd c, persists_view fun _ hc' hmore => hc'.isAtEnd hmore⟩
  nextKind c :=
    ⟨law_forward.nextKind c, persists_view fun _ hc' hmore => congrArg _ (hc'.peek hmore)⟩
  advance c := ⟨law_forward.advance c, persists_change fun _ hc' hmore => hc'.advance hmore⟩
  takeIf p c := ⟨law_forward.takeIf p c, persists_takeIf p c⟩
  note fault c := by
    refine ⟨law_forward.note fault c, persists_change fun c' hc' _ => ?_⟩
    exact ⟨hc'.ahead, hc'.ending, hc'.nextId, by simp [hc'.faults]⟩
  node build c := by
    refine ⟨law_forward.node build c, fun _ c' hc' => ?_⟩
    refine ⟨{ c' with nextId := c'.nextId + 1 }, ?_, hc'.ahead, hc'.ending, ?_, hc'.faults⟩
    · rw [← hc'.nextId]
      rfl
    · rw [hc'.nextId]
  resume c := ⟨law_forward.resume c, persists_change fun _ hc' hmore => hc'.synchronize hmore⟩

end Laws

/-- What the rules come to before the last token, they come to amid more and with more fuel. -/
theorem everyRule_persists {fuel fuel' : Nat} (hle : fuel ≤ fuel') (earlier : Array GrammarFault)
    (tail : List Token) (closed : Prop) : EveryRule fun rule => ∀ c,
      Forward (rule fuel) c ∧ Persists earlier tail closed (rule fuel) (rule fuel') c :=
  (law_persists earlier tail closed).everyRule hle

end Reading
end LoxLang
