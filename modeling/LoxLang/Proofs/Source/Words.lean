import LoxLang.Proofs.Source.Rounds

/-!
# Words of a source

Whatever is said of the kind and the text of every token that a stretch can be holds of the tokens
of every source. In particular the word `this` is a keyword and never a name.
-/
namespace LoxLang

/-- `this` is written `this`, and no name is. -/
def Token.TellsThis (token : Token) : Prop :=
  (token.kind = .identifier → token.lexeme ≠ "this") ∧
    (token.kind = .thisKw → token.lexeme = "this")

namespace Stretch

theorem operator?_ne_word {c : Char} {kind : Kind} (h : operator? c = some kind) :
    kind ≠ .identifier ∧ kind ≠ .thisKw ∧ kind ≠ .eof := by
  unfold operator? at h
  split at h <;> simp_all <;> subst h <;> simp

theorem withEqual?_ne_word {c : Char} {kind : Kind} (h : withEqual? c = some kind) :
    kind ≠ .identifier ∧ kind ≠ .thisKw ∧ kind ≠ .eof := by
  unfold withEqual? at h
  split at h <;> simp_all <;> subst h <;> simp

theorem keyword?_eq_this {word : String} (h : keyword? word = some .thisKw) : word = "this" := by
  unfold keyword? at h
  split at h <;> simp_all

/-- A stretch that is a name or `this` is a whole word; so is one that ends the source, if there
were any. -/
theorem kind_starting {c : Char} {cs : List Char} {kind : Kind}
    (h : (starting c cs).content = .token kind)
    (hword : kind = .identifier ∨ kind = .thisKw ∨ kind = .eof) :
    kind = wordKind (starting c cs).text := by
  unfold starting at h ⊢
  split_ifs at h ⊢ with hblank hquote hdigit hstart hcomment
  · simp only [stringStarting] at h
    split at h <;> simp at h
    subst h
    simp at hword
  · simp only [numberKind, Content.token.injEq] at h
    subst h
    simp at hword
  · simp only [Content.token.injEq] at h
    exact h.symm
  · unfold operatorStarting at h
    split at h
    · next hkind =>
      simp only [Content.token.injEq] at h
      subst h
      have := withEqual?_ne_word hkind
      simp_all
    · split at h
      · next hkind =>
        simp only [Content.token.injEq] at h
        subst h
        have := operator?_ne_word hkind
        simp_all
      · simp at h

theorem keyword?_ne_eof (word : String) : keyword? word ≠ some .eof := by
  unfold keyword?
  split <;> simp

theorem content_starting_ne_eof (c : Char) (cs : List Char) :
    (starting c cs).content ≠ .token .eof := by
  intro h
  have hword := kind_starting h (.inr (.inr rfl))
  have hne := keyword?_ne_eof (String.ofList (starting c cs).text)
  unfold wordKind at hword
  cases hkey : keyword? (String.ofList (starting c cs).text) with
  | none => simp [hkey] at hword
  | some found => simp_all

theorem tellsThis_starting {c : Char} {cs : List Char} {kind : Kind}
    (h : (starting c cs).content = .token kind) (line : Nat) :
    Token.TellsThis ⟨kind, String.ofList (starting c cs).text, line⟩ := by
  constructor
  · intro hkind hthis
    have hword := kind_starting h (.inl hkind)
    simp_all [wordKind, keyword?]
  · intro hkind
    have hword := kind_starting h (.inr (.inl hkind))
    simp only at hkind
    rw [hkind] at hword
    unfold wordKind at hword
    apply keyword?_eq_this
    cases hkey : keyword? (String.ofList (starting c cs).text) with
    | none => simp [hkey] at hword
    | some found => simp_all

end Stretch

theorem tellsThis_itemsFrom (cs : List Char) (line : Nat) {token : Token}
    (h : .ok token ∈ itemsFrom line (stretches cs)) : token.TellsThis := by
  induction cs using stretches.induct generalizing line with
  | case1 =>
    simp only [stretches, itemsFrom, List.mem_singleton, Except.ok.injEq] at h
    subst h
    simp [Token.TellsThis]
  | case2 c cs s ih =>
    rw [stretches, itemsFrom] at h
    split at h
    · exact ih _ h
    · next kind hkind =>
      rcases List.mem_cons.mp h with heq | h
      · cases heq
        exact Stretch.tellsThis_starting hkind _
      · exact ih _ h
    · rcases List.mem_cons.mp h with heq | h
      · cases heq
      · exact ih _ h

/-- The tokens of a source tell `this` from names. -/
theorem tellsThis_of_scannedTokens {source : String} {token : Token}
    (h : token ∈ scannedTokens (scan source)) : token.TellsThis := by
  obtain ⟨item, hitem, htoken⟩ := List.mem_filterMap.mp h
  cases item with
  | error fault => simp at htoken
  | ok found =>
    simp only [Option.some.injEq] at htoken
    subst htoken
    rw [scan_eq] at hitem
    exact tellsThis_itemsFrom source.toList 1 hitem

end LoxLang
