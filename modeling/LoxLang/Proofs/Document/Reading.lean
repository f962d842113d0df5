import LoxLang.Document
import LoxLang.Proofs.Numeral.Texts

/-!
# Reading documents back

A reader of JSON texts, and that it reads an indented document as what it is: at any depth, behind
blanks, and up to whatever may follow a value (`Document.read_pretty`). Numbers have to be finite,
since there is no text for the others.

The reader is given fuel; the length of the text is enough.
-/
namespace LoxLang

/-! ## The numbers of a document -/

mutual

def Document.numbers : Document → List Float
  | .number n => [n]
  | .array items => Document.numbersOfItems items
  | .object members => Document.numbersOfMembers members
  | _ => []

def Document.numbersOfItems : List Document → List Float
  | [] => []
  | item :: items => item.numbers ++ Document.numbersOfItems items

def Document.numbersOfMembers : List Member → List Float
  | [] => []
  | ⟨_, value⟩ :: members => value.numbers ++ Document.numbersOfMembers members

end

namespace Document
open Numeral

/-! ## The reader -/

def isBlank (c : Char) : Bool := c = ' ' || c = '\n'

def skipBlanks (text : List Char) : List Char := text.dropWhile isBlank

/-- The characters that the texts of numbers consist of. -/
def isNumberChar (c : Char) : Bool := c.isDigit || ['.', 'e', '+', '-'].contains c

/-- A number with digits alone is a natural. -/
def ofNumberText? (text : List Char) : Option Document :=
  if text.isEmpty then none
  else if text.all Char.isDigit then some (.natural (Nat.ofDigitChars 10 text 0))
  else some (.number (readNumber text))

def hexValue (c : Char) : Nat := if c.isDigit then c.toNat - 48 else c.toNat - 87

/-- The character that stands for one behind a backslash. -/
def unescape : Char → Char
  | 'n' => '\n'
  | 'r' => '\r'
  | 't' => '\t'
  | 'b' => '\x08'
  | 'f' => '\x0c'
  | c => c

/-- The characters of a string up to its closing quote, and what stands behind. -/
def readQuoted : List Char → Option (List Char × List Char)
  | [] => none
  | '"' :: rest => some ([], rest)
  | '\\' :: 'u' :: '0' :: '0' :: high :: low :: rest =>
    (readQuoted rest).map (Prod.map (Char.ofNat (16 * hexValue high + hexValue low) :: ·) id)
  | '\\' :: c :: rest => (readQuoted rest).map (Prod.map (unescape c :: ·) id)
  | c :: rest => (readQuoted rest).map (Prod.map (c :: ·) id)

section Sequences

variable {α : Type} (closing : Char) (readItem : List Char → Option (α × List Char))

/-- Items with a comma in front of each, up to the closing bracket. -/
def readMore : Nat → List Char → Option (List α × List Char)
  | 0, _ => none
  | count + 1, text =>
    match skipBlanks text with
    | [] => none
    | c :: rest =>
      if c = ',' then do
        let (item, rest) ← readItem rest
        let (items, rest) ← readMore count rest
        some (item :: items, rest)
      else if c = closing then some ([], rest)
      else none

/-- Items with commas between them, up to the closing bracket. -/
def readSequence (count : Nat) (text : List Char) : Option (List α × List Char) :=
  match skipBlanks text with
  | [] => none
  | c :: rest =>
    if c = closing then some ([], rest) else readMore closing readItem count (',' :: text)

end Sequences

/-- A key, a colon and a value. -/
def readMember (readValue : List Char → Option (Document × List Char)) (text : List Char) :
    Option (Member × List Char) :=
  match skipBlanks text with
  | '"' :: rest => do
    let (key, rest) ← readQuoted rest
    match skipBlanks rest with
    | ':' :: rest => do
      let (value, rest) ← readValue rest
      some (⟨String.ofList key, value⟩, rest)
    | _ => none
  | _ => none

/-- A document at the beginning of a text, and what stands behind. -/
def read : Nat → List Char → Option (Document × List Char)
  | 0, _ => none
  | fuel + 1, text =>
    match skipBlanks text with
    | '"' :: rest => do
      let (contents, rest) ← readQuoted rest
      some (.string (String.ofList contents), rest)
    | '[' :: rest => do
      let (items, rest) ← readSequence ']' (read fuel) fuel rest
      some (.array items, rest)
    | '\x7b' :: rest => do
      let (members, rest) ← readSequence '\x7d' (readMember (read fuel)) fuel rest
      some (.object members, rest)
    | 'n' :: 'u' :: 'l' :: 'l' :: rest => some (.null, rest)
    | text => do
      let d ← ofNumberText? (text.takeWhile isNumberChar)
      some (d, text.dropWhile isNumberChar)

/-- The document of a text with nothing behind it. -/
def ofText? (text : String) : Option Document :=
  match read text.length text.toList with
  | some (d, []) => some d
  | _ => none

/-! ## Strings -/

theorem hexValue_digitChar {n : Nat} (h : n < 16) : hexValue (Nat.digitChar n) = n := by
  decide +revert

theorem readQuoted_hexPair {c : Char} (h : c.toNat < 32) (rest : List Char) :
    readQuoted ('\\' :: 'u' :: '0' :: '0' :: hexPair c ++ rest) =
      (readQuoted rest).map (Prod.map (c :: ·) id) := by
  have hhigh : hexValue (Nat.digitChar (c.toNat / 16)) = c.toNat / 16 :=
    hexValue_digitChar (by omega)
  have hlow : hexValue (Nat.digitChar (c.toNat % 16)) = c.toNat % 16 :=
    hexValue_digitChar (by omega)
  have hc : Char.ofNat (16 * (c.toNat / 16) + c.toNat % 16) = c := by
    rw [Nat.div_add_mod]
    exact Char.ofNat_toNat c
  simp only [hexPair, List.cons_append, List.nil_append]
  rw [readQuoted, hhigh, hlow, hc]

theorem readQuoted_cons {c : Char} (hquote : c ≠ '"') (hbackslash : c ≠ '\\')
    (rest : List Char) :
    readQuoted (c :: rest) = (readQuoted rest).map (Prod.map (c :: ·) id) := by
  rw [readQuoted.eq_5]
  · exact hquote
  · intro high low rest' heq
    exact absurd heq hbackslash
  · intro d rest' heq
    exact absurd heq hbackslash

theorem readQuoted_escapeChar (c : Char) (rest : List Char) :
    readQuoted (escapeChar c ++ rest) = (readQuoted rest).map (Prod.map (c :: ·) id) := by
  by_cases hnamed : c ∈ ['"', '\\', '\n', '\r', '\t', '\x08', '\x0c']
  · -- each of these has an escape of its own
    fin_cases hnamed <;> rfl
  · simp only [List.mem_cons, List.not_mem_nil, or_false, not_or] at hnamed
    obtain ⟨hquote, hbackslash, hnewline, hreturn, htab, hbackspace, hfeed⟩ := hnamed
    rw [escapeChar, if_neg hquote, if_neg hbackslash, if_neg hnewline, if_neg hreturn, if_neg htab,
      if_neg hbackspace, if_neg hfeed]
    split
    · next hcontrol => exact readQuoted_hexPair hcontrol rest
    · exact readQuoted_cons hquote hbackslash rest

theorem readQuoted_flatMap (contents rest : List Char) :
    readQuoted (contents.flatMap escapeChar ++ '"' :: rest) = some (contents, rest) := by
  induction contents with
  | nil => rfl
  | cons c contents ih =>
    rw [List.flatMap_cons, List.append_assoc, readQuoted_escapeChar, ih]
    rfl

theorem toList_quoted (contents : String) :
    (quoted contents).toList = '"' :: contents.toList.flatMap escapeChar ++ ['"'] := by
  simp [quoted]

theorem readQuoted_quoted (contents : String) (rest : List Char) :
    ∃ text, (quoted contents).toList ++ rest = '"' :: text ∧
      readQuoted text = some (contents.toList, rest) := by
  refine ⟨contents.toList.flatMap escapeChar ++ '"' :: rest, ?_, readQuoted_flatMap _ rest⟩
  rw [toList_quoted]
  simp

/-! ## Blanks, and where numbers end -/

theorem skipBlanks_append {blanks : List Char} (h : ∀ c ∈ blanks, isBlank c) (text : List Char) :
    skipBlanks (blanks ++ text) = skipBlanks text := List.dropWhile_append_of_pos h

theorem skipBlanks_cons {c : Char} (h : isBlank c = false) (text : List Char) :
    skipBlanks (c :: text) = c :: text :=
  List.dropWhile_cons_of_neg (by rw [h]; exact Bool.false_ne_true)

def Ends (rest : List Char) : Prop := ∀ c ∈ rest.head?, isNumberChar c = false

theorem ends_cons {c : Char} (h : isNumberChar c = false) (rest : List Char) :
    Ends (c :: rest) := by
  intro d hd
  rw [← Option.mem_some.mp hd]
  exact h

theorem ends_append {blanks rest : List Char} (h : ∀ c ∈ blanks, isBlank c) (hrest : Ends rest) :
    Ends (blanks ++ rest) := by
  cases blanks with
  | nil => exact hrest
  | cons c blanks =>
    apply ends_cons
    have hblank := h c List.mem_cons_self
    simp only [isBlank, Bool.or_eq_true, decide_eq_true_eq] at hblank
    rcases hblank with heq | heq <;> rw [heq] <;> decide

/-! ## Sequences -/

section Sequences

variable {α : Type} {closing : Char} {readItem : List Char → Option (α × List Char)}
  {itemText : α → List Char} {margin blanks : List Char} {items : List α} {count : Nat}

/-- The items of a sequence on lines of their own, with a comma in front of each. -/
def itemLines (margin : List Char) (itemText : α → List Char) (items : List α) : List Char :=
  items.flatMap fun item => ',' :: (margin ++ itemText item)

theorem readMore_itemLines (hclosing : closing ∈ [']', '\x7d'])
    (hblanks : ∀ c ∈ blanks, isBlank c)
    (hitems : ∀ item ∈ items, ∀ rest, Ends rest →
      readItem (margin ++ itemText item ++ rest) = some (item, rest))
    (hcount : items.length < count) (rest : List Char) :
    readMore closing readItem count
      (itemLines margin itemText items ++ (blanks ++ closing :: rest)) = some (items, rest) := by
  have hclosed : isBlank closing = false ∧ closing ≠ ',' ∧ isNumberChar closing = false := by
    fin_cases hclosing <;> decide
  induction items generalizing count with
  | nil =>
    obtain ⟨count, rfl⟩ : ∃ n, count = n + 1 := ⟨count - 1, by omega⟩
    rw [itemLines, List.flatMap_nil, List.nil_append, readMore, skipBlanks_append hblanks,
      skipBlanks_cons hclosed.1]
    simp only [if_neg hclosed.2.1, if_true]
  | cons item items ih =>
    obtain ⟨count, rfl⟩ : ∃ n, count = n + 1 := ⟨count - 1, by omega⟩
    have hends : Ends (itemLines margin itemText items ++ (blanks ++ closing :: rest)) := by
      cases items with
      | nil =>
        have hlast := ends_append hblanks (ends_cons hclosed.2.2 rest)
        exact hlast
      | cons next items => exact ends_cons (by decide) _
    have hitem := hitems item List.mem_cons_self _ hends
    have hmore := ih (fun next hnext => hitems next (List.mem_cons_of_mem _ hnext))
      (Nat.lt_of_succ_lt_succ hcount)
    have hlines : itemLines margin itemText (item :: items) ++ (blanks ++ closing :: rest) =
        ',' :: (margin ++ itemText item ++
          (itemLines margin itemText items ++ (blanks ++ closing :: rest))) := by
      simp only [itemLines, List.flatMap_cons, List.cons_append, List.append_assoc]
    rw [hlines, readMore, skipBlanks_cons (by decide)]
    simp only [if_true, hitem, Option.bind_eq_bind, Option.bind_some, hmore]

theorem readSequence_nil (hclosing : closing ∈ [']', '\x7d']) (rest : List Char) :
    readSequence closing readItem count (closing :: rest) = some ([], rest) := by
  have hblank : isBlank closing = false := by fin_cases hclosing <;> decide
  rw [readSequence, skipBlanks_cons hblank]
  exact if_pos rfl

/-- The first item has no comma in front of it. -/
theorem readSequence_itemLines (hclosing : closing ∈ [']', '\x7d'])
    (hmargin : ∀ c ∈ margin, isBlank c) (hblanks : ∀ c ∈ blanks, isBlank c) (hne : items ≠ [])
    (hopens : ∀ item ∈ items, ∃ c text, itemText item = c :: text ∧ isBlank c = false ∧ c ≠ closing)
    (hitems : ∀ item ∈ items, ∀ rest, Ends rest →
      readItem (margin ++ itemText item ++ rest) = some (item, rest))
    (hcount : items.length < count) (rest : List Char) :
    readSequence closing readItem count
      ((itemLines margin itemText items).tail ++ (blanks ++ closing :: rest)) =
        some (items, rest) := by
  have hmore := readMore_itemLines hclosing hblanks hitems hcount rest
  obtain ⟨item, others, hcons⟩ := List.exists_cons_of_ne_nil hne
  obtain ⟨c, text, htext, hblank, hc⟩ := hopens item (hcons ▸ List.mem_cons_self)
  have hlines : itemLines margin itemText items =
      ',' :: (margin ++ (c :: (text ++ itemLines margin itemText others))) := by
    simp only [itemLines, hcons, List.flatMap_cons, htext, List.cons_append, List.append_assoc]
  rw [hlines] at hmore ⊢
  rw [readSequence, List.tail_cons, List.append_assoc, skipBlanks_append hmargin, List.cons_append,
    skipBlanks_cons hblank]
  simp only [if_neg hc]
  rw [← hmore]
  simp only [List.cons_append, List.append_assoc]

theorem length_le_itemLines (items : List α) :
    items.length ≤ (itemLines margin itemText items).length := by
  induction items with
  | nil => exact le_rfl
  | cons item items ih =>
    rw [itemLines, List.flatMap_cons, List.length_append, List.length_cons, List.length_cons,
      ← itemLines]
    omega

theorem length_itemText_lt {item : α} (h : item ∈ items) :
    (itemText item).length < (itemLines margin itemText items).length := by
  obtain ⟨front, back, hsplit⟩ := List.append_of_mem h
  rw [hsplit, itemLines, List.flatMap_append, List.flatMap_cons]
  simp only [List.length_append, List.length_cons]
  omega

end Sequences

/-! ## The text of a document -/

/-- A new line, indented to this depth. -/
def marginOf (depth : Nat) : List Char := '\n' :: List.replicate (2 * depth) ' '

theorem isBlank_of_mem_marginOf {depth : Nat} {c : Char} (h : c ∈ marginOf depth) : isBlank c := by
  rcases List.mem_cons.mp h with heq | hspace
  · rw [heq]
    rfl
  · rw [List.eq_of_mem_replicate hspace]
    rfl

theorem length_marginOf (depth : Nat) : (marginOf depth).length = 2 * depth + 1 := by
  rw [marginOf, List.length_cons, List.length_replicate]

theorem intercalate_cons (separator first : List Char) (others : List (List Char)) :
    separator.intercalate (first :: others) = first ++ others.flatMap (separator ++ ·) := by
  induction others generalizing first with
  | nil => rw [List.intercalate_singleton, List.flatMap_nil, List.append_nil]
  | cons second others ih =>
    rw [List.intercalate_cons_cons, ih, List.flatMap_cons, List.append_assoc, List.append_assoc]

theorem indented_nil (opening closing : String) (depth : Nat) :
    indented opening closing depth [] = opening ++ closing := rfl

theorem toList_indented {α : Type} {opening closing : String} {depth : Nat} {items : List α}
    (itemText : α → String) (h : items ≠ []) :
    (indented opening closing depth (items.map itemText)).toList = opening.toList ++
      ((itemLines (marginOf (depth + 1)) (fun item => (itemText item).toList) items).tail ++
        (marginOf depth ++ closing.toList)) := by
  obtain ⟨item, items, rfl⟩ := List.exists_cons_of_ne_nil h
  have hnewline : "\n".toList = ['\n'] := rfl
  have hcomma : ",".toList = [','] := rfl
  rw [indented, if_neg (by simp)]
  simp only [String.toList_append, String.toList_intercalate, String.toList_ofList, List.map_cons,
    intercalate_cons, itemLines, marginOf, List.flatMap_cons, List.flatMap_map, List.append_assoc,
    hnewline, hcomma, List.cons_append, List.nil_append, List.tail_cons]

def memberText (depth : Nat) (m : Member) : String :=
  quoted m.key ++ ": " ++ m.value.pretty depth

theorem prettyItems_eq_map (depth : Nat) (items : List Document) :
    prettyItems depth items = items.map (pretty depth) := by
  induction items with
  | nil => rfl
  | cons item items ih => rw [prettyItems, ih, List.map_cons]

theorem prettyMembers_eq_map (depth : Nat) (members : List Member) :
    prettyMembers depth members = members.map (memberText depth) := by
  induction members with
  | nil => rfl
  | cons m members ih =>
    obtain ⟨key, value⟩ := m
    rw [prettyMembers, ih, List.map_cons, memberText]

/-! ## Items between brackets -/

def opens (c : Char) : Bool := c.isDigit || ['"', '[', '\x7b', 'n', '-'].contains c

theorem opens_of_isDigit {c : Char} (h : c.isDigit ∨ c = '-') : opens c := by
  rcases h with hdigit | hminus
  · rw [opens, hdigit, Bool.true_or]
  · rw [hminus]
    rfl

theorem closed_of_opens {c closing : Char} (h : opens c) (hclosing : closing ∈ [']', '\x7d']) :
    isBlank c = false ∧ c ≠ closing := by
  have hother : ∀ d ∈ [' ', '\n', ']', '\x7d'], c ≠ d := by
    intro d hd heq
    rw [heq] at h
    fin_cases hd <;> exact nomatch h
  constructor
  · rw [isBlank, decide_eq_false (hother _ (by decide)), decide_eq_false (hother _ (by decide))]
    rfl
  · fin_cases hclosing
    · exact hother _ (by decide)
    · exact hother _ (by decide)

section Brackets

variable {α : Type} {opening closing : String} {openingChar closingChar : Char}
  {readItem : List Char → Option (α × List Char)} {itemText : α → String} {items : List α}
  {depth count : Nat}

theorem exists_indented_eq_cons (hopening : opening.toList = [openingChar]) :
    ∃ text, (indented opening closing depth (items.map itemText)).toList = openingChar :: text := by
  by_cases hne : items = []
  · rw [hne, List.map_nil, indented_nil, String.toList_append, hopening]
    exact ⟨_, rfl⟩
  · rw [toList_indented itemText hne, hopening]
    exact ⟨_, rfl⟩

theorem length_itemLines_lt (hopening : opening.toList = [openingChar])
    (hclosing : closing.toList = [closingChar]) :
    (itemLines (marginOf (depth + 1)) (fun item => (itemText item).toList) items).length + 1 <
      (indented opening closing depth (items.map itemText)).toList.length := by
  by_cases hne : items = []
  · rw [hne, List.map_nil, indented_nil, String.toList_append, hopening, hclosing]
    exact Nat.one_lt_two
  · rw [toList_indented itemText hne, hopening, hclosing]
    simp only [List.length_append, List.length_tail, List.length_cons, List.length_nil,
      length_marginOf]
    omega

/-- Items between brackets are read one by one, each with fuel for its text. -/
theorem readSequence_indented (hopening : opening.toList = [openingChar])
    (hclosing : closing.toList = [closingChar]) (hbracket : closingChar ∈ [']', '\x7d'])
    (hopens : ∀ item ∈ items, ∃ c text, (itemText item).toList = c :: text ∧ opens c)
    (hcount : (indented opening closing depth (items.map itemText)).toList.length ≤ count + 1)
    (hitems : ∀ item ∈ items, (itemText item).toList.length ≤ count → ∀ rest, Ends rest →
      readItem (marginOf (depth + 1) ++ (itemText item).toList ++ rest) = some (item, rest))
    (rest : List Char) :
    ∃ text, (indented opening closing depth (items.map itemText)).toList ++ rest =
        openingChar :: text ∧
      readSequence closingChar readItem count text = some (items, rest) := by
  have hlines : (itemLines (marginOf (depth + 1)) (fun item => (itemText item).toList)
      items).length < count :=
    Nat.lt_of_succ_lt_succ ((length_itemLines_lt hopening hclosing).trans_le hcount)
  by_cases hne : items = []
  · refine ⟨closingChar :: rest, ?_, ?_⟩
    · rw [hne, List.map_nil, indented_nil, String.toList_append, hopening, hclosing]
      rfl
    · rw [hne]
      exact readSequence_nil hbracket rest
  · have hfirst : ∀ item ∈ items, ∃ c text, (itemText item).toList = c :: text ∧
        isBlank c = false ∧ c ≠ closingChar := by
      intro item hitem
      obtain ⟨c, text, htext, hc⟩ := hopens item hitem
      exact ⟨c, text, htext, closed_of_opens hc hbracket⟩
    have heach : ∀ item ∈ items, ∀ rest, Ends rest →
        readItem (marginOf (depth + 1) ++ (itemText item).toList ++ rest) = some (item, rest) :=
      fun item hitem => hitems item hitem ((length_itemText_lt hitem).trans hlines).le
    have hmargin (depth : Nat) : ∀ c ∈ marginOf depth, isBlank c :=
      fun c hc => isBlank_of_mem_marginOf hc
    refine ⟨_, ?_, readSequence_itemLines hbracket (hmargin (depth + 1)) (hmargin depth) hne hfirst
      heach ((length_le_itemLines items).trans_lt hlines) rest⟩
    rw [toList_indented itemText hne, hopening, hclosing]
    simp only [List.append_assoc, List.cons_append, List.nil_append]

end Brackets

/-! ## Documents -/

/-- At any depth, the text of this document is read as what it is. -/
structure Reads (d : Document) : Prop where
  opens : ∀ depth, ∃ c text, (d.pretty depth).toList = c :: text ∧ opens c
  read : ∀ {depth fuel : Nat} {blanks rest : List Char}, (∀ c ∈ blanks, isBlank c) → Ends rest →
    (d.pretty depth).toList.length ≤ fuel + 1 →
    Document.read (fuel + 1) (blanks ++ (d.pretty depth).toList ++ rest) = some (d, rest)

variable {blanks : List Char}

/-- No text is empty, so that there is fuel for the first step. -/
theorem Reads.read_of_length_le {d : Document} {depth fuel : Nat} (h : Reads d)
    (hblanks : ∀ c ∈ blanks, isBlank c) {rest : List Char} (hrest : Ends rest)
    (hfuel : (d.pretty depth).toList.length ≤ fuel) :
    Document.read fuel (blanks ++ (d.pretty depth).toList ++ rest) = some (d, rest) := by
  obtain ⟨c, text, htext, -⟩ := h.opens depth
  obtain ⟨fuel, rfl⟩ : ∃ n, fuel = n + 1 := by
    rw [htext, List.length_cons] at hfuel
    exact ⟨fuel - 1, by omega⟩
  exact h.read hblanks hrest hfuel

theorem toList_pretty_null (depth : Nat) : (null.pretty depth).toList = ['n', 'u', 'l', 'l'] := by
  rw [pretty]
  rfl

theorem reads_null : Reads .null where
  opens depth := ⟨'n', _, toList_pretty_null depth, rfl⟩
  read {depth fuel blanks rest} hblanks _ _ := by
    rw [toList_pretty_null, read, List.append_assoc, skipBlanks_append hblanks]
    rfl

theorem reads_string (contents : String) : Reads (.string contents) where
  opens depth := by
    rw [pretty]
    exact ⟨'"', _, toList_quoted contents, rfl⟩
  read {depth fuel blanks rest} hblanks _ _ := by
    obtain ⟨text, htext, hread⟩ := readQuoted_quoted contents rest
    rw [pretty, read, List.append_assoc, skipBlanks_append hblanks, htext, skipBlanks_cons rfl]
    simp only [hread, Option.bind_eq_bind, Option.bind_some, String.ofList_toList]

/-- The text of a number is all that consists of characters of numbers. -/
theorem reads_of_ofNumberText? {d : Document} (text : List Char)
    (htext : ∀ depth, (d.pretty depth).toList = text)
    (hopens : ∃ c cs, text = c :: cs ∧ (c.isDigit ∨ c = '-'))
    (hchars : ∀ c ∈ text, isNumberChar c) (hread : ofNumberText? text = some d) : Reads d where
  opens depth := by
    obtain ⟨c, cs, hcons, hc⟩ := hopens
    exact ⟨c, cs, (htext depth).trans hcons, opens_of_isDigit hc⟩
  read {depth fuel blanks rest} hblanks hrest _ := by
    have htake : (text ++ rest).takeWhile isNumberChar = text ∧
        (text ++ rest).dropWhile isNumberChar = rest := by
      rw [List.takeWhile_append_of_pos hchars, List.dropWhile_append_of_pos hchars]
      cases rest with
      | nil => exact ⟨List.append_nil text, rfl⟩
      | cons c rest =>
        have hc : isNumberChar c = false := hrest c rfl
        simp [hc]
    have hfirst : ∀ c cs, text ++ rest = c :: cs → c.isDigit ∨ c = '-' := by
      intro c cs heq
      obtain ⟨d, ds, hcons, hd⟩ := hopens
      rw [hcons] at heq
      rwa [← (List.cons.inj heq).1]
    have hskip : skipBlanks (blanks ++ text ++ rest) = text ++ rest := by
      obtain ⟨c, cs, hcons, hc⟩ := hopens
      have hblank : isBlank c = false :=
        (closed_of_opens (opens_of_isDigit hc) List.mem_cons_self).1
      rw [List.append_assoc, skipBlanks_append hblanks, hcons, List.cons_append,
        skipBlanks_cons hblank]
    rw [htext, Document.read, hskip]
    split
    case h_5 => simp only [htake, hread, Option.bind_eq_bind, Option.bind_some]
    all_goals
      rename_i heq
      exact absurd (hfirst _ _ heq) (by decide)

theorem reads_natural (n : Nat) : Reads (.natural n) := by
  have hdigit : ∀ c ∈ Nat.toDigits 10 n, c.isDigit := fun c hc =>
    Nat.isDigit_of_mem_toDigits (by decide) le_rfl hc
  refine reads_of_ofNumberText? (Nat.toDigits 10 n) ?_ ?_ ?_ ?_
  · intro depth
    rw [pretty, Nat.toString_eq_ofList_toDigits, String.toList_ofList]
  · obtain ⟨c, cs, hcons⟩ := List.exists_cons_of_ne_nil (@Nat.toDigits_ne_nil n 10)
    exact ⟨c, cs, hcons, .inl (hdigit c (hcons ▸ List.mem_cons_self))⟩
  · intro c hc
    rw [isNumberChar, hdigit c hc, Bool.true_or]
  · rw [ofNumberText?, if_neg (by simp [Nat.toDigits_ne_nil]), if_pos (List.all_eq_true.mpr hdigit),
      Nat.ofDigitChars_toDigits (by decide) le_rfl]

theorem reads_number {n : Float} (h : isFinite n) : Reads (.number n) := by
  obtain ⟨t, htext, -⟩ := exists_numberText h
  obtain ⟨c, cs, hcons, hdigit⟩ := t.text_eq_cons
  refine reads_of_ofNumberText? (jsonText n).toList ?_ ?_ ?_ ?_
  · intro depth
    rw [pretty]
  · rw [htext, hcons]
    split
    · exact ⟨'-', _, rfl, .inr rfl⟩
    · exact ⟨c, cs, rfl, .inl hdigit⟩
  · intro d hd
    rw [htext] at hd
    rcases List.mem_append.mp hd with hsign | hmem
    · split at hsign
      · rw [List.mem_singleton.mp hsign]
        rfl
      · exact nomatch hsign
    · rw [isNumberChar, Bool.or_eq_true, List.contains_iff_mem]
      exact t.isDigit_of_mem_text hmem
  · have hne : (jsonText n).toList ≠ [] := by
      rw [htext, hcons]
      simp
    have hmark : (jsonText n).toList.all Char.isDigit = false := by
      obtain ⟨d, hmem, hnot⟩ := t.exists_isDigit_eq_false
      rw [List.all_eq_false, htext]
      exact ⟨d, List.mem_append_right _ hmem, Bool.not_eq_true _ ▸ hnot⟩
    rw [ofNumberText?, if_neg (by simpa using hne), hmark, if_neg Bool.false_ne_true,
      readNumber_jsonText h]

theorem reads_array {items : List Document} (h : ∀ item ∈ items, Reads item) :
    Reads (.array items) where
  opens depth := by
    have hopening : "[".toList = ['['] := rfl
    obtain ⟨text, htext⟩ := exists_indented_eq_cons hopening
    rw [pretty, prettyItems_eq_map]
    exact ⟨'[', text, htext, rfl⟩
  read {depth fuel blanks rest} hblanks _ hfuel := by
    have hopening : "[".toList = ['['] := rfl
    have hclosing : "]".toList = [']'] := rfl
    rw [pretty, prettyItems_eq_map] at hfuel ⊢
    obtain ⟨text, htext, hread⟩ := readSequence_indented hopening hclosing List.mem_cons_self
      (fun item hitem => (h item hitem).opens (depth + 1)) hfuel
      (fun item hitem hle rest hrest => (h item hitem).read_of_length_le
        (fun c hc => isBlank_of_mem_marginOf hc) hrest hle) rest
    rw [Document.read, List.append_assoc, skipBlanks_append hblanks, htext, skipBlanks_cons rfl]
    simp only [hread, Option.bind_eq_bind, Option.bind_some]

theorem toList_memberText (depth : Nat) (m : Member) : (memberText depth m).toList =
    (quoted m.key).toList ++ (':' :: ' ' :: (m.value.pretty depth).toList) := by
  simp [memberText]

theorem readMember_memberText {m : Member} {depth fuel : Nat} {rest : List Char}
    (h : Reads m.value) (hblanks : ∀ c ∈ blanks, isBlank c) (hrest : Ends rest)
    (hfuel : (memberText depth m).toList.length ≤ fuel) :
    readMember (read fuel) (blanks ++ (memberText depth m).toList ++ rest) = some (m, rest) := by
  obtain ⟨key, value⟩ := m
  obtain ⟨text, htext, hkey⟩ := readQuoted_quoted key
    (':' :: ([' '] ++ (value.pretty depth).toList ++ rest))
  have hspace : ∀ c ∈ [' '], isBlank c := List.forall_mem_singleton.mpr rfl
  have hlength : (value.pretty depth).toList.length ≤ fuel := by
    rw [toList_memberText] at hfuel
    simp only [List.length_append, List.length_cons] at hfuel
    omega
  have hmember : (memberText depth ⟨key, value⟩).toList ++ rest = '"' :: text := by
    rw [← htext, toList_memberText, List.append_assoc]
    rfl
  rw [readMember, List.append_assoc, skipBlanks_append hblanks, hmember, skipBlanks_cons rfl]
  simp only [hkey, Option.bind_eq_bind, Option.bind_some]
  rw [skipBlanks_cons rfl]
  simp only [h.read_of_length_le hspace hrest hlength, Option.bind_some, String.ofList_toList]

theorem reads_object {members : List Member} (h : ∀ m ∈ members, Reads m.value) :
    Reads (.object members) where
  opens depth := by
    have hopening : "\x7b".toList = ['\x7b'] := rfl
    obtain ⟨text, htext⟩ := exists_indented_eq_cons hopening
    rw [pretty, prettyMembers_eq_map]
    exact ⟨'\x7b', text, htext, rfl⟩
  read {depth fuel blanks rest} hblanks _ hfuel := by
    have hopening : "\x7b".toList = ['\x7b'] := rfl
    have hclosing : "\x7d".toList = ['\x7d'] := rfl
    have hkeys (m : Member) :
        ∃ c text, (memberText (depth + 1) m).toList = c :: text ∧ opens c := by
      rw [toList_memberText, toList_quoted]
      exact ⟨'"', _, rfl, rfl⟩
    rw [pretty, prettyMembers_eq_map] at hfuel ⊢
    obtain ⟨text, htext, hread⟩ := readSequence_indented hopening hclosing (by decide)
      (fun m _ => hkeys m) hfuel
      (fun m hm hle rest hrest => readMember_memberText (h m hm)
        (fun c hc => isBlank_of_mem_marginOf hc) hrest hle) rest
    rw [Document.read, List.append_assoc, skipBlanks_append hblanks, htext, skipBlanks_cons rfl]
    simp only [hread, Option.bind_eq_bind, Option.bind_some]

mutual

theorem reads (d : Document) (h : ∀ n ∈ d.numbers, isFinite n) : Reads d := by
  cases d with
  | null => exact reads_null
  | natural n => exact reads_natural n
  | number n => exact reads_number (h n List.mem_cons_self)
  | string contents => exact reads_string contents
  | array items => exact reads_array (reads_items items h)
  | object members => exact reads_object (reads_members members h)

theorem reads_items (items : List Document) (h : ∀ n ∈ numbersOfItems items, isFinite n) :
    ∀ item ∈ items, Reads item := by
  cases items with
  | nil => exact fun item hitem => nomatch hitem
  | cons item items =>
    simp only [numbersOfItems, List.mem_append] at h
    have hitem := reads item fun n hn => h n (.inl hn)
    have hitems := reads_items items fun n hn => h n (.inr hn)
    exact List.forall_mem_cons.mpr ⟨hitem, hitems⟩

theorem reads_members (members : List Member) (h : ∀ n ∈ numbersOfMembers members, isFinite n) :
    ∀ m ∈ members, Reads m.value := by
  cases members with
  | nil => exact fun m hm => nomatch hm
  | cons m members =>
    obtain ⟨key, value⟩ := m
    simp only [numbersOfMembers, List.mem_append] at h
    have hvalue := reads value fun n hn => h n (.inl hn)
    have hmembers := reads_members members fun n hn => h n (.inr hn)
    exact List.forall_mem_cons.mpr ⟨hvalue, hmembers⟩

end

/-- Documents with finite numbers are read back from their texts. -/
theorem ofText?_pretty (d : Document) (h : ∀ n ∈ d.numbers, isFinite n) :
    ofText? (d.pretty 0) = some d := by
  have hread : read (d.pretty 0).toList.length ([] ++ (d.pretty 0).toList ++ []) = some (d, []) :=
    (reads d h).read_of_length_le (List.forall_mem_nil _) (fun c hc => nomatch hc) le_rfl
  rw [List.nil_append, List.append_nil] at hread
  rw [ofText?, ← String.length_toList, hread]

end Document
end LoxLang
