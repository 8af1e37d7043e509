import Mathlib.Data.List.Basic
import ShaderGen.Listing.Reader

/-!
Listings that read back. A listing is canonical if nothing in it runs into the
punctuation of the text: no comment ends in a blank, no word holds one, no string
holds a quote. The reader undoes the printer on canonical listings, from the whole
text down to its lines, the tokens of a line and the digits of an id.
-/

namespace ShaderGen

/-! ### Canonical listings -/

/-- The characters of a word that is no id and no string. -/
structure Text.Bare (cs : List Char) : Prop where
  ne_nil : cs ≠ []
  unbroken : ∀ c ∈ cs, isBlank c = false
  not_id : cs.head? ≠ some '%'
  not_quoted : cs.head? ≠ some '"'

instance (cs : List Char) : Decidable (Text.Bare cs) :=
  -- the characters of the list are tried, not all characters there are
  decidable_of_iff (cs ≠ [] ∧ cs.all (!Text.isBlank ·) = true ∧ cs.head? ≠ some '%' ∧
    cs.head? ≠ some '"') ⟨fun ⟨h₁, h₂, h₃, h₄⟩ => ⟨h₁, by simpa using h₂, h₃, h₄⟩,
      fun h => ⟨h.ne_nil, by simpa using h.unbroken, h.not_id, h.not_quoted⟩⟩

/-- A word that reads back. -/
def Word.Canonical : Word → Prop
  | id n => n < UInt32.size
  | quoted s => '"' ∉ s.toList ∧ '\n' ∉ s.toList
  | plain s => Text.Bare s.toList

/-- An opcode that reads back. -/
structure Listing.IsOpcode (s : String) : Prop where
  start : s.toList.take 2 = ['O', 'p']
  unbroken : ∀ c ∈ s.toList, Text.isBlank c = false

instance (s : String) : Decidable (Listing.IsOpcode s) :=
  decidable_of_iff (s.toList.take 2 = ['O', 'p'] ∧ s.toList.all (!Text.isBlank ·) = true)
    ⟨fun ⟨h₁, h₂⟩ => ⟨h₁, by simpa using h₂⟩, fun h => ⟨h.start, by simpa using h.unbroken⟩⟩

theorem Listing.IsOpcode.exists_cons {s : String} (h : IsOpcode s) :
    ∃ cs, s.toList = 'O' :: 'p' :: cs :=
  ⟨s.toList.drop 2, (List.take_append_drop 2 s.toList).symm.trans (by rw [h.start]; rfl)⟩

instance : (w : Word) → Decidable w.Canonical
  | .id n => inferInstanceAs (Decidable (n < UInt32.size))
  | .quoted s => inferInstanceAs (Decidable ('"' ∉ s.toList ∧ '\n' ∉ s.toList))
  | .plain s => inferInstanceAs (Decidable (Text.Bare s.toList))

/-- A line that reads back. -/
structure Line.Canonical (l : Line) : Prop where
  result : ∀ n ∈ l.result, n < UInt32.size ∧ l.opcode ∉ Listing.resultless
  opcode : Listing.IsOpcode l.opcode
  operands : ∀ w ∈ l.operands, w.Canonical

theorem Line.canonical_of_none {opcode : String} {ws : List Word}
    (hopcode : Listing.IsOpcode opcode) (hws : ∀ w ∈ ws, w.Canonical) :
    Line.Canonical { opcode, operands := ws } :=
  ⟨by rintro _ ⟨⟩, hopcode, hws⟩

/-- A comment that reads back. -/
structure Listing.IsComment (s : String) : Prop where
  unbroken : '\n' ∉ s.toList
  trimmed : ∀ c ∈ s.toList.getLast?, Text.isBlank c = false

instance (s : String) : Decidable (Listing.IsComment s) :=
  decidable_of_iff ('\n' ∉ s.toList ∧ s.toList.getLast?.all (!Text.isBlank ·) = true)
    ⟨fun ⟨h₁, h₂⟩ => ⟨h₁, by simpa [Option.all_eq_true] using h₂⟩,
      fun h => ⟨h.unbroken, by simpa [Option.all_eq_true] using h.trimmed⟩⟩

/-- A listing that reads back. -/
structure Listing.Canonical (l : Listing) : Prop where
  header : ∀ s ∈ l.header, IsComment s
  lines : ∀ line ∈ l.lines, line.Canonical

/-! ### Digits -/

namespace Text

/-- The digits of a number. -/
def digits (n : Nat) : List Char := (toString n).toList

theorem digits_eq (n : Nat) : digits n = Nat.toDigits 10 n := by
  rw [digits, Nat.toString_eq_repr, Nat.toList_repr]

theorem isDigit_of_mem_digits {n : Nat} {c : Char} (h : c ∈ digits n) : c.isDigit = true := by
  rw [digits_eq] at h
  exact Nat.isDigit_of_mem_toDigits (by omega) (by omega) h

theorem digits_ne_nil (n : Nat) : digits n ≠ [] := by
  rw [digits_eq]
  exact List.ne_nil_of_length_pos Nat.length_toDigits_pos

theorem isBlank_of_isDigit {c : Char} (h : c.isDigit = true) : isBlank c = false := by
  simp only [Char.isDigit, Bool.and_eq_true, decide_eq_true_eq, ge_iff_le, UInt32.le_iff_toNat_le]
    at h
  have hlow : 48 ≤ c.toNat := h.1
  have hhigh : c.toNat ≤ 57 := h.2
  simp only [isBlank]
  simp
  omega

theorem ne_of_isDigit {c d : Char} (h : c.isDigit = true) (hd : d.isDigit = false) : c ≠ d := by
  rintro rfl
  rw [h] at hd
  exact Bool.noConfusion hd

/-- Digits are a word. -/
theorem bare_of_isDigit {cs : List Char} (hne : cs ≠ []) (h : ∀ c ∈ cs, c.isDigit = true) :
    Bare cs where
  ne_nil := hne
  unbroken c hc := isBlank_of_isDigit (h c hc)
  not_id hc := ne_of_isDigit (h _ (List.mem_of_mem_head? hc)) (by decide) rfl
  not_quoted hc := ne_of_isDigit (h _ (List.mem_of_mem_head? hc)) (by decide) rfl

theorem bare_digits (n : Nat) : Bare (digits n) :=
  bare_of_isDigit (digits_ne_nil n) fun _ h => isDigit_of_mem_digits h

/-- A word goes on as long as there is no blank. -/
theorem Bare.append {cs cs' : List Char} (h : Bare cs) (h' : ∀ c ∈ cs', isBlank c = false) :
    Bare (cs ++ cs') where
  ne_nil := List.append_ne_nil_of_left_ne_nil h.ne_nil _
  unbroken := List.forall_mem_append.mpr ⟨h.unbroken, h'⟩
  not_id := by rw [List.head?_append_of_ne_nil _ h.ne_nil]; exact h.not_id
  not_quoted := by rw [List.head?_append_of_ne_nil _ h.ne_nil]; exact h.not_quoted

/-- A word with a minus in front of it is a word. -/
theorem Bare.minus {cs : List Char} (h : Bare cs) : Bare ('-' :: cs) :=
  Bare.append (show Bare ['-'] by decide) h.unbroken

theorem digitsValue?_digits (n : Nat) : digitsValue? (digits n) = some n := by
  have hall : (digits n).all Char.isDigit = true :=
    List.all_eq_true.mpr fun _ h => isDigit_of_mem_digits h
  rw [digitsValue?, if_pos hall, digits_eq]
  exact congrArg some (Nat.ofDigitChars_toDigits (by omega) (by omega))

/-- The digits of a number determine it. -/
theorem digits_injective {n k : Nat} (h : digits n = digits k) : n = k := by
  have hvalue := congrArg digitsValue? h
  rwa [digitsValue?_digits, digitsValue?_digits, Option.some.injEq] at hvalue

/-- A number that is small enough is read off its digits. -/
theorem unsigned?_digits {limit n : Nat} (h : n < limit) :
    unsigned? limit (digits n) = some n := by
  have hplus : dropPlus (digits n) = digits n := by
    unfold dropPlus
    split
    · rename_i cs heq
      have hmem : '+' ∈ digits n := by rw [heq]; exact List.mem_cons_self
      exact absurd (isDigit_of_mem_digits hmem) (by decide)
    · rfl
  rw [unsigned?, hplus]
  split
  · exact absurd ‹_› (digits_ne_nil n)
  · rw [digitsValue?_digits]
    simp [h]

/-! ### Lines of a text -/

/-- A text that neither starts nor ends with a blank has none at its ends. -/
theorem trim_eq_self {cs : List Char} (hfirst : ∀ c ∈ cs.head?, isBlank c = false)
    (hlast : ∀ c ∈ cs.getLast?, isBlank c = false) : trim cs = cs := by
  have hkeep : ∀ ds : List Char, (∀ c ∈ ds.head?, isBlank c = false) → ds.dropWhile isBlank = ds := by
    intro ds h
    cases ds with
    | nil => rfl
    | cons d ds => rw [List.dropWhile_cons_of_neg]; simpa using h d rfl
  rw [trim, hkeep cs hfirst, hkeep, List.reverse_reverse]
  simpa using hlast

end Text

namespace Listing

open Text

theorem splitLines_line {done : List (List Char)} {current cs rest : List Char} (h : '\n' ∉ cs) :
    splitLines done current (cs ++ '\n' :: rest) =
      splitLines ((current.reverse ++ cs) :: done) [] rest := by
  induction cs generalizing current with
  | nil => rw [List.nil_append, splitLines, if_pos rfl, List.append_nil]
  | cons c cs ih =>
    rw [List.mem_cons, not_or] at h
    rw [List.cons_append, splitLines, if_neg (Ne.symm h.1), ih h.2]
    simp

/-- A text made of lines is split into them, and an empty piece is left over. -/
theorem splitLines_lines {done : List (List Char)} {lines : List (List Char)}
    (h : ∀ cs ∈ lines, '\n' ∉ cs) :
    splitLines done [] (lines.flatMap (· ++ ['\n'])) = done.reverse ++ lines ++ [[]] := by
  induction lines generalizing done with
  | nil => simp [splitLines]
  | cons cs lines ih =>
    rw [List.flatMap_cons, List.append_assoc, List.singleton_append,
      splitLines_line (h cs (by simp)), ih fun cs hcs => h cs (by simp [hcs])]
    simp

/-! ### Tokens -/

/-- What comes behind a token: nothing, or a blank first. -/
def Ahead (rest : List Char) : Prop := ∀ c ∈ rest.head?, isBlank c = true

theorem tokensFrom_inPlain {done : List Token} {word cs rest : List Char}
    (hcs : ∀ c ∈ cs, isBlank c = false) (hrest : Ahead rest) :
    tokensFrom done (.inPlain word) (cs ++ rest) =
      tokensFrom (.plain (word.reverse ++ cs) :: done) .between rest := by
  induction cs generalizing word with
  | nil =>
    cases rest with
    | nil => simp [tokensFrom]
    | cons c rest =>
      have hc : isBlank c = true := hrest c rfl
      simp [tokensFrom, hc]
  | cons c cs ih =>
    have hc : isBlank c = false := hcs c (by simp)
    rw [List.cons_append, tokensFrom, hc, if_neg Bool.false_ne_true,
      ih fun d hd => hcs d (by simp [hd])]
    simp

theorem tokensFrom_plain {done : List Token} {cs rest : List Char} (hne : cs ≠ [])
    (hcs : ∀ c ∈ cs, isBlank c = false) (hquote : cs.head? ≠ some '"') (hrest : Ahead rest) :
    tokensFrom done .between (cs ++ rest) = tokensFrom (.plain cs :: done) .between rest := by
  cases cs with
  | nil => exact absurd rfl hne
  | cons c cs =>
    have hc : isBlank c = false := hcs c (by simp)
    have hne : c ≠ '"' := fun heq => hquote (by rw [heq]; rfl)
    rw [List.cons_append, tokensFrom, hc, if_neg Bool.false_ne_true, if_neg hne,
      tokensFrom_inPlain (fun d hd => hcs d (by simp [hd])) hrest]
    simp

theorem tokensFrom_inQuotes {done : List Token} {word cs rest : List Char} (h : '"' ∉ cs) :
    tokensFrom done (.inQuotes word) (cs ++ '"' :: rest) =
      tokensFrom (.quoted (word.reverse ++ cs) :: done) .between rest := by
  induction cs generalizing word with
  | nil => simp [tokensFrom]
  | cons c cs ih =>
    rw [List.mem_cons, not_or] at h
    rw [List.cons_append, tokensFrom, if_neg (Ne.symm h.1), ih h.2]
    simp

theorem tokensFrom_quoted {done : List Token} {cs rest : List Char} (h : '"' ∉ cs) :
    tokensFrom done .between ('"' :: (cs ++ '"' :: rest)) =
      tokensFrom (.quoted cs :: done) .between rest := by
  have hquote : isBlank '"' = false := by decide
  rw [tokensFrom, hquote, if_neg Bool.false_ne_true, if_pos rfl, tokensFrom_inQuotes h]
  simp

theorem tokensFrom_blank {done : List Token} {rest : List Char} :
    tokensFrom done .between (' ' :: rest) = tokensFrom done .between rest := by
  have hblank : isBlank ' ' = true := by decide
  rw [tokensFrom, hblank, if_pos rfl]

end Listing

open Text Listing

/-! ### Words -/

/-- The token of a word. -/
def Word.token : Word → Token
  | id n => .plain ('%' :: digits n)
  | quoted s => .quoted s.toList
  | plain s => .plain s.toList

theorem Word.render_id (n : Nat) : (id n).render.toList = '%' :: digits n := by
  simp [render, digits]

theorem unbroken_id (n : Nat) : ∀ c ∈ '%' :: digits n, isBlank c = false := by
  intro c hc
  rcases List.mem_cons.mp hc with rfl | hc
  · decide
  · exact (bare_digits n).unbroken c hc

namespace Word

variable {w : Word}

theorem Canonical.tokensFrom (h : w.Canonical) {done : List Token} {rest : List Char}
    (hrest : Ahead rest) : tokensFrom done .between (w.render.toList ++ rest) =
      Listing.tokensFrom (w.token :: done) .between rest := by
  cases w with
  | id n =>
    rw [render_id]
    exact tokensFrom_plain (List.cons_ne_nil _ _) (unbroken_id n) (by simp) hrest
  | quoted s =>
    have hrender : (quoted s).render.toList ++ rest = '"' :: (s.toList ++ '"' :: rest) := by
      simp [render]
    rw [hrender]
    exact tokensFrom_quoted h.1
  | plain s => exact tokensFrom_plain h.ne_nil h.unbroken h.not_quoted hrest

theorem Canonical.read (h : w.Canonical) (line : Nat) : readWord line w.token = .ok w := by
  cases w with
  | id n =>
    have hid : readId line ('%' :: digits n) = .ok n := by
      simp only [readId, idNumber?, unsigned?_digits h]
    simp only [token, readWord, isId, hid, if_true]
    rfl
  | quoted s => simp [token, readWord]
  | plain s =>
    have hid : isId s.toList = false := by
      unfold isId
      split
      · rename_i cs heq
        exact absurd (by rw [heq]; rfl) h.not_id
      · rfl
    simp [token, readWord, hid]

theorem Canonical.newline (h : w.Canonical) : '\n' ∉ w.render.toList := by
  have hnewline : isBlank '\n' = true := by decide
  cases w with
  | id n =>
    rw [render_id]
    exact fun hmem => Bool.noConfusion (hnewline.symm.trans (unbroken_id n _ hmem))
  | quoted s => simpa [render] using h.2
  | plain s => exact fun hmem => Bool.noConfusion (hnewline.symm.trans (h.unbroken _ hmem))

/-- A word does not end in a blank. -/
theorem Canonical.getLast (h : w.Canonical) :
    ∃ c, w.render.toList.getLast? = some c ∧ isBlank c = false := by
  -- Only a string may hold blanks, and it ends in its quote.
  have hlast : ∀ cs : List Char, cs ≠ [] → (∀ c ∈ cs, isBlank c = false) →
      ∃ c, cs.getLast? = some c ∧ isBlank c = false := by
    intro cs hne hcs
    exact ⟨_, List.getLast?_eq_some_getLast hne, hcs _ (List.getLast_mem hne)⟩
  cases w with
  | id n =>
    rw [render_id]
    exact hlast _ (List.cons_ne_nil _ _) (unbroken_id n)
  | quoted s =>
    refine ⟨'"', ?_, by decide⟩
    rw [show (quoted s).render.toList = ('"' :: s.toList) ++ ['"'] by simp [render],
      List.getLast?_concat]
  | plain s => exact hlast _ h.ne_nil h.unbroken

end Word

/-! ### Lines -/

/-- The text of a fold that appends. -/
theorem toList_foldl {α : Type} {g : String → α → String} {f : α → List Char}
    (h : ∀ out x, (g out x).toList = out.toList ++ f x) (xs : List α) (out : String) :
    (xs.foldl g out).toList = out.toList ++ xs.flatMap f := by
  induction xs generalizing out with
  | nil => simp
  | cons x xs ih => rw [List.foldl_cons, ih, h, List.flatMap_cons, List.append_assoc]

namespace Line

/-- A line without its result. -/
def body (l : Line) : List Char :=
  l.opcode.toList ++ l.operands.flatMap fun w => ' ' :: w.render.toList

theorem render_eq (l : Line) : l.render.toList =
    (l.result.elim [] fun n => '%' :: digits n ++ [' ', '=', ' ']) ++ l.body := by
  have hwords := toList_foldl (f := fun w : Word => ' ' :: w.render.toList)
    (fun out w => by simp : ∀ out w, (out ++ " " ++ w.render).toList = _) l.operands ""
  simp only [render, String.toList_append, hwords, body]
  cases l.result <;> simp [digits]

theorem ahead_words (ws : List Word) : Ahead (ws.flatMap fun w => ' ' :: w.render.toList) := by
  cases ws with
  | nil => rintro c ⟨⟩
  | cons w ws =>
    rintro c hc
    obtain rfl : ' ' = c := by simpa using hc
    decide

theorem tokensFrom_words {ws : List Word} (h : ∀ w ∈ ws, w.Canonical) (done : List Token) :
    tokensFrom done .between (ws.flatMap fun w => ' ' :: w.render.toList) =
      some (done.reverse ++ ws.map Word.token) := by
  induction ws generalizing done with
  | nil => simp [tokensFrom]
  | cons w ws ih =>
    rw [List.flatMap_cons, List.cons_append, tokensFrom_blank,
      (h w (by simp)).tokensFrom (ahead_words ws), ih fun w hw => h w (by simp [hw])]
    simp

/-- The tokens in front of the opcode. -/
def resultTokens (l : Line) : List Token :=
  l.result.elim [] fun n => [.plain ('%' :: digits n), .plain ['=']]

variable {l : Line}

theorem Canonical.body_tokens (h : l.Canonical) (done : List Token) :
    tokensFrom done .between l.body =
      some (done.reverse ++ .plain l.opcode.toList :: l.operands.map Word.token) := by
  obtain ⟨cs, hcs⟩ := h.opcode.exists_cons
  have hne : l.opcode.toList ≠ [] := by simp [hcs]
  have hquote : l.opcode.toList.head? ≠ some '"' := by simp [hcs]
  rw [body, tokensFrom_plain hne h.opcode.unbroken hquote (ahead_words _),
    tokensFrom_words h.operands]
  simp

theorem Canonical.tokens (h : l.Canonical) : tokens? l.render.toList =
    some (l.resultTokens ++ .plain l.opcode.toList :: l.operands.map Word.token) := by
  rw [tokens?, render_eq, resultTokens]
  rcases l.result with _ | n
  · exact h.body_tokens []
  · have hequals : ∀ c ∈ ['='], isBlank c = false := List.forall_mem_singleton.mpr (by decide)
    have hahead : ∀ rest, Ahead (' ' :: rest) := by
      rintro rest c hc
      obtain rfl : ' ' = c := by simpa using hc
      decide
    have hsplit : ('%' :: digits n ++ [' ', '=', ' ']) ++ l.body =
        ('%' :: digits n) ++ ' ' :: (['='] ++ ' ' :: l.body) := by simp
    rw [Option.elim_some, hsplit,
      tokensFrom_plain (List.cons_ne_nil _ _) (unbroken_id n) (by simp) (hahead _),
      tokensFrom_blank, tokensFrom_plain (List.cons_ne_nil _ _) hequals (by simp) (hahead _),
      tokensFrom_blank, h.body_tokens]
    simp

theorem readWords {ws : List Word} (h : ∀ w ∈ ws, w.Canonical) (line : Nat) :
    (ws.map Word.token).mapM (readWord line) = .ok ws := by
  induction ws with
  | nil => rfl
  | cons w ws ih =>
    rw [List.map_cons, List.mapM_cons, (h w (by simp)).read, ih fun w hw => h w (by simp [hw])]
    rfl

theorem Canonical.readResult (h : l.Canonical) (line : Nat) (tokens : List Token) :
    readResult line (l.resultTokens ++ .plain l.opcode.toList :: tokens) =
      .ok (l.result, .plain l.opcode.toList :: tokens) := by
  rw [resultTokens]
  rcases hresult : l.result with _ | n
  · obtain ⟨cs, hcs⟩ := h.opcode.exists_cons
    simp [Listing.readResult, hcs, isId]
  · have hid : readId line ('%' :: digits n) = .ok n := by
      simp only [readId, idNumber?, unsigned?_digits (h.result n hresult).1]
    simp only [Option.elim_some, List.cons_append, List.nil_append, Listing.readResult, isId,
      if_true, hid]
    rfl

theorem Canonical.read (h : l.Canonical) (line : Nat) :
    readLine line l.render.toList = .ok l := by
  obtain ⟨cs, hcs⟩ := h.opcode.exists_cons
  have hopcode : readOpcode line (.plain l.opcode.toList :: l.operands.map Word.token) =
      .ok (l.opcode, l.operands.map Word.token) := by
    rw [hcs, readOpcode, ← hcs, String.ofList_toList]
  have hresult : (l.result.isSome && resultless.contains l.opcode) = false := by
    rcases hsome : l.result with _ | n
    · rfl
    · simpa using (h.result n hsome).2
  simp only [readLine, h.tokens, h.readResult, hopcode, readWords h.operands, bind, Except.bind,
    hresult]
  rfl

theorem Canonical.newline (h : l.Canonical) : '\n' ∉ l.render.toList := by
  have hnewline : isBlank '\n' = true := by decide
  have hopcode : '\n' ∉ l.opcode.toList :=
    fun hmem => Bool.noConfusion (hnewline.symm.trans (h.opcode.unbroken _ hmem))
  have hid : ∀ n, '\n' ∉ '%' :: digits n :=
    fun n hmem => Bool.noConfusion (hnewline.symm.trans (unbroken_id n _ hmem))
  rw [render_eq, body]
  simp only [List.mem_append, List.mem_flatMap, List.mem_cons, not_or, not_exists, not_and]
  refine ⟨?_, hopcode, fun w hw => ⟨by decide, (h.operands w hw).newline⟩⟩
  rcases l.result with _ | n
  · simp
  · simpa using hid n

theorem Canonical.head (h : l.Canonical) :
    ∃ c cs, l.render.toList = c :: cs ∧ isBlank c = false ∧ c ≠ ';' := by
  obtain ⟨cs, hcs⟩ := h.opcode.exists_cons
  rw [render_eq, body, hcs]
  rcases l.result with _ | n
  · exact ⟨'O', _, rfl, by decide, by decide⟩
  · exact ⟨'%', _, rfl, by decide, by decide⟩

theorem Canonical.getLast (h : l.Canonical) :
    ∀ c ∈ l.render.toList.getLast?, isBlank c = false := by
  obtain ⟨cs, hcs⟩ := h.opcode.exists_cons
  have hne : l.opcode.toList ≠ [] := by simp [hcs]
  -- The line ends with its last operand, or else with the opcode.
  suffices hbody : ∃ c, l.body.getLast? = some c ∧ isBlank c = false by
    obtain ⟨c, hlast, hc⟩ := hbody
    rw [render_eq, List.getLast?_append, hlast, Option.some_or]
    rintro d ⟨⟩
    exact hc
  rw [body]
  rcases List.eq_nil_or_concat l.operands with hnil | ⟨ws, w, hconcat⟩
  · rw [hnil, List.flatMap_nil, List.append_nil]
    exact ⟨_, List.getLast?_eq_some_getLast hne, h.opcode.unbroken _ (List.getLast_mem hne)⟩
  · obtain ⟨c, hlast, hc⟩ := (h.operands w (by simp [hconcat])).getLast
    refine ⟨c, ?_, hc⟩
    rw [hconcat, List.concat_eq_append, List.flatMap_append, List.flatMap_singleton,
      List.getLast?_append, List.getLast?_append, List.getLast?_cons, hlast]
    rfl

end Line

/-! ### Whole listings -/

namespace Listing

/-- An item as it is written. -/
def Item.render : Item → List Char
  | .comment text => ';' :: text.toList
  | .line l => l.render.toList

/-- The items of a listing, in the order in which they are written. -/
def items (l : Listing) : List Item := l.header.map .comment ++ l.lines.map .line

theorem render_eq (l : Listing) :
    l.render.toList = (l.items.map Item.render).flatMap (· ++ ['\n']) := by
  have hlines := toList_foldl (f := fun line : Line => line.render.toList ++ ['\n'])
    (fun out line => by simp : ∀ out line, (out ++ line.render ++ "\n").toList = _) l.lines
  have hheader := toList_foldl (f := fun s : String => ';' :: s.toList ++ ['\n'])
    (fun out s => by simp : ∀ out s, (out ++ ";" ++ s ++ "\n").toList = _) l.header ""
  rw [render, hlines, hheader, items]
  simp [List.flatMap_map, Item.render]

theorem ofItems_items (l : Listing) : ofItems l.items = l := by
  simp [ofItems, items, List.filterMap_append, List.filterMap_map]

/-- Items that read back one by one read back together; the piece behind the last
line is blank. -/
theorem readItems_lines {is : List Item} (h : ∀ i ∈ is, ∀ k, readItem k i.render = .ok (some i))
    (line : Nat) : readItems line (is.map Item.render ++ [[]]) = .ok is := by
  induction is generalizing line with
  | nil => rfl
  | cons i is ih =>
    rw [List.map_cons, List.cons_append, readItems, h i (by simp) line,
      ih fun i hi => h i (by simp [hi])]
    rfl

theorem IsComment.readItem {s : String} (h : IsComment s) (k : Nat) :
    readItem k (Item.comment s).render = .ok (some (.comment s)) := by
  have hlast : ∀ c ∈ (';' :: s.toList).getLast?, isBlank c = false := by
    rw [List.getLast?_cons]
    rcases hs : s.toList.getLast? with _ | c
    · rintro c ⟨⟩
      decide
    · rintro d ⟨⟩
      exact h.trimmed c hs
  have hfirst : ∀ c ∈ (';' :: s.toList).head?, isBlank c = false := by
    rintro c ⟨⟩
    decide
  simp only [Listing.readItem, Item.render, trim_eq_self hfirst hlast, String.ofList_toList]

end Listing

theorem Line.Canonical.readItem {l : Line} (h : l.Canonical) (k : Nat) :
    readItem k (Item.line l).render = .ok (some (.line l)) := by
  obtain ⟨c, cs, hcs, hc, hcomment⟩ := h.head
  have htrim : trim l.render.toList = l.render.toList := by
    refine trim_eq_self ?_ h.getLast
    rw [hcs]
    rintro d ⟨⟩
    exact hc
  have hread := h.read k
  rw [hcs] at htrim hread
  simp only [Listing.readItem, Item.render, hcs, htrim]
  split
  · rename_i heq
    cases heq
  · rename_i heq
    cases heq
    exact absurd rfl hcomment
  · rw [hread]
    rfl

/-- Reading undoes printing. -/
theorem Listing.Canonical.read {l : Listing} (h : l.Canonical) : Listing.read l.render = .ok l := by
  have hitems : ∀ i ∈ l.items, '\n' ∉ i.render ∧ ∀ k, readItem k i.render = .ok (some i) := by
    intro i hi
    rcases List.mem_append.mp hi with hi | hi
    · obtain ⟨s, hs, rfl⟩ := List.mem_map.mp hi
      exact ⟨by simpa [Item.render] using (h.header s hs).unbroken, (h.header s hs).readItem⟩
    · obtain ⟨line, hline, rfl⟩ := List.mem_map.mp hi
      exact ⟨(h.lines line hline).newline, (h.lines line hline).readItem⟩
  have hpieces : ∀ cs ∈ l.items.map Item.render, '\n' ∉ cs := by
    intro cs hcs
    obtain ⟨i, hi, rfl⟩ := List.mem_map.mp hcs
    exact (hitems i hi).1
  rw [Listing.read, Listing.render_eq, splitLines_lines hpieces, List.reverse_nil, List.nil_append,
    readItems_lines fun i hi => (hitems i hi).2]
  exact congrArg Except.ok (ofItems_items l)

end ShaderGen
