import ShaderGen.Proofs.EmissionErrors
import ShaderGen.Proofs.Numerals
import ShaderGen.Proofs.Reading

/-!
The grammar of listings, stated without the reader: what the tokens of a line are, which
tokens are an instruction, and what is wrong with the others. The rules of the faults
exclude each other, and their order is the order in which the reader looks. The reader
accepts a text exactly if every line that has to be an instruction is one; its error is
the fault of the first line that is not.
-/

namespace ShaderGen.Listing

open Text

/-! ### Tokens -/

/-- The tokens of a line. A string runs from a quote at the start of a token to the next
quote, and anything else to the next blank. -/
inductive Tokenizes : List Char → List Token → Prop where
  | nil : Tokenizes [] []
  | blank {c : Char} {cs : List Char} {ts : List Token} (hc : isBlank c = true)
    (h : Tokenizes cs ts) : Tokenizes (c :: cs) ts
  | quoted {s cs : List Char} {ts : List Token} (hs : '"' ∉ s) (h : Tokenizes cs ts) :
    Tokenizes ('"' :: (s ++ '"' :: cs)) (.quoted s :: ts)
  | plain {s cs : List Char} {ts : List Token} (hne : s ≠ []) (hs : ∀ c ∈ s, isBlank c = false)
    (hquote : s.head? ≠ some '"') (hcs : Ahead cs) (h : Tokenizes cs ts) :
    Tokenizes (s ++ cs) (.plain s :: ts)

/-- A line in which a string starts after some tokens and does not end. -/
inductive Unterminated : List Char → Prop where
  | string {s : List Char} (hs : '"' ∉ s) : Unterminated ('"' :: s)
  | blank {c : Char} {cs : List Char} (hc : isBlank c = true) (h : Unterminated cs) :
    Unterminated (c :: cs)
  | quoted {s cs : List Char} (hs : '"' ∉ s) (h : Unterminated cs) :
    Unterminated ('"' :: (s ++ '"' :: cs))
  | plain {s cs : List Char} (hne : s ≠ []) (hs : ∀ c ∈ s, isBlank c = false)
    (hquote : s.head? ≠ some '"') (hcs : Ahead cs) (h : Unterminated cs) : Unterminated (s ++ cs)

theorem tokensFrom_of_isBlank {done : List Token} {c : Char} {cs : List Char}
    (hc : isBlank c = true) : tokensFrom done .between (c :: cs) = tokensFrom done .between cs := by
  rw [tokensFrom, if_pos hc]

theorem tokensFrom_inQuotes_eq_none {done : List Token} {text cs : List Char} (h : '"' ∉ cs) :
    tokensFrom done (.inQuotes text) cs = none := by
  induction cs generalizing text with
  | nil => rfl
  | cons c cs ih =>
    rw [List.mem_cons, not_or] at h
    rw [tokensFrom, if_neg (Ne.symm h.1), ih h.2]

theorem Tokenizes.tokensFrom {cs : List Char} {ts : List Token} (h : Tokenizes cs ts)
    (done : List Token) : tokensFrom done .between cs = some (done.reverse ++ ts) := by
  induction h generalizing done with
  | nil => simp [Listing.tokensFrom]
  | blank hc _ ih => rw [tokensFrom_of_isBlank hc, ih]
  | quoted hs _ ih =>
    rw [tokensFrom_quoted hs, ih]
    simp
  | plain hne hs hquote hcs _ ih =>
    rw [tokensFrom_plain hne hs hquote hcs, ih]
    simp

theorem Unterminated.tokensFrom {cs : List Char} (h : Unterminated cs) (done : List Token) :
    tokensFrom done .between cs = none := by
  induction h generalizing done with
  | string hs =>
    have hquote : isBlank '"' = false := by decide
    rw [Listing.tokensFrom, hquote, if_neg Bool.false_ne_true, if_pos rfl,
      tokensFrom_inQuotes_eq_none hs]
  | blank hc _ ih => rw [tokensFrom_of_isBlank hc, ih]
  | quoted hs _ ih => rw [tokensFrom_quoted hs, ih]
  | plain hne hs hquote hcs _ ih => rw [tokensFrom_plain hne hs hquote hcs, ih]

/-- The word at the start of a line, and what is behind it. -/
theorem exists_word {c : Char} (hc : isBlank c = false) (cs : List Char) :
    ∃ s rest, c :: cs = c :: s ++ rest ∧ (∀ d ∈ c :: s, isBlank d = false) ∧ Ahead rest := by
  refine ⟨cs.takeWhile (!isBlank ·), cs.dropWhile (!isBlank ·), ?_, ?_, ?_⟩
  · rw [List.cons_append, List.takeWhile_append_dropWhile]
  · refine List.forall_mem_cons.mpr ⟨hc, fun d hd => ?_⟩
    simpa using List.all_eq_true.mp (List.all_takeWhile (l := cs)) d hd
  · intro d hd
    have hfirst := List.head?_dropWhile_not (!isBlank ·) cs
    rw [Option.mem_def.mp hd] at hfirst
    simpa using hfirst

/-- Every line has tokens, or else a string that does not end. -/
theorem tokenizes_or_unterminated (cs : List Char) :
    (∃ ts, Tokenizes cs ts) ∨ Unterminated cs := by
  -- a token takes more than its first character, so the induction is on the length
  induction hlength : cs.length using Nat.strong_induction_on generalizing cs with
  | _ k ih =>
    cases cs with
    | nil => exact .inl ⟨[], .nil⟩
    | cons c cs =>
      rw [List.length_cons] at hlength
      by_cases hblank : isBlank c = true
      · rcases ih cs.length (by omega) cs rfl with ⟨ts, h⟩ | h
        · exact .inl ⟨ts, .blank hblank h⟩
        · exact .inr (.blank hblank h)
      by_cases hquote : c = '"'
      · subst hquote
        by_cases hend : '"' ∈ cs
        · obtain ⟨s, rest, rfl, hs⟩ := List.eq_append_cons_of_mem hend
          rw [List.length_append, List.length_cons] at hlength
          rcases ih rest.length (by omega) rest rfl with ⟨ts, h⟩ | h
          · exact .inl ⟨_, .quoted hs h⟩
          · exact .inr (.quoted hs h)
        · exact .inr (.string hend)
      · obtain ⟨s, rest, hcs, hs, hrest⟩ := exists_word (by simpa using hblank) cs
        have hshorter : rest.length < k := by
          have := congrArg List.length hcs
          rw [List.length_append, List.length_cons, List.length_cons] at this
          omega
        rw [hcs]
        rcases ih rest.length hshorter rest rfl with ⟨ts, h⟩ | h
        · exact .inl ⟨_, .plain (List.cons_ne_nil _ _) hs (by simpa using hquote) hrest h⟩
        · exact .inr (.plain (List.cons_ne_nil _ _) hs (by simpa using hquote) hrest h)

theorem tokens?_eq_some {cs : List Char} {ts : List Token} :
    tokens? cs = some ts ↔ Tokenizes cs ts := by
  refine ⟨fun h => ?_, fun h => h.tokensFrom []⟩
  rcases tokenizes_or_unterminated cs with ⟨ts', h'⟩ | h'
  · cases h.symm.trans (h'.tokensFrom [])
    exact h'
  · cases h.symm.trans (h'.tokensFrom [])

theorem tokens?_eq_none {cs : List Char} : tokens? cs = none ↔ Unterminated cs := by
  refine ⟨fun h => ?_, fun h => h.tokensFrom []⟩
  rcases tokenizes_or_unterminated cs with ⟨ts, h'⟩ | h'
  · cases h.symm.trans (h'.tokensFrom [])
  · exact h'

/-! ### Instructions -/

/-- What a token is as an operand. -/
inductive Token.IsWord : Token → Word → Prop where
  | quoted (s : List Char) : IsWord (.quoted s) (.quoted (String.ofList s))
  | id {s : List Char} {n : Nat} (h : Denotes UInt32.size s n) : IsWord (.plain ('%' :: s)) (.id n)
  | plain {s : List Char} (h : s.head? ≠ some '%') : IsWord (.plain s) (.plain (String.ofList s))

/-- An opcode is a token that starts with `Op`. -/
inductive Token.IsOpcode : Token → String → Prop where
  | plain (s : List Char) : IsOpcode (.plain ('O' :: 'p' :: s)) (String.ofList ('O' :: 'p' :: s))

/-- The result in front of an instruction, if there is one, and the tokens behind it. -/
inductive Result : List Token → Option Nat → List Token → Prop where
  | none {ts : List Token} (h : ∀ s rest, ts ≠ .plain ('%' :: s) :: rest) : Result ts none ts
  | some {s : List Char} {n : Nat} {ts : List Token} (h : Denotes UInt32.size s n) :
    Result (.plain ('%' :: s) :: .plain ['='] :: ts) (some n) ts

/-- Tokens of the form `[%id =] Opname operand*`, with a result only in front of an opcode
that has one. -/
inductive Instruction (ts : List Token) : Line → Prop where
  | mk {operands : List Token} {t : Token} {result : Option Nat} {opcode : String}
    {words : List Word} (hresult : Result ts result (t :: operands)) (hopcode : t.IsOpcode opcode)
    (hbinds : result.isSome = true → opcode ∉ resultless)
    (hwords : List.Forall₂ Token.IsWord operands words) :
    Instruction ts { result, opcode, operands := words }

/-- What is wrong with the result of the `k`-th line. -/
inductive BadResult (k : Nat) : List Token → Error → Prop where
  | noEquals {s : List Char} {ts : List Token} (h : ts.head? ≠ some (.plain ['='])) :
    BadResult k (.plain ('%' :: s) :: ts) (.missingOpcode k)
  | badId {s : List Char} {ts : List Token} (h : ∀ n, ¬ Denotes UInt32.size s n) :
    BadResult k (.plain ('%' :: s) :: .plain ['='] :: ts) (.badId k (String.ofList ('%' :: s)))

/-- What is wrong with the operands of the `k`-th line: the first one that is no word. -/
inductive BadOperand (k : Nat) : List Token → Error → Prop where
  | badId {before after : List Token} {s : List Char} (hbefore : ∀ t ∈ before, ∃ w, t.IsWord w)
    (h : ∀ n, ¬ Denotes UInt32.size s n) :
    BadOperand k (before ++ .plain ('%' :: s) :: after) (.badId k (String.ofList ('%' :: s)))

/-- What is wrong with the tokens of the `k`-th line. -/
inductive Misformed (k : Nat) (ts : List Token) : Error → Prop where
  | result {e : Error} (h : BadResult k ts e) : Misformed k ts e
  | opcode {rest : List Token} {result : Option Nat} (hresult : Result ts result rest)
    (h : ∀ t ∈ rest.head?, ∀ opcode, ¬ t.IsOpcode opcode) : Misformed k ts (.missingOpcode k)
  | unexpected {rest : List Token} {n : Nat} {t : Token} {opcode : String}
    (hresult : Result ts (some n) (t :: rest)) (hopcode : t.IsOpcode opcode)
    (h : opcode ∈ resultless) : Misformed k ts (.unexpectedResult k opcode)
  | operands {rest : List Token} {t : Token} {result : Option Nat} {opcode : String} {e : Error}
    (hresult : Result ts result (t :: rest)) (hopcode : t.IsOpcode opcode)
    (hbinds : result.isSome = true → opcode ∉ resultless) (h : BadOperand k rest e) :
    Misformed k ts e

/-- What is wrong with the `k`-th line. -/
inductive Faults (k : Nat) (cs : List Char) : Error → Prop where
  | unterminated (h : Unterminated cs) : Faults k cs (.unterminatedString k)
  | misformed {ts : List Token} {e : Error} (hts : Tokenizes cs ts) (h : Misformed k ts e) :
    Faults k cs e

/-! ### The parts of a line -/

variable {k n : Nat} {e : Error}

theorem readId_eq_ok {s : List Char} :
    readId k ('%' :: s) = .ok n ↔ Denotes UInt32.size s n := by
  rw [← unsigned?_eq_some_iff, readId, idNumber?]
  cases unsigned? UInt32.size s <;> simp

theorem readId_eq_error {s : List Char} : readId k ('%' :: s) = .error e ↔
    (∀ n, ¬ Denotes UInt32.size s n) ∧ e = .badId k (String.ofList ('%' :: s)) := by
  rw [← unsigned?_eq_none_iff, readId, idNumber?]
  cases unsigned? UInt32.size s <;> simp [eq_comm]

theorem isId_eq_false {s : List Char} (h : s.head? ≠ some '%') : isId s = false := by
  unfold isId
  split
  · exact absurd rfl h
  · rfl

/-- A word is an id if it starts with a percent sign. -/
theorem id_or_plain (s : List Char) : (∃ cs, s = '%' :: cs) ∨ s.head? ≠ some '%' := by
  by_cases h : s.head? = some '%'
  · exact .inl (List.head?_eq_some_iff.mp h)
  · exact .inr h

theorem readWord_id (s : List Char) :
    readWord k (.plain ('%' :: s)) = Word.id <$> readId k ('%' :: s) := rfl

theorem readWord_plain {s : List Char} (h : s.head? ≠ some '%') :
    readWord k (.plain s) = .ok (.plain (String.ofList s)) := by
  simp [readWord, isId_eq_false h]

theorem readWord_eq_ok {t : Token} {w : Word} : readWord k t = .ok w ↔ t.IsWord w := by
  constructor
  · intro h
    cases t with
    | quoted s =>
      cases h
      exact .quoted s
    | plain s =>
      rcases id_or_plain s with ⟨cs, rfl⟩ | hs
      · rw [readWord_id] at h
        obtain ⟨n, hn, rfl⟩ := map_eq_ok.mp h
        exact .id (readId_eq_ok.mp hn)
      · cases (readWord_plain hs).symm.trans h
        exact .plain hs
  · intro h
    cases h with
    | quoted => rfl
    | id h => rw [readWord_id, readId_eq_ok.mpr h]; rfl
    | plain h => exact readWord_plain h

theorem readWord_eq_error {t : Token} : readWord k t = .error e ↔
    ∃ s, t = .plain ('%' :: s) ∧ (∀ n, ¬ Denotes UInt32.size s n) ∧
      e = .badId k (String.ofList ('%' :: s)) := by
  constructor
  · intro h
    cases t with
    | quoted s => cases h
    | plain s =>
      rcases id_or_plain s with ⟨cs, rfl⟩ | hs
      · rw [readWord_id, map_eq_error, readId_eq_error] at h
        exact ⟨cs, rfl, h⟩
      · cases (readWord_plain hs).symm.trans h
  · rintro ⟨s, rfl, h⟩
    rw [readWord_id, map_eq_error, readId_eq_error]
    exact h

theorem readWords_eq_ok {ts : List Token} {ws : List Word} :
    ts.mapM (readWord k) = .ok ws ↔ List.Forall₂ Token.IsWord ts ws := by
  simp only [mapM_eq_ok, readWord_eq_ok]

theorem readWords_eq_error {ts : List Token} :
    ts.mapM (readWord k) = .error e ↔ BadOperand k ts e := by
  simp only [mapM_eq_error, readWord_eq_ok, readWord_eq_error]
  constructor
  · rintro ⟨before, _, after, rfl, hbefore, s, rfl, hs, rfl⟩
    exact .badId hbefore hs
  · intro h
    obtain ⟨hbefore, hs⟩ := h
    exact ⟨_, _, _, rfl, hbefore, _, rfl, hs, rfl⟩

theorem readOpcode_eq_ok {ts rest : List Token} {opcode : String} :
    readOpcode k ts = .ok (opcode, rest) ↔ ∃ t, ts = t :: rest ∧ t.IsOpcode opcode := by
  constructor
  · intro h
    unfold readOpcode at h
    split at h
    case h_1 s tokens =>
      cases h
      exact ⟨_, rfl, .plain s⟩
    case h_2 => cases h
  · rintro ⟨_, rfl, ⟨s⟩⟩
    rfl

theorem readOpcode_eq_error {ts : List Token} : readOpcode k ts = .error e ↔
    (∀ t ∈ ts.head?, ∀ opcode, ¬ t.IsOpcode opcode) ∧ e = .missingOpcode k := by
  constructor
  · intro h
    unfold readOpcode at h
    split at h
    case h_1 => cases h
    case h_2 hno =>
      cases h
      refine ⟨fun t ht opcode hopcode => ?_, rfl⟩
      obtain ⟨rest, rfl⟩ := List.head?_eq_some_iff.mp ht
      obtain ⟨s⟩ := hopcode
      exact hno s rest rfl
  · rintro ⟨hno, rfl⟩
    unfold readOpcode
    split
    case h_1 s tokens => exact absurd (.plain s) (hno _ rfl _)
    case h_2 => rfl

/-- The three ways in which a line can start. -/
theorem result_cases (ts : List Token) :
    (∀ s rest, ts ≠ .plain ('%' :: s) :: rest) ∨
      (∃ s rest, ts = .plain ('%' :: s) :: rest ∧ rest.head? ≠ some (.plain ['='])) ∨
      ∃ s rest, ts = .plain ('%' :: s) :: .plain ['='] :: rest := by
  by_cases hid : ∃ s rest, ts = .plain ('%' :: s) :: rest
  · obtain ⟨s, rest, rfl⟩ := hid
    by_cases hequals : rest.head? = some (.plain ['='])
    · obtain ⟨rest, rfl⟩ := List.head?_eq_some_iff.mp hequals
      exact .inr (.inr ⟨s, rest, rfl⟩)
    · exact .inr (.inl ⟨s, rest, rfl, hequals⟩)
  · simp only [not_exists] at hid
    exact .inl hid

theorem readResult_none {ts : List Token} (h : ∀ s rest, ts ≠ .plain ('%' :: s) :: rest) :
    readResult k ts = .ok (none, ts) := by
  unfold readResult
  split
  case h_1 s tokens =>
    rcases id_or_plain s with ⟨cs, rfl⟩ | hs
    · exact absurd rfl (h cs tokens)
    · rw [isId_eq_false hs, if_neg Bool.false_ne_true]
  case h_2 => rfl

theorem readResult_noEquals {s : List Char} {ts : List Token}
    (h : ts.head? ≠ some (.plain ['='])) :
    readResult k (.plain ('%' :: s) :: ts) = .error (.missingOpcode k) := by
  simp only [readResult, isId, if_true]
  split
  · exact absurd rfl h
  · rfl

theorem readResult_some (s : List Char) (ts : List Token) :
    readResult k (.plain ('%' :: s) :: .plain ['='] :: ts) =
      (do return (some (← readId k ('%' :: s)), ts)) := rfl

theorem readResult_eq_ok {ts rest : List Token} {result : Option Nat} :
    readResult k ts = .ok (result, rest) ↔ Result ts result rest := by
  constructor
  · intro h
    rcases result_cases ts with hts | ⟨s, ts, rfl, hts⟩ | ⟨s, ts, rfl⟩
    · cases (readResult_none hts).symm.trans h
      exact .none hts
    · cases (readResult_noEquals hts).symm.trans h
    · rw [readResult_some] at h
      obtain ⟨n, hn, h⟩ := bind_eq_ok.mp h
      cases h
      exact .some (readId_eq_ok.mp hn)
  · intro h
    cases h with
    | none h => exact readResult_none h
    | some h =>
      rw [readResult_some, readId_eq_ok.mpr h]
      rfl

theorem readResult_eq_error {ts : List Token} :
    readResult k ts = .error e ↔ BadResult k ts e := by
  constructor
  · intro h
    rcases result_cases ts with hts | ⟨s, ts, rfl, hts⟩ | ⟨s, ts, rfl⟩
    · cases (readResult_none hts).symm.trans h
    · cases (readResult_noEquals hts).symm.trans h
      exact .noEquals hts
    · rw [readResult_some] at h
      rcases bind_eq_error.mp h with h | ⟨n, -, h⟩
      · obtain ⟨hs, rfl⟩ := readId_eq_error.mp h
        exact .badId hs
      · cases h
  · intro h
    cases h with
    | noEquals h => exact readResult_noEquals h
    | badId h => rw [readResult_some, readId_eq_error.mpr ⟨h, rfl⟩]; rfl

/-! ### One line -/

/-- What is read behind the opcode of a line. -/
def readRest (k : Nat) (result : Option Nat) (opcode : String) (tokens : List Token) :
    Except Error Line :=
  if result.isSome && resultless.contains opcode then .error (.unexpectedResult k opcode)
  else return { result, opcode, operands := ← tokens.mapM (readWord k) }

theorem readLine_of_tokens {cs : List Char} {ts : List Token} (h : tokens? cs = some ts) :
    readLine k cs = readResult k ts >>= fun front => readOpcode k front.2 >>= fun p =>
      readRest k front.1 p.1 p.2 := by
  rw [readLine, h]
  rfl

theorem readRest_eq_ok {result : Option Nat} {opcode : String} {ts : List Token} {l : Line} :
    readRest k result opcode ts = .ok l ↔ (result.isSome = true → opcode ∉ resultless) ∧
      ∃ words, List.Forall₂ Token.IsWord ts words ∧ l = { result, opcode, operands := words } := by
  unfold readRest
  split
  case isTrue hunexpected =>
    have h : result.isSome = true ∧ opcode ∈ resultless := by simpa using hunexpected
    exact ⟨nofun, fun h' => absurd h.2 (h'.1 h.1)⟩
  case isFalse hbinds =>
    have h : result.isSome = true → opcode ∉ resultless := by simpa using hbinds
    simp only [bind_eq_ok, pure_eq_ok, readWords_eq_ok, eq_comm (a := l), and_iff_right h]

theorem readRest_eq_error {result : Option Nat} {opcode : String} {ts : List Token} :
    readRest k result opcode ts = .error e ↔
      result.isSome = true ∧ opcode ∈ resultless ∧ e = .unexpectedResult k opcode ∨
      (result.isSome = true → opcode ∉ resultless) ∧ BadOperand k ts e := by
  unfold readRest
  split
  case isTrue hunexpected =>
    have h : result.isSome = true ∧ opcode ∈ resultless := by simpa using hunexpected
    simp [h.1, h.2, eq_comm]
  case isFalse hbinds =>
    have h : result.isSome = true → opcode ∉ resultless := by simpa using hbinds
    rw [bind_eq_error, readWords_eq_error]
    constructor
    · rintro (hbad | ⟨_, -, ⟨⟩⟩)
      exact .inr ⟨h, hbad⟩
    · rintro (⟨hsome, hmem, -⟩ | ⟨-, hbad⟩)
      · exact absurd hmem (h hsome)
      · exact .inl hbad

theorem readLine_eq_ok {cs : List Char} {l : Line} :
    readLine k cs = .ok l ↔ ∃ ts, Tokenizes cs ts ∧ Instruction ts l := by
  constructor
  · intro h
    cases hts : tokens? cs with
    | none =>
      rw [readLine, hts] at h
      cases h
    | some ts =>
      rw [readLine_of_tokens hts] at h
      obtain ⟨⟨result, behind⟩, hresult, h⟩ := bind_eq_ok.mp h
      obtain ⟨⟨opcode, rest⟩, hopcode, h⟩ := bind_eq_ok.mp h
      obtain ⟨t, rfl, ht⟩ := readOpcode_eq_ok.mp hopcode
      obtain ⟨hbinds, words, hwords, rfl⟩ := readRest_eq_ok.mp h
      exact ⟨ts, tokens?_eq_some.mp hts, .mk (readResult_eq_ok.mp hresult) ht hbinds hwords⟩
  · rintro ⟨ts, hts, ⟨hresult, hopcode, hbinds, hwords⟩⟩
    rw [readLine_of_tokens (tokens?_eq_some.mpr hts)]
    exact bind_eq_ok.mpr ⟨_, readResult_eq_ok.mpr hresult,
      bind_eq_ok.mpr ⟨_, readOpcode_eq_ok.mpr ⟨_, rfl, hopcode⟩,
        readRest_eq_ok.mpr ⟨hbinds, _, hwords, rfl⟩⟩⟩

theorem readLine_eq_error {cs : List Char} : readLine k cs = .error e ↔ Faults k cs e := by
  constructor
  · intro h
    cases hts : tokens? cs with
    | none =>
      rw [readLine, hts] at h
      cases h
      exact .unterminated (tokens?_eq_none.mp hts)
    | some ts =>
      refine .misformed (tokens?_eq_some.mp hts) ?_
      rw [readLine_of_tokens hts] at h
      rcases bind_eq_error.mp h with h | ⟨⟨result, behind⟩, hresult, h⟩
      · exact .result (readResult_eq_error.mp h)
      have hresult := readResult_eq_ok.mp hresult
      rcases bind_eq_error.mp h with h | ⟨⟨opcode, rest⟩, hopcode, h⟩
      · obtain ⟨hno, rfl⟩ := readOpcode_eq_error.mp h
        exact .opcode hresult hno
      obtain ⟨t, rfl, ht⟩ := readOpcode_eq_ok.mp hopcode
      rcases readRest_eq_error.mp h with ⟨hsome, hmem, rfl⟩ | ⟨hbinds, hbad⟩
      · obtain ⟨n, rfl⟩ := Option.isSome_iff_exists.mp hsome
        exact .unexpected hresult ht hmem
      · exact .operands hresult ht hbinds hbad
  · intro h
    cases h with
    | unterminated h => rw [readLine, tokens?_eq_none.mpr h]
    | misformed hts h =>
      rw [readLine_of_tokens (tokens?_eq_some.mpr hts)]
      cases h with
      | result h => exact bind_eq_error.mpr (.inl (readResult_eq_error.mpr h))
      | opcode hresult h =>
        exact bind_eq_error.mpr (.inr ⟨_, readResult_eq_ok.mpr hresult,
          bind_eq_error.mpr (.inl (readOpcode_eq_error.mpr ⟨h, rfl⟩))⟩)
      | unexpected hresult hopcode h =>
        exact bind_eq_error.mpr (.inr ⟨_, readResult_eq_ok.mpr hresult,
          bind_eq_error.mpr (.inr ⟨_, readOpcode_eq_ok.mpr ⟨_, rfl, hopcode⟩,
            readRest_eq_error.mpr (.inl ⟨rfl, h, rfl⟩)⟩)⟩)
      | operands hresult hopcode hbinds h =>
        exact bind_eq_error.mpr (.inr ⟨_, readResult_eq_ok.mpr hresult,
          bind_eq_error.mpr (.inr ⟨_, readOpcode_eq_ok.mpr ⟨_, rfl, hopcode⟩,
            readRest_eq_error.mpr (.inr ⟨hbinds, h⟩)⟩)⟩)

/-! ### All lines -/

/-- The lines of a text: what stands between its line feeds. -/
def textLines (text : String) : List (List Char) := text.toList.splitOn '\n'

/-- A line that has to be an instruction: trimmed, it is neither empty nor a comment. -/
def IsCode (cs : List Char) : Prop := trim cs ≠ [] ∧ (trim cs).head? ≠ some ';'

/-- A line of the form of an instruction. -/
def WellFormed (cs : List Char) : Prop := ∃ ts l, Tokenizes (trim cs) ts ∧ Instruction ts l

/-- What a line adds to the listing. -/
inductive Reads (cs : List Char) : Option Item → Prop where
  | blank (h : trim cs = []) : Reads cs none
  | comment {text : List Char} (h : trim cs = ';' :: text) :
    Reads cs (some (.comment (String.ofList text)))
  | line {ts : List Token} {l : Line} (h : IsCode cs) (hts : Tokenizes (trim cs) ts)
    (hl : Instruction ts l) : Reads cs (some (.line l))

theorem line_cases (cs : List Char) :
    trim cs = [] ∨ (∃ text, trim cs = ';' :: text) ∨ IsCode cs := by
  by_cases hblank : trim cs = []
  · exact .inl hblank
  by_cases hcomment : (trim cs).head? = some ';'
  · exact .inr (.inl (List.head?_eq_some_iff.mp hcomment))
  · exact .inr (.inr ⟨hblank, hcomment⟩)

theorem readItem_blank {cs : List Char} (h : trim cs = []) : readItem k cs = .ok none := by
  rw [readItem, h]

theorem readItem_comment {cs text : List Char} (h : trim cs = ';' :: text) :
    readItem k cs = .ok (some (.comment (String.ofList text))) := by
  simp only [readItem, h]

theorem readItem_code {cs : List Char} (h : IsCode cs) :
    readItem k cs = (some ∘ Item.line) <$> readLine k (trim cs) := by
  unfold readItem
  split
  case h_1 heq => exact absurd heq h.1
  case h_2 text heq => exact absurd (by rw [heq]; rfl) h.2
  case h_3 => rfl

theorem readItem_eq_ok {cs : List Char} {item : Option Item} :
    readItem k cs = .ok item ↔ Reads cs item := by
  constructor
  · intro h
    rcases line_cases cs with hblank | ⟨text, hcomment⟩ | hcode
    · cases (readItem_blank hblank).symm.trans h
      exact .blank hblank
    · cases (readItem_comment hcomment).symm.trans h
      exact .comment hcomment
    · rw [readItem_code hcode] at h
      obtain ⟨l, hl, rfl⟩ := map_eq_ok.mp h
      obtain ⟨ts, hts, hl⟩ := readLine_eq_ok.mp hl
      exact .line hcode hts hl
  · intro h
    cases h with
    | blank h => exact readItem_blank h
    | comment h => exact readItem_comment h
    | line h hts hl =>
      rw [readItem_code h]
      exact map_eq_ok.mpr ⟨_, readLine_eq_ok.mpr ⟨_, hts, hl⟩, rfl⟩

theorem readItem_eq_error {cs : List Char} :
    readItem k cs = .error e ↔ IsCode cs ∧ Faults k (trim cs) e := by
  constructor
  · intro h
    rcases line_cases cs with hblank | ⟨text, hcomment⟩ | hcode
    · cases (readItem_blank hblank).symm.trans h
    · cases (readItem_comment hcomment).symm.trans h
    · rw [readItem_code hcode, map_eq_error] at h
      exact ⟨hcode, readLine_eq_error.mp h⟩
  · rintro ⟨hcode, h⟩
    rw [readItem_code hcode, map_eq_error]
    exact readLine_eq_error.mpr h

/-- A line is read if it is an instruction or need not be one. -/
theorem exists_reads {cs : List Char} : (∃ item, Reads cs item) ↔ (IsCode cs → WellFormed cs) := by
  constructor
  · rintro ⟨item, h⟩ hcode
    cases h with
    | blank h => exact absurd h hcode.1
    | comment h => exact absurd (by rw [h]; rfl) hcode.2
    | line _ hts hl => exact ⟨_, _, hts, hl⟩
  · intro h
    rcases line_cases cs with hblank | ⟨text, hcomment⟩ | hcode
    · exact ⟨_, .blank hblank⟩
    · exact ⟨_, .comment hcomment⟩
    · obtain ⟨ts, l, hts, hl⟩ := h hcode
      exact ⟨_, .line hcode hts hl⟩

theorem readItems_eq_ok {lines : List (List Char)} {items : List Item} :
    readItems k lines = .ok items ↔
      ∃ found, List.Forall₂ Reads lines found ∧ items = found.filterMap id := by
  induction lines generalizing k items with
  | nil => simp [readItems, eq_comm]
  | cons cs lines ih =>
    simp only [readItems, bind_eq_ok, readItem_eq_ok, ih, pure_eq_ok, List.forall₂_cons_left_iff]
    constructor
    · rintro ⟨item, hitem, _, ⟨found, hfound, rfl⟩, rfl⟩
      refine ⟨item :: found, ⟨item, found, hitem, hfound, rfl⟩, ?_⟩
      cases item <;> simp
    · rintro ⟨_, ⟨item, found, hitem, hfound, rfl⟩, rfl⟩
      refine ⟨item, hitem, _, ⟨found, hfound, rfl⟩, ?_⟩
      cases item <;> simp

theorem readItems_eq_error {lines : List (List Char)} :
    readItems k lines = .error e ↔ ∃ before cs after, lines = before ++ cs :: after ∧
      (∀ line ∈ before, IsCode line → WellFormed line) ∧ IsCode cs ∧
      Faults (k + before.length) (trim cs) e := by
  induction lines generalizing k with
  | nil =>
    constructor
    · rintro ⟨⟩
    · rintro ⟨before, cs, after, h, -⟩
      cases before <;> cases h
  | cons cs lines ih =>
    rw [readItems, bind_eq_error, readItem_eq_error]
    constructor
    · rintro (⟨hcode, h⟩ | ⟨item, hitem, h⟩)
      · exact ⟨[], cs, lines, rfl, List.forall_mem_nil _, hcode, h⟩
      · rcases bind_eq_error.mp h with h | ⟨_, -, h⟩
        · obtain ⟨before, line, after, rfl, hbefore, hcode, h⟩ := ih.mp h
          have hread := exists_reads.mp ⟨item, readItem_eq_ok.mp hitem⟩
          refine ⟨cs :: before, line, after, rfl, List.forall_mem_cons.mpr ⟨hread, hbefore⟩,
            hcode, ?_⟩
          rwa [List.length_cons, ← Nat.add_assoc, Nat.add_right_comm]
        · cases h
    · rintro ⟨_ | ⟨line, before⟩, cs, after, h, hbefore, hcode, hfault⟩
      · cases h
        exact .inl ⟨hcode, hfault⟩
      · cases h
        obtain ⟨hread, hbefore⟩ := List.forall_mem_cons.mp hbefore
        obtain ⟨item, hitem⟩ := exists_reads.mpr hread
        rw [List.length_cons, ← Nat.add_assoc, Nat.add_right_comm] at hfault
        exact .inr ⟨item, readItem_eq_ok.mpr hitem,
          bind_eq_error.mpr (.inl (ih.mpr ⟨_, _, _, rfl, hbefore, hcode, hfault⟩))⟩

theorem splitLines_eq {done : List (List Char)} {current cs : List Char} :
    splitLines done current cs =
      done.reverse ++ (cs.splitOn '\n').modifyHead (current.reverse ++ ·) := by
  induction cs generalizing done current with
  | nil => simp [splitLines, List.splitOn]
  | cons c cs ih =>
    rw [splitLines, List.splitOn_cons_eq_if_modifyHead]
    by_cases hc : c = '\n'
    · rw [if_pos hc, if_pos (by simpa using hc), ih]
      cases hcs : cs.splitOn '\n' <;> simp
    · rw [if_neg hc, if_neg (by simpa using hc), ih, List.modifyHead_modifyHead]
      simp [Function.comp_def]

theorem read_eq (text : String) : read text = ofItems <$> readItems 1 (textLines text) := by
  rw [read, splitLines_eq, textLines]
  cases text.toList.splitOn '\n' <;> rfl

/-! ### Texts one after the other -/

/-- The same error, so many lines further down. -/
def Error.shift (d : Nat) : Error → Error
  | missingOpcode line => missingOpcode (line + d)
  | badId line token => badId (line + d) token
  | unterminatedString line => unterminatedString (line + d)
  | unexpectedResult line opcode => unexpectedResult (line + d) opcode

theorem Misformed.shift {ts : List Token} (h : Misformed k ts e) (d : Nat) :
    Misformed (k + d) ts (e.shift d) := by
  cases h with
  | result h =>
    refine .result ?_
    cases h with
    | noEquals h => exact .noEquals h
    | badId h => exact .badId h
  | opcode hresult h => exact .opcode hresult h
  | unexpected hresult hopcode h => exact .unexpected hresult hopcode h
  | operands hresult hopcode hbinds h =>
    obtain ⟨hbefore, h⟩ := h
    exact .operands hresult hopcode hbinds (.badId hbefore h)

theorem Faults.shift {cs : List Char} (h : Faults k cs e) (d : Nat) :
    Faults (k + d) cs (e.shift d) := by
  cases h with
  | unterminated h => exact .unterminated h
  | misformed hts h => exact .misformed hts (h.shift d)

/-- The number of a line only shows in errors. -/
theorem readItems_shift_ok {lines : List (List Char)} {items : List Item}
    (h : readItems k lines = .ok items) (d : Nat) : readItems (k + d) lines = .ok items :=
  readItems_eq_ok.mpr (readItems_eq_ok.mp h)

theorem readItems_shift_error {lines : List (List Char)} (h : readItems k lines = .error e)
    (d : Nat) : readItems (k + d) lines = .error (e.shift d) := by
  obtain ⟨before, cs, after, rfl, hbefore, hcode, hfault⟩ := readItems_eq_error.mp h
  have hshift := hfault.shift d
  rw [Nat.add_right_comm] at hshift
  exact readItems_eq_error.mpr ⟨before, cs, after, rfl, hbefore, hcode, hshift⟩

theorem readItems_append (lines₁ lines₂ : List (List Char)) :
    readItems k (lines₁ ++ lines₂) = readItems k lines₁ >>= fun items₁ =>
      (items₁ ++ ·) <$> readItems (k + lines₁.length) lines₂ := by
  induction lines₁ generalizing k with
  | nil =>
    change readItems k lines₂ = ([] ++ ·) <$> readItems k lines₂
    cases readItems k lines₂ <;> rfl
  | cons cs lines₁ ih =>
    rw [List.cons_append, readItems, readItems, ih, List.length_cons, Nat.add_right_comm k 1,
      Nat.add_assoc]
    cases readItem k cs with
    | error => rfl
    | ok item =>
      cases readItems (k + 1) lines₁ with
      | error => rfl
      | ok items₁ =>
        cases readItems (k + (lines₁.length + 1)) lines₂ with
        | error => rfl
        | ok items₂ => exact congrArg Except.ok (List.append_assoc _ _ _).symm

/-- One listing behind the other. -/
def append (l₁ l₂ : Listing) : Listing where
  header := l₁.header ++ l₂.header
  lines := l₁.lines ++ l₂.lines

theorem ofItems_append (items₁ items₂ : List Item) :
    ofItems (items₁ ++ items₂) = append (ofItems items₁) (ofItems items₂) := by
  simp [ofItems, append]

/-- A text without an unfinished line: it is empty or ends with a line feed. -/
def Terminated (text : String) : Prop := text = "" ∨ ∃ front, text = front ++ "\n"

theorem length_splitOn (cs : List Char) : (cs.splitOn '\n').length = cs.count '\n' + 1 := by
  induction cs with
  | nil => simp [List.splitOn]
  | cons c cs ih =>
    rw [List.splitOn_cons_eq_if_modifyHead, List.count_cons]
    by_cases hc : c = '\n'
    · simp [hc, ih]
    · simp [hc, ih]

/-- The lines of a terminated text are as many as its line feeds, and an empty one. -/
theorem Terminated.textLines {text : String} (h : Terminated text) :
    ∃ lines, lines.length = text.toList.count '\n' ∧ textLines text = lines ++ [[]] ∧
      ∀ rest, Listing.textLines (text ++ rest) = lines ++ Listing.textLines rest := by
  have hempty : List.splitOn '\n' [] = [[]] := rfl
  rcases h with rfl | ⟨front, rfl⟩
  · exact ⟨[], rfl, rfl, fun rest => by simp [Listing.textLines]⟩
  · refine ⟨front.toList.splitOn '\n', ?_, ?_, fun rest => ?_⟩
    · simp [length_splitOn]
    · simp [Listing.textLines, List.splitOn_append_cons_self, hempty]
    · simp [Listing.textLines, List.splitOn_append_cons_self]

theorem readItems_terminated (lines : List (List Char)) :
    readItems k (lines ++ [[]]) = readItems k lines := by
  have hempty : ∀ j, readItems j [[]] = .ok [] := fun _ => rfl
  rw [readItems_append, hempty]
  cases readItems k lines with
  | error => rfl
  | ok items => exact congrArg Except.ok (List.append_nil items)

/-- The text behind a terminated one is read as if it stood alone, but for its line numbers. -/
theorem Terminated.read_append {text rest : String} (h : Terminated text) :
    (∀ l₁ l₂, read text = .ok l₁ → read rest = .ok l₂ →
        read (text ++ rest) = .ok (append l₁ l₂)) ∧
      (∀ e, read text = .error e → read (text ++ rest) = .error e) ∧
      ∀ l₁ e, read text = .ok l₁ → read rest = .error e →
        read (text ++ rest) = .error (e.shift (text.toList.count '\n')) := by
  obtain ⟨lines, hlength, htext, happend⟩ := h.textLines
  have htogether : read (text ++ rest) = ofItems <$> (readItems 1 lines >>= fun items =>
      (items ++ ·) <$> readItems (1 + text.toList.count '\n') (Listing.textLines rest)) := by
    rw [read_eq, happend, readItems_append, hlength]
  rw [htogether, read_eq text, read_eq rest, htext, readItems_terminated]
  refine ⟨?_, ?_, ?_⟩
  · intro l₁ l₂ h₁ h₂
    obtain ⟨items₁, hitems₁, rfl⟩ := map_eq_ok.mp h₁
    obtain ⟨items₂, hitems₂, rfl⟩ := map_eq_ok.mp h₂
    rw [hitems₁, ← ofItems_append]
    exact map_eq_ok.mpr ⟨_, map_eq_ok.mpr ⟨_, readItems_shift_ok hitems₂ _, rfl⟩, rfl⟩
  · intro e h
    rw [map_eq_error.mp h]
    rfl
  · intro l₁ e h₁ h
    obtain ⟨items₁, hitems₁, rfl⟩ := map_eq_ok.mp h₁
    rw [hitems₁]
    exact map_eq_error.mpr (map_eq_error.mpr (readItems_shift_error (map_eq_error.mp h) _))

/-! ### Whole texts -/

theorem read_eq_ok {text : String} {l : Listing} : read text = .ok l ↔
    ∃ found, List.Forall₂ Reads (textLines text) found ∧ l = ofItems (found.filterMap id) := by
  rw [read_eq, map_eq_ok]
  constructor
  · rintro ⟨_, hitems, rfl⟩
    obtain ⟨found, hfound, rfl⟩ := readItems_eq_ok.mp hitems
    exact ⟨found, hfound, rfl⟩
  · rintro ⟨found, hfound, rfl⟩
    exact ⟨_, readItems_eq_ok.mpr ⟨found, hfound, rfl⟩, rfl⟩

theorem read_eq_error {text : String} : read text = .error e ↔
    ∃ before cs after, textLines text = before ++ cs :: after ∧
      (∀ line ∈ before, IsCode line → WellFormed line) ∧ IsCode cs ∧
      Faults (before.length + 1) (trim cs) e := by
  simp only [read_eq, map_eq_error, readItems_eq_error, Nat.add_comm 1]

/-- A text is refused if there is a line that ought to be an instruction and is none. -/
theorem exists_read_eq_error {text : String} : (∃ e, read text = .error e) ↔
    ∃ cs ∈ textLines text, IsCode cs ∧ ¬ WellFormed cs := by
  constructor
  · rintro ⟨e, he⟩
    obtain ⟨before, cs, after, hlines, -, hcode, hfault⟩ := read_eq_error.mp he
    refine ⟨cs, by simp [hlines], hcode, fun ⟨ts, l, hts, hl⟩ => ?_⟩
    cases (readLine_eq_error.mpr hfault).symm.trans (readLine_eq_ok.mpr ⟨ts, hts, hl⟩)
  · rintro ⟨cs, hcs, hcode, hform⟩
    cases hread : read text with
    | error e => exact ⟨e, rfl⟩
    | ok l =>
      obtain ⟨found, hfound, -⟩ := read_eq_ok.mp hread
      obtain ⟨item, -, hitem⟩ := forall₂_exists_of_mem hfound.flip hcs
      exact absurd hcode fun hcode => hform (exists_reads.mp ⟨item, hitem⟩ hcode)

/-- A text is read exactly if every line that is neither blank nor a comment has the form of
an instruction, and the listing is what the lines add to it. The error is the fault of the
first line that does not, with its number. Behind a text that ends with a line feed, another
text is read as it would be alone. -/
theorem read_by_grammar :
    (∀ text, (∃ e, read text = .error e) ↔ ∃ cs ∈ textLines text, IsCode cs ∧ ¬ WellFormed cs) ∧
      (∀ text l, read text = .ok l ↔
        ∃ found, List.Forall₂ Reads (textLines text) found ∧ l = ofItems (found.filterMap id)) ∧
      (∀ text e, read text = .error e ↔
        ∃ before cs after, textLines text = before ++ cs :: after ∧
          (∀ line ∈ before, IsCode line → WellFormed line) ∧ IsCode cs ∧
          Faults (before.length + 1) (trim cs) e) ∧
      ∀ text rest, Terminated text →
        (∀ l₁ l₂, read text = .ok l₁ → read rest = .ok l₂ →
            read (text ++ rest) = .ok (append l₁ l₂)) ∧
          (∀ e, read text = .error e → read (text ++ rest) = .error e) ∧
          ∀ l₁ e, read text = .ok l₁ → read rest = .error e →
            read (text ++ rest) = .error (e.shift (text.toList.count '\n')) :=
  ⟨fun _ => exists_read_eq_error, fun _ _ => read_eq_ok, fun _ _ => read_eq_error,
    fun _ _ h => h.read_append⟩

/-- A comment, a blank line and an instruction; behind them a percent sign without a number
in one text, and a string at the place of the opcode in another. -/
theorem read_by_grammar_appended :
    read ("; a\n\n%1 = OpTypeBool\n" ++ "OpStore %1 %\n") = .error (.badId 4 "%") ∧
      read ("; a\n\n%1 = OpTypeBool\n" ++ ";b\nOpStore %1 %+1\n") = .ok
        { header := [" a", "b"]
          lines := [{ result := some 1, opcode := "OpTypeBool" },
            { opcode := "OpStore", operands := [.id 1, .id 1] }] } ∧
      ∃ cs ∈ textLines "\"OpStore\" %x", IsCode cs ∧ ¬ WellFormed cs := by
  have hterminated : Terminated "; a\n\n%1 = OpTypeBool\n" :=
    .inr ⟨"; a\n\n%1 = OpTypeBool", by decide⟩
  have hfirst : read "; a\n\n%1 = OpTypeBool\n" = .ok
      { header := [" a"], lines := [{ result := some 1, opcode := "OpTypeBool" }] } := by rfl
  have hsecond : read ";b\nOpStore %1 %+1\n" = .ok
      { header := ["b"], lines := [{ opcode := "OpStore", operands := [.id 1, .id 1] }] } := by rfl
  have hfault : read "OpStore %1 %\n" = .error (.badId 1 "%") := by rfl
  exact ⟨(read_by_grammar.2.2.2 _ _ hterminated).2.2 _ _ hfirst hfault,
    (read_by_grammar.2.2.2 _ _ hterminated).1 _ _ hfirst hsecond,
    (read_by_grammar.1 _).mp ⟨.missingOpcode 1, by rfl⟩⟩

end ShaderGen.Listing
