import ShaderGen.Proofs.Queries
import ShaderGen.Proofs.Reading

/-!
What the reader accepts is canonical. The pieces of a text hold no line feed, the
tokens of a piece hold no blank or else no quote, and each part of a line is made of
tokens that were tested on the way. Printing a listing that was read and reading it
again therefore gives the same listing, whatever the text looked like.
-/

namespace ShaderGen

open Text

/-! ### Numbers and blanks -/

namespace Text

theorem lt_of_unsigned? {limit n : Nat} {cs : List Char} (h : unsigned? limit cs = some n) :
    n < limit := by
  unfold unsigned? at h
  split at h
  · cases h
  · have hfilter := Option.filter_eq_some_iff.mp h
    exact of_decide_eq_true hfilter.2

theorem mem_of_mem_trim {cs : List Char} {c : Char} (h : c ∈ trim cs) : c ∈ cs := by
  rw [trim, List.mem_reverse] at h
  exact (List.dropWhile_sublist _).subset
    (List.mem_reverse.mp ((List.dropWhile_sublist _).subset h))

theorem isBlank_of_getLast?_trim {cs : List Char} {c : Char} (h : c ∈ (trim cs).getLast?) :
    isBlank c = false := by
  rw [trim, List.getLast?_reverse] at h
  have hfirst := List.head?_dropWhile_not isBlank (cs.dropWhile isBlank).reverse
  rw [Option.mem_def.mp h] at hfirst
  exact hfirst

end Text

namespace Listing

theorem newline_of_mem_splitLines {done : List (List Char)} {current cs : List Char}
    (hdone : ∀ piece ∈ done, '\n' ∉ piece) (hcurrent : '\n' ∉ current) :
    ∀ piece ∈ splitLines done current cs, '\n' ∉ piece := by
  have hnext : ∀ piece ∈ current.reverse :: done, '\n' ∉ piece :=
    List.forall_mem_cons.mpr ⟨by simpa using hcurrent, hdone⟩
  induction cs generalizing done current with
  | nil =>
    intro piece hpiece
    exact hnext piece (List.mem_reverse.mp hpiece)
  | cons c cs ih =>
    rw [splitLines]
    split
    case isTrue => exact ih hnext (by simp) (List.forall_mem_cons.mpr ⟨by simp, hnext⟩)
    case isFalse hc =>
      have hnewline : '\n' ∉ c :: current :=
        List.not_mem_cons_of_ne_of_not_mem (Ne.symm hc) hcurrent
      exact ih hdone hnewline (List.forall_mem_cons.mpr ⟨mt List.mem_reverse.mp hnewline, hdone⟩)

/-! ### Tokens -/

/-- A token as it can stand in a line. -/
def Token.Valid : Token → Prop
  | quoted s => '"' ∉ s ∧ '\n' ∉ s
  | plain s => s ≠ [] ∧ (∀ c ∈ s, isBlank c = false) ∧ s.head? ≠ some '"'

/-- What was read of a token is one already. -/
def Progress.Valid : Progress → Prop
  | between => True
  | inPlain done => (Token.plain done.reverse).Valid
  | inQuotes done => (Token.quoted done.reverse).Valid

theorem Token.Valid.snoc {done : List Char} {c : Char}
    (h : (plain done.reverse).Valid) (hc : isBlank c = false) :
    (plain (c :: done).reverse).Valid := by
  obtain ⟨hne, hblank, hquote⟩ := h
  rw [List.reverse_cons]
  refine ⟨by simp, ?_, ?_⟩
  · rintro d hd
    rcases List.mem_append.mp hd with hd | hd
    · exact hblank d hd
    · rwa [List.mem_singleton.mp hd]
  · rwa [List.head?_append_of_ne_nil _ hne]

theorem valid_of_tokensFrom {done : List Token} {p : Progress} {cs : List Char}
    {tokens : List Token} (hdone : ∀ t ∈ done, t.Valid) (hp : p.Valid) (hcs : '\n' ∉ cs)
    (h : tokensFrom done p cs = some tokens) : ∀ t ∈ tokens, t.Valid := by
  fun_induction tokensFrom done p cs with
  | case1 done =>
    cases h
    simpa using hdone
  | case2 done word =>
    cases h
    simpa [or_imp, forall_and] using ⟨hdone, hp⟩
  | case3 => cases h
  | case4 done c cs hc ih => exact ih hdone hp (List.not_mem_of_not_mem_cons hcs) h
  | case5 done cs hc ih =>
    exact ih hdone ⟨by simp, by simp⟩ (List.not_mem_of_not_mem_cons hcs) h
  | case6 done c cs hc hquote ih =>
    have hstart : (Token.plain [c].reverse).Valid :=
      ⟨by simp, by simpa using hc, by simpa using hquote⟩
    exact ih hdone hstart (List.not_mem_of_not_mem_cons hcs) h
  | case7 done word c cs hc ih =>
    exact ih (List.forall_mem_cons.mpr ⟨hp, hdone⟩) trivial (List.not_mem_of_not_mem_cons hcs) h
  | case8 done word c cs hc ih =>
    exact ih hdone (hp.snoc (by simpa using hc)) (List.not_mem_of_not_mem_cons hcs) h
  | case9 done text cs ih =>
    exact ih (List.forall_mem_cons.mpr ⟨hp, hdone⟩) trivial (List.not_mem_of_not_mem_cons hcs) h
  | case10 done text c cs hquote ih =>
    have hnewline : c ≠ '\n' := Ne.symm (List.ne_of_not_mem_cons hcs)
    have hnext : (Token.quoted (c :: text).reverse).Valid := by
      simpa [Token.Valid] using ⟨⟨mt List.mem_reverse.mpr hp.1, Ne.symm hquote⟩,
        mt List.mem_reverse.mpr hp.2, Ne.symm hnewline⟩
    exact ih hdone hnext (List.not_mem_of_not_mem_cons hcs) h

/-! ### Parts of a line -/

variable {k : Nat}

theorem lt_of_readId {cs : List Char} {n : Nat} (h : readId k cs = .ok n) : n < UInt32.size := by
  unfold readId at h
  split at h
  case h_1 hn =>
    cases h
    unfold idNumber? at hn
    split at hn
    · exact lt_of_unsigned? hn
    · cases hn
  case h_2 => cases h

theorem isId_of_head? {cs : List Char} (h : cs.head? = some '%') : isId cs = true := by
  obtain ⟨ds, rfl⟩ := List.head?_eq_some_iff.mp h
  rfl

theorem canonical_of_readWord {t : Token} {w : Word} (ht : t.Valid)
    (h : readWord k t = .ok w) : w.Canonical := by
  unfold readWord at h
  split at h
  case h_1 s =>
    cases h
    simpa [Word.Canonical, Token.Valid] using ht
  case h_2 s =>
    obtain ⟨hne, hblank, hquote⟩ := ht
    split at h
    case isTrue =>
      obtain ⟨n, hn, rfl⟩ := map_eq_ok.mp h
      exact lt_of_readId hn
    case isFalse hid =>
      cases h
      have hplain : Text.Bare s := ⟨hne, hblank, mt isId_of_head? hid, hquote⟩
      simpa [Word.Canonical] using hplain

theorem canonical_of_mapM_readWord {ts : List Token} {ws : List Word} (hts : ∀ t ∈ ts, t.Valid)
    (h : ts.mapM (readWord k) = .ok ws) : ∀ w ∈ ws, w.Canonical := by
  induction ts generalizing ws with
  | nil =>
    cases h
    simp
  | cons t ts ih =>
    obtain ⟨ht, hts⟩ := List.forall_mem_cons.mp hts
    simp only [List.mapM_cons, bind_eq_ok, pure_eq_ok] at h
    obtain ⟨w, hw, ws, hws, rfl⟩ := h
    exact List.forall_mem_cons.mpr ⟨canonical_of_readWord ht hw, ih hts hws⟩

/-- A result is a small number, and the tokens behind it were there before. -/
theorem of_readResult {ts rest : List Token} {result : Option Nat}
    (h : readResult k ts = .ok (result, rest)) :
    (∀ n ∈ result, n < UInt32.size) ∧ ∀ t ∈ rest, t ∈ ts := by
  unfold readResult at h
  split at h
  case h_1 s tokens =>
    split at h
    case isTrue =>
      split at h
      case h_1 tokens =>
        simp only [bind_eq_ok, pure_eq_ok, Prod.mk.injEq] at h
        obtain ⟨n, hn, rfl, rfl⟩ := h
        refine ⟨?_, fun t ht => by simp [ht]⟩
        rintro _ ⟨⟩
        exact lt_of_readId hn
      case h_2 => cases h
    case isFalse =>
      cases h
      exact ⟨by simp, fun t ht => ht⟩
  case h_2 =>
    cases h
    exact ⟨by simp, fun t ht => ht⟩

/-- An opcode is the first token, and the others follow it. -/
theorem of_readOpcode {ts rest : List Token} {opcode : String}
    (h : readOpcode k ts = .ok (opcode, rest)) :
    ∃ s, ts = .plain ('O' :: 'p' :: s) :: rest ∧ opcode = String.ofList ('O' :: 'p' :: s) := by
  unfold readOpcode at h
  split at h
  case h_1 s tokens =>
    cases h
    exact ⟨s, rfl, rfl⟩
  case h_2 => cases h

/-- A line that was read off a piece without line feeds is canonical. -/
theorem canonical_of_readLine {cs : List Char} {l : Line} (hcs : '\n' ∉ cs)
    (h : readLine k cs = .ok l) : l.Canonical := by
  unfold readLine at h
  split at h
  case h_1 => cases h
  case h_2 tokens htokens =>
    have hvalid : ∀ t ∈ tokens, t.Valid :=
      valid_of_tokensFrom (p := .between) (by simp) trivial hcs htokens
    simp only [bind_eq_ok] at h
    obtain ⟨⟨result, behind⟩, hresult, ⟨opcode, rest⟩, hopcode, h⟩ := h
    obtain ⟨hsmall, hbehind⟩ := of_readResult hresult
    obtain ⟨s, rfl, rfl⟩ := of_readOpcode hopcode
    obtain ⟨⟨-, hunbroken, -⟩, hrest⟩ :=
      List.forall_mem_cons.mp fun t ht => hvalid t (hbehind t ht)
    split at h
    case isTrue => cases h
    case isFalse hallowed =>
      simp only [bind_eq_ok, pure_eq_ok] at h
      obtain ⟨operands, hoperands, rfl⟩ := h
      refine ⟨fun n hn => ⟨hsmall n hn, ?_⟩, ⟨by simp, by simpa using hunbroken⟩,
        canonical_of_mapM_readWord hrest hoperands⟩
      cases hn
      simpa using hallowed

/-! ### Whole texts -/

/-- An item that reads back. -/
def Item.Canonical : Item → Prop
  | comment text => IsComment text
  | line l => l.Canonical

theorem canonical_of_readItem {cs : List Char} {item : Option Item} (hcs : '\n' ∉ cs)
    (h : readItem k cs = .ok item) : ∀ i ∈ item, i.Canonical := by
  have hline : '\n' ∉ trim cs := mt mem_of_mem_trim hcs
  unfold readItem at h
  split at h
  case h_1 =>
    cases h
    simp
  case h_2 comment htrim =>
    cases h
    rintro _ ⟨⟩
    rw [htrim] at hline
    refine ⟨by simpa using List.not_mem_of_not_mem_cons hline, fun c hc => ?_⟩
    -- the semicolon is not the last character of the line
    have hlast : c ∈ (trim cs).getLast? := by
      rw [htrim, List.getLast?_cons, show comment.getLast? = some c by simpa using hc]
      rfl
    exact isBlank_of_getLast?_trim hlast
  case h_3 =>
    obtain ⟨l, hl, rfl⟩ := map_eq_ok.mp h
    rintro _ ⟨⟩
    exact canonical_of_readLine hline hl

theorem canonical_of_readItems {pieces : List (List Char)} {items : List Item}
    (hpieces : ∀ piece ∈ pieces, '\n' ∉ piece) (h : readItems k pieces = .ok items) :
    ∀ i ∈ items, i.Canonical := by
  induction pieces generalizing k items with
  | nil =>
    cases h
    simp
  | cons piece pieces ih =>
    obtain ⟨hpiece, hpieces⟩ := List.forall_mem_cons.mp hpieces
    simp only [readItems, bind_eq_ok, pure_eq_ok] at h
    obtain ⟨item, hitem, rest, hrest, rfl⟩ := h
    intro i hi
    rcases List.mem_append.mp hi with hi | hi
    · exact canonical_of_readItem hpiece hitem i (by simpa using hi)
    · exact ih hpieces hrest i hi

theorem canonical_ofItems {items : List Item} (h : ∀ i ∈ items, i.Canonical) :
    (ofItems items).Canonical where
  header text htext := by
    obtain ⟨i, hi, hcomment⟩ := List.mem_filterMap.mp htext
    cases i with
    | comment =>
      cases hcomment
      exact h _ hi
    | line => cases hcomment
  lines l hl := by
    obtain ⟨i, hi, hline⟩ := List.mem_filterMap.mp hl
    cases i with
    | comment => cases hline
    | line =>
      cases hline
      exact h _ hi

/-- What is read is canonical. -/
theorem canonical_of_read {text : String} {l : Listing} (h : read text = .ok l) :
    l.Canonical := by
  obtain ⟨items, hitems, rfl⟩ := map_eq_ok.mp h
  have hpieces : ∀ piece ∈ splitLines [] [] text.toList, '\n' ∉ piece :=
    newline_of_mem_splitLines (by simp) List.not_mem_nil
  exact canonical_ofItems (canonical_of_readItems hpieces hitems)

/-- The reader gives canonical listings and undoes the printer on all of them, so that
what was read once is read again from its own text. -/
theorem read_inverts_render :
    (∀ text l, read text = .ok l → l.Canonical) ∧
      (∀ l : Listing, l.Canonical → read l.render = .ok l) ∧
      ∀ text l, read text = .ok l → read l.render = .ok l :=
  ⟨fun _ _ h => canonical_of_read h, fun _ h => h.read, fun _ _ h => (canonical_of_read h).read⟩

/-- A text with blank lines, carriage returns, wide and unbreakable spaces, a late comment,
a padded id, a string against a word and a quote within one. -/
def untidy : String :=
  "\r\n\t; drawn twice \u00a0\r\n%+007 =\u2003OpConstant \"a b\"%+001 1\"x \n\n;\n"

/-- What the untidy text says. -/
def tidied : Listing where
  header := [" drawn twice", ""]
  lines := [{
    result := some 7
    opcode := "OpConstant"
    operands := [.quoted "a b", .id 1, .plain "1\"x"] }]

theorem read_inverts_render_untidy :
    read untidy = .ok tidied ∧ tidied.Canonical ∧ read tidied.render = .ok tidied := by
  have hread : read untidy = .ok tidied := by rfl
  exact ⟨hread, read_inverts_render.1 _ _ hread, read_inverts_render.2.2 _ _ hread⟩

end Listing

end ShaderGen
