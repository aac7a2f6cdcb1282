import JmmCompiler.Proofs.Printing
import Mathlib.Data.List.Find
import Mathlib.Data.List.TakeWhile
/-! The tokens of a text are spelled as their classes demand, and tokens that are written with blanks
between them are found again. -/
namespace JmmCompiler

namespace Lexeme

/-- A letter, an underscore or a dollar sign, and letters, digits and such signs after it. -/
def IsWord (s : String) : Prop :=
  ∃ c cs, s.toList = c :: cs ∧ Lexer.isWordStart c ∧ ∀ d ∈ cs, Lexer.isWordPart d

theorem IsWord.isWordPart {s : String} (h : IsWord s) : ∀ c ∈ s.toList, Lexer.isWordPart c = true := by
  obtain ⟨c, cs, hcs, hstart, hparts⟩ := h
  rw [hcs, List.forall_mem_cons]
  exact ⟨by simp [Lexer.isWordPart, hstart], hparts⟩

/-- A word that is no keyword. -/
def IsName (s : String) : Prop := IsWord s ∧ Lexer.wordKind s = .identifier

def IsNumber (s : String) : Prop := s ≠ "" ∧ ∀ c ∈ s.toList, c.isDigit

/-- A token that is spelled as its class demands. -/
def Valid (l : Lexeme) : Prop :=
  match l.1 with
  | .identifier => IsName l.2
  | .integer => IsNumber l.2
  | k => (l.2, k) ∈ TokenKind.keywords ∨ (l.2.toList, k) ∈ TokenKind.symbols

theorem valid_iff {k : TokenKind} {s : String} (hname : k ≠ .identifier) (hnumber : k ≠ .integer) :
    Valid (k, s) ↔ (s, k) ∈ TokenKind.keywords ∨ (s.toList, k) ∈ TokenKind.symbols := by
  unfold Valid
  cases k <;> simp_all

/-- A token whose class has only one spelling. -/
theorem valid_lexeme {k : TokenKind} (hk : k ∉ [.identifier, .integer, .illegal]) : k.lexeme.Valid := by
  cases k
  case identifier => simp at hk
  case integer => simp at hk
  case illegal => simp at hk
  all_goals exact (valid_iff (by decide) (by decide)).2 (by decide)

/-- Tokens that are spelled as their classes demand. -/
def AllValid (ls : List Lexeme) : Prop := ∀ l ∈ ls, l.Valid

@[simp] theorem allValid_nil : AllValid [] := by simp [AllValid]

@[simp] theorem allValid_cons {l : Lexeme} {ls : List Lexeme} :
    AllValid (l :: ls) ↔ l.Valid ∧ AllValid ls := by
  simp only [AllValid, List.forall_mem_cons]

@[simp] theorem allValid_append {ls ls' : List Lexeme} :
    AllValid (ls ++ ls') ↔ AllValid ls ∧ AllValid ls' := by
  simp only [AllValid, List.forall_mem_append]

end Lexeme

namespace TokenKind

theorem isWord_of_mem_keywords {w : String × TokenKind} (h : w ∈ keywords) : Lexeme.IsWord w.1 := by
  have hall : keywords.all fun word =>
      word.1.toList.head?.any Lexer.isWordStart && word.1.toList.tail.all Lexer.isWordPart := by decide
  have hword := List.all_eq_true.1 hall w h
  unfold Lexeme.IsWord
  cases hcs : w.1.toList with
  | nil => simp [hcs] at hword
  | cons c cs => exact ⟨c, cs, rfl, by simpa [hcs] using hword⟩

theorem wordKind_of_mem_keywords {word : String × TokenKind} (h : word ∈ keywords) :
    Lexer.wordKind word.1 = word.2 := by
  have hall : ∀ word ∈ keywords, Lexer.wordKind word.1 = word.2 := by decide
  exact hall word h

theorem mem_keywords_of_wordKind {s : String} (h : Lexer.wordKind s ≠ .identifier) :
    (s, Lexer.wordKind s) ∈ keywords := by
  unfold Lexer.wordKind at h ⊢
  cases hlookup : keywords.lookup s with
  | none => simp [hlookup] at h
  | some k => exact List.lookup_eq_some_iff.1 hlookup |>.elim fun l₁ h => h.elim fun l₂ h => by simp [h.1]

theorem length_symbol {symbol : List Char × TokenKind} (h : symbol ∈ symbols) :
    symbol.1 ≠ [] ∧ symbol.1.length ≤ 3 := by
  have hall : ∀ symbol ∈ symbols, symbol.1 ≠ [] ∧ symbol.1.length ≤ 3 := by decide
  exact hall symbol h

/-- No symbol is made of letters, digits or blanks. -/
theorem char_of_symbol {symbol : List Char × TokenKind} (h : symbol ∈ symbols) {c : Char}
    (hc : c ∈ symbol.1) : Lexer.isWordStart c = false ∧ c.isDigit = false ∧ Lexer.isBlank c = false := by
  have hall : symbols.all fun symbol => symbol.1.all fun c =>
      !Lexer.isWordStart c && !c.isDigit && !Lexer.isBlank c := by decide
  have hchar := List.all_eq_true.1 (List.all_eq_true.1 hall symbol h) c hc
  simpa [and_assoc] using hchar

/-- Of the symbols that start a symbol the longest stands first in the table. -/
theorem find?_symbols {symbol : List Char × TokenKind} (h : symbol ∈ symbols) :
    symbols.find? (fun s => s.1.isPrefixOf symbol.1) = some symbol := by
  have hall : ∀ symbol ∈ symbols, symbols.find? (fun s => s.1.isPrefixOf symbol.1) = some symbol := by
    decide
  exact hall symbol h

end TokenKind

namespace Lexeme

theorem valid_word {s : String} (h : IsWord s) : (word s).Valid := by
  by_cases hname : Lexer.wordKind s = .identifier
  · rw [word, hname]
    exact ⟨h, hname⟩
  · have hmem := TokenKind.mem_keywords_of_wordKind hname
    refine (valid_iff hname fun hnumber => ?_).2 (.inl hmem)
    have hkind : ∀ word ∈ TokenKind.keywords, word.2 ≠ .integer := by decide
    exact hkind _ hmem hnumber

end Lexeme

namespace Lexer

/-- What may follow a token: nothing, or a blank. -/
def Gap (cs : List Char) : Prop := cs = [] ∨ ∃ c ∈ cs.head?, isBlank c

theorem not_isWordPart_of_isBlank {c : Char} (h : isBlank c) : isWordPart c = false := by
  simp only [isBlank, Bool.or_eq_true, decide_eq_true_eq] at h
  rcases h with (((rfl | rfl) | rfl) | rfl) | rfl <;> decide

theorem not_isBlank_of_isWordStart {c : Char} (h : isWordStart c) : isBlank c = false := by
  by_contra hblank
  have := not_isWordPart_of_isBlank (by simpa using hblank)
  simp [isWordPart, h] at this

theorem not_isBlank_of_isDigit {c : Char} (h : c.isDigit) : isBlank c = false := by
  by_contra hblank
  have := not_isWordPart_of_isBlank (by simpa using hblank)
  simp [isWordPart, h] at this

/-- The longest part of a text whose characters are of a class that blanks are not in. -/
theorem takeWhile_append_gap {p : Char → Bool} {cs rest : List Char} (hcs : ∀ c ∈ cs, p c)
    (hblank : ∀ c, isBlank c → p c = false) (hgap : Gap rest) : (cs ++ rest).takeWhile p = cs := by
  rw [List.takeWhile_append_of_pos hcs]
  rcases hgap with rfl | ⟨c, hc, hc'⟩
  · simp
  · cases rest with
    | nil => simp at hc
    | cons d tail =>
      obtain rfl : d = c := by simpa using hc
      rw [List.takeWhile_cons_of_neg (by simp [hblank _ hc']), List.append_nil]

theorem ignored_blank {g : Glyph} {gs : List Glyph} (h : isBlank g.char) : ignored (g :: gs) = 1 := by
  cases gs <;> simp [ignored, h]

/-- The characters at the front, whether they start a comment or not. -/
theorem ignored_eq_zero {g : Glyph} {gs : List Glyph} (hblank : isBlank g.char = false)
    (h : g.char ≠ '/' ∨ ∀ b ∈ gs.head?, b.char ≠ '/' ∧ b.char ≠ '*') : ignored (g :: gs) = 0 := by
  cases gs with
  | nil => simp [ignored, hblank]
  | cons b gs =>
    rcases h with h | h
    · simp [ignored, hblank, h]
    · have hb := h b rfl
      simp [ignored, hblank, hb]

/-- A symbol starts a text in which a symbol and then a blank stand exactly if it starts the symbol. -/
theorem isPrefixOf_append_gap {symbol : List Char × TokenKind} (hsymbol : symbol ∈ TokenKind.symbols)
    {cs rest : List Char} (hgap : Gap rest) :
    symbol.1.isPrefixOf (cs ++ rest) = symbol.1.isPrefixOf cs := by
  rw [Bool.eq_iff_iff, List.isPrefixOf_iff_prefix, List.isPrefixOf_iff_prefix]
  constructor
  · intro h
    by_cases hlength : symbol.1.length ≤ cs.length
    · exact List.prefix_of_prefix_length_le h (List.prefix_append cs rest) hlength
    · exfalso
      have hlt : cs.length < symbol.1.length := Nat.lt_of_not_le hlength
      have hget : (cs ++ rest)[cs.length]? = some symbol.1[cs.length] := by
        obtain ⟨more, hmore⟩ := h
        rw [← hmore, List.getElem?_append_left hlt, List.getElem?_eq_getElem hlt]
      rcases hgap with rfl | ⟨c, hc, hc'⟩
      · simp at hget
      · rw [List.getElem?_append_right (Nat.le_refl _), Nat.sub_self, ← List.head?_eq_getElem?] at hget
        rw [hget] at hc
        obtain rfl : symbol.1[cs.length] = c := by simpa using hc
        have := (TokenKind.char_of_symbol hsymbol (List.getElem_mem hlt)).2.2
        simp [this] at hc'
  · exact fun h => h.trans (List.prefix_append cs rest)

theorem gap_take {cs : List Char} (h : Gap cs) (n : Nat) : Gap (cs.take n) := by
  rcases h with rfl | ⟨c, hc, hc'⟩
  · exact Or.inl (by simp)
  · cases n with
    | zero => exact Or.inl (by simp)
    | succ n =>
      cases cs with
      | nil => simp at hc
      | cons d cs => exact Or.inr ⟨c, by simpa using hc, hc'⟩

theorem text_take (gs : List Glyph) (n : Nat) :
    Glyph.text (gs.take n) = String.ofList ((gs.map Glyph.char).take n) := by
  rw [Glyph.text, List.map_take]

/-- The token at the front of a text, in terms of its characters. -/
theorem lexeme_cons (g : Glyph) (gs : List Glyph) :
    lexeme (g :: gs) =
      if isWordStart g.char then
        let word := g.char :: (gs.map Glyph.char).takeWhile isWordPart
        (wordKind (String.ofList word), word.length)
      else if g.char.isDigit then (.integer, 1 + ((gs.map Glyph.char).takeWhile Char.isDigit).length)
      else
        match TokenKind.symbols.find? fun s => s.1.isPrefixOf (((g :: gs).map Glyph.char).take 3) with
        | some (spelling, kind) => (kind, spelling.length)
        | none => (.illegal, 1) := by
  have htake : g.char :: (gs.take 2).map Glyph.char = ((g :: gs).map Glyph.char).take 3 := by
    simp [List.map_take]
  rw [lexeme, htake]
  simp only [Glyph.text, List.map_cons, List.takeWhile_map, List.length_cons, List.length_map]
  rfl

/-- The lexer cuts a token off whole where a gap follows it. -/
def Cuts (l : Lexeme) : Prop :=
  l.2.toList ≠ [] ∧ ∀ (gs : List Glyph) (rest : List Char), Gap rest →
    gs.map Glyph.char = l.2.toList ++ rest → ignored gs = 0 ∧ lexeme gs = (l.1, l.2.toList.length)

theorem cuts_word {s : String} (h : Lexeme.IsWord s) : Cuts (wordKind s, s) := by
  obtain ⟨c, cs, hs, hstart, hparts⟩ := h
  refine ⟨by simp [hs], fun gs rest hgap hgs => ?_⟩
  simp only [hs, List.cons_append] at hgs
  obtain ⟨g, gs, rfl, rfl, htail⟩ := List.map_eq_cons_iff.1 hgs
  have htake : (gs.map Glyph.char).takeWhile isWordPart = cs := by
    rw [htail]
    exact takeWhile_append_gap hparts (fun _ => not_isWordPart_of_isBlank) hgap
  refine ⟨ignored_eq_zero (not_isBlank_of_isWordStart hstart) (.inl ?_), ?_⟩
  · rintro heq
    rw [heq] at hstart
    exact absurd hstart (by decide)
  · have htext : String.ofList (g.char :: cs) = s := by rw [← hs, String.ofList_toList]
    simp only [lexeme_cons, hstart, if_true, htake, htext, hs]

theorem not_isWordStart_of_isDigit {c : Char} (h : c.isDigit) : isWordStart c = false := by
  have hunderscore : c ≠ '_' := fun heq => absurd (heq ▸ h) (by decide)
  have hdollar : c ≠ '$' := fun heq => absurd (heq ▸ h) (by decide)
  simp only [Char.isDigit, Bool.and_eq_true, decide_eq_true_eq, ge_iff_le, UInt32.le_iff_toNat_le] at h
  have hupper : c.isUpper = decide ('A'.val ≤ c.val ∧ c.val ≤ 'Z'.val) := rfl
  have hlower : c.isLower = (decide ('a'.val ≤ c.val) && decide (c.val ≤ 'z'.val)) := rfl
  have halpha : c.isAlpha = (c.isUpper || c.isLower) := rfl
  simp only [isWordStart, halpha, hupper, hlower, hunderscore, hdollar,
    UInt32.le_iff_toNat_le, decide_false, Bool.or_false, Bool.or_eq_false_iff, Bool.and_eq_false_iff,
    decide_eq_false_iff_not]
  have hnine : '9'.val.toNat < 'A'.val.toNat ∧ '9'.val.toNat < 'a'.val.toNat := by decide
  omega

theorem cuts_number {s : String} (h : Lexeme.IsNumber s) : Cuts (.integer, s) := by
  obtain ⟨hne, hdigits⟩ := h
  obtain ⟨c, cs, hs⟩ := List.exists_cons_of_ne_nil (l := s.toList) (by simpa using hne)
  refine ⟨by simp [hs], fun gs rest hgap hgs => ?_⟩
  rw [hs] at hdigits
  simp only [hs, List.cons_append] at hgs
  obtain ⟨g, gs, rfl, rfl, htail⟩ := List.map_eq_cons_iff.1 hgs
  have hdigit : g.char.isDigit := hdigits _ (by simp)
  have hstart : isWordStart g.char = false := not_isWordStart_of_isDigit hdigit
  have htake : (gs.map Glyph.char).takeWhile Char.isDigit = cs := by
    rw [htail]
    refine takeWhile_append_gap (fun d hd => hdigits d (by simp [hd])) (fun d hd => ?_) hgap
    by_contra hd'
    simp [not_isBlank_of_isDigit (by simpa using hd')] at hd
  refine ⟨ignored_eq_zero (not_isBlank_of_isDigit hdigit) (.inl ?_), ?_⟩
  · rintro heq
    rw [heq] at hdigit
    exact absurd hdigit (by decide)
  · simp only [lexeme_cons, hstart, hdigit, htake, Bool.false_eq_true, if_false, if_true, hs,
      List.length_cons, Nat.add_comm]

theorem cuts_symbol {symbol : List Char × TokenKind} (h : symbol ∈ TokenKind.symbols) :
    Cuts (symbol.2, String.ofList symbol.1) := by
  obtain ⟨hne, hlength⟩ := TokenKind.length_symbol h
  refine ⟨by simpa using hne, fun gs rest hgap hgs => ?_⟩
  simp only [String.toList_ofList] at hgs ⊢
  have hfind : TokenKind.symbols.find? (fun s => s.1.isPrefixOf ((gs.map Glyph.char).take 3)) =
      some symbol := by
    have hstart : ∀ s ∈ TokenKind.symbols,
        s.1.isPrefixOf ((gs.map Glyph.char).take 3) = s.1.isPrefixOf symbol.1 := by
      intro s hs
      rw [hgs, List.take_append, List.take_of_length_le hlength]
      exact isPrefixOf_append_gap hs (gap_take hgap _)
    rw [← TokenKind.find?_symbols h]
    exact List.find?_congr hstart
  obtain ⟨c, cs, hs⟩ := List.exists_cons_of_ne_nil hne
  obtain ⟨hstart, hdigit, hblank⟩ := TokenKind.char_of_symbol h (c := c) (by simp [hs])
  -- the only symbol that starts like a comment is a slash, and after that comes a gap
  have hslash : c = '/' → cs = [] := by
    rintro rfl
    have hall : ∀ s ∈ TokenKind.symbols, s.1.head? = some '/' → s.1.tail = [] := by decide
    simpa [hs] using hall _ h (by simp [hs])
  rw [hs, List.cons_append] at hgs
  obtain ⟨g, gs, rfl, rfl, htail⟩ := List.map_eq_cons_iff.1 hgs
  refine ⟨ignored_eq_zero hblank ?_, ?_⟩
  · by_cases hc : g.char = '/'
    · refine .inr fun b hb => ?_
      rw [hslash hc, List.nil_append] at htail
      have hb' : isBlank b.char := by
        rcases hgap with rfl | ⟨d, hd, hd'⟩
        · simp_all
        · rw [← htail, List.head?_map, Option.mem_def.1 hb] at hd
          obtain rfl : b.char = d := by simpa using hd
          exact hd'
      exact ⟨fun heq => absurd (heq ▸ hb') (by decide), fun heq => absurd (heq ▸ hb') (by decide)⟩
    · exact .inl hc
  · simp only [lexeme_cons, hstart, hdigit, hfind, Bool.false_eq_true, if_false]

/-- A token that is spelled as its class demands is cut off whole. -/
theorem cuts_of_valid {l : Lexeme} (h : l.Valid) : Cuts l := by
  obtain ⟨kind, s⟩ := l
  by_cases hname : kind = .identifier
  · subst hname
    exact h.2 ▸ cuts_word h.1
  by_cases hnumber : kind = .integer
  · subst hnumber
    exact cuts_number h
  rcases (Lexeme.valid_iff hname hnumber).1 h with hmem | hmem
  · have hcuts := cuts_word (TokenKind.isWord_of_mem_keywords hmem)
    rwa [TokenKind.wordKind_of_mem_keywords hmem] at hcuts
  · simpa using cuts_symbol hmem

theorem drop_ofChars (p : Position) (cs ds : List Char) :
    ∃ p', (Glyph.ofChars p (cs ++ ds)).drop cs.length = Glyph.ofChars p' ds := by
  induction cs generalizing p with
  | nil => exact ⟨p, rfl⟩
  | cons c cs ih => exact ih (p.next c)

/-- Tokens that are written with blanks between them are found again. -/
theorem scan_of_spaced {ls : List Lexeme} {cs : List Char} (h : Spaced ls cs)
    (hvalid : Lexeme.AllValid ls) (p : Position) : (scan (Glyph.ofChars p cs)).map Token.lexeme = ls := by
  induction h generalizing p with
  | nil => rw [Glyph.ofChars, scan, List.map_nil]
  | @blank ls c cs hc _ ih =>
    rw [Glyph.ofChars, scan, ignored_blank hc]
    exact ih hvalid _
  | @token l ls cs hnext _ ih =>
    obtain ⟨hne, hcuts⟩ := cuts_of_valid (hvalid l (by simp))
    obtain ⟨hignored, hlexeme⟩ := hcuts _ _ hnext (Glyph.map_char_ofChars p (l.2.toList ++ cs))
    obtain ⟨p', hdrop⟩ := drop_ofChars p l.2.toList cs
    have htext : Glyph.text ((Glyph.ofChars p (l.2.toList ++ cs)).take l.2.toList.length) = l.2 := by
      rw [text_take, Glyph.map_char_ofChars, List.take_left, String.ofList_toList]
    obtain ⟨n, hn⟩ : ∃ n, l.2.toList.length = n + 1 :=
      Nat.exists_eq_succ_of_ne_zero (mt List.length_eq_zero_iff.1 hne)
    cases hgs : Glyph.ofChars p (l.2.toList ++ cs) with
    | nil =>
      have := congrArg (List.map Glyph.char) hgs
      rw [Glyph.map_char_ofChars] at this
      simp [hne] at this
    | cons g gs =>
      rw [hgs, hn] at hdrop htext
      rw [hgs] at hignored hlexeme
      rw [scan, hignored]
      simp only [hlexeme, hn, List.map_cons, Token.lexeme, htext, Nat.add_sub_cancel]
      rw [List.drop_succ_cons] at hdrop
      rw [hdrop, ih fun l' hl' => hvalid l' (by simp [hl'])]

/-- The token at the front of a text is spelled as its class demands. -/
theorem valid_lexeme (g : Glyph) (gs : List Glyph) (h : (lexeme (g :: gs)).1 ≠ .illegal) :
    Lexeme.Valid ((lexeme (g :: gs)).1, Glyph.text ((g :: gs).take (lexeme (g :: gs)).2)) := by
  have htake : ∀ (p : Char → Bool) (cs : List Char), cs.take (cs.takeWhile p).length = cs.takeWhile p :=
    fun p cs => (List.prefix_iff_eq_take.1 (List.takeWhile_prefix p)).symm
  rw [text_take, lexeme_cons] at *
  simp only [List.map_cons] at h ⊢
  by_cases hstart : isWordStart g.char
  · simp only [hstart, if_true, List.length_cons, List.take_succ_cons, htake] at h ⊢
    generalize hcs : (gs.map Glyph.char).takeWhile isWordPart = cs
    have hword : Lexeme.IsWord (String.ofList (g.char :: cs)) :=
      ⟨g.char, cs, String.toList_ofList, hstart, fun d hd => List.mem_takeWhile_imp (hcs ▸ hd)⟩
    exact Lexeme.valid_word hword
  by_cases hdigit : g.char.isDigit
  · simp only [hstart, hdigit, if_true, Bool.false_eq_true, if_false, Nat.add_comm 1, List.take_succ_cons,
      htake]
    refine ⟨by simp, fun c hc => ?_⟩
    rw [String.toList_ofList] at hc
    rcases List.mem_cons.1 hc with rfl | hc
    · exact hdigit
    · exact List.mem_takeWhile_imp hc
  · simp only [hstart, hdigit, Bool.false_eq_true, if_false] at h ⊢
    cases hfind : TokenKind.symbols.find? fun s =>
        s.1.isPrefixOf ((g.char :: gs.map Glyph.char).take 3) with
    | none =>
      rw [hfind] at h
      exact absurd rfl h
    | some symbol =>
      have hmem := List.mem_of_find?_eq_some hfind
      have hfound := List.find?_some hfind
      have hopening := List.isPrefixOf_iff_prefix.1 hfound
      have hspelling := List.prefix_iff_eq_take.1 (hopening.trans (List.take_prefix _ _))
      simp only [← hspelling]
      have hkind : ∀ s ∈ TokenKind.symbols, s.2 ≠ .identifier ∧ s.2 ≠ .integer := by decide
      refine (Lexeme.valid_iff (hkind _ hmem).1 (hkind _ hmem).2).2 (.inr ?_)
      rwa [String.toList_ofList]

/-- The tokens of a text are spelled as their classes demand. -/
theorem valid_of_mem_scan {gs : List Glyph} {t : Token} (ht : t ∈ scan gs) (hkind : t.kind ≠ .illegal) :
    t.lexeme.Valid := by
  induction gs using scan.induct with
  | case1 => simp [scan] at ht
  | case2 g gs n hignored ih =>
    rw [scan, hignored] at ht
    exact ih ht
  | case3 g gs hignored kind length hlexeme ih =>
    rw [scan, hignored] at ht
    simp only [hlexeme, List.mem_cons] at ht
    rcases ht with rfl | ht
    · have hvalid := valid_lexeme g gs (by simpa [hlexeme] using hkind)
      rwa [hlexeme] at hvalid
    · exact ih ht

theorem tokens_of_spaced {ls : List Lexeme} {cs : List Char} (h : Spaced ls cs)
    (hvalid : Lexeme.AllValid ls) : (tokens (String.ofList cs)).map Token.lexeme = ls := by
  rw [tokens, String.toList_ofList]
  exact scan_of_spaced h hvalid _

end Lexer
end JmmCompiler
