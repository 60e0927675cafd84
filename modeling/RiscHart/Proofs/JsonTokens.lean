import RiscHart.Json.Lexer
import Mathlib.Data.List.Chain

/-!
# JSON tokens are read back

The reader of tokens gives back the tokens of a text, whatever blanks there are before, between and
behind them. Only numbers and words have no mark at their end, so the one condition is that no two
of them stand next to each other.
-/

namespace RiscHart.Json

section Folds

variable {σ α : Type} {f : σ → α → Option σ} {s s' : σ}

theorem foldlM_cons_of_some {x : α} (h : f s x = some s') (xs : List α) :
    (x :: xs).foldlM f s = xs.foldlM f s' := by
  rw [List.foldlM_cons, h]
  rfl

theorem foldlM_append_of_some {xs : List α} (h : xs.foldlM f s = some s') (ys : List α) :
    (xs ++ ys).foldlM f s = ys.foldlM f s' := by
  rw [List.foldlM_append, h]
  rfl

end Folds

section Numbers

theorem isDigits_eq_true {cs : List Char} (hne : cs ≠ []) (hcs : ∀ c ∈ cs, c.isDigit) :
    isDigits cs = true := by
  simpa [isDigits, hne] using hcs

theorem takeWhile_digits {cs rest : List Char} (hcs : ∀ c ∈ cs, c.isDigit)
    (hrest : ∀ c ∈ rest.head?, c.isDigit = false) :
    (cs ++ rest).takeWhile Char.isDigit = cs := by
  have hnil : rest.takeWhile Char.isDigit = [] := by
    cases rest with
    | nil => rfl
    | cons c rest => exact List.takeWhile_cons_of_neg (by simp [hrest c rfl])
  rw [List.takeWhile_append_of_pos hcs, hnil, List.append_nil]

theorem dropWhile_digits {cs rest : List Char} (hcs : ∀ c ∈ cs, c.isDigit)
    (hrest : ∀ c ∈ rest.head?, c.isDigit = false) :
    (cs ++ rest).dropWhile Char.isDigit = rest := by
  have hrest' : rest.dropWhile Char.isDigit = rest := by
    cases rest with
    | nil => rfl
    | cons c rest => exact List.dropWhile_cons_of_neg (by simp [hrest c rfl])
  rw [List.dropWhile_append_of_pos hcs, hrest']

theorem WholeText.isDigit {cs : List Char} (hw : WholeText cs) : ∀ c ∈ cs, c.isDigit := by
  cases hw with
  | zero => simp
  | digits hc _ hcs => exact List.forall_mem_cons.2 ⟨hc, hcs⟩

theorem WholeText.exists_cons {cs : List Char} (hw : WholeText cs) :
    ∃ c rest, cs = c :: rest ∧ c.isDigit := by
  cases hw with
  | zero => exact ⟨_, _, rfl, rfl⟩
  | digits hc => exact ⟨_, _, rfl, hc⟩

theorem WholeText.isWhole {cs : List Char} (hw : WholeText cs) : isWhole cs = true := by
  cases hw with
  | zero => rfl
  | @digits c cs hc hzero hcs =>
    have hdigits : isDigits (c :: cs) = true :=
      isDigits_eq_true (by simp) (List.forall_mem_cons.2 ⟨hc, hcs⟩)
    simp [Json.isWhole, hdigits, hzero]

theorem ExponentText.isExponent {cs : List Char} (he : ExponentText cs) :
    isExponent cs = true := by
  cases he with
  | absent => rfl
  | @digits e sign cs he hsign hne hcs =>
    have hdigits : isDigits cs = true := isDigits_eq_true hne hcs
    -- without a sign the first digit must not be mistaken for one
    have hhead : cs.head? ≠ some '+' ∧ cs.head? ≠ some '-' := by
      constructor <;> intro h <;> exact absurd (hcs _ (List.mem_of_head? h)) (by decide)
    rcases hsign with rfl | rfl | rfl <;> simp [Json.isExponent, he, hdigits, hhead]

theorem ExponentText.head_not_digit {cs : List Char} (he : ExponentText cs) :
    ∀ c ∈ cs.head?, c.isDigit = false := by
  cases he with
  | absent => simp
  | digits he => rcases he with rfl | rfl <;> simp

theorem isFraction_append {f e : List Char} (hf : FractionText f) (he : ExponentText e) :
    isFraction (f ++ e) = true := by
  cases hf with
  | absent =>
    rw [List.nil_append, isFraction.eq_2 e]
    · exact he.isExponent
    · rintro cs rfl
      cases he with
      | digits h => simp at h
  | @digits cs hne hcs =>
    have htake := takeWhile_digits hcs he.head_not_digit
    have hdrop := dropWhile_digits hcs he.head_not_digit
    simp [isFraction, htake, hdrop, isDigits_eq_true hne hcs, he.isExponent]

theorem isUnsigned_append {w f e : List Char} (hw : WholeText w) (hf : FractionText f)
    (he : ExponentText e) : isUnsigned (w ++ (f ++ e)) = true := by
  have hhead : ∀ c ∈ (f ++ e).head?, c.isDigit = false := by
    cases hf with
    | absent => exact he.head_not_digit
    | digits => simp
  rw [isUnsigned, takeWhile_digits hw.isDigit hhead, dropWhile_digits hw.isDigit hhead,
    hw.isWhole, isFraction_append hf he]
  rfl

theorem NumberText.isNumber {cs : List Char} (h : NumberText cs) : isNumber cs = true := by
  obtain ⟨hsign, hw, hf, he⟩ := h
  rcases hsign with rfl | rfl
  · obtain ⟨c, rest, rfl, hc⟩ := hw.exists_cons
    rw [List.nil_append, List.cons_append, isNumber.eq_2]
    · exact isUnsigned_append hw hf he
    · rintro cs hcs
      obtain ⟨rfl, -⟩ := List.cons.inj hcs
      simp at hc
  · rw [List.cons_append, List.nil_append, isNumber.eq_1]
    exact isUnsigned_append hw hf he

theorem isNumberChar_of_isDigit {c : Char} (hc : c.isDigit) : isNumberChar c = true := by
  simp [isNumberChar, hc]

theorem isNumberChar_of_digits {cs : List Char} (hcs : ∀ c ∈ cs, c.isDigit) :
    ∀ c ∈ cs, isNumberChar c := fun c hc => isNumberChar_of_isDigit (hcs c hc)

theorem NumberText.isNumberChar {cs : List Char} (h : NumberText cs) :
    ∀ c ∈ cs, isNumberChar c := by
  obtain ⟨hsign, hw, hf, he⟩ := h
  simp only [List.forall_mem_append]
  refine ⟨?_, isNumberChar_of_digits hw.isDigit, ?_, ?_⟩
  · rcases hsign with rfl | rfl <;> simp [Json.isNumberChar]
  · cases hf with
    | absent => simp
    | digits _ hcs => exact List.forall_mem_cons.2 ⟨rfl, isNumberChar_of_digits hcs⟩
  · cases he with
    | absent => simp
    | digits he hsign _ hcs =>
      refine List.forall_mem_cons.2 ⟨by rcases he with rfl | rfl <;> rfl, ?_⟩
      refine List.forall_mem_append.2 ⟨?_, isNumberChar_of_digits hcs⟩
      rcases hsign with rfl | rfl | rfl <;> simp [Json.isNumberChar]

theorem NumberText.exists_cons {cs : List Char} (h : NumberText cs) :
    ∃ c rest, cs = c :: rest ∧ (c = '-' ∨ c.isDigit) := by
  obtain ⟨hsign, hw, -, -⟩ := h
  rcases hsign with rfl | rfl
  · obtain ⟨c, rest, rfl, hc⟩ := hw.exists_cons
    exact ⟨c, _, rfl, .inr hc⟩
  · exact ⟨_, _, rfl, .inl rfl⟩

end Numbers

section Quoted

theorem exists_hexDigit? {c : Char} (hc : IsHex c) : ∃ n, hexDigit? c = some n := by
  unfold hexDigit?
  split_ifs with h1 h2 h3
  · exact ⟨_, rfl⟩
  · exact ⟨_, rfl⟩
  · exact ⟨_, rfl⟩
  · exact absurd hc (by simp only [IsHex, not_or]; exact ⟨h1, h2, h3⟩)

end Quoted

namespace Token

def WellFormed : Token → Prop
  | number text => NumberText text
  | string raw => QuotedText raw
  | _ => True

/-- Whether the token ends only where the next character cannot belong to it. -/
def isLoose : Token → Bool
  | null | bool _ | number _ => true
  | _ => false

/-- Two tokens that may stand next to each other. -/
def Apart (t u : Token) : Prop := ¬(t.isLoose ∧ u.isLoose)

end Token

namespace Lexer

/-- The tokens before the character that comes next are `ts`, though the end of the latest may be
known only from that character. -/
structure Has (s : Lexer) (ts : List Token) : Prop where
  settle : s.settle = some ⟨.between, ts⟩
  loose : s.mode = .between ∨ ∃ t ∈ ts.head?, t.isLoose

variable {s : Lexer} {ts : List Token} {c : Char}

theorem has_between (ts : List Token) : (⟨.between, ts⟩ : Lexer).Has ts := ⟨rfl, .inl rfl⟩

theorem Has.eq_of_between (hs : s.Has ts) (hmode : s.mode = .between) : s = ⟨.between, ts⟩ := by
  simpa [Lexer.settle, hmode] using hs.settle

/-- A character that belongs to no number or word ends what is pending. -/
theorem Has.step_of_closing (hs : s.Has ts) (hnumber : isNumberChar c = false)
    (hlower : c.isLower = false) : s.step c = start ts c := by
  obtain ⟨mode, read⟩ := s
  have hsettle := hs.settle
  cases mode with
  | between => rw [hs.eq_of_between rfl]; rfl
  | number text => simp [step, hnumber, hsettle]
  | word text => simp [step, hlower, hsettle]
  | quoted | escape | unit => simp [Lexer.settle] at hsettle

theorem Has.foldlM_blanks (hs : s.Has ts) (bs : List Blank) :
    ∃ s', (bs.map Blank.char).foldlM step s = some s' ∧ s'.Has ts := by
  induction bs generalizing s with
  | nil => exact ⟨s, rfl, hs⟩
  | cons b bs ih =>
    have hstep : s.step b.char = some ⟨.between, ts⟩ := by
      rw [hs.step_of_closing (by cases b <;> rfl) (by cases b <;> rfl)]
      cases b <;> rfl
    obtain ⟨s', hfold, hs'⟩ := ih (has_between ts)
    exact ⟨s', by rw [List.map_cons, foldlM_cons_of_some hstep, hfold], hs'⟩

theorem foldlM_number {cs : List Char} (hcs : ∀ c ∈ cs, isNumberChar c) (text : List Char)
    (ts : List Token) :
    cs.foldlM step ⟨.number text, ts⟩ = some ⟨.number (cs.reverse ++ text), ts⟩ := by
  induction cs generalizing text with
  | nil => rfl
  | cons c cs ih =>
    obtain ⟨hc, hcs⟩ := List.forall_mem_cons.1 hcs
    have hstep : step ⟨.number text, ts⟩ c = some ⟨.number (c :: text), ts⟩ := by simp [step, hc]
    rw [foldlM_cons_of_some hstep, ih hcs]
    simp

theorem start_number (hc : c = '-' ∨ c.isDigit) (ts : List Token) :
    start ts c = some ⟨.number [c], ts⟩ := by
  rcases hc with rfl | hc
  · rfl
  · have hne (d : Char) (hd : d.isDigit = false) : c ≠ d := by
      rintro rfl
      simp [hd] at hc
    simp [start, isBlank, isNumberChar_of_isDigit hc, hne ' ' rfl, hne '\t' rfl, hne '\n' rfl,
      hne '\r' rfl, hne '"' rfl, hne 'e' rfl, hne 'E' rfl]

theorem step_hex (hc : IsHex c) (raw : List Char) (ts : List Token) (more : Nat) :
    step ⟨.unit raw (more + 1), ts⟩ c = some ⟨.unit (c :: raw) more, ts⟩ := by
  obtain ⟨n, hn⟩ := exists_hexDigit? hc
  simp [step, hn]

theorem step_last_hex (hc : IsHex c) (raw : List Char) (ts : List Token) :
    step ⟨.unit raw 0, ts⟩ c = some ⟨.quoted (c :: raw), ts⟩ := by
  obtain ⟨n, hn⟩ := exists_hexDigit? hc
  simp [step, hn]

theorem foldlM_quoted {cs : List Char} (hcs : QuotedText cs) (raw : List Char)
    (ts : List Token) :
    cs.foldlM step ⟨.quoted raw, ts⟩ = some ⟨.quoted (cs.reverse ++ raw), ts⟩ := by
  induction hcs generalizing raw with
  | nil => rfl
  | @plain c cs hquote hescape hcontrol _ ih =>
    have hstep : step ⟨.quoted raw, ts⟩ c = some ⟨.quoted (c :: raw), ts⟩ := by
      simp [step, hquote, hescape, Nat.not_lt.2 hcontrol]
    rw [foldlM_cons_of_some hstep, ih]
    simp
  | @escape c cs hc _ ih =>
    have hopen : step ⟨.quoted raw, ts⟩ '\\' = some ⟨.escape ('\\' :: raw), ts⟩ := rfl
    have hstep : step ⟨.escape ('\\' :: raw), ts⟩ c = some ⟨.quoted (c :: '\\' :: raw), ts⟩ := by
      simp only [List.mem_cons, List.not_mem_nil, or_false] at hc
      rcases hc with rfl | rfl | rfl | rfl | rfl | rfl | rfl | rfl <;> rfl
    rw [foldlM_cons_of_some hopen, foldlM_cons_of_some hstep, ih]
    simp
  | @unit a b c d cs ha hb hc hd _ ih =>
    have hopen : step ⟨.quoted raw, ts⟩ '\\' = some ⟨.escape ('\\' :: raw), ts⟩ := rfl
    have hunit : step ⟨.escape ('\\' :: raw), ts⟩ 'u' = some ⟨.unit ('u' :: '\\' :: raw) 3, ts⟩ :=
      rfl
    rw [foldlM_cons_of_some hopen, foldlM_cons_of_some hunit, foldlM_cons_of_some (step_hex ha ..),
      foldlM_cons_of_some (step_hex hb ..), foldlM_cons_of_some (step_hex hc ..),
      foldlM_cons_of_some (step_last_hex hd ..), ih]
    simp

/-- A token is read from between two tokens. -/
theorem foldlM_spelling {t : Token} (ht : t.WellFormed) (ts : List Token) :
    ∃ s, t.spelling.foldlM step ⟨.between, ts⟩ = some s ∧ s.Has (t :: ts) := by
  cases t with
  | number text =>
    obtain ⟨c, rest, htext, hc⟩ := ht.exists_cons
    have hrest : ∀ d ∈ rest, isNumberChar d := fun d hd => ht.isNumberChar d (by simp [htext, hd])
    have hread : (⟨.number text.reverse, ts⟩ : Lexer).Has (.number text :: ts) :=
      ⟨by simp [Lexer.settle, ht.isNumber], .inr ⟨_, rfl, rfl⟩⟩
    refine ⟨_, ?_, hread⟩
    have hstart : step ⟨.between, ts⟩ c = some ⟨.number [c], ts⟩ := start_number hc ts
    rw [Token.spelling, htext, foldlM_cons_of_some hstart, foldlM_number hrest, List.reverse_cons]
  | string raw =>
    refine ⟨_, ?_, has_between _⟩
    have hopen : step ⟨.between, ts⟩ '"' = some ⟨.quoted [], ts⟩ := rfl
    have hclose : step ⟨.quoted raw.reverse, ts⟩ '"' = some ⟨.between, .string raw :: ts⟩ := by
      simp [step]
    rw [Token.spelling, foldlM_cons_of_some hopen, foldlM_append_of_some (foldlM_quoted ht ..),
      List.append_nil, foldlM_cons_of_some hclose]
    rfl
  | null => exact ⟨⟨.word "llun".toList, ts⟩, rfl, rfl, .inr ⟨_, rfl, rfl⟩⟩
  | bool b =>
    cases b with
    | true => exact ⟨⟨.word "eurt".toList, ts⟩, rfl, rfl, .inr ⟨_, rfl, rfl⟩⟩
    | false => exact ⟨⟨.word "eslaf".toList, ts⟩, rfl, rfl, .inr ⟨_, rfl, rfl⟩⟩
  | openBrace | closeBrace | openBracket | closeBracket | comma | colon =>
    exact ⟨_, rfl, has_between _⟩

/-- The first character of any other token than a number or a word ends what is pending. -/
theorem Has.foldlM_spelling_of_not_loose {t : Token} (hs : s.Has ts) (ht : t.isLoose = false) :
    t.spelling.foldlM step s = t.spelling.foldlM step ⟨.between, ts⟩ := by
  have hclosing : ∃ c cs, t.spelling = c :: cs ∧ isNumberChar c = false ∧ c.isLower = false := by
    cases t with
    | null | bool | number => simp [Token.isLoose] at ht
    | _ => exact ⟨_, _, rfl, rfl, rfl⟩
  obtain ⟨c, cs, hspelling, hnumber, hlower⟩ := hclosing
  rw [hspelling, List.foldlM_cons, List.foldlM_cons, hs.step_of_closing hnumber hlower,
    (has_between ts).step_of_closing hnumber hlower]

theorem Has.foldlM_token {t : Token} (hs : s.Has ts) (ht : t.WellFormed)
    (hapart : ∀ u ∈ ts.head?, u.Apart t) :
    ∃ s', t.spelling.foldlM step s = some s' ∧ s'.Has (t :: ts) := by
  obtain ⟨s', hfold, hs'⟩ := foldlM_spelling ht ts
  refine ⟨s', ?_, hs'⟩
  rcases hs.loose with hmode | ⟨u, hu, hloose⟩
  · rw [hs.eq_of_between hmode, hfold]
  · have hnot : t.isLoose = false := by
      have := hapart u hu
      simpa [Token.Apart, hloose] using this
    rw [hs.foldlM_spelling_of_not_loose hnot, hfold]

theorem Has.foldlM_write (gap : Nat → List Blank) {us : List Token} (hs : s.Has ts)
    (hus : ∀ t ∈ us, t.WellFormed) (hapart : (ts.head?.toList ++ us).IsChain Token.Apart) :
    ∃ s', (write gap us).foldlM step s = some s' ∧ s'.Has (us.reverse ++ ts) := by
  -- The state varies in the induction: the end of the latest token may still be pending in it.
  induction us generalizing s ts gap with
  | nil => exact hs.foldlM_blanks (gap 0)
  | cons t us ih =>
    obtain ⟨ht, hus⟩ := List.forall_mem_cons.1 hus
    obtain ⟨s1, hblanks, hs1⟩ := hs.foldlM_blanks (gap 0)
    have hfirst : ∀ u ∈ ts.head?, u.Apart t := by
      intro u hu
      rw [Option.mem_def.1 hu] at hapart
      exact (List.isChain_cons_cons.1 hapart).1
    obtain ⟨s2, htoken, hs2⟩ := hs1.foldlM_token ht hfirst
    have hrest : (t :: us).IsChain Token.Apart := hapart.right_of_append
    obtain ⟨s3, hwrite, hs3⟩ := ih (fun i => gap (i + 1)) hs2 hus hrest
    refine ⟨s3, ?_, by simpa using hs3⟩
    rw [write, foldlM_append_of_some hblanks, foldlM_append_of_some htoken, hwrite]

end Lexer

/-- Tokens that can be told from their text. -/
structure Separable (ts : List Token) : Prop where
  wellFormed : ∀ t ∈ ts, t.WellFormed
  apart : ts.IsChain Token.Apart

namespace Separable

variable {t : Token} {ts us : List Token}

theorem singleton (ht : t.WellFormed) : Separable [t] :=
  ⟨List.forall_mem_singleton.2 ht, List.isChain_singleton t⟩

theorem cons (ht : t.WellFormed) (hloose : t.isLoose = false) (hts : Separable ts) :
    Separable (t :: ts) where
  wellFormed := List.forall_mem_cons.2 ⟨ht, hts.wellFormed⟩
  apart := List.isChain_cons.2 ⟨fun u _ h => by simp [hloose] at h, hts.apart⟩

theorem append (hts : Separable ts) (hus : Separable us)
    (hloose : ∀ u ∈ us.head?, u.isLoose = false) : Separable (ts ++ us) where
  wellFormed := List.forall_mem_append.2 ⟨hts.wellFormed, hus.wellFormed⟩
  apart := hts.apart.append hus.apart fun t _ u hu h => by simp [hloose u hu] at h

theorem tokens?_write (gap : Nat → List Blank) (hts : Separable ts) :
    tokens? (write gap ts) = some ts := by
  obtain ⟨s, hfold, hs⟩ := (Lexer.has_between []).foldlM_write gap hts.wellFormed hts.apart
  rw [tokens?, hfold, Option.bind_eq_bind, Option.bind_some, hs.settle]
  simp

end Separable

end RiscHart.Json
