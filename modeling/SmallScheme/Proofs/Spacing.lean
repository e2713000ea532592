import SmallScheme.Proofs.Lexing

/-! Tokens do not depend on spacing.

The tokens of a text come back from every text that has them in the same order, whatever blanks stand
around them, as long as two words do not run into one another. A backslash at the end of a word, or a
quote in it that nothing closes, makes no difference: what the gaps hold can neither be protected nor
close a literal. -/
namespace SmallScheme

namespace Token
open Text

/-- The text of tokens with gaps around them: `gap i` stands before the token with index `i`, and the
last gap stands after all of them. -/
def spaced (gap : Nat → String) : List Token → String
  | [] => gap 0
  | t :: ts => gap 0 ++ t.text ++ spaced (fun i => gap (i + 1)) ts

/-- The gaps around the tokens are blank, and no two words are without one between them. -/
structure Separates (gap : Nat → String) (ts : List Token) : Prop where
  blank : ∀ i ≤ ts.length, ∀ c ∈ (gap i).toList, isBlank c = true
  apart : ∀ i v w, ts[i]? = some (.word v) → ts[i + 1]? = some (.word w) → gap (i + 1) ≠ ""

theorem Separates.tail {gap : Nat → String} {t : Token} {ts : List Token}
    (h : Separates gap (t :: ts)) : Separates (fun i => gap (i + 1)) ts where
  blank i hi := h.blank (i + 1) (Nat.succ_le_succ hi)
  apart i := h.apart (i + 1)

theorem Layout.blanks {bs : List Char} (hbs : ∀ c ∈ bs, isBlank c = true) {ts : List Token}
    {cs : List Char} (h : Layout ts cs) : Layout ts (bs ++ cs) := by
  induction bs with
  | nil => exact h
  | cons b bs ih =>
    obtain ⟨hb, hbs⟩ := List.forall_mem_cons.mp hbs
    have hmark := Layout.delimiter (isDelimiter_of_isBlank hb) (ih hbs)
    rw [mark_blank hb] at hmark
    exact hmark

/-- A parenthesis may stand before anything, and a word before what delimits it. -/
theorem Layout.token {t : Token} {ts : List Token} {cs : List Char} (h : Layout ts cs)
    (hd : ∀ w, t = .word w → Delimited cs) : Layout (t :: ts) (t.text.toList ++ cs) := by
  cases t with
  | lparen => exact Layout.delimiter (c := '(') (by decide) h
  | rparen => exact Layout.delimiter (c := ')') (by decide) h
  | word w => exact Layout.word w (hd w rfl) h

theorem delimited_append {bs cs : List Char} (hbs : ∀ c ∈ bs, isBlank c = true)
    (h : bs = [] → Delimited cs) : Delimited (bs ++ cs) := by
  cases bs with
  | nil => exact h rfl
  | cons b bs =>
    intro c hc
    have hcb : b = c := Option.some.inj hc
    rw [← hcb]
    exact isDelimiter_of_isBlank (hbs b List.mem_cons_self)

theorem delimited_nil : Delimited [] := nofun

/-- What follows a word in a text with gaps delimits it: the gap after it is not empty, unless it is
the last one or a parenthesis stands behind it. -/
theorem Separates.delimited {gap : Nat → String} {w : String} {ts : List Token}
    (h : Separates gap (.word w :: ts)) :
    Delimited (spaced (fun i => gap (i + 1)) ts).toList := by
  have hblank : ∀ c ∈ (gap 1).toList, isBlank c = true := h.blank 1 (Nat.succ_le_succ (Nat.zero_le _))
  cases ts with
  | nil =>
    have hd := delimited_append hblank fun _ => delimited_nil
    rwa [List.append_nil] at hd
  | cons t ts =>
    rw [spaced, String.toList_append, String.toList_append, List.append_assoc]
    apply delimited_append hblank
    intro hnone
    cases t with
    | lparen => exact fun c hc => Option.some.inj hc ▸ by decide
    | rparen => exact fun c hc => Option.some.inj hc ▸ by decide
    | word v => exact absurd (String.toList_eq_nil_iff.mp hnone) (h.apart 0 w v rfl rfl)

/-- A text with gaps lays out its tokens. -/
theorem Separates.layout {gap : Nat → String} {ts : List Token} (h : Separates gap ts) :
    Layout ts (spaced gap ts).toList := by
  induction ts generalizing gap with
  | nil =>
    have hgap := Layout.nil.blanks (h.blank 0 (Nat.le_refl 0))
    rwa [List.append_nil] at hgap
  | cons t ts ih =>
    have hrest := ih h.tail
    have htoken : Layout (t :: ts) (t.text.toList ++ (spaced (fun i => gap (i + 1)) ts).toList) := by
      apply hrest.token
      rintro w rfl
      exact h.delimited
    rw [spaced, String.toList_append, String.toList_append, List.append_assoc]
    exact htoken.blanks (h.blank 0 (Nat.zero_le _))

/-- Tokens joined by single blanks are laid out. -/
theorem layout_joined (ts : List Token) : Layout ts (" ".intercalate (ts.map text)).toList := by
  induction ts with
  | nil => exact Layout.nil
  | cons t ts ih =>
    cases ts with
    | nil =>
      have hlast := (Layout.nil).token (t := t) fun _ _ => delimited_nil
      rwa [List.append_nil] at hlast
    | cons u ts =>
      have hspace : ∀ c ∈ [' '], isBlank c = true := List.forall_mem_singleton.mpr (by decide)
      have hd : Delimited ([' '] ++ (" ".intercalate ((u :: ts).map text)).toList) :=
        delimited_append hspace nofun
      have hall := (ih.blanks hspace).token (t := t) fun _ _ => hd
      rw [List.map_cons, List.map_cons, String.intercalate_cons_cons, String.toList_append,
        String.toList_append, List.append_assoc]
      exact hall

/-- A token of coherent tokens is coherent on its own. -/
theorem Coherent.single {ts : List Token} (h : Coherent ts) {t : Token} (ht : t ∈ ts) :
    Coherent [t] := by
  induction ts with
  | nil => cases ht
  | cons u ts ih =>
    have hrest : Coherent ts := by
      cases u with
      | lparen => exact h
      | rparen => exact h
      | word w => exact h.2.2
    rcases List.mem_cons.mp ht with rfl | hmem
    · cases t with
      | lparen => trivial
      | rparen => trivial
      | word w =>
        -- without the tokens after it there is even less that could close its quotes
        have hnone (q : Char) : Unclosed q [] := fun v hv => absurd hv List.not_mem_nil
        exact ⟨h.1, h.2.1.mono fun q _ _ => hnone q, trivial⟩
    · exact ih hrest hmem

end Token

/-- Tokens do not depend on spacing. Put blanks of any kind and number around the tokens of a text, at
least one between two words: the tokens of what comes out are the same. In particular they come back
when they are joined by single blanks, and each token alone is the only token of its text. -/
theorem tokenize_spaced (text : String) :
    (∀ gap, Token.Separates gap (tokenize text) →
      tokenize (Token.spaced gap (tokenize text)) = tokenize text) ∧
    tokenize (" ".intercalate ((tokenize text).map Token.text)) = tokenize text ∧
    ∀ t ∈ tokenize text, tokenize t.text = [t] := by
  have hcoherent := tokenize_coherent text
  refine ⟨fun gap hgap => ?_, ?_, fun t ht => ?_⟩
  · exact hgap.layout.scan hcoherent
  · exact (Token.layout_joined _).scan hcoherent
  · have halone := (Token.Layout.nil).token (t := t) fun _ _ => Token.delimited_nil
    rw [List.append_nil] at halone
    exact halone.scan (hcoherent.single ht)

/-- A quote that nothing closes with a backslash behind it, before a parenthesis and then before a
blank, and a literal with a blank in it that is moved next to the parenthesis. -/
theorem tokenize_spaced_quotes :
    let text := "(x'\\) \"a b\"y z"
    let gap : Nat → String := fun i => ["\t", "\n", " ", "", "\r\n ", ""].getD i ""
    Token.Separates gap (tokenize text) ∧
      Token.spaced gap (tokenize text) = "\t(\nx'\\ )\"a b\"y\r\n z" ∧
      tokenize "\t(\nx'\\ )\"a b\"y\r\n z" = tokenize text := by
  intro text gap
  have htokens : tokenize text =
      [.lparen, .word "x'\\", .rparen, .word "\"a b\"y", .word "z"] := by decide
  have hgap : Token.Separates gap (tokenize text) := by
    rw [htokens]
    have hblank : (List.range 6).all (fun i => (gap i).toList.all Text.isBlank) = true := by decide
    refine ⟨fun i hi => ?_, fun i v w hv hw => ?_⟩
    · have hrange : i ∈ List.range 6 := List.mem_range.mpr (Nat.lt_succ_of_le hi)
      exact List.all_eq_true.mp (List.all_eq_true.mp hblank i hrange)
    · match i, hv, hw with
      | 3, _, _ => decide
  have hspaced : Token.spaced gap (tokenize text) = "\t(\nx'\\ )\"a b\"y\r\n z" := by
    rw [htokens]
    decide
  refine ⟨hgap, hspaced, ?_⟩
  rw [← hspaced]
  exact (tokenize_spaced text).1 gap hgap

end SmallScheme
