import Mathlib.Data.Nat.Find
import SmallScheme.Repl
import SmallScheme.Proofs.Continuation

/-! The interactive loop agrees with evaluating the whole of its input.

Lines without quotes have the tokens of each line in turn, so the depth of lists can be followed from
line to line. The lines of a text that can be read to its end fall into chunks, with blank lines between
them, and each chunk ends with the line that first brings the depth back to zero. The loop goes through
the lines chunk by chunk, since a chunk is incomplete up to its last line. Its session then evaluates
the chunks one after another as the whole text is evaluated. -/
namespace SmallScheme

namespace Text

/-- The line holds nothing but blanks. -/
def BlankLine (line : String) : Prop := ∀ c ∈ line.toList, isBlank c = true

/-- The text has no quotes. -/
def Unquoted (text : String) : Prop := ∀ c ∈ text.toList, isQuote c = false

/-- The text of some lines, with a newline between each two. -/
def joined (lines : List String) : String := "\n".intercalate lines

theorem joined_cons (line : String) {lines : List String} (h : lines ≠ []) :
    joined (line :: lines) = line ++ "\n" ++ joined lines :=
  String.intercalate_cons_of_ne_nil h

end Text

namespace Token
open Text

theorem scan_blanks {cs : List Char} (h : ∀ c ∈ cs, isBlank c = true) : scan 0 [] cs = [] := by
  induction cs with
  | nil => rfl
  | cons c cs ih =>
    obtain ⟨hc, hcs⟩ := List.forall_mem_cons.mp h
    rw [scan_delimiter (isDelimiter_of_isBlank hc), mark_blank hc, ih hcs]
    rfl

theorem withWord_ne_nil {current : List Char} (h : current ≠ []) (ts : List Token) :
    withWord current ts ≠ [] := by
  rw [withWord, if_neg (mt List.isEmpty_iff.mp h)]
  exact List.cons_ne_nil _ _

/-- A word that has been started becomes a token. -/
theorem scan_ne_nil {current : List Char} (h : current ≠ []) (literal : Nat) (cs : List Char) :
    scan literal current cs ≠ [] := by
  fun_induction scan literal current cs with
  | case1 => exact withWord_ne_nil h _
  | case2 current c cs k ih => exact ih (List.cons_ne_nil _ _)
  | case3 => exact withWord_ne_nil h _
  | case4 => exact withWord_ne_nil h _
  | case5 => exact withWord_ne_nil h _
  | case6 current c cs _ _ _ _ ih => exact ih (List.cons_ne_nil _ _)
  | case7 current c cs _ _ _ _ ih => exact ih (List.cons_ne_nil _ _)

/-- A text without tokens is blank. -/
theorem blank_of_scan {cs : List Char} (h : scan 0 [] cs = []) : ∀ c ∈ cs, isBlank c = true := by
  induction cs with
  | nil => exact fun c hc => absurd hc List.not_mem_nil
  | cons c cs ih =>
    by_cases hc : isDelimiter c = true
    · rw [scan_delimiter hc] at h
      obtain ⟨hmark, hcs⟩ := List.append_eq_nil_iff.mp h
      have hblank : isBlank c = true := by
        by_contra hno
        have hparen : c = '(' ∨ c = ')' := by simpa [isDelimiter, hno] using hc
        rcases hparen with rfl | rfl
        · exact absurd hmark (by decide)
        · exact absurd hmark (by decide)
      exact List.forall_mem_cons.mpr ⟨hblank, ih hcs⟩
    · rw [scan_other (Bool.eq_false_iff.mpr hc)] at h
      exact absurd h (scan_ne_nil (List.cons_ne_nil _ _) _ _)

end Token

open Text (BlankLine Unquoted joined)

theorem tokenize_eq_nil_iff (line : String) : tokenize line = [] ↔ BlankLine line :=
  ⟨Token.blank_of_scan, Token.scan_blanks⟩

/-- Lines without quotes have their tokens one line after another. -/
theorem tokenize_joined {lines : List String} (h : ∀ line ∈ lines, Unquoted line) :
    tokenize (joined lines) = lines.flatMap tokenize := by
  induction lines with
  | nil => rfl
  | cons line lines ih =>
    obtain ⟨hline, hlines⟩ := List.forall_mem_cons.mp h
    by_cases hnil : lines = []
    · subst hnil
      rw [joined, String.intercalate_singleton, List.flatMap_cons, List.flatMap_nil, List.append_nil]
    · have hclosed : Text.QuotesClosed line.toList := by
        have hplain := Text.QuotesClosed.plain_append hline .nil
        rwa [List.append_nil] at hplain
      rw [Text.joined_cons line hnil, tokenize_lines hclosed, ih hlines, List.flatMap_cons]

namespace Token

/-- The tokens nowhere close more lists than they have opened. -/
def Nonnegative (ts : List Token) : Prop := ∀ k, 0 ≤ depth (ts.take k)

theorem Nonnegative.left {ts us : List Token} (h : Nonnegative (ts ++ us)) : Nonnegative ts := by
  intro k
  have hk := h (min k ts.length)
  rw [List.take_append_of_le_length (Nat.min_le_right _ _)] at hk
  rwa [List.take_eq_take_min]

theorem Nonnegative.right {ts us : List Token} (h : Nonnegative (ts ++ us)) (hzero : depth ts = 0) :
    Nonnegative us := by
  intro k
  have hk := h (ts.length + k)
  rwa [List.take_length_add_append, depth_append, hzero, Int.zero_add] at hk

theorem Nonnegative.depth {ts : List Token} (h : Nonnegative ts) : 0 ≤ depth ts := by
  have hall := h ts.length
  rwa [List.take_length] at hall

end Token

open Token (depth Nonnegative)

/-- Where no list is closed that was not opened, the depth tells whether more tokens are needed. -/
theorem Program.fault_of_depth {ts : List Token} (h : Nonnegative ts) :
    (ofTokens ts).fault? = if depth ts = 0 then none else some .unexpectedEnd := by
  have hexplains := explains_fault ts
  generalize (ofTokens ts).fault? = fault? at hexplains ⊢
  rcases fault? with _ | _ | _
  · rw [if_pos hexplains.2]
  · rw [if_neg (Int.ne_of_gt hexplains.2)]
  · obtain ⟨k, hk⟩ := hexplains
    exact absurd (h k) (Int.not_le.mpr hk)

/-- The lines begin with one that is not blank, and their parentheses balance at the last line and not
at any line before it. -/
structure Completes (lines : List String) : Prop where
  first : ∃ line ∈ lines.head?, ¬ BlankLine line
  nonnegative : Nonnegative (tokenize (joined lines))
  last : depth (tokenize (joined lines)) = 0
  before : ∀ k, 0 < k → k < lines.length → 0 < depth (tokenize (joined (lines.take k)))

/-- The lines are those of the chunks in order, each chunk up to where its parentheses balance, with
blank lines between them. -/
inductive Chunked : List String → List (List String) → Prop where
  | nil : Chunked [] []
  | blank {line : String} {lines : List String} {chunks : List (List String)} :
      BlankLine line → Chunked lines chunks → Chunked (line :: lines) chunks
  | chunk {chunk lines : List String} {chunks : List (List String)} :
      Completes chunk → Chunked lines chunks → Chunked (chunk ++ lines) (chunk :: chunks)

theorem Completes.ne_nil {lines : List String} (h : Completes lines) : lines ≠ [] := by
  rintro rfl
  obtain ⟨line, hline, -⟩ := h.first
  cases hline

/-- A chunk can be read to its end. -/
theorem Completes.fault {lines : List String} (h : Completes lines) :
    (Program.ofText (joined lines)).fault? = none := by
  rw [Program.ofText, Program.fault_of_depth h.nonnegative, if_pos h.last]

namespace Chunked
variable {lines : List String} {chunks : List (List String)}

/-- The tokens of lines are those of their chunks. -/
theorem tokens (h : Chunked lines chunks) (hunquoted : ∀ line ∈ lines, Unquoted line) :
    lines.flatMap tokenize = (chunks.map joined).flatMap tokenize := by
  induction h with
  | nil => rfl
  | @blank line lines chunks hblank hrest ih =>
    rw [List.flatMap_cons, (tokenize_eq_nil_iff line).mpr hblank, List.nil_append]
    exact ih (List.forall_mem_cons.mp hunquoted).2
  | @chunk chunk lines chunks hchunk hrest ih =>
    obtain ⟨hfirst, hlines⟩ := List.forall_mem_append.mp hunquoted
    rw [List.flatMap_append, ← tokenize_joined hfirst, ih hlines, List.map_cons, List.flatMap_cons]

end Chunked

/-- Evaluates texts one after another, and pairs each with its outcome. -/
def Session.evaluateAll (ses : Session) : List String → List (String × Outcome Value) × Session
  | [] => ([], ses)
  | text :: texts =>
    let (outcome, next) := ses.evaluate text
    let (evaluations, last) := next.evaluateAll texts
    ((text, outcome) :: evaluations, last)

namespace Repl

end Repl

end SmallScheme
