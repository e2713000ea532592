import SmallScheme.Datum
import SmallScheme.Proofs.Lexing
import SmallScheme.Proofs.Numeral

/-! Reading data from tokens and writing them as tokens again.

What is read has the tokens it was read from, except that numbers and booleans are spelled in one
way; and what is written is read as the same data again. -/
namespace SmallScheme

namespace Datum

mutual
/-- The tokens of a datum. -/
def tokens : Datum → List Token
  | number x => [.word x.text]
  | bool b => [.word (boolText b)]
  | symbol name => [.word name]
  | list items => .lparen :: (tokensAll items ++ [.rparen])
/-- The tokens of several data, one after another. -/
def tokensAll : List Datum → List Token
  | [] => []
  | d :: ds => d.tokens ++ tokensAll ds
end

theorem tokensAll_append (cs ds : List Datum) :
    tokensAll (cs ++ ds) = tokensAll cs ++ tokensAll ds := by
  induction cs with
  | nil => rfl
  | cons c cs ih => rw [List.cons_append, tokensAll, tokensAll, ih, List.append_assoc]

theorem tokensAll_reverse_cons (d : Datum) (ds : List Datum) :
    tokensAll (d :: ds).reverse = tokensAll ds.reverse ++ d.tokens := by
  rw [List.reverse_cons, tokensAll_append, tokensAll, tokensAll, List.append_nil]

/-- The token as it is written after its word was read. -/
def reprint : Token → Token
  | .word w => .word (ofWord w).text
  | t => t

theorem ofWord_cases (w : String) : (∃ b, ofWord w = bool b) ∨
    (∃ x, x ≠ .nan ∧ ofWord w = number x) ∨ ofWord w = symbol w := by
  by_cases htrue : (w = "#t" || w = "#true") = true
  · exact Or.inl ⟨true, by rw [ofWord, if_pos htrue]⟩
  by_cases hfalse : (w = "#f" || w = "#false") = true
  · exact Or.inl ⟨false, by rw [ofWord, if_neg htrue, if_pos hfalse]⟩
  rw [ofWord, if_neg htrue, if_neg hfalse]
  cases hx : Numeral.read? w with
  | none => exact Or.inr (Or.inr rfl)
  | some x =>
    have hnan : x ≠ .nan := by
      rintro rfl
      exact Numeral.read?_ne_nan w hx
    exact Or.inr (Or.inl ⟨x, hnan, rfl⟩)

theorem tokens_ofWord (w : String) : (ofWord w).tokens = [reprint (.word w)] := by
  rcases ofWord_cases w with ⟨b, h⟩ | ⟨x, _, h⟩ | h
  · rw [reprint, h]
    rfl
  · rw [reprint, h]
    rfl
  · rw [reprint, h]
    rfl

/-- The tokens that were read into open lists. -/
def unread : List (List Datum) → List Token
  | [] => []
  | items :: outer => unread outer ++ .lparen :: tokensAll items.reverse

theorem unread_push (d : Datum) (items : List Datum) (outer : List (List Datum)) :
    unread ((d :: items) :: outer) = unread (items :: outer) ++ d.tokens := by
  rw [unread, unread, tokensAll_reverse_cons, List.append_assoc]
  rfl

/-- What is read has the tokens it was read from. -/
theorem tokens_of_readIn (stack : List (List Datum)) {ts rest : List Token} {d : Datum}
    (h : readIn stack ts = (.ok d, rest)) :
    ∃ used, ts = used ++ rest ∧ d.tokens = unread stack ++ used.map reprint := by
  -- the open lists hold what was read before, so they are part of the induction
  induction ts generalizing stack with
  | nil => cases h
  | cons t ts ih =>
    cases t with
    | lparen =>
      obtain ⟨used, rfl, htokens⟩ := ih ([] :: stack) h
      refine ⟨.lparen :: used, rfl, ?_⟩
      rw [htokens, unread, List.append_assoc]
      rfl
    | rparen =>
      rcases stack with _ | ⟨items, _ | ⟨outer, stack⟩⟩
      · cases h
      · cases h
        exact ⟨[.rparen], rfl, rfl⟩
      · obtain ⟨used, rfl, htokens⟩ := ih ((list items.reverse :: outer) :: stack) h
        refine ⟨.rparen :: used, rfl, ?_⟩
        rw [htokens, unread_push, tokens, unread, List.map_cons]
        simp [unread, reprint]
    | word w =>
      rcases stack with _ | ⟨items, stack⟩
      · cases h
        exact ⟨[.word w], rfl, tokens_ofWord w⟩
      · obtain ⟨used, rfl, htokens⟩ := ih ((ofWord w :: items) :: stack) h
        refine ⟨.word w :: used, rfl, ?_⟩
        rw [htokens, unread_push, tokens_ofWord, List.append_assoc]
        rfl

end Datum

/-- What has been read does not depend on what follows. -/
theorem Datum.readIn_append {stack : List (List Datum)} {ts rest : List Token} {d : Datum}
    (h : readIn stack ts = (.ok d, rest)) (more : List Token) :
    readIn stack (ts ++ more) = (.ok d, rest ++ more) := by
  induction ts generalizing stack with
  | nil => cases h
  | cons t ts ih =>
    cases t with
    | lparen => exact @ih ([] :: stack) h
    | rparen =>
      rcases stack with _ | ⟨items, _ | ⟨outer, stack⟩⟩
      · cases h
      · cases h
        rfl
      · exact @ih ((list items.reverse :: outer) :: stack) h
    | word w =>
      rcases stack with _ | ⟨items, stack⟩
      · cases h
        rfl
      · exact @ih ((ofWord w :: items) :: stack) h

/-- The forms of a program that is read to its end have its tokens. -/
theorem Program.tokens_of_complete {ts : List Token} (h : (ofTokens ts).fault? = none) :
    Datum.tokensAll (ofTokens ts).forms = ts.map Datum.reprint := by
  fun_induction ofTokens ts with
  | case1 => rfl
  | case2 ts hts fault hread => cases h
  | case3 ts hts form hread hlt rest ih =>
    have hpair : Datum.readIn [] ts = (.ok form, (Datum.read ts).2) := by
      rw [← hread]
      rfl
    obtain ⟨used, hused, htokens⟩ := Datum.tokens_of_readIn [] hpair
    change form.tokens ++ Datum.tokensAll rest.forms = _
    rw [ih h, htokens]
    conv => rhs; rw [hused, List.map_append]
    rfl

namespace Datum

mutual
/-- The datum that is read from the tokens of a datum. -/
def reread : Datum → Datum
  | number x => ofWord x.text
  | bool b => ofWord (boolText b)
  | symbol name => ofWord name
  | list items => list (rereadAll items)
/-- The data that are read from the tokens of several data. -/
def rereadAll : List Datum → List Datum
  | [] => []
  | d :: ds => d.reread :: rereadAll ds
end

mutual
/-- Inside an open list, the tokens of a datum add one item. -/
theorem readIn_tokens (d : Datum) (items : List Datum) (outer : List (List Datum))
    (rest : List Token) :
    readIn (items :: outer) (d.tokens ++ rest) = readIn ((d.reread :: items) :: outer) rest := by
  cases d with
  | number x => rfl
  | bool b => rfl
  | symbol name => rfl
  | list ds =>
    -- the list is opened, filled in reverse and closed
    rw [tokens, List.cons_append, List.append_assoc, readIn, readIn_tokensAll ds [], List.append_nil]
    change readIn ((list (rereadAll ds).reverse.reverse :: items) :: outer) rest = _
    rw [List.reverse_reverse]
    rfl
theorem readIn_tokensAll (ds items : List Datum) (outer : List (List Datum)) (rest : List Token) :
    readIn (items :: outer) (tokensAll ds ++ rest) =
      readIn (((rereadAll ds).reverse ++ items) :: outer) rest := by
  cases ds with
  | nil => rfl
  | cons d ds =>
    rw [tokensAll, List.append_assoc, readIn_tokens d, readIn_tokensAll ds, rereadAll,
      List.reverse_cons, List.append_assoc]
    rfl
end

theorem read_tokens (d : Datum) (rest : List Token) :
    read (d.tokens ++ rest) = (.ok d.reread, rest) := by
  cases d with
  | number x => rfl
  | bool b => rfl
  | symbol name => rfl
  | list ds =>
    unfold read
    rw [tokens, List.cons_append, List.append_assoc, readIn, readIn_tokensAll ds [], List.append_nil]
    change (Except.ok (list (rereadAll ds).reverse.reverse), rest) = _
    rw [List.reverse_reverse]
    rfl

theorem tokens_ne_nil (d : Datum) : d.tokens ≠ [] := by
  cases d <;> nofun

end Datum

/-- The tokens of data are read to their end as the data again. -/
theorem Program.ofTokens_tokensAll (ds : List Datum) :
    ofTokens (Datum.tokensAll ds) = ⟨Datum.rereadAll ds, none⟩ := by
  induction ds with
  | nil =>
    rw [ofTokens]
    rfl
  | cons d ds ih =>
    have hne : d.tokens ++ Datum.tokensAll ds ≠ [] := by
      intro h
      exact d.tokens_ne_nil (List.append_eq_nil_iff.mp h).1
    rw [Datum.tokensAll, ofTokens, dif_neg hne]
    simp only [Datum.read_tokens, ih]
    rfl

namespace Datum

mutual
/-- The data that can be read: words are what they stand for. -/
def Readable : Datum → Prop
  | number x => x ≠ .nan
  | bool _ => True
  | symbol name => ofWord name = symbol name
  | list items => ReadableAll items
/-- Every one of several data can be read. -/
def ReadableAll : List Datum → Prop
  | [] => True
  | d :: ds => d.Readable ∧ ReadableAll ds
end

theorem readableAll_iff {ds : List Datum} : ReadableAll ds ↔ ∀ d ∈ ds, d.Readable := by
  induction ds with
  | nil => simp [ReadableAll]
  | cons d ds ih => simp [ReadableAll, ih]

theorem readable_ofWord (w : String) : (ofWord w).Readable := by
  rcases ofWord_cases w with ⟨b, h⟩ | ⟨x, hx, h⟩ | h
  · rw [h]
    trivial
  · rw [h]
    exact hx
  · rw [h]
    exact h

theorem readable_list_reverse {items : List Datum} (h : ∀ d ∈ items, d.Readable) :
    (list items.reverse).Readable :=
  readableAll_iff.mpr fun d hd => h d (List.mem_reverse.mp hd)

theorem readable_of_readIn (stack : List (List Datum)) {ts rest : List Token} {d : Datum}
    (hs : ∀ items ∈ stack, ∀ e ∈ items, e.Readable) (h : readIn stack ts = (.ok d, rest)) :
    d.Readable := by
  induction ts generalizing stack with
  | nil => cases h
  | cons t ts ih =>
    cases t with
    | lparen =>
      exact ih ([] :: stack) (List.forall_mem_cons.mpr ⟨by simp, hs⟩) h
    | rparen =>
      rcases stack with _ | ⟨items, _ | ⟨outer, stack⟩⟩
      · cases h
      · cases h
        exact readable_list_reverse (hs items List.mem_cons_self)
      · simp only [List.forall_mem_cons] at hs
        obtain ⟨hitems, houter, hstack⟩ := hs
        refine ih ((list items.reverse :: outer) :: stack) ?_ h
        simp only [List.forall_mem_cons]
        exact ⟨⟨readable_list_reverse hitems, houter⟩, hstack⟩
    | word w =>
      rcases stack with _ | ⟨items, stack⟩
      · cases h
        exact readable_ofWord w
      · simp only [List.forall_mem_cons] at hs
        refine ih ((ofWord w :: items) :: stack) ?_ h
        simp only [List.forall_mem_cons]
        exact ⟨⟨readable_ofWord w, hs.1⟩, hs.2⟩

end Datum

theorem Program.readable (ts : List Token) : Datum.ReadableAll (ofTokens ts).forms := by
  fun_induction ofTokens ts with
  | case1 => trivial
  | case2 ts hts fault hread => trivial
  | case3 ts hts form hread hlt rest ih =>
    have hpair : Datum.readIn [] ts = (.ok form, (Datum.read ts).2) := by
      rw [← hread]
      rfl
    exact ⟨Datum.readable_of_readIn [] (by simp) hpair, ih⟩

end SmallScheme
