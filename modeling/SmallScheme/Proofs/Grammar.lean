import SmallScheme.Proofs.Reading

/-! Which sequences of tokens can be read, and how far reading goes.

The depth of tokens is the number of lists that they open and do not close. Reading one datum stops
where the depth first comes back to zero, and a program can be read to its end when the depth never
falls below zero and ends there. -/
namespace SmallScheme

namespace Token

/-- How many more lists tokens open than they close. -/
def depth (ts : List Token) : Int := ts.count lparen - ts.count rparen

/-- What a token adds to the depth. -/
def rise : Token → Int
  | lparen => 1
  | rparen => -1
  | word _ => 0

theorem depth_nil : depth [] = 0 := rfl

theorem depth_cons (t : Token) (ts : List Token) : depth (t :: ts) = t.rise + depth ts := by
  unfold depth
  cases t with
  | lparen =>
    rw [List.count_cons_self, List.count_cons_of_ne (by decide), rise]
    omega
  | rparen =>
    rw [List.count_cons_self, List.count_cons_of_ne (by decide), rise]
    omega
  | word w =>
    have hopen : Token.word w ≠ lparen := nofun
    have hclose : Token.word w ≠ rparen := nofun
    rw [List.count_cons_of_ne hopen, List.count_cons_of_ne hclose, rise]
    omega

theorem depth_append (ts us : List Token) : depth (ts ++ us) = depth ts + depth us := by
  unfold depth
  rw [List.count_append, List.count_append]
  omega

/-- The tokens close as many lists with their last one and not before. -/
structure Closes (lists : Nat) (ts : List Token) : Prop where
  last : lists + depth ts = 0
  before : ∀ k, k < ts.length → 0 < lists + depth (ts.take k)

theorem Closes.cons {lists inner : Nat} {t : Token} {ts : List Token} (h : Closes inner ts)
    (hpos : 0 < lists) (hinner : (inner : Int) = lists + t.rise) : Closes lists (t :: ts) where
  last := by
    have := h.last
    rw [depth_cons]
    omega
  before k hk := by
    cases k with
    | zero =>
      rw [List.take_zero, depth_nil]
      omega
    | succ k =>
      have := h.before k (Nat.lt_of_succ_lt_succ hk)
      rw [List.take_succ_cons, depth_cons]
      omega

/-- The tokens leave some of the lists open throughout. -/
def StaysOpen (lists : Nat) (ts : List Token) : Prop := ∀ k, 0 < lists + depth (ts.take k)

theorem StaysOpen.cons {lists inner : Nat} {t : Token} {ts : List Token} (h : StaysOpen inner ts)
    (hpos : 0 < lists) (hinner : (inner : Int) = lists + t.rise) : StaysOpen lists (t :: ts) := by
  intro k
  cases k with
  | zero =>
    rw [List.take_zero, depth_nil]
    omega
  | succ k =>
    have := h k
    rw [List.take_succ_cons, depth_cons]
    omega

end Token

/-- A parenthesis, or a datum that is not a list. -/
inductive Piece where
  | lparen
  | rparen
  | leaf (d : Datum)

/-- A token with its word read. -/
def Piece.ofToken : Token → Piece
  | .lparen => lparen
  | .rparen => rparen
  | .word w => leaf (.ofWord w)

namespace Datum
open Token

mutual
/-- The pieces of a datum: a list is its items between parentheses, and all else is itself. -/
def flatten : Datum → List Piece
  | list items => .lparen :: (flattenAll items ++ [.rparen])
  | number x => [.leaf (number x)]
  | bool b => [.leaf (bool b)]
  | symbol name => [.leaf (symbol name)]
/-- The pieces of several data, one after another. -/
def flattenAll : List Datum → List Piece
  | [] => []
  | d :: ds => d.flatten ++ flattenAll ds
end

theorem flattenAll_reverse_cons (d : Datum) (ds : List Datum) :
    flattenAll (d :: ds).reverse = flattenAll ds.reverse ++ d.flatten := by
  have happend (cs : List Datum) : flattenAll (cs ++ [d]) = flattenAll cs ++ d.flatten := by
    induction cs with
    | nil => simp [flattenAll]
    | cons c cs ih => rw [List.cons_append, flattenAll, ih, flattenAll, List.append_assoc]
  rw [List.reverse_cons, happend]

theorem flatten_ofWord (w : String) : (ofWord w).flatten = [Piece.ofToken (.word w)] := by
  rcases ofWord_cases w with ⟨b, h⟩ | ⟨x, _, h⟩ | h
  · rw [Piece.ofToken, h]
    rfl
  · rw [Piece.ofToken, h]
    rfl
  · rw [Piece.ofToken, h]
    rfl

/-- The pieces that were read into open lists. -/
def opened : List (List Datum) → List Piece
  | [] => []
  | items :: outer => opened outer ++ .lparen :: flattenAll items.reverse

theorem opened_push (d : Datum) (items : List Datum) (outer : List (List Datum)) :
    opened ((d :: items) :: outer) = opened (items :: outer) ++ d.flatten := by
  rw [opened, opened, flattenAll_reverse_cons, List.append_assoc]
  rfl

/-- With lists open, the reader has read `used` into the datum `d` and left `rest`. -/
structure Reads (stack : List (List Datum)) (used rest : List Token) (d : Datum) : Prop where
  result : readIn stack (used ++ rest) = (.ok d, rest)
  flatten : d.flatten = opened stack ++ used.map Piece.ofToken

theorem Reads.cons {stack inner : List (List Datum)} {t : Token} {used rest : List Token} {d : Datum}
    (h : Reads inner used rest d)
    (hstep : readIn stack (t :: (used ++ rest)) = readIn inner (used ++ rest))
    (hopened : opened inner = opened stack ++ [Piece.ofToken t]) :
    Reads stack (t :: used) rest d where
  result := hstep.trans h.result
  flatten := by rw [h.flatten, hopened, List.append_assoc, List.map_cons, List.singleton_append]

/-- Inside of lists, reading goes on to the token that closes the outermost of them, and takes all
tokens if there is none. -/
theorem readIn_stops (items : List Datum) (outer : List (List Datum)) (ts : List Token) :
    (∃ used rest d, ts = used ++ rest ∧ Reads (items :: outer) used rest d ∧
        Closes (outer.length + 1) used) ∨
      (readIn (items :: outer) ts = (.error .unexpectedEnd, []) ∧
        StaysOpen (outer.length + 1) ts) := by
  induction ts generalizing items outer with
  | nil =>
    refine Or.inr ⟨rfl, fun k => ?_⟩
    rw [List.take_nil, depth_nil]
    omega
  | cons t ts ih =>
    -- one token leads from the open lists to others, unless it closes the last
    have hstep (items' : List Datum) (outer' : List (List Datum))
        (hread : ∀ us, readIn (items :: outer) (t :: us) = readIn (items' :: outer') us)
        (hopened : opened (items' :: outer') = opened (items :: outer) ++ [Piece.ofToken t])
        (hrise : ((outer'.length + 1 : Nat) : Int) = ((outer.length + 1 : Nat) : Int) + t.rise) :
        (∃ used rest d, t :: ts = used ++ rest ∧ Reads (items :: outer) used rest d ∧
            Closes (outer.length + 1) used) ∨
          (readIn (items :: outer) (t :: ts) = (.error .unexpectedEnd, []) ∧
            StaysOpen (outer.length + 1) (t :: ts)) := by
      rcases ih items' outer' with ⟨used, rest, d, rfl, hreads, hcloses⟩ | ⟨hend, hopen⟩
      · exact Or.inl ⟨t :: used, rest, d, rfl, hreads.cons (hread _) hopened,
          hcloses.cons (Nat.succ_pos _) hrise⟩
      · exact Or.inr ⟨(hread ts).trans hend, hopen.cons (Nat.succ_pos _) hrise⟩
    cases t with
    | lparen =>
      refine hstep [] (items :: outer) (fun _ => rfl) rfl ?_
      rw [List.length_cons, rise]
      omega
    | word w =>
      refine hstep (ofWord w :: items) outer (fun _ => rfl) ?_ ?_
      · rw [opened_push, flatten_ofWord]
      · rw [rise]
        omega
    | rparen =>
      cases outer with
      | nil =>
        refine Or.inl ⟨[.rparen], ts, list items.reverse, rfl, ⟨rfl, rfl⟩, rfl, fun k hk => ?_⟩
        have hzero : k = 0 := Nat.lt_one_iff.mp hk
        rw [hzero, List.take_zero, depth_nil]
        omega
      | cons items' outer =>
        refine hstep (list items.reverse :: items') outer (fun _ => rfl) ?_ ?_
        · rw [opened_push, flatten, opened]
          simp [opened, Piece.ofToken]
        · rw [List.length_cons, rise]
          omega

/-- The depth comes back to zero with the last of some tokens and not before. -/
structure Returns (ts : List Token) : Prop where
  nonempty : 0 < ts.length
  last : depth ts = 0
  before : ∀ k, 0 < k → k < ts.length → 0 < depth (ts.take k)

/-- Reading one datum goes on to where the depth first comes back to zero, and takes all tokens if it
never does. -/
theorem read_stops {t : Token} (ht : t ≠ .rparen) (ts : List Token) :
    (∃ used rest d, t :: ts = used ++ rest ∧ Reads [] used rest d ∧ Returns used) ∨
      (read (t :: ts) = (.error .unexpectedEnd, []) ∧
        ∀ k, 0 < k → 0 < depth ((t :: ts).take k)) := by
  cases t with
  | rparen => exact absurd rfl ht
  | word w =>
    -- a word is a datum of its own
    refine Or.inl ⟨[.word w], ts, ofWord w, rfl, ⟨rfl, flatten_ofWord w⟩, Nat.one_pos, rfl, ?_⟩
    intro k hk hlt
    exact absurd hk (Nat.not_lt.mpr (Nat.le_of_lt_succ hlt))
  | lparen =>
    -- the list that was opened is the only one
    have hdepth (us : List Token) (k : Nat) :
        depth ((lparen :: us).take (k + 1)) = 1 + depth (us.take k) := by
      rw [List.take_succ_cons, depth_cons]
      rfl
    rcases readIn_stops [] [] ts with ⟨used, rest, d, rfl, hreads, hcloses⟩ | ⟨hend, hopen⟩
    · refine Or.inl ⟨lparen :: used, rest, d, rfl, hreads.cons rfl rfl, Nat.succ_pos _, ?_, ?_⟩
      · rw [depth_cons]
        exact hcloses.last
      · intro k hk hlt
        obtain ⟨j, rfl⟩ := Nat.exists_eq_succ_of_ne_zero (Nat.ne_of_gt hk)
        rw [hdepth]
        exact hcloses.before j (Nat.lt_of_succ_lt_succ hlt)
    · refine Or.inr ⟨hend, fun k hk => ?_⟩
      obtain ⟨j, rfl⟩ := Nat.exists_eq_succ_of_ne_zero (Nat.ne_of_gt hk)
      rw [hdepth]
      exact hopen j

end Datum

namespace Program
open Token

/-- What the depth of tokens says about a program with the given fault. -/
def Explains (ts : List Token) : Option SyntaxFault → Prop
  | none => (∀ k, 0 ≤ depth (ts.take k)) ∧ depth ts = 0
  | some .unexpectedEnd => (∀ k, 0 ≤ depth (ts.take k)) ∧ 0 < depth ts
  | some .unexpectedClose => ∃ k, depth (ts.take k) < 0

/-- Tokens of one datum do not change what the depth says about those after them. -/
theorem Explains.append {used rest : List Token} {fault? : Option SyntaxFault}
    (h : Explains rest fault?) (hused : Datum.Returns used) : Explains (used ++ rest) fault? := by
  -- past the datum the depth is that of the rest, and inside of it the depth is positive
  have hwhole : depth (used ++ rest) = depth rest := by
    rw [depth_append, hused.last, Int.zero_add]
  have hafter (k : Nat) : depth ((used ++ rest).take (used.length + k)) = depth (rest.take k) := by
    rw [List.take_length_add_append, depth_append, hused.last, Int.zero_add]
  have hall (hrest : ∀ k, 0 ≤ depth (rest.take k)) (k : Nat) :
      0 ≤ depth ((used ++ rest).take k) := by
    rcases Nat.lt_or_ge k used.length with hk | hk
    · rw [List.take_append_of_le_length (Nat.le_of_lt hk)]
      rcases Nat.eq_zero_or_pos k with rfl | hk0
      · exact Int.le_refl 0
      · exact Int.le_of_lt (hused.before k hk0 hk)
    · obtain ⟨j, rfl⟩ := Nat.le.dest hk
      rw [hafter]
      exact hrest j
  rcases fault? with _ | _ | _
  · exact ⟨hall h.1, hwhole.trans h.2⟩
  · exact ⟨hall h.1, hwhole.symm ▸ h.2⟩
  · obtain ⟨k, hk⟩ := h
    exact ⟨used.length + k, (hafter k).symm ▸ hk⟩

theorem explains_fault (ts : List Token) : Explains ts (ofTokens ts).fault? := by
  fun_induction ofTokens ts with
  | case1 => exact ⟨fun k => by rw [List.take_nil]; exact Int.le_refl 0, rfl⟩
  | case2 ts hts fault hread =>
    obtain ⟨t, ts, rfl⟩ := List.exists_cons_of_ne_nil hts
    by_cases ht : t = .rparen
    · subst ht
      cases hread
      refine ⟨1, ?_⟩
      rw [List.take_succ_cons, List.take_zero]
      decide
    · rcases Datum.read_stops ht ts with ⟨used, rest, d, hsplit, hreads, -⟩ | ⟨hend, hpos⟩
      · rw [hsplit, Datum.read, hreads.result] at hread
        cases hread
      · rw [hend] at hread
        cases hread
        refine ⟨fun k => ?_, ?_⟩
        · rcases Nat.eq_zero_or_pos k with rfl | hk
          · exact Int.le_refl 0
          · exact Int.le_of_lt (hpos k hk)
        · have hlast := hpos (t :: ts).length (Nat.succ_pos _)
          rwa [List.take_length] at hlast
  | case3 ts hts form hread hlt program ih =>
    obtain ⟨t, ts, rfl⟩ := List.exists_cons_of_ne_nil hts
    have ht : t ≠ .rparen := by
      rintro rfl
      cases hread
    rcases Datum.read_stops ht ts with ⟨used, rest, d, hsplit, hreads, hused⟩ | ⟨hend, -⟩
    · have hrest : (Datum.read (t :: ts)).2 = rest := by
        rw [hsplit, Datum.read, hreads.result]
      rw [hrest] at ih
      have hfault : program.fault? = (ofTokens rest).fault? := by rw [← hrest]
      rw [hsplit, hfault]
      exact ih.append hused
    · rw [hend] at hread
      cases hread

/-- The depth of tokens tells whether they can be read to their end, and if not, why. -/
theorem complete_by_depth (ts : List Token) :
    ((∃ ds, (ofTokens ts).complete = .ok ds) ↔
        (∀ k, 0 ≤ depth (ts.take k)) ∧ depth ts = 0) ∧
      ((ofTokens ts).complete = .error .unexpectedClose ↔ ∃ k, depth (ts.take k) < 0) ∧
      ((ofTokens ts).complete = .error .unexpectedEnd ↔
        (∀ k, 0 ≤ depth (ts.take k)) ∧ 0 < depth ts) := by
  -- a depth that never falls below zero excludes one that does
  have hnever (hall : ∀ k, 0 ≤ depth (ts.take k)) : ¬ ∃ k, depth (ts.take k) < 0 := by
    rintro ⟨k, hk⟩
    exact absurd (hall k) (Int.not_le.mpr hk)
  have h := explains_fault ts
  unfold complete
  generalize (ofTokens ts).fault? = fault? at h ⊢
  rcases fault? with _ | _ | _
  · obtain ⟨hall, hzero⟩ := h
    simp [hall, hzero]
  · obtain ⟨hall, hpos⟩ := h
    simp [hall, hpos, Int.ne_of_gt hpos]
  · have hbelow : ∃ k, depth (ts.take k) < 0 := h
    have hnot : ¬ ∀ k, 0 ≤ depth (ts.take k) := fun hall => hnever hall hbelow
    simp [hnot, hbelow]

end Program

/-- How many more opening than closing parentheses there are among some texts. -/
def parenDepth (texts : List String) : Int := texts.count "(" - texts.count ")"

namespace Token

theorem depth_map_ofText (texts : List String) : depth (texts.map ofText) = parenDepth texts := by
  induction texts with
  | nil => rfl
  | cons t texts ih =>
    rw [List.map_cons, depth_cons, ih]
    unfold parenDepth ofText
    split
    · next h =>
      subst h
      rw [List.count_cons_self, List.count_cons_of_ne (by decide), rise]
      omega
    split
    · next h =>
      subst h
      rw [List.count_cons_self, List.count_cons_of_ne (by decide), rise]
      omega
    · next hopen hclose =>
      rw [List.count_cons_of_ne hopen, List.count_cons_of_ne hclose, rise]
      omega

theorem depth_take_map_ofText (texts : List String) (k : Nat) :
    depth ((texts.map ofText).take k) = parenDepth (texts.take k) := by
  rw [← List.map_take, depth_map_ofText]

/-- A word of a text is not a parenthesis. -/
theorem map_ofText_text {ts : List Token} (h : Coherent ts) : (ts.map text).map ofText = ts := by
  induction ts with
  | nil => rfl
  | cons t ts ih =>
    cases t with
    | lparen => exact congrArg (lparen :: ·) (ih h)
    | rparen => exact congrArg (rparen :: ·) (ih h)
    | word w =>
      obtain ⟨-, hword, hrest⟩ := h
      have hne (c : Char) (hc : Text.isDelimiter c = true) : w ≠ String.ofList [c] := by
        rintro rfl
        rw [String.toList_ofList] at hword
        rw [hword.1] at hc
        cases hc
      have hopen : w ≠ "(" := hne '(' (by decide)
      have hclose : w ≠ ")" := hne ')' (by decide)
      have hw : ofText w = word w := by rw [ofText, if_neg hopen, if_neg hclose]
      rw [List.map_cons, List.map_cons, ih hrest, text, hw]

end Token

theorem Token.ofText_ne_rparen {t : String} (ht : t ≠ ")") : ofText t ≠ .rparen := by
  unfold ofText
  rw [if_neg ht]
  split <;> nofun

namespace Datum

/-- Where the depth of some texts first comes back to zero, reading them stops. -/
theorem read_texts {t : String} {ts : List String} {k : Nat} (ht : t ≠ ")") (hk : 1 ≤ k)
    (hzero : parenDepth ((t :: ts).take k) = 0)
    (hleast : ∀ j, 1 ≤ j → j < k → parenDepth ((t :: ts).take j) ≠ 0) :
    ∃ d, read ((t :: ts).map Token.ofText) = (.ok d, ((t :: ts).drop k).map Token.ofText) ∧
      d.flatten = ((t :: ts).take k).map fun t => Piece.ofToken (Token.ofText t) := by
  have hstops := read_stops (Token.ofText_ne_rparen ht) (ts.map Token.ofText)
  rw [← List.map_cons] at hstops
  generalize t :: ts = q at hzero hleast hstops ⊢
  rcases hstops with ⟨used, rest, d, hsplit, hreads, hused⟩ | ⟨-, hpos⟩
  · have hdepth (j : Nat) (hj : j ≤ used.length) :
        parenDepth (q.take j) = Token.depth (used.take j) := by
      rw [← Token.depth_take_map_ofText, hsplit, List.take_append_of_le_length hj]
    -- the tokens that were used end with the first return to zero, so there are as many as `k`
    have hlength : used.length = k := by
      rcases Nat.lt_trichotomy used.length k with hlt | heq | hgt
      · have hend := hdepth used.length (Nat.le_refl _)
        rw [List.take_length, hused.last] at hend
        exact absurd hend (hleast used.length hused.nonempty hlt)
      · exact heq
      · have hpos := hused.before k hk hgt
        rw [← hdepth k (Nat.le_of_lt hgt), hzero] at hpos
        exact absurd hpos (Int.lt_irrefl 0)
    have htake : (q.take k).map Token.ofText = used := by
      rw [List.map_take, hsplit, ← hlength, List.take_left]
    have hdrop : (q.drop k).map Token.ofText = rest := by
      rw [List.map_drop, hsplit, ← hlength, List.drop_left]
    refine ⟨d, ?_, ?_⟩
    · rw [hsplit, read, hreads.result, hdrop]
    · rw [hreads.flatten, ← htake, List.map_map]
      rfl
  · have := hpos k hk
    rw [Token.depth_take_map_ofText, hzero] at this
    exact absurd this (Int.lt_irrefl 0)

/-- Where the depth of some texts never comes back to zero, all of them are used up. -/
theorem read_texts_open {t : String} {ts : List String} (ht : t ≠ ")")
    (hnone : ∀ k, 1 ≤ k → parenDepth ((t :: ts).take k) ≠ 0) :
    read ((t :: ts).map Token.ofText) = (.error .unexpectedEnd, []) := by
  have hstops := read_stops (Token.ofText_ne_rparen ht) (ts.map Token.ofText)
  rw [← List.map_cons] at hstops
  rcases hstops with ⟨used, rest, d, hsplit, -, hused⟩ | ⟨hend, -⟩
  · refine absurd ?_ (hnone used.length hused.nonempty)
    rw [← Token.depth_take_map_ofText, hsplit, List.take_left, hused.last]
  · exact hend

end Datum

/-- The depth of the tokens of a text tells whether it can be read to its end, and if not, why. -/
theorem Program.complete_by_texts (text : String) :
    let texts := (tokenize text).map Token.text
    ((∃ ds, (Program.ofText text).complete = .ok ds) ↔
      (∀ k, 0 ≤ parenDepth (texts.take k)) ∧ parenDepth texts = 0) ∧
    ((Program.ofText text).complete = .error .unexpectedClose ↔
      ∃ k, parenDepth (texts.take k) < 0) ∧
    ((Program.ofText text).complete = .error .unexpectedEnd ↔
      (∀ k, 0 ≤ parenDepth (texts.take k)) ∧ 0 < parenDepth texts) := by
  -- the tokens of a text are what their texts stand for
  have htokens := Token.map_ofText_text (tokenize_coherent text)
  have hdepth (k : Nat) : Token.depth ((tokenize text).take k) =
      parenDepth (((tokenize text).map Token.text).take k) := by
    rw [← Token.depth_take_map_ofText, htokens]
  have hwhole : Token.depth (tokenize text) = parenDepth ((tokenize text).map Token.text) := by
    rw [← Token.depth_map_ofText, htokens]
  have h := complete_by_depth (tokenize text)
  simp only [hdepth, hwhole] at h
  exact h

/-- The reader accepts exactly its grammar and reads exactly one datum. Given texts as tokens, it fails
on none at all and on a closing parenthesis, which it removes. Otherwise it goes on to where the depth
first comes back to zero: what it has read is the datum with these tokens, and those after them are
left. If the depth never comes back to zero then it fails with all tokens used up. Hence a text can be
read to its end if and only if the depth never falls below zero and ends there, and the two ways in
which it can fail are that the depth falls below zero and that it ends above. -/
theorem reading_follows_depth :
    Datum.read (List.map Token.ofText []) = (.error .unexpectedEnd, []) ∧
    (∀ ts : List String, Datum.read ((")" :: ts).map Token.ofText) =
      (.error .unexpectedClose, ts.map Token.ofText)) ∧
    (∀ (t : String) (ts : List String), t ≠ ")" →
      (∀ k, 1 ≤ k → parenDepth ((t :: ts).take k) = 0 →
        (∀ j, 1 ≤ j → j < k → parenDepth ((t :: ts).take j) ≠ 0) →
        ∃ d, Datum.read ((t :: ts).map Token.ofText) =
            (.ok d, ((t :: ts).drop k).map Token.ofText) ∧
          d.flatten = ((t :: ts).take k).map fun t => Piece.ofToken (Token.ofText t)) ∧
      ((∀ k, 1 ≤ k → parenDepth ((t :: ts).take k) ≠ 0) →
        Datum.read ((t :: ts).map Token.ofText) = (.error .unexpectedEnd, []))) ∧
    (∀ text : String, let texts := (tokenize text).map Token.text
      ((∃ ds, (Program.ofText text).complete = .ok ds) ↔
        (∀ k, 0 ≤ parenDepth (texts.take k)) ∧ parenDepth texts = 0) ∧
      ((Program.ofText text).complete = .error .unexpectedClose ↔
        ∃ k, parenDepth (texts.take k) < 0) ∧
      ((Program.ofText text).complete = .error .unexpectedEnd ↔
        (∀ k, 0 ≤ parenDepth (texts.take k)) ∧ 0 < parenDepth texts)) := by
  refine ⟨rfl, fun ts => rfl, fun t ts ht => ⟨?_, ?_⟩, Program.complete_by_texts⟩
  · intro k hk hzero hleast
    exact Datum.read_texts ht hk hzero hleast
  · exact Datum.read_texts_open ht

/-- A list with a list in it, before a parenthesis that closes nothing. -/
theorem reading_follows_depth_nested :
    let q := ["(", "a", "(", ")", ")", ")"]
    (parenDepth (q.take 5) = 0 ∧ ∀ j, 1 ≤ j → j < 5 → parenDepth (q.take j) ≠ 0) ∧
      ∃ d, Datum.read (q.map Token.ofText) = (.ok d, [.rparen]) ∧
        d.flatten = [.lparen, .leaf (.ofWord "a"), .lparen, .rparen, .rparen] := by
  intro q
  have hleast : ∀ j, 1 ≤ j → j < 5 → parenDepth (q.take j) ≠ 0 := by
    intro j h1 h5
    have hj : j = 1 ∨ j = 2 ∨ j = 3 ∨ j = 4 := by omega
    rcases hj with rfl | rfl | rfl | rfl <;> decide
  refine ⟨⟨by decide, hleast⟩, ?_⟩
  exact (reading_follows_depth.2.2.1 "(" ["a", "(", ")", ")", ")"] (by decide)).1 5 (by decide)
    (by decide) hleast

end SmallScheme
