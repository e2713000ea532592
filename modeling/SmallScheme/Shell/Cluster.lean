import SmallScheme.Shell.BreakClass

/-!
Clusters: the pieces of a text that a reader takes for one character, by the Unicode rules for
extended grapheme clusters.
-/
namespace SmallScheme.Shell

/-- Whether a mark may stand between a consonant and the one that a linker ties to it. -/
def isConjunctMark (c : Char) : Bool :=
  let k := BreakClass.ofChar c
  k = .joiner || (k = .extender && c.toNat ≠ 0x200C)

/-- Whether a text, given backwards, ends in a consonant that is tied to the next one. -/
def awaitsConsonant (before : List Char) : Bool :=
  (before.takeWhile isConjunctMark).any (BreakClass.lists BreakClass.linkers ·.toNat) &&
  (before.dropWhile isConjunctMark).head?.map BreakClass.ofChar = some .consonant

/-- Whether a text, given backwards, ends in a pictograph that is joined to the next one. -/
def awaitsPictograph : List Char → Bool
  | [] => false
  | c :: before =>
    BreakClass.ofChar c = .joiner &&
    (before.dropWhile (BreakClass.ofChar · = .extender)).head?.map BreakClass.ofChar =
      some .pictograph

/-- Whether a text, given backwards, ends in half a flag. -/
def awaitsRegional (before : List Char) : Bool :=
  (before.takeWhile (BreakClass.ofChar · = .regional)).length % 2 = 1

/-- Whether a character belongs to the cluster before it, which is given backwards. -/
def joins (before : List Char) (c : Char) : Bool :=
  match before.head?.map BreakClass.ofChar, BreakClass.ofChar c with
  | none, _ => false
  | some a, b =>
    if a.standsAlone || b.standsAlone then a = .carriageReturn && b = .lineFeed
    else
      b.attaches || a = .prepended || a.continuesSyllable b ||
      (b = .consonant && awaitsConsonant before) ||
      (b = .pictograph && awaitsPictograph before) ||
      (b = .regional && awaitsRegional before)

/-- The clusters of a text that follows a part of the first one, which is given backwards. -/
def clustersFrom (before : List Char) : List Char → List (List Char)
  | [] => [before.reverse]
  | c :: cs =>
    if joins before c then clustersFrom (c :: before) cs
    else before.reverse :: clustersFrom [c] cs

/-- The clusters of a text. -/
def clusters : List Char → List (List Char)
  | [] => []
  | c :: cs => clustersFrom [c] cs

end SmallScheme.Shell
