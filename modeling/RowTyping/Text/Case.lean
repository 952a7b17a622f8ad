import RowTyping.Text.CaseData

/-! # Letter case

Full case conversion of text. A character may become several, and a capital
sigma becomes a final sigma at the end of a word. -/

namespace RowTyping.Text

/-- Whether a run takes a character. -/
def CaseRun.covers (r : CaseRun) (c : Char) : Bool :=
  r.first ≤ c.toNat && c.toNat ≤ r.last && (c.toNat - r.first) % r.step == 0

/-- The form of a character by a list of runs and a list of expansions; a character in neither
is its own form. -/
def convertChar (runs : List CaseRun) (expansions : List (Nat × List Nat)) (c : Char) :
    List Char :=
  match expansions.lookup c.toNat, runs.find? (·.covers c) with
  | some l, _ => l.map Char.ofNat
  | none, some r => [Char.ofNat (c.toNat + r.shift).toNat]
  | none, none => [c]

/-- Whether a character lies in one of some ranges. -/
def inRanges (ranges : List (Nat × Nat)) (c : Char) : Bool :=
  ranges.any fun r => r.1 ≤ c.toNat && c.toNat ≤ r.2

/-- Whether the next character, not counting those that case rules pass over, is a cased letter. -/
def nextIsCased (l : List Char) : Bool :=
  (l.dropWhile (inRanges caseIgnorableRanges)).head?.any (inRanges casedRanges)

/-- The lower case form of what follows the characters in `before`, which stand in reverse. -/
def lowerAfter (before : List Char) : List Char → List Char
  | [] => []
  | c :: l =>
    let form :=
      if c = 'Σ' then [if nextIsCased before && !nextIsCased l then 'ς' else 'σ']
      else convertChar lowerRuns lowerExpansions c
    form ++ lowerAfter (c :: before) l

/-- The lower case form of a text. -/
def lower (l : List Char) : List Char := lowerAfter [] l

/-- The upper case form of a text. -/
def upper (l : List Char) : List Char := l.flatMap (convertChar upperRuns upperExpansions)

/-- Whether two texts agree up to the case of their ASCII letters. -/
def sameIgnoringCase (s t : String) : Bool :=
  s.toList.map Char.toLower == t.toList.map Char.toLower

end RowTyping.Text
