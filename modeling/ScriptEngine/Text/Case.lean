import ScriptEngine.Text.CaseTable
import ScriptEngine.Text.Printable

/-!
# Upper and lower case

Full case mapping of strings, character by character. The only character whose mapping looks at
its neighbours is the capital sigma, which has its own small letter at the end of a word.

## Main definitions

* `ScriptEngine.Text.upper`, `ScriptEngine.Text.lower`: the mappings of strings;
* `ScriptEngine.Text.endsWord`: where the final sigma stands.
-/

namespace ScriptEngine.Text

/-- A character mapped by a table of runs and by one of longer mappings, which have no character in
common. -/
def mapCase (runs : List CaseRun) (expansions : List (Nat × List Nat)) (c : Char) : List Char :=
  match expansions.lookup c.toNat with
  | some text => text.map Char.ofNat
  | none =>
    match runs.findSome? (·.map? c.toNat) with
    | some n => [Char.ofNat n]
    | none => [c]

/-- The upper case of one character. -/
def upperChar (c : Char) : List Char :=
  if c.toNat < 0x80 then [c.toUpper] else mapCase upperRuns upperExpansions c

/-- The lower case of one character away from its neighbours. -/
def lowerChar (c : Char) : List Char :=
  if c.toNat < 0x80 then [c.toLower] else mapCase lowerRuns lowerExpansions c

/-- Whether the first character that is not passed over has a case. -/
def nearestIsCased (cs : List Char) : Bool :=
  match cs.dropWhile (inRanges ignorableRanges) with
  | c :: _ => inRanges casedRanges c
  | [] => false

/-- A character ends a word when a cased character comes before it and none comes after it.
`before` lists the characters on the left, nearest first. -/
def endsWord (before after : List Char) : Bool :=
  nearestIsCased before && !nearestIsCased after

/-- The lower case of the second list, which follows the first (nearest character first). -/
def lowerFrom : List Char → List Char → List Char
  | _, [] => []
  | before, c :: after =>
    (if c = 'Σ' then [if endsWord before after then 'ς' else 'σ'] else lowerChar c)
      ++ lowerFrom (c :: before) after

/-- **Upper case** of a string. -/
def upper (s : String) : String :=
  String.ofList (s.toList.flatMap upperChar)

/-- **Lower case** of a string. -/
def lower (s : String) : String :=
  String.ofList (lowerFrom [] s.toList)

end ScriptEngine.Text
