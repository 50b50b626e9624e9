/-!
# Searching and splitting

Places where one text stands inside another.

## Main definitions

* `ScriptEngine.Text.occursIn`: whether a text stands somewhere in another;
* `ScriptEngine.Text.split`: the pieces between the occurrences of a separator.
-/

namespace ScriptEngine.Text

/-- Whether `sub` stands somewhere in the text. -/
def occursIn (sub : List Char) : List Char → Bool
  | [] => sub.isEmpty
  | c :: cs => sub.isPrefixOf (c :: cs) || occursIn sub cs

/-- The pieces of a text between the occurrences of `sep`, found from the left and without
overlap. `skip` characters of an occurrence are still to be passed over, and `piece` holds the
current piece, last character first. -/
def splitFrom (sep : List Char) : Nat → List Char → List Char → List (List Char)
  | _, piece, [] => [piece.reverse]
  | skip + 1, piece, _ :: cs => splitFrom sep skip piece cs
  | 0, piece, c :: cs =>
    if sep.isPrefixOf (c :: cs) then piece.reverse :: splitFrom sep (sep.length - 1) [] cs
    else splitFrom sep 0 (c :: piece) cs

/-- **Splitting**: the pieces between the occurrences of a separator. The empty separator stands
at both ends and between any two characters. -/
def split (sep text : List Char) : List (List Char) :=
  if sep.isEmpty then [] :: (text.map fun c => [c]) ++ [[]]
  else splitFrom sep 0 [] text

end ScriptEngine.Text
