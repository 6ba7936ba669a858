/-!
# Text

Map text is a list of characters, and a place in it is a count of characters. The count of bytes that the
host uses instead is a function of both.
-/

namespace WardleyMap

abbrev Text := List Char

namespace Text

/-- The pieces between the characters that satisfy `p`: one more than there are such characters, and
some of them may be empty. -/
def split (p : Char → Bool) : Text → List Text
  | [] => [[]]
  | c :: s => if p c then [] :: split p s else (split p s).modifyHead (c :: ·)

def find? : (s pattern : Text) → Option Nat
  | [], pattern => if pattern.isEmpty then some 0 else none
  | c :: s, pattern => if pattern.isPrefixOf (c :: s) then some 0 else (find? s pattern).map (· + 1)

def byteOffset (s : Text) (col : Nat) : Nat :=
  (String.ofList (s.take col)).utf8ByteSize

end Text

end WardleyMap
