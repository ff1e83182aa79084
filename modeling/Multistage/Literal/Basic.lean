import Multistage.Literal.Escape
import Multistage.Literal.Run

/-!
Literals: sequences of 16-bit values written as runs, each unit of a run as an escape, spread
over quoted lines that are joined by plus signs. A line is closed once it reaches 78 columns, so
a line never splits an escape and only the last one is shorter.
-/

namespace Multistage

structure Literal where
  lines : List (List UInt16)
  deriving DecidableEq

namespace Literal

def margin : List Char :=
  "    \"".toList

def fullColumn : Nat :=
  78

def lineText (line : List UInt16) : List Char :=
  line.flatMap escape

def lineLength (line : List UInt16) : Nat :=
  line.foldr (fun unit length => escapeLength unit + length) 0

theorem length_lineText (line : List UInt16) : (lineText line).length = lineLength line := by
  induction line with
  | nil => rfl
  | cons unit later ih =>
      simp only [lineText, lineLength, List.flatMap_cons, List.length_append, List.foldr_cons,
        length_escape] at ih ⊢
      omega

def isFull (line : List UInt16) : Bool :=
  fullColumn ≤ margin.length + lineLength line

def place (lines : List (List UInt16)) (unit : UInt16) : List (List UInt16) :=
  match lines with
  | [] => [[unit]]
  | line :: above => if isFull line then [unit] :: line :: above else (unit :: line) :: above

def ofUnits (units : List UInt16) : Literal :=
  { lines := ((units.foldl place []).map List.reverse).reverse }

def isEmpty (literal : Literal) : Bool :=
  literal.lines.isEmpty

def quotedLine (line : List UInt16) : List Char :=
  margin ++ lineText line ++ ['"']

def spell (literal : Literal) : List Char :=
  if literal.isEmpty then
    quotedLine []
  else
    ['+', '\n'].intercalate (literal.lines.map quotedLine)

def text (literal : Literal) : String :=
  String.ofList literal.spell

structure Encoder where
  runs : List Run := []

namespace Encoder

def push (encoder : Encoder) (value : UInt16) : Encoder :=
  { runs := Run.push encoder.runs value }

def finish (encoder : Encoder) : Literal :=
  ofUnits (encoder.runs.reverse.flatMap Run.units)

end Encoder

def ofValues (values : List UInt16) : Literal :=
  (values.foldl Encoder.push {}).finish

end Literal

end Multistage
