import Multistage.Formula.Basic

/-!
The text of a formula. Every operation stands in parentheses, except directly inside the
brackets of a table.
-/

namespace Multistage.Formula

def enclose (text : List Char) : List Char :=
  '(' :: text ++ [')']

def operation (enclosed : Bool) (left sign right : List Char) : List Char :=
  if enclosed then enclose (left ++ sign ++ right) else left ++ sign ++ right

def spell (enclosed : Bool) : Formula → List Char
  | input name => name.toList
  | num value => Nat.toDigits 10 value
  | mask value => '0' :: 'x' :: Nat.toDigits 16 value
  | shr left right => operation enclosed (left.spell true) ['>', '>'] (right.spell true)
  | shl left right => operation enclosed (left.spell true) ['<', '<'] (right.spell true)
  | and left right => operation enclosed (left.spell true) ['&'] (right.spell true)
  | or left right => operation enclosed (left.spell true) ['|'] (right.spell true)
  | index table position => table.toList ++ '[' :: position.spell false ++ [']']

def text (formula : Formula) : String :=
  String.ofList (formula.spell true)

end Multistage.Formula
