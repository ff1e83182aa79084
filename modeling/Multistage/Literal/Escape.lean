/-!
The written form of one 16-bit unit: a backslash and the octal digits of a value up to 255, or
`\u` and four hexadecimal digits of a larger one.
-/

namespace Multistage.Literal

def hexDigits (unit : Nat) : List Char :=
  [unit / 0x1000 % 16, unit / 0x100 % 16, unit / 0x10 % 16, unit % 16].map Nat.digitChar

def octalDigits (unit : Nat) : List Char :=
  Nat.toDigits 8 unit

def escape (unit : UInt16) : List Char :=
  if unit.toNat ≤ 0xFF then
    '\\' :: octalDigits unit.toNat
  else
    '\\' :: 'u' :: hexDigits unit.toNat

def escapeLength (unit : UInt16) : Nat :=
  if unit.toNat < 0x8 then 2
  else if unit.toNat < 0x40 then 3
  else if unit.toNat ≤ 0xFF then 4
  else 6

theorem length_octalDigits : ∀ unit ≤ 0xFF,
    (octalDigits unit).length = if unit < 0x8 then 1 else if unit < 0x40 then 2 else 3 := by
  decide +kernel

theorem length_escape (unit : UInt16) : (escape unit).length = escapeLength unit := by
  by_cases short : unit.toNat ≤ 0xFF
  · have digits := length_octalDigits unit.toNat short
    simp only [escape, escapeLength, short, if_true, List.length_cons, digits]
    split
    · rfl
    · split <;> rfl
  · have long : ¬ unit.toNat < 0x8 ∧ ¬ unit.toNat < 0x40 := by omega
    simp [escape, escapeLength, short, long, hexDigits]

end Multistage.Literal
