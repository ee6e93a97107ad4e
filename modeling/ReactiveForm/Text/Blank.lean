namespace ReactiveForm.Text

/-! White space around a piece of text. The class is the Unicode property
`White_Space`, which has twenty-five members. -/

/-- Membership in the Unicode property `White_Space`. -/
def isBlank (letter : Char) : Bool :=
  let code := letter.val.toNat
  (9 ≤ code && code ≤ 13) || code == 0x20 || code == 0x85 || code == 0xA0 ||
    code == 0x1680 || (0x2000 ≤ code && code ≤ 0x200A) || code == 0x2028 ||
    code == 0x2029 || code == 0x202F || code == 0x205F || code == 0x3000

example : ("\t\n\x0b\x0c\r \u0085\u00a0\u1680\u2000\u200a\u2028\u2029\u202f\u205f\u3000".toList.all
    isBlank) = true := by decide

example : isBlank '\u200b' = false ∧ isBlank '\ufeff' = false := by decide

def trimFront (letters : List Char) : List Char :=
  letters.dropWhile isBlank

def trimLetters (letters : List Char) : List Char :=
  (trimFront (trimFront letters).reverse).reverse

def trim (text : String) : String :=
  String.ofList (trimLetters text.toList)

end ReactiveForm.Text
