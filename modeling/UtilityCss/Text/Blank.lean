set_option autoImplicit false

namespace UtilityCss

def blankRanges : List (Nat × Nat) :=
  [(0x09, 0x0D), (0x20, 0x20), (0x85, 0x85), (0xA0, 0xA0), (0x1680, 0x1680), (0x2000, 0x200A),
   (0x2028, 0x2029), (0x202F, 0x202F), (0x205F, 0x205F), (0x3000, 0x3000)]

def isBlank (c : Char) : Bool :=
  blankRanges.any fun (low, high) => low ≤ c.toNat && c.toNat ≤ high

namespace Text

def dropWhileEnd (test : Char → Bool) (text : List Char) : List Char :=
  (text.reverse.dropWhile test).reverse

def trimStart (text : List Char) : List Char := text.dropWhile isBlank

theorem length_trimStart_le (text : List Char) : (trimStart text).length ≤ text.length :=
  (List.dropWhile_suffix isBlank (l := text)).length_le

def trimEnd (text : List Char) : List Char := dropWhileEnd isBlank text

def trim (text : List Char) : List Char := trimEnd (trimStart text)

def trimWhere (test : Char → Bool) (text : List Char) : List Char :=
  dropWhileEnd test (text.dropWhile test)

end Text

def trimText (text : String) : String := String.ofList (Text.trim text.toList)

end UtilityCss
