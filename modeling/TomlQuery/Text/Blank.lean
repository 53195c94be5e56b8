/-! # White space

The characters that separate words of shell output and that are trimmed from the values of
environment variables: the five ASCII control blanks, the space, the space separators of
Unicode, its two line separators and the byte order mark.
-/
namespace TomlQuery.Text

def isBlank (c : Char) : Bool :=
  (0x09 ≤ c.val && c.val ≤ 0x0d) || c.val = 0x20 || c.val = 0xa0 || c.val = 0x1680 ||
  (0x2000 ≤ c.val && c.val ≤ 0x200a) || c.val = 0x2028 || c.val = 0x2029 || c.val = 0x202f ||
  c.val = 0x205f || c.val = 0x3000 || c.val = 0xfeff

def trimStart (text : List Char) : List Char := text.dropWhile isBlank

def trim (text : List Char) : List Char := (trimStart (trimStart text).reverse).reverse

end TomlQuery.Text
