/-! # Texts as bytes

Files and consoles carry bytes.  `decode?` reads them as UTF-8, refusing anything that is not the
encoding of a text, and `splitLine` takes the first line off them. -/

set_option autoImplicit false

namespace FencedTape.Text

def decode? (bytes : List UInt8) : Option (List Char) :=
  bytes.toByteArray.utf8Decode?.map Array.toList

/-- The bytes up to and including the first line feed, and the bytes after it.  Without a line
feed the whole is the line. -/
def splitLine : List UInt8 → List UInt8 × List UInt8
  | [] => ([], [])
  | b :: bytes =>
      if b = 10 then ([b], bytes)
      else
        let (line, rest) := splitLine bytes
        (b :: line, rest)

end FencedTape.Text
