/-!
# Characters

The codes of characters and of texts that a source gives as literals.

## Main definitions

- `ascii`, `chars`
-/

namespace AuroraOS.Lib

/-- The code of a character. -/
abbrev ascii (c : Char) : UInt8 := UInt8.ofNat c.toNat

/-- The codes of a text. -/
abbrev chars (s : String) : List UInt8 := s.toList.map ascii

end AuroraOS.Lib
