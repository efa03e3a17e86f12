/-!
# UTF-16 code units

The code units of a text: a character below `0x10000` is one unit, any other is a high surrogate
followed by a low one. Strings stay strings; the units are a view of them that hashing reads.
-/

namespace HashTrie.Utf16

/-- The high surrogate of a character outside the basic plane. -/
def highSurrogate (code : UInt32) : UInt16 :=
  (0xd800 : UInt16) + ((code - 0x10000) >>> 10).toUInt16

/-- The low surrogate of a character outside the basic plane. -/
def lowSurrogate (code : UInt32) : UInt16 :=
  (0xdc00 : UInt16) + ((code - 0x10000) &&& 0x3ff).toUInt16

/-- The one or two code units of a character. -/
def unitsOfChar (c : Char) : List UInt16 :=
  if c.val < 0x10000 then [c.val.toUInt16] else [highSurrogate c.val, lowSurrogate c.val]

/-- The code units of a list of characters. -/
def unitsOfChars (cs : List Char) : List UInt16 :=
  cs.flatMap unitsOfChar

/-- The code units of a string. -/
def units (s : String) : List UInt16 :=
  unitsOfChars s.toList

@[simp] theorem unitsOfChars_nil : unitsOfChars [] = [] := rfl

@[simp] theorem unitsOfChars_cons (c : Char) (cs : List Char) :
    unitsOfChars (c :: cs) = unitsOfChar c ++ unitsOfChars cs := rfl

end HashTrie.Utf16
