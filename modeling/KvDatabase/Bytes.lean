/-
Byte strings, and the stream extraction the parsers use: `>>` in the C
locale, which splits on the six ASCII whitespace bytes.
-/
import KvDatabase.Lib.Text

namespace KvDatabase

/-- A `std::string`: any bytes, NUL and those above 127 included. -/
abbrev Bytes := List UInt8

/-- A string literal of the source. -/
def ascii (s : String) : Bytes := s.toList.map fun c => UInt8.ofNat c.toNat

def newline : UInt8 := 10

/-- `isspace` in the C locale: tab, newline, vertical tab, form feed,
carriage return, space. -/
def isSpace (c : UInt8) : Bool := c == 32 || (9 ≤ c && c ≤ 13)

/-- `iss >> word`: the word read, and the rest of the stream. Once nothing
is left the stream fails, and a word read from it stays empty. -/
abbrev extract (s : Bytes) : Bytes × Bytes := Text.extract isSpace s

/-- The lines `std::getline` reads in a loop. -/
abbrev getlines (file : Bytes) : List Bytes := Text.records newline file

/-- What an extraction that succeeds reads. -/
abbrev IsWord (w : Bytes) : Prop := Text.IsWord isSpace w

/-- What an extraction may leave in an empty string: a word or nothing. -/
abbrev BlankFree (w : Bytes) : Prop := Text.BlankFree isSpace w

/-- The file ends where a line ends. -/
abbrev Terminated (file : Bytes) : Prop := Text.Terminated newline file

theorem isSpace_newline : isSpace newline = true := rfl

theorem BlankFree.newline_not_mem {w : Bytes} (h : BlankFree w) : newline ∉ w := fun hm => by
  simpa [isSpace_newline] using h _ hm

end KvDatabase
