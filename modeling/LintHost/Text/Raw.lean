/-
LintHost/Text/Raw.lean

Texts as the system has them: bytes, which need not be well-formed UTF-8.  Names of
files are of this kind.  Where such a text is shown, one replacement character stands
for each broken part of it; a format that holds texts only cannot take it as it is.
-/
import LintHost.Text.Utf8

namespace LintHost

/-- A text of the system. -/
structure RawText where
  bytes : List UInt8
  deriving DecidableEq, Repr, Inhabited

namespace RawText

/-- A text as the system has it. -/
def ofString (s : String) : RawText :=
  ⟨Text.encode s.toList⟩

instance : Coe String RawText := ⟨ofString⟩

instance : Append RawText := ⟨fun r s => ⟨r.bytes ++ s.bytes⟩⟩

/-- Ordered byte by byte. -/
instance : Ord RawText := ⟨compareOn bytes⟩

/-- What is shown for a text of the system. -/
def text (r : RawText) : String :=
  String.ofList (Text.decodeLossy r.bytes)

/-- Whether the bytes are those of a text. -/
def isText (r : RawText) : Bool :=
  (Text.decode? r.bytes).isSome

/-- Whether the byte that ends texts of the system is among the bytes. -/
def hasNul (r : RawText) : Bool :=
  r.bytes.contains 0

@[simp] theorem bytes_append (r s : RawText) : (r ++ s).bytes = r.bytes ++ s.bytes := rfl

end RawText

end LintHost
