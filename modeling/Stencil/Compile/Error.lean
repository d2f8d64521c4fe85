/-
# `Stencil.Compile.Error` — what can go wrong while a template is compiled

Most of these are about the text of a template, and give the position of a byte in
it.  The others are about names that a template refers to: exports and files.
-/
import Stencil.Source.Argument
import Stencil.Text.CodePoint

namespace Stencil

/-- What can go wrong while a template is compiled.  Positions count bytes of the
source from zero. -/
inductive CompileError where
  | unexpectedEnd (position : Nat)
  | nulByte (position : Nat)
  | blankInTagName (position : Nat)
  | unknownTag (name : Bytes)
  | tagNotOpened (position : Nat)
  | tagNotClosed (position : Nat)
  | missingByte (found : Option UInt8) (expected : CodePoint)
  | blankInPath (path : Bytes)
  | emptyPath (path : Bytes)
  | malformedText (data : Bytes)
  | badArguments (tag : String) (fault : ArgumentFault)
  | notExported (name : String)
  | fileDoesNotExist (location : String)
  | circularInclude (location : String)
  | circularImport (name : String)
  | nestingTooDeep
deriving DecidableEq, Repr

namespace CompileError

def message : CompileError → String
  | unexpectedEnd position => s!"Unexpected end of template source at byte {position}"
  | nulByte position => s!"NUL byte in template source at byte {position}"
  | blankInTagName position => s!"Tag name contains whitespace at byte {position}"
  | unknownTag name => "Unknown tag '" ++ Utf8.decodeLossy name ++ "'"
  | tagNotOpened position => s!"Tag starting before byte {position} is never opened with '('"
  | tagNotClosed position => s!"Tag opened before byte {position} is never closed"
  | missingByte found expected =>
    "Expected " ++ expected.shown ++ ", found " ++
      (match found with
      | some b => (CodePoint.ofByte b).shown
      | none => "end of input")
  | blankInPath path => "Variable path " ++ Quoted.ofBytes path ++ " contains whitespace"
  | emptyPath path => "Empty variable path or path segment in " ++ Quoted.ofBytes path
  | malformedText data => "String literal " ++ Quoted.ofBytes data ++ " is not valid UTF-8"
  | badArguments tag fault => "Invalid arguments for tag '" ++ tag ++ "': " ++ fault.message
  | notExported name => "Nothing was exported under the name '" ++ name ++ "'"
  | fileDoesNotExist location => "Template file does not exist: " ++ location
  | circularInclude location => "Template file includes itself: " ++ location
  | circularImport name => "Export '" ++ name ++ "' imports itself"
  | nestingTooDeep => "Template blocks are nested too deeply"

end CompileError

end Stencil
