/-
# `Stencil.Package.Basic` — compiled templates as files

A package is a header, the digest of the bytecode as a seal, the length of the
bytecode, and the bytecode.  A byte string is opened only if all of that fits.
-/
import Stencil.Bytecode.Listing
import Stencil.Compile.Compiler
import Stencil.Package.Sha256

namespace Stencil

inductive PackageError where
  | badHeader
  | truncated
  | wrongLength (expected found : Nat)
  | wrongSeal
deriving DecidableEq, Repr

namespace PackageError

def message : PackageError → String
  | badHeader => "Not a packaged template (bad header)"
  | truncated => "Packaged template is truncated"
  | wrongLength expected found => s!"Expected {expected} bytes of bytecode, found {found}"
  | wrongSeal => "Seal does not match the bytecode"

end PackageError

namespace Package

def magic : Bytes := Utf8.encode "LEAF"

def version : UInt8 := 1

def header : Bytes := magic ++ [version]

end Package

namespace Template

def package (template : Template) : Bytes :=
  Package.header ++ Sha256.digest template.code ++
    Bytes.lengthField template.code.length ++ template.code

def sealOf (data : Bytes) : Bytes :=
  (data.drop Package.header.length).take Sha256.digestSize

def ofPackage (data : Bytes) : Except PackageError Template :=
  let body := data.drop (Package.header.length + Sha256.digestSize)
  let code := body.drop Bytes.lengthFieldSize
  let length := Bytes.ofLittleEndian (body.take Bytes.lengthFieldSize)
  if !Package.header.isPrefixOf data then .error .badHeader
  else if body.length < Bytes.lengthFieldSize then .error .truncated
  else if code.length ≠ length then .error (.wrongLength length code.length)
  else if Sha256.digest code ≠ sealOf data then .error .wrongSeal
  else .ok ⟨code⟩

def shown (template : Template) : String :=
  s!"Template({template.code.length} bytes)"

end Template

namespace Package

/-- The listing of a package: its header, its seal and its bytecode. -/
def listing (data : Bytes) : Except PackageError String :=
  (Template.ofPackage data).map fun template =>
    String.intercalate "\n" [
      "Header: " ++ Utf8.decodeLossy magic ++ s!", Version: {version.toNat}",
      "Seal: " ++ Bytes.hex (Template.sealOf data),
      Listing.text template.code]

end Package

end Stencil
