/-
# `Stencil.Source.Piece` — the source of a template, cut into pieces

A template is literal text with tags in it.  A tag starts with a pound sign, a name
and arguments in parentheses, and may have a body in braces:

    #(path)                        prints the value at a path
    #(path) { … }                  renders the body with `self` bound to the path
    #()                            is a pound sign
    #loop(path, "name") { … }      renders the body for each element
    #if(path) { … }                renders the body if the value is `true`; more
                                   clauses `##if(path) { … }` may follow, and one
                                   `##else() { … }` at the end
    #raw(path)                     prints the value at a path
    #raw() { … }                   is the body as it stands
    #embed("file")                 compiles another file in place
    #export("name") { … }          keeps the body under a name
    #import("name")                compiles the body that is kept under a name
    #extend("file")                compiles another file once the whole source is read

Reading a source needs no more than the names of the tags and the path that `self`
stands for.  It yields the pieces up to the first fault, and the fault.
-/
import Stencil.Bytecode.Path
import Stencil.Source.Reader
import Stencil.Table

namespace Stencil

inductive Tag where
  | print
  | loop
  | branch
  | raw
  | embedFile
  | exportBody
  | importBody
  | extendFile
deriving DecidableEq, Repr

abbrev TagTable := Table Bytes Tag

def builtinTags : TagTable := [
  (Utf8.encode "", .print),
  (Utf8.encode "loop", .loop),
  (Utf8.encode "if", .branch),
  (Utf8.encode "raw", .raw),
  (Utf8.encode "embed", .embedFile),
  (Utf8.encode "export", .exportBody),
  (Utf8.encode "import", .importBody),
  (Utf8.encode "extend", .extendFile)]

/-- A piece of a source: code that is known at once, or what a tag asks for. -/
inductive Piece where
  | emit (code : Block)
  | scopedBody (scope : Bytes) (body : Bytes)
  | loop (name : String) (iterable : List String) (body : Bytes)
  | conditional (branches : List (List String × Bytes)) (otherwise : Option Bytes)
  | embedFile (name : String)
  | exportBody (name : String) (body : Bytes)
  | importBody (name : String)
  | extendFile (name : String)
deriving DecidableEq, Repr

/-- The path that stands for the value of the scope. -/
def selfPath : Bytes := Utf8.encode "self"

/-- A path as it is seen within a scope: `self`, alone or as its first segment,
stands for the path of the scope. -/
def scopedPath (scope : Option Bytes) (path : Bytes) : Bytes :=
  match scope with
  | none => path
  | some scope =>
    if path = selfPath then scope
    else if (selfPath ++ [Path.dot]).isPrefixOf path then scope ++ path.drop selfPath.length
    else path

def parseScoped (scope : Option Bytes) (path : Bytes) : Except CompileError (List String) :=
  Path.parse (scopedPath scope path)

namespace SourceReader

open EStateM (Result)

/-- Turns a failure into one of the reader. -/
def checked {α : Type} : Except CompileError α → SourceReader α
  | .ok a => pure a
  | .error e => throw e

theorem onward_checked {α : Type} (r : Except CompileError α) : Reader.Onward (checked r) := by
  cases r
  · exact Reader.onward_throw _
  · exact Reader.onward_pure _

def decodeText (data : Bytes) : Except CompileError String :=
  match Utf8.decode? data with
  | some s => .ok s
  | none => .error (.malformedText data)

def parseArguments (tag : String) (raw : Bytes) : Except CompileError (List Argument) := do
  let text ← decodeText raw
  (Argument.readAll text).mapError (.badArguments tag)

def expectArguments (tag : String) (kinds : List ArgumentKind) (arguments : List Argument) :
    Except CompileError (List Argument) :=
  (Argument.expect kinds arguments).mapError (.badArguments tag)

def readStringArgument : SourceReader String := do
  let name ← readTagString
  closeTag
  checked (decodeText name)

/-- Reads the arguments of a tag, which have to be of the given kinds. -/
def readArgumentsOf (tag : String) (kinds : List ArgumentKind) : SourceReader (List Bytes) := do
  let raw ← readArguments
  let arguments ← checked (parseArguments tag raw)
  let arguments ← checked (expectArguments tag kinds arguments)
  pure (arguments.map Argument.value)

/-- Reads the path that is the only argument of a condition, and the body that it
decides about. -/
def readGuarded (scope : Option Bytes) : SourceReader (List String × Bytes) := do
  let values ← readArgumentsOf "if" [.path]
  let condition ← checked (parseScoped scope (values.headD []))
  let body ← readBody true
  pure (condition, body)

/-- A clause of a chain of conditions, behind the first. -/
inductive Clause where
  | elseIf (condition : List String) (body : Bytes)
  | otherwise (body : Bytes)

/-- Reads a clause, whose pound signs have been read. -/
def readClause (scope : Option Bytes) : SourceReader Clause := do
  let name ← readTagName
  if name = Utf8.encode "if" then
    let (condition, body) ← readGuarded scope
    pure (.elseIf condition body)
  else if name = Utf8.encode "else" then
    let _ ← readArgumentsOf "else" []
    let body ← readBody true
    pure (.otherwise body)
  else throw (.unknownTag (Sign.pound :: name))

theorem onward_readArgumentsOf (tag : String) (kinds : List ArgumentKind) :
    Reader.Onward (readArgumentsOf tag kinds) :=
  Reader.onward_bind consumes_readArguments.onward fun _ =>
    Reader.onward_bind (onward_checked _) fun _ =>
    Reader.onward_bind (onward_checked _) fun _ => Reader.onward_pure _

theorem onward_readGuarded (scope : Option Bytes) : Reader.Onward (readGuarded scope) :=
  Reader.onward_bind (onward_readArgumentsOf _ _) fun _ =>
    Reader.onward_bind (onward_checked _) fun _ =>
    Reader.onward_bind (consumes_readBody _).onward fun _ => Reader.onward_pure _

theorem onward_readStringArgument : Reader.Onward readStringArgument :=
  Reader.onward_bind consumes_readTagString.onward fun _ =>
    Reader.onward_bind onward_closeTag fun _ => onward_checked _

theorem onward_readClause (scope : Option Bytes) : Reader.Onward (readClause scope) := by
  refine Reader.onward_bind consumes_readTagName.onward fun name => ?_
  split
  · exact Reader.onward_bind (onward_readGuarded _) fun _ => Reader.onward_pure _
  split
  · exact Reader.onward_bind (onward_readArgumentsOf _ _) fun _ =>
      Reader.onward_bind (consumes_readBody _).onward fun _ => Reader.onward_pure _
  · exact Reader.onward_throw _

def clauseSign : Bytes := [Sign.pound, Sign.pound]

/-- Reads the clauses that continue a chain of conditions, behind those already
read, which are given last one first.  Where no clause follows, the blanks ahead
are not part of the chain. -/
def readClauses (scope : Option Bytes) (branches : List (List String × Bytes)) (c : Cursor) :
    Result CompileError Cursor Piece :=
  if _clauseAhead : c.skipBlanks.startsWith clauseSign then
    match _clauseRead : readClause scope (c.skipBlanks.forward clauseSign.length) with
    | .error e c' => .error e c'
    | .ok (.elseIf condition body) c' => readClauses scope ((condition, body) :: branches) c'
    | .ok (.otherwise body) c' => .ok (.conditional branches.reverse (some body)) c'
  else .ok (.conditional branches.reverse none) c
termination_by c.rest.length
decreasing_by
  have h₁ := onward_readClause _ _ _ _ _clauseRead
  have h₂ := c.length_rest_skip_le Bytes.isBlank
  simp only [Cursor.startsWith, Bool.and_eq_true, List.isPrefixOf_iff_prefix] at _clauseAhead
  have h₃ := _clauseAhead.1.length_le
  simp only [Cursor.length_rest_forward, clauseSign, List.length_cons, List.length_nil,
    Cursor.skipBlanks] at *
  omega

theorem onward_readClauses (scope : Option Bytes) (branches : List (List String × Bytes)) :
    Reader.Onward (readClauses scope branches) := by
  intro c a c' h
  have skipped := c.length_rest_skip_le Bytes.isBlank
  fun_induction readClauses scope branches c with
  | case1 => cases h
  | case2 branches c _ condition body c₁ hc ih =>
    have h₁ := onward_readClause _ _ _ _ hc
    have h₂ := ih h (c₁.length_rest_skip_le Bytes.isBlank)
    simp only [Cursor.length_rest_forward, Cursor.skipBlanks] at h₁
    omega
  | case3 branches c _ body c₁ hc =>
    cases h
    have h₁ := onward_readClause _ _ _ _ hc
    simp only [Cursor.length_rest_forward, Cursor.skipBlanks] at h₁
    omega
  | case4 =>
    cases h
    exact Nat.le_refl _

def readPrint (scope : Option Bytes) : SourceReader Piece := do
  let start := (← get).position
  let path ← fun c =>
    -- Where nothing closes the tag, that is told where its path begins.
    match readUntil (· == Sign.parenClose) true c with
    | .error _ c' => .error (.tagNotClosed start) c'
    | result => result
  if path.isEmpty then pure (.emit (.raw [Sign.pound] .done))
  else
    let segments ← checked (parseScoped scope path)
    if (← get).nextSignificant = some Sign.braceOpen then
      let body ← readBody true
      pure (.scopedBody (scopedPath scope path) body)
    else pure (.emit (.print (.path segments) .done))

def isUsableName (name : Bytes) : Bool :=
  !name.isEmpty && !name.any fun b => b == Path.dot || b == Opcode.stop || Bytes.isBlank b

def readLoop (scope : Option Bytes) : SourceReader Piece := do
  let values ← readArgumentsOf "loop" [.path, .string]
  let name := values.getD 1 []
  if isUsableName name then
    -- A fault of the body comes before those of the path and of the name's bytes.
    let body ← readBody true
    let iterable ← checked (parseScoped scope (values.headD []))
    let name ← checked (decodeText name)
    pure (.loop name iterable body)
  else throw (.badArguments "loop" (.unusableName name))

def readBranch (scope : Option Bytes) : SourceReader Piece := do
  let first ← readGuarded scope
  readClauses scope [first]

def readRaw (scope : Option Bytes) : SourceReader Piece := do
  let raw ← readArguments
  let arguments ← checked (parseArguments "raw" raw)
  if arguments.isEmpty then
    -- The blanks and the brace that come next are not counted.
    let start := (← get).position
    let body ← readBody false
    match body.findIdx? (· == Opcode.stop) with
    | some index => throw (.nulByte (start + index))
    | none => pure (.emit (.raw body .done))
  else
    let arguments ← checked (expectArguments "raw" [.path] arguments)
    let segments ← checked (parseScoped scope ((arguments.map Argument.value).headD []))
    pure (.emit (.print (.path segments) .done))

def readExport : SourceReader Piece := do
  let name ← readStringArgument
  let body ← readBody true
  pure (.exportBody name body)

/-- Reads what follows the parenthesis of a tag. -/
def readTagRest (scope : Option Bytes) : Tag → SourceReader Piece
  | .print => readPrint scope
  | .loop => readLoop scope
  | .branch => readBranch scope
  | .raw => readRaw scope
  | .embedFile => .embedFile <$> readStringArgument
  | .exportBody => readExport
  | .importBody => .importBody <$> readStringArgument
  | .extendFile => .extendFile <$> readStringArgument

/-- Reads a tag, whose pound sign has been read. -/
def readTag (tags : TagTable) (scope : Option Bytes) : SourceReader Piece := do
  let name ← readTagName
  match tags.find? name with
  | some tag => readTagRest scope tag
  | none => throw (.unknownTag name)

theorem onward_get : Reader.Onward (get : SourceReader Cursor) := by
  rintro c _ c' ⟨⟩
  exact Nat.le_refl _

theorem onward_map {α β : Type} (f : α → β) {r : SourceReader α} (h : Reader.Onward r) :
    Reader.Onward (f <$> r) := by
  intro c b c' e
  simp only [Functor.map, EStateM.map] at e
  split at e <;> cases e
  exact h _ _ _ (by assumption)

theorem onward_readPrint (scope : Option Bytes) : Reader.Onward (readPrint scope) := by
  refine Reader.onward_bind onward_get fun c₀ => Reader.onward_bind ?_ fun path => ?_
  · intro c a c' h
    dsimp only at h
    split at h
    · cases h
    · exact onward_readUntil _ _ _ _ _ h
  split
  · exact Reader.onward_pure _
  · refine Reader.onward_bind (onward_checked _) fun _ => Reader.onward_bind onward_get fun _ => ?_
    split
    · exact Reader.onward_bind (consumes_readBody _).onward fun _ => Reader.onward_pure _
    · exact Reader.onward_pure _

theorem onward_readLoop (scope : Option Bytes) : Reader.Onward (readLoop scope) := by
  refine Reader.onward_bind (onward_readArgumentsOf _ _) fun values => ?_
  dsimp only
  split
  · exact Reader.onward_bind (consumes_readBody _).onward fun _ =>
      Reader.onward_bind (onward_checked _) fun _ =>
      Reader.onward_bind (onward_checked _) fun _ => Reader.onward_pure _
  · exact Reader.onward_throw _

theorem onward_readRaw (scope : Option Bytes) : Reader.Onward (readRaw scope) := by
  refine Reader.onward_bind consumes_readArguments.onward fun _ =>
    Reader.onward_bind (onward_checked _) fun _ => ?_
  split
  · refine Reader.onward_bind onward_get fun _ =>
      Reader.onward_bind (consumes_readBody _).onward fun _ => ?_
    split
    · exact Reader.onward_throw _
    · exact Reader.onward_pure _
  · exact Reader.onward_bind (onward_checked _) fun _ =>
      Reader.onward_bind (onward_checked _) fun _ => Reader.onward_pure _

theorem onward_readTagRest (scope : Option Bytes) (tag : Tag) :
    Reader.Onward (readTagRest scope tag) := by
  cases tag with
  | print => exact onward_readPrint _
  | loop => exact onward_readLoop _
  | branch => exact Reader.onward_bind (onward_readGuarded _) fun _ => onward_readClauses _ _
  | raw => exact onward_readRaw _
  | exportBody =>
    exact Reader.onward_bind onward_readStringArgument fun _ =>
      Reader.onward_bind (consumes_readBody _).onward fun _ => Reader.onward_pure _
  | embedFile | importBody | extendFile => exact onward_map _ onward_readStringArgument

theorem onward_readTag (tags : TagTable) (scope : Option Bytes) :
    Reader.Onward (readTag tags scope) := by
  refine Reader.onward_bind consumes_readTagName.onward fun name => ?_
  split
  · exact onward_readTagRest _ _
  · exact Reader.onward_throw _

end SourceReader

/-- What reading a source yields: the pieces up to the first fault, and the fault
if there is one. -/
structure Reading where
  pieces : List Piece
  fault : Option CompileError
deriving DecidableEq, Repr

namespace Reading

/-- The pieces of a literal text: none if it is empty. -/
def literalPieces (text : Bytes) : List Piece :=
  if text.isEmpty then [] else [.emit (.raw text .done)]

/-- Reads the source ahead of a cursor, behind the pieces already found, which are
given last one first. -/
def ofCursor (tags : TagTable) (scope : Option Bytes) (found : List Piece) (c : Cursor) : Reading :=
  let text := c.rest.takeWhile (· != Sign.pound)
  match text.findIdx? (· == Opcode.stop) with
  | some index => ⟨found.reverse, some (.nulByte (c.position + index))⟩
  | none =>
    let found := literalPieces text ++ found
    match h : (c.forward text.length).rest with
    | [] => ⟨found.reverse, none⟩
    | _ :: _ =>
      match _tagRead : SourceReader.readTag tags scope ((c.forward text.length).past h) with
      | .error e _ => ⟨found.reverse, some e⟩
      | .ok piece c' => ofCursor tags scope (piece :: found) c'
termination_by c.rest.length
decreasing_by
  have h₁ := SourceReader.onward_readTag _ _ _ _ _ _tagRead
  have h₂ := (c.forward text.length).length_rest_past h
  rw [Cursor.length_rest_forward] at h₂
  omega

def ofBytes (tags : TagTable) (scope : Option Bytes) (data : Bytes) : Reading :=
  ofCursor tags scope [] (Cursor.ofBytes data)

end Reading

end Stencil
