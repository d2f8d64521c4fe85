import Stencil.Bindings.Json
import Stencil.Bytecode.Block
import Stencil.Bytecode.Listing
import Stencil.Bytecode.Path
import Stencil.Bytecode.Reader
import Stencil.Bytes
import Stencil.Cli.Command
import Stencil.Cli.CommandLine
import Stencil.Cli.Report
import Stencil.Cli.Usage
import Stencil.Compile.Action
import Stencil.Compile.Assembly
import Stencil.Compile.Compiler
import Stencil.Compile.Error
import Stencil.Compile.State
import Stencil.Cursor
import Stencil.Cursor.Call
import Stencil.Main
import Stencil.Number.Binary64
import Stencil.Number.FloatText
import Stencil.Number.Integer
import Stencil.Number.Shortest
import Stencil.Package.Basic
import Stencil.Package.Sha256
import Stencil.Render.Error
import Stencil.Render.Interpreter
import Stencil.Render.Machine
import Stencil.Render.Setting
import Stencil.Render.Template
import Stencil.Source.Argument
import Stencil.Source.Piece
import Stencil.Source.Reader
import Stencil.Store.Basic
import Stencil.Store.Disk
import Stencil.Store.Location
import Stencil.Table
import Stencil.Text.Basic
import Stencil.Text.CharClass
import Stencil.Text.Charset
import Stencil.Text.CodePoint
import Stencil.Text.Quoted
import Stencil.Text.Utf8
import Stencil.Value.Basic
import Stencil.Value.Context
import Stencil.Value.Equality
import Stencil.Value.Host
import Stencil.Value.Object
import Stencil.Value.Text
import Stencil.Proofs.Format
import Stencil.Proofs.Reading
import Stencil.Proofs.Binding
import Stencil.Proofs.Meaning
import Stencil.Proofs.Layout
import Stencil.Proofs.Textual
import Stencil.Proofs.Dependence
import Stencil.Proofs.Packaging
import Stencil.Proofs.Surroundings
import Stencil.Proofs.Selection
import Stencil.Proofs.Iteration
import Stencil.Proofs.Limiting
import Stencil.Proofs.Truncation
import Stencil.Proofs.Escaping
import Stencil.Proofs.Following
import Stencil.Proofs.Interruption
import Stencil.Proofs.Unclosed
import Stencil.Proofs.Spanning
import Stencil.Proofs.Pointing
import Stencil.Proofs.Shadowing
import Stencil.Proofs.Listed
import Stencil.Proofs.Spelling
import Stencil.Proofs.Conversion
import Stencil.Proofs.Filling
import Stencil.Proofs.Presence
import Stencil.Proofs.Rearranging
import Stencil.Proofs.Enclosing
import Stencil.Proofs.Segments
import Stencil.Proofs.Reporting
import Stencil.Proofs.Loading
import Stencil.Proofs.Decimals
import Stencil.Proofs.Hearing
import Stencil.Proofs.Invoking
import Stencil.Proofs.Bounding
