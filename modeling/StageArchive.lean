import StageArchive.Arithmetic
import StageArchive.Asset
import StageArchive.Binary.Format
import StageArchive.Binary.Shortest
import StageArchive.ByteOrder
import StageArchive.Chunk.Fault
import StageArchive.Chunk.Layout
import StageArchive.Chunk.Sink
import StageArchive.Chunk.Source
import StageArchive.Chunk.Tag
import StageArchive.Chunk.Walk
import StageArchive.CommandLine.Arguments
import StageArchive.CommandLine.Invocation
import StageArchive.CommandLine.Run
import StageArchive.Compilation
import StageArchive.Config
import StageArchive.Config.Document
import StageArchive.Container.Assembler
import StageArchive.Container.Draft
import StageArchive.Container.Entry
import StageArchive.Container.Fault
import StageArchive.Container.Manifest
import StageArchive.Emit.Entity
import StageArchive.Emit.Value
import StageArchive.Entity.NameTable
import StageArchive.Entity.Payload
import StageArchive.Entity.Relinking
import StageArchive.FileSystem
import StageArchive.Instruction.Decoder
import StageArchive.Instruction.Encoder
import StageArchive.Instruction.Fault
import StageArchive.Instruction.IndexCode
import StageArchive.Instruction.Opcode
import StageArchive.Json.Number
import StageArchive.Json.Printer
import StageArchive.Json.Reader
import StageArchive.Json.ScalarLiteral
import StageArchive.Json.Shape
import StageArchive.Json.Token
import StageArchive.Json.Value
import StageArchive.Listing
import StageArchive.Main
import StageArchive.Media
import StageArchive.NameIndex
import StageArchive.Palette
import StageArchive.Path
import StageArchive.Proofs.Assembly
import StageArchive.Proofs.Chunk.Sink
import StageArchive.Proofs.Chunk.Source
import StageArchive.Proofs.Chunk.Tree
import StageArchive.Proofs.Compilation
import StageArchive.Proofs.Container.Steps
import StageArchive.Proofs.Container.Image
import StageArchive.Proofs.Container.Manifest
import StageArchive.Proofs.Container.Reading
import StageArchive.Proofs.Container.Registration
import StageArchive.Proofs.Container.Sealed
import StageArchive.Proofs.Emit.Entity
import StageArchive.Proofs.Emit.Files
import StageArchive.Proofs.Entity.NameTable
import StageArchive.Proofs.Entity.Payload
import StageArchive.Proofs.Entity.Relinking
import StageArchive.Proofs.FileMap
import StageArchive.Proofs.FileSystem
import StageArchive.Proofs.IndexCode
import StageArchive.Proofs.Instruction.Grammar
import StageArchive.Proofs.Instruction.Replay
import StageArchive.Proofs.Instruction.Transcript
import StageArchive.Proofs.Json.Number
import StageArchive.Proofs.Json.Reader
import StageArchive.Proofs.Json.Shape
import StageArchive.Proofs.Json.Token
import StageArchive.Proofs.Media
import StageArchive.Proofs.NameIndex
import StageArchive.Proofs.Outcome
import StageArchive.Proofs.Path
import StageArchive.Proofs.Text
import StageArchive.Proofs.Tree.Check
import StageArchive.Proofs.Word
import StageArchive.Scalar
import StageArchive.Symbol.Document
import StageArchive.Symbol.Namespace
import StageArchive.Symbol.Scan
import StageArchive.Symbol.Table
import StageArchive.Text.Encoding
import StageArchive.Text.Printable
import StageArchive.Text.Quoted
import StageArchive.Tree.Check
import StageArchive.Tree.Document
import StageArchive.Tree.Kind
import StageArchive.Tree.Node
import StageArchive.Tree.Value
import StageArchive.Proofs.Entity.Renumbering
import StageArchive.Proofs.Emit.Events
import StageArchive.Proofs.Container.SetReading
import StageArchive.Proofs.Container.Numbering
import StageArchive.Proofs.Symbol.Scan
import StageArchive.Proofs.Emit.Embedded
import StageArchive.Proofs.Emit.Known
import StageArchive.Proofs.Symbol.Document
import StageArchive.Proofs.Symbol.Sorting
import StageArchive.Proofs.Tree.Walk
import StageArchive.Proofs.Accounting
import StageArchive.Proofs.Entity.Refusal
import StageArchive.Proofs.Container.Fitting
import StageArchive.Proofs.Container.Policy
import StageArchive.Proofs.Symbol.Search
import StageArchive.Proofs.Symbol.Indices
import StageArchive.Proofs.Chunk.Calls
import StageArchive.Proofs.Container.Drafting
import StageArchive.Proofs.Chunk.Orders
import StageArchive.Proofs.Emit.Orders
import StageArchive.Proofs.Chunk.Walk
import StageArchive.Proofs.Container.Listing
import StageArchive.Proofs.Instruction.Sentence
import StageArchive.Proofs.Entity.Idempotence
import StageArchive.Proofs.Chunk.Contents
import StageArchive.Proofs.Media.Orders
import StageArchive.Proofs.Media.Content
import StageArchive.Proofs.Symbol.Properties
import StageArchive.Proofs.Emit.Value
import StageArchive.Proofs.Tree.Stack
import StageArchive.Proofs.Symbol.Declared
import StageArchive.Proofs.Tree.Names
import StageArchive.Proofs.Compilation.Outputs
import StageArchive.Proofs.Tree.Outline
import StageArchive.Proofs.Tree.Arena
import StageArchive.Proofs.Guarded
import StageArchive.Proofs.Instruction.Guarded
import StageArchive.Proofs.Entity.Guarded
import StageArchive.Proofs.Chunk.Inside
import StageArchive.Proofs.Listing
import StageArchive.Proofs.Listing.Guarded
import StageArchive.Proofs.Listing.Run
import StageArchive.Proofs.Chunk.Closing
import StageArchive.Proofs.IndexCode.Extent
import StageArchive.Proofs.Instruction.Cursor
import StageArchive.Proofs.Instruction.Stopping
import StageArchive.Proofs.Binary.Exact
import StageArchive.Proofs.Scalar
