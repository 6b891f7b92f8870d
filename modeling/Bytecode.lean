import Bytecode.Text
import Bytecode.Text.Quoted
import Bytecode.Text.ModifiedUtf8
import Bytecode.FloatingPoint
import Bytecode.Decimal.Shortest
import Bytecode.Decimal.Layout
import Bytecode.Window
import Bytecode.Word
import Bytecode.Reader
import Bytecode.Catalog
import Bytecode.Catalog.Standard
import Bytecode.Operands
import Bytecode.Operands.Reader
import Bytecode.Code
import Bytecode.Listing
import Bytecode.Assembly
import Bytecode.Descriptor
import Bytecode.AccessFlags
import Bytecode.Constant
import Bytecode.Pool
import Bytecode.FormatError
import Bytecode.Pool.Reader
import Bytecode.ClassFile
import Bytecode.ClassListing
import Bytecode.CommandLine
import Bytecode.Main
import Bytecode.Proofs.Word
import Bytecode.Proofs.Catalog
import Bytecode.Proofs.Reader.Sequencing
import Bytecode.Proofs.Reader.Language
import Bytecode.Proofs.Reader.Incremental
import Bytecode.Proofs.Reader.Encoding
import Bytecode.Proofs.Assembly.Field
import Bytecode.Proofs.Operands.Layout
import Bytecode.Proofs.Assembly.Operands
import Bytecode.Proofs.Code.Run
import Bytecode.Proofs.Code.Tiling
import Bytecode.Proofs.Code.RoundTrip
import Bytecode.Proofs.Code.Canonical
import Bytecode.Proofs.ClassFile.Raw
import Bytecode.Proofs.Pool.Layout
import Bytecode.Proofs.ClassFile.Layout
import Bytecode.Proofs.Pool.Grammar
import Bytecode.Proofs.ClassFile.Incremental
import Bytecode.Proofs.Code.Cut
import Bytecode.Proofs.Text.Numeral
import Bytecode.Proofs.Text.Lines
import Bytecode.Proofs.Listing.Rows
import Bytecode.Proofs.Listing.Determined
import Bytecode.Proofs.Descriptor.Closing
import Bytecode.Proofs.ClassListing.Correspondence
import Bytecode.Proofs.Code.Policy
import Bytecode.Proofs.CommandLine.Endings
import Bytecode.Proofs.CommandLine.Strict
import Bytecode.Proofs.Operands.Switch
import Bytecode.Proofs.Code.Append
import Bytecode.Proofs.View.Access
import Bytecode.Proofs.View.Plan
import Bytecode.Proofs.View.Parts
import Bytecode.Proofs.View.Code
import Bytecode.Proofs.Code.Switch
import Bytecode.Proofs.Code.Shortfall
import Bytecode.Proofs.Assembly.Acceptance
import Bytecode.Proofs.Text.ModifiedUtf8
import Bytecode.Proofs.Text.Recovery
import Bytecode.Proofs.Descriptor.Parameters
import Bytecode.Proofs.Pool.Description
import Bytecode.Proofs.Pool.Store
import Bytecode.Proofs.Pool.Spelling
import Bytecode.Proofs.Listing.Layout
import Bytecode.Proofs.Catalog.Loading
