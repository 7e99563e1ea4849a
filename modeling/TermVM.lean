import TermVM.Analyzers
import TermVM.Batch
import TermVM.Buffer
import TermVM.Build
import TermVM.Cbor.Decode
import TermVM.Cbor.Encode
import TermVM.Cbor.Field
import TermVM.Cbor.Item
import TermVM.Code.Wire
import TermVM.Codegen
import TermVM.Codegen.Opening
import TermVM.CommandLine.Options
import TermVM.CommandLine.Run
import TermVM.DeclTable
import TermVM.Environment
import TermVM.FileTree
import TermVM.Fingerprint
import TermVM.Glob
import TermVM.Instr
import TermVM.Listing
import TermVM.Log
import TermVM.Main
import TermVM.Manifest.Basic
import TermVM.Manifest.Project
import TermVM.Marker
import TermVM.Opcode
import TermVM.Path
import TermVM.Proofs.Analyzers
import TermVM.Proofs.ArgumentCount
import TermVM.Proofs.Balance.Layout
import TermVM.Proofs.Balance.Plan
import TermVM.Proofs.Batch.Reencoding
import TermVM.Proofs.Buffer
import TermVM.Proofs.Buffer.Finality
import TermVM.Proofs.Build.Basic
import TermVM.Proofs.Build.Batches
import TermVM.Proofs.Build.Gathering
import TermVM.Proofs.Build.Independence
import TermVM.Proofs.Build.Merging
import TermVM.Proofs.Build.Readback
import TermVM.Proofs.Build.Redeclaration
import TermVM.Proofs.Build.Reordering
import TermVM.Proofs.Build.Schedule
import TermVM.Proofs.Build.Tracing
import TermVM.Proofs.Build.Transparency
import TermVM.Proofs.Build.Validity
import TermVM.Proofs.Cbor.Bounds
import TermVM.Proofs.Cbor.Reading
import TermVM.Proofs.Code.Decoded
import TermVM.Proofs.Code.Exactness
import TermVM.Proofs.Code.Portability
import TermVM.Proofs.Code.Wire
import TermVM.Proofs.Codec
import TermVM.Proofs.CommandLine.Compilation
import TermVM.Proofs.CommandLine.Disassembly
import TermVM.Proofs.DeclTable.Contents
import TermVM.Proofs.DeclTable.Reachable
import TermVM.Proofs.DeclTable.Slots
import TermVM.Proofs.DeclTable.Stability
import TermVM.Proofs.Environment
import TermVM.Proofs.FileTree
import TermVM.Proofs.Fingerprint.Kernel
import TermVM.Proofs.Fingerprint.Key
import TermVM.Proofs.Fingerprint.Quotation
import TermVM.Proofs.Fingerprint.Reader
import TermVM.Proofs.Fingerprint.Soundness
import TermVM.Proofs.Grammar.Acceptance
import TermVM.Proofs.Grammar.Basic
import TermVM.Proofs.Grammar.Tour
import TermVM.Proofs.LetChains
import TermVM.Proofs.Listing
import TermVM.Proofs.Manifest.Inputs
import TermVM.Proofs.Manifest.Overrides
import TermVM.Proofs.Meaning.Eval
import TermVM.Proofs.Meaning.Machine
import TermVM.Proofs.Meaning.Preservation
import TermVM.Proofs.Opening
import TermVM.Proofs.Outline.Basic
import TermVM.Proofs.Outline.ControlFlow
import TermVM.Proofs.Outline.Emission
import TermVM.Proofs.Outline.Forms
import TermVM.Proofs.Outline.Identities
import TermVM.Proofs.Outline.Mapping
import TermVM.Proofs.Outline.Mirror
import TermVM.Proofs.Outline.Patching
import TermVM.Proofs.Outline.Quotation
import TermVM.Proofs.Outline.Reindexing
import TermVM.Proofs.Outline.Relocation
import TermVM.Proofs.Outline.Shape
import TermVM.Proofs.Result
import TermVM.Proofs.Service.Concurrency
import TermVM.Proofs.Service.Message
import TermVM.Proofs.Service.Remote
import TermVM.Proofs.Store.Agreement
import TermVM.Proofs.Term.Flatten
import TermVM.Proofs.Term.Heads
import TermVM.Proofs.Term.Induction
import TermVM.Proofs.Term.Instantiation
import TermVM.Proofs.Term.Node
import TermVM.Proofs.Term.Normal
import TermVM.Proofs.Term.Parts
import TermVM.Proofs.Term.Quotation
import TermVM.Proofs.Term.Reading
import TermVM.Proofs.Term.Spelling
import TermVM.Proofs.Term.Wire
import TermVM.Proofs.Verify.Draining
import TermVM.Proofs.Verify.Exactness
import TermVM.Proofs.Verify.Flow
import TermVM.Proofs.Verify.Renumbering
import TermVM.Proofs.Verify.Tables
import TermVM.Proofs.Worker.Linearization
import TermVM.Proofs.Worker.System
import TermVM.Service.Basic
import TermVM.Service.Client
import TermVM.Service.Message
import TermVM.Sha256
import TermVM.Store
import TermVM.Store.File
import TermVM.Store.Location
import TermVM.Store.Setting
import TermVM.Term.Basic
import TermVM.Term.Instantiate
import TermVM.Term.Node
import TermVM.Term.Size
import TermVM.Term.Spine
import TermVM.Term.Wire
import TermVM.Text.Decimal
import TermVM.Text.Percent
import TermVM.Text.Prefixed
import TermVM.Text.Printable
import TermVM.Text.Quoted
import TermVM.Toml.Datetime
import TermVM.Toml.Document
import TermVM.Toml.Number
import TermVM.Toml.Quoted
import TermVM.Toml.Statement
import TermVM.Toml.Value
import TermVM.Trace
import TermVM.Verify
import TermVM.Worker
