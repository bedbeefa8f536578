import R64.Main
import R64.Proofs.CodeBuffer
import R64.Proofs.Layout
import R64.Proofs.Process
import R64.Proofs.Run
import R64.Proofs.Transport
import R64.Proofs.Moved
import R64.Proofs.Lexing
import R64.Proofs.Literals
import R64.Proofs.Addresses
import R64.Proofs.FileSystem
import R64.Proofs.Relocation
import R64.Proofs.Encoding
import R64.Proofs.Instructions
import R64.Proofs.Progress
import R64.Proofs.Disassembly
import R64.Proofs.MemorySize
import R64.Proofs.AddressSpace
import R64.Proofs.Listing
import R64.Proofs.Splicing
import R64.Proofs.EnteredOnce
import R64.Proofs.Formats
import R64.Proofs.Labels
import R64.Proofs.Residual
import R64.Proofs.Outline
import R64.Proofs.Outcome
import R64.Proofs.Repetitions
import R64.Proofs.Rendering
import R64.Proofs.QuotedData
import R64.Proofs.Regions
import R64.Proofs.Colons
import R64.Proofs.Origin
import R64.Proofs.Rejection
import R64.Proofs.Integers
import R64.Proofs.Expansion
import R64.Proofs.Readings
import R64.Proofs.AppendOnly
import R64.Proofs.Rounding
import R64.Proofs.Decimals
