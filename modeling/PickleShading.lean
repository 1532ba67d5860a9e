import PickleShading.Error
import PickleShading.Varint
import PickleShading.Cursor
import PickleShading.Chunks
import PickleShading.Namespace
import PickleShading.Text.Utf8
import PickleShading.Text.Replace
import PickleShading.Text.Blank
import PickleShading.Link
import PickleShading.Entry
import PickleShading.Table.Basic
import PickleShading.Table.Resolve
import PickleShading.Table.Rename
import PickleShading.Pickle
import PickleShading.SignatureText
import PickleShading.Packing
import PickleShading.Rule
import PickleShading.Shade
import PickleShading.Cursor.Query
import PickleShading.Proofs.Framing
import PickleShading.Proofs.NumberReading
import PickleShading.Proofs.Reads
import PickleShading.Proofs.Entries
import PickleShading.Proofs.Appending
import PickleShading.Proofs.RoundTrip
import PickleShading.Proofs.Walks
import PickleShading.Proofs.Renaming
import PickleShading.Proofs.Repointing
import PickleShading.Proofs.MovedPaths
import PickleShading.Proofs.Reparsing
import PickleShading.Proofs.BuiltTables
import PickleShading.Proofs.RenameFrame
import PickleShading.Proofs.Acceptance
import PickleShading.Proofs.Unpacking
import PickleShading.Proofs.Unchanged
import PickleShading.Proofs.Repacking
import PickleShading.Proofs.Chunking
import PickleShading.Proofs.Cycles
import PickleShading.Proofs.WriteBack
import PickleShading.Proofs.Positions
import PickleShading.Proofs.FreshChains
import PickleShading.Proofs.RuleFolds
import PickleShading.Proofs.RuleText
