import TokenLedger.Main
import TokenLedger.Session
import TokenLedger.Proofs.Amount
import TokenLedger.Proofs.Binary64
import TokenLedger.Proofs.Json.Text
import TokenLedger.Proofs.Json.Number
import TokenLedger.Proofs.Json.Record
import TokenLedger.Proofs.Json.Codec
import TokenLedger.Proofs.Json.Value
import TokenLedger.Proofs.Snapshot
import TokenLedger.Proofs.Document
import TokenLedger.Proofs.Key
import TokenLedger.Proofs.Query
import TokenLedger.Proofs.Batch
import TokenLedger.Proofs.Debit
import TokenLedger.Proofs.Interleaving
import TokenLedger.Proofs.ReadOnly
import TokenLedger.Proofs.Integrality
import TokenLedger.Proofs.Signature
import TokenLedger.Proofs.Scan
import TokenLedger.Proofs.Encounter
import TokenLedger.Proofs.StoreSerial
import TokenLedger.Proofs.Removal
import TokenLedger.Proofs.Issuance
import TokenLedger.Proofs.Separation
import TokenLedger.Proofs.ZeroBalance
import TokenLedger.Proofs.Mirror
import TokenLedger.Proofs.Filed
import TokenLedger.Proofs.Enumeration
import TokenLedger.Proofs.Conflict
import TokenLedger.Proofs.Standing
import TokenLedger.Proofs.Host.Folder
import TokenLedger.Proofs.Reload
import TokenLedger.Proofs.Host.Command
import TokenLedger.Proofs.Host.Signing
import TokenLedger.Proofs.Overflow
import TokenLedger.Proofs.Demand
import TokenLedger.Proofs.Settlement
import TokenLedger.Proofs.Log
import TokenLedger.Proofs.Words
import TokenLedger.Proofs.SymbolOrder
import TokenLedger.Proofs.Overlay
import TokenLedger.Proofs.Prefix
import TokenLedger.Proofs.Escape
import TokenLedger.Proofs.RoundTrip
import TokenLedger.Proofs.Canonical
import TokenLedger.Proofs.Host.Frame
import TokenLedger.Proofs.Host.Plain
