import DoublingHeap.Main
import DoublingHeap.Proofs.Blocks
import DoublingHeap.Proofs.Index
import DoublingHeap.Proofs.Visits
import DoublingHeap.Proofs.Descent
import DoublingHeap.Proofs.Headers
import DoublingHeap.Proofs.Resolution
import DoublingHeap.Proofs.Sights
import DoublingHeap.Proofs.Truncation
import DoublingHeap.Proofs.Children
import DoublingHeap.Proofs.Faults
import DoublingHeap.Proofs.Steps
import DoublingHeap.Proofs.Tiling
import DoublingHeap.Proofs.Writing
import DoublingHeap.Proofs.Trees
import DoublingHeap.Proofs.RoundTrip
import DoublingHeap.Proofs.Termination
import DoublingHeap.Proofs.Sharing
import DoublingHeap.Proofs.Failures
import DoublingHeap.Proofs.Overlap
import DoublingHeap.Proofs.Spans
import DoublingHeap.Proofs.Classification
import DoublingHeap.Proofs.Consumption
import DoublingHeap.Proofs.Machine
import DoublingHeap.Proofs.TableWords
import DoublingHeap.Proofs.Safety
import DoublingHeap.Proofs.Checks
import DoublingHeap.Proofs.ExactBlocks
import DoublingHeap.Proofs.ExactHeaders
import DoublingHeap.Proofs.ExactIdentifiers
import DoublingHeap.Proofs.Search
import DoublingHeap.Proofs.Doubling
import DoublingHeap.Proofs.ReportText
import DoublingHeap.Proofs.Stages
import DoublingHeap.Proofs.Thresholds
import DoublingHeap.Proofs.LogText
import DoublingHeap.Proofs.Traces
import DoublingHeap.Proofs.Lookup
import DoublingHeap.Proofs.DistinctKeys
import DoublingHeap.Proofs.Layers
import DoublingHeap.Proofs.Digits
import DoublingHeap.Proofs.JsonText
import DoublingHeap.Proofs.Listings
import DoublingHeap.Proofs.Spelling
import DoublingHeap.Proofs.Dumps
import DoublingHeap.Proofs.CursorRuns
import DoublingHeap.Proofs.Slices
import DoublingHeap.Proofs.Accesses
import DoublingHeap.Proofs.Numbers
