import ResultSets.Delivery.Recorder
import ResultSets.IdSet.Algebra
import ResultSets.IdSet.Delivery
import ResultSets.Policy.Text
import ResultSets.Resolver.Basic
import ResultSets.Segment.Draft
import ResultSets.Proofs.Bitmap.Members
import ResultSets.Proofs.Bitmap.Paste
import ResultSets.Proofs.Bitmap.Construction
import ResultSets.Proofs.IdSet.Ascending
import ResultSets.Proofs.IdSet.Members
import ResultSets.Proofs.IdSet.Forms
import ResultSets.Proofs.IdSet.Algebra
import ResultSets.Proofs.Delivery.Accumulator
import ResultSets.Proofs.Delivery.Runs
import ResultSets.Proofs.Delivery.Failure
import ResultSets.Proofs.Delivery.Silent
import ResultSets.Proofs.Index.Layout
import ResultSets.Proofs.Index.Live
import ResultSets.Proofs.Index.Session
import ResultSets.Proofs.Index.Listing
import ResultSets.Proofs.Resolver.TermWalk
import ResultSets.Proofs.Resolver.Requests
import ResultSets.Proofs.Query.Hits
import ResultSets.Proofs.Query.Evaluation
import ResultSets.Proofs.Query.Budget
import ResultSets.Proofs.Resolver.Resolve
import ResultSets.Proofs.Index.Exact
import ResultSets.Proofs.Segment.Postings
import ResultSets.Proofs.Resolver.Rows
import ResultSets.Proofs.Resolver.Agreement
import ResultSets.Proofs.Index.Histories
import ResultSets.Proofs.Resolver.Form
import ResultSets.Proofs.Resolver.Restrict
import ResultSets.Proofs.Resolver.Listing
import ResultSets.Proofs.Delivery.Replay
import ResultSets.Proofs.Resolver.Reading
import ResultSets.Proofs.Resolver.Postings
import ResultSets.Proofs.Delivery.Latch
import ResultSets.Proofs.Delivery.Tally
import ResultSets.Proofs.Query.Cutoff
import ResultSets.Proofs.Query.Reorder
import ResultSets.Proofs.IdSet.Collapse
import ResultSets.Proofs.IdSet.Sizes
import ResultSets.Proofs.Index.Admission
import ResultSets.Proofs.Index.Adoption
import ResultSets.Proofs.Delivery.Trace
import ResultSets.Proofs.Bitmap.Scan
import ResultSets.Proofs.Delivery.Sound
import ResultSets.Proofs.Json.Grammar
import ResultSets.Proofs.Json.Reading
import ResultSets.Proofs.Segment.Edits
import ResultSets.Proofs.Json.Passing
import ResultSets.Proofs.Json.Decimal
import ResultSets.Proofs.Policy.Object
import ResultSets.Proofs.Policy.Decode
