import NockDispatch.Graph.Denotation
import NockDispatch.Nest.Dispatch
import NockDispatch.Noun.Reduction
import NockDispatch.Text.Grammar
import NockDispatch.Text.Printer
import NockDispatch.Text.Reader
import NockDispatch.Text.Stream
import NockDispatch.Workspace
import NockDispatch.Proofs.Graph.Edit
import NockDispatch.Proofs.Graph.Update
import NockDispatch.Proofs.Text.Spelling
import NockDispatch.Proofs.Text.Offence
import NockDispatch.Proofs.Text.Marks
import NockDispatch.Proofs.Text.Roundtrip
import NockDispatch.Proofs.Eval.Ledger
import NockDispatch.Proofs.Eval.Simulation
import NockDispatch.Proofs.Eval.Rules
import NockDispatch.Proofs.Noun.Derivation
import NockDispatch.Proofs.Eval.Adequacy
import NockDispatch.Proofs.Eval.Nock
import NockDispatch.Proofs.Nest.Tally
import NockDispatch.Proofs.Nest.Call
import NockDispatch.Proofs.Session.Task
import NockDispatch.Proofs.Nest.Answer
import NockDispatch.Proofs.Session.Inquiry
import NockDispatch.Proofs.Session.History
import NockDispatch.Proofs.Session.Invisible
import NockDispatch.Proofs.Session.Visits
import NockDispatch.Proofs.Session.Sharing
import NockDispatch.Proofs.Eval.Placement
import NockDispatch.Proofs.Session.Again
import NockDispatch.Proofs.Session.Office
import NockDispatch.Proofs.Session.About
import NockDispatch.Proofs.Session.Effective
import NockDispatch.Proofs.Eval.Account
import NockDispatch.Proofs.Eval.Ending
import NockDispatch.Proofs.Eval.Threshold
import NockDispatch.Proofs.Nest.Expression
import NockDispatch.Proofs.Eval.Recording
import NockDispatch.Proofs.Session.Accounting
import NockDispatch.Proofs.Eval.Counters
import NockDispatch.Proofs.Session.Failure
import NockDispatch.Proofs.Text.Schedule
import NockDispatch.Proofs.Graph.Peg
import NockDispatch.Proofs.Nest.Gate
import NockDispatch.Proofs.Session.Building
import NockDispatch.Proofs.Text.Layout
import NockDispatch.Proofs.Text.Numeral
import NockDispatch.Proofs.Text.Shortening
import NockDispatch.Proofs.Text.Cord
import NockDispatch.Proofs.Text.Items
import NockDispatch.Proofs.Settings
