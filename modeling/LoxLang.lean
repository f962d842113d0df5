import LoxLang.Main
import LoxLang.Proofs.Reading.Identities
import LoxLang.Proofs.Reading.Form
import LoxLang.Proofs.Binding.Notes
import LoxLang.Proofs.Execution.Steps
import LoxLang.Proofs.Execution.Visits
import LoxLang.Proofs.Session.Lookup
import LoxLang.Proofs.Session.Scoping
import LoxLang.Proofs.Source.Joining
import LoxLang.Proofs.Reading.Progress
import LoxLang.Proofs.Reading.Joining
import LoxLang.Proofs.Binding.Renumbering
import LoxLang.Proofs.Execution.Renumbering
import LoxLang.Proofs.Execution.Viewing
import LoxLang.Proofs.Session.Joining
import LoxLang.Proofs.Session.Context
import LoxLang.Proofs.Session.Rejected
import LoxLang.Proofs.Grammar.Recognition
import LoxLang.Proofs.Session.Assignments
import LoxLang.Proofs.Session.Vocabulary
import LoxLang.Proofs.Session.Depth
import LoxLang.Proofs.Session.Returning
import LoxLang.Proofs.Source.Partition
import LoxLang.Proofs.Source.LongestMatch
import LoxLang.Proofs.Session.Truncation
import LoxLang.Proofs.Session.Structure
import LoxLang.Proofs.Binding.Violations
import LoxLang.Proofs.Session.Construction
import LoxLang.Proofs.Document.Recovery
import LoxLang.Proofs.Session.Loops
import LoxLang.Proofs.Reading.Clauses
import LoxLang.Proofs.Execution.Access
import LoxLang.Proofs.Source.Layout
import LoxLang.Proofs.Source.NumberTexts
