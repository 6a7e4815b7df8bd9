import GrammarRepair.Builder
import GrammarRepair.Builder.Supply
import GrammarRepair.CharacterClass
import GrammarRepair.Context
import GrammarRepair.Error
import GrammarRepair.Grammar
import GrammarRepair.Match
import GrammarRepair.Match.Format
import GrammarRepair.Matching
import GrammarRepair.Matching.Induction
import GrammarRepair.Matching.Measure
import GrammarRepair.Ordered
import GrammarRepair.Proofs.Building
import GrammarRepair.Proofs.ByteOrder
import GrammarRepair.Proofs.Ceilings
import GrammarRepair.Proofs.CharacterClass
import GrammarRepair.Proofs.Combinations
import GrammarRepair.Proofs.Derivation
import GrammarRepair.Proofs.Descent
import GrammarRepair.Proofs.Language
import GrammarRepair.Proofs.Language.Completeness
import GrammarRepair.Proofs.Language.Loading
import GrammarRepair.Proofs.Language.Recognition
import GrammarRepair.Proofs.Language.Soundness
import GrammarRepair.Proofs.Repair
import GrammarRepair.Proofs.RuleMap
import GrammarRepair.Proofs.Source.Completeness
import GrammarRepair.Proofs.Source.Exactness
import GrammarRepair.Proofs.Source.Gaps
import GrammarRepair.Proofs.Source.Literals
import GrammarRepair.Proofs.Source.Phrase
import GrammarRepair.Proofs.Source.Soundness
import GrammarRepair.Proofs.Source.Spelling
import GrammarRepair.Proofs.Source.Words
import GrammarRepair.Proofs.Subdomain.Edges
import GrammarRepair.Proofs.Subdomain.Matching
import GrammarRepair.Proofs.Subdomain.Name
import GrammarRepair.Proofs.Subdomain.Repairs
import GrammarRepair.Proofs.Subdomain.Totality
import GrammarRepair.Proofs.Unguarded
import GrammarRepair.Repair
import GrammarRepair.Rule
import GrammarRepair.Rule.Format
import GrammarRepair.Source.Expr
import GrammarRepair.Source.Expression
import GrammarRepair.Source.Lexeme
import GrammarRepair.Source.Load
import GrammarRepair.Source.Outcome
import GrammarRepair.Source.Position
import GrammarRepair.Source.Reader
import GrammarRepair.Subdomain
import GrammarRepair.Suggestion
import GrammarRepair.Table
import GrammarRepair.Text
import GrammarRepair.Text.Escaped
import GrammarRepair.Text.Order
import GrammarRepair.Text.Printable
import GrammarRepair.Text.Quoted
import GrammarRepair.Proofs.Plain
import GrammarRepair.Proofs.Regular
import GrammarRepair.Proofs.Reacceptance
import GrammarRepair.Proofs.LeftCorner
import GrammarRepair.Proofs.LeftCorner.Ranks
import GrammarRepair.Proofs.Unchecked
import GrammarRepair.Proofs.Renaming
import GrammarRepair.Proofs.Correspondence
import GrammarRepair.Proofs.SideBySide
import GrammarRepair.Proofs.Minting
import GrammarRepair.Proofs.Program
import GrammarRepair.Proofs.Program.Independence
import GrammarRepair.Proofs.Congruence
import GrammarRepair.Proofs.SelfContained
import GrammarRepair.Proofs.Refusals
import GrammarRepair.Proofs.Unbound
import GrammarRepair.Proofs.Repetition
import GrammarRepair.Proofs.Source.Joining
import GrammarRepair.Proofs.Verdict
import GrammarRepair.Proofs.JoinedLoading
import GrammarRepair.Proofs.Frames
import GrammarRepair.Proofs.Remainders
import GrammarRepair.Proofs.Registration
import GrammarRepair.Proofs.Source.Written
import GrammarRepair.Proofs.Reloading
import GrammarRepair.Proofs.Acceptance
import GrammarRepair.Proofs.Program.Persistence
import GrammarRepair.Proofs.Source.Endings
import GrammarRepair.Proofs.Source.Viability
import GrammarRepair.Proofs.Source.Stuck
import GrammarRepair.Proofs.Source.Progress
import GrammarRepair.Proofs.Grouping
import GrammarRepair.Proofs.Fallback
import GrammarRepair.Proofs.Resolution
import GrammarRepair.Proofs.Subdomain.Registered
import GrammarRepair.Proofs.Source.Location
