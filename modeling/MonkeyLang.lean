import MonkeyLang.Lexing.TextCursor
import MonkeyLang.Syntax.Render
import MonkeyLang.Syntax.Outline
import MonkeyLang.Parsing.Program
import MonkeyLang.Settings.Load
import MonkeyLang.Proofs.StepInvariant
import MonkeyLang.Proofs.Reading
import MonkeyLang.Proofs.Derivation
import MonkeyLang.Proofs.DerivedRuns
import MonkeyLang.Proofs.Soundness
import MonkeyLang.Proofs.Acceptance
import MonkeyLang.Proofs.Spelling
import MonkeyLang.Proofs.WellFormed
import MonkeyLang.Proofs.SpelledTrees
import MonkeyLang.Proofs.LegibleTrees
import MonkeyLang.Proofs.RenderedText
import MonkeyLang.Proofs.RenderedTree
import MonkeyLang.Proofs.Reparse
import MonkeyLang.Proofs.Height
import MonkeyLang.Proofs.Accounting
import MonkeyLang.Proofs.Lookahead
import MonkeyLang.Proofs.TokenView
import MonkeyLang.Proofs.Passage
import MonkeyLang.Proofs.Boundary
import MonkeyLang.Proofs.Resumption
import MonkeyLang.Proofs.Enclosure
import MonkeyLang.Proofs.Problems
import MonkeyLang.Proofs.Causality
import MonkeyLang.Proofs.Completion
import MonkeyLang.Proofs.FirstProblem
import MonkeyLang.Proofs.LongestMatch
import MonkeyLang.Proofs.Coordinates
import MonkeyLang.Proofs.TokenTrail
import MonkeyLang.Proofs.BlameOrder
import MonkeyLang.Proofs.DiagnosticPlaces
import MonkeyLang.Proofs.TokensTaken
import MonkeyLang.Proofs.Layout
import MonkeyLang.Proofs.Towers
import MonkeyLang.Proofs.LooserLimits
import MonkeyLang.Proofs.JoinedTexts
import MonkeyLang.Proofs.StepwiseReading
import MonkeyLang.Proofs.UniqueReading
import MonkeyLang.Proofs.AdmittedSettings
import MonkeyLang.Proofs.OutlineEquality
import MonkeyLang.Proofs.LogTrace
import MonkeyLang.Proofs.NestingCounter
import MonkeyLang.Proofs.SessionDiscipline
import MonkeyLang.Proofs.ReadingAhead
