import Sashiko.Ai.Budget
import Sashiko.Ai.Usage
import Sashiko.Ai.Forgetting
import Sashiko.Ai.Cache
import Sashiko.Ai.IdleCredit
import Sashiko.Workflow.Engine
import Sashiko.Workflow.Telemetry
import Sashiko.Workflow.Effects
import Sashiko.Workflow.StageTools
import Sashiko.Workflow.PromptPieces
import Sashiko.Db.Generations
import Sashiko.Db.Folding
import Sashiko.Review.Verdicts
import Sashiko.Review.Batches
import Sashiko.Email.Blindness
import Sashiko.Access.Agreement
import Sashiko.Db.MailOnce
import Sashiko.Db.ReportedOnce
import Sashiko.Prior.Credit
import Sashiko.Diff.RoundTrip
import Sashiko.Diff.Location
import Sashiko.Diff.Spans
import Sashiko.Diff.Placement
import Sashiko.Diff.ExactMatch
import Sashiko.Diff.Quoting
import Sashiko.Email.Authors
import Sashiko.Email.Recipients
import Sashiko.Email.Patchwork
import Sashiko.Email.PositiveRecipients
import Sashiko.Access.FileMatcher
import Sashiko.Diff.Owners
import Sashiko.Diff.PrefetchAgreement
import Sashiko.Related.Reservation
import Sashiko.Email.AddressLists
import Sashiko.Ai.TokenPacing
import Sashiko.Toolbox.Reading
import Sashiko.Baseline.Ties
import Sashiko.Subject.Cleaning
import Sashiko.Subject.Counters
import Sashiko.Subject.ReadBack
import Sashiko.Authority.Mailmap
import Sashiko.Diff.Trees
import Sashiko.Fixes.BlameTargets
import Sashiko.Lib.Representatives
import Sashiko.Related.Candidates
import Sashiko.Fixes.Trailers
import Sashiko.Subject.Frames
import Sashiko.Subject.Indexes
import Sashiko.Subject.Promoted
import Sashiko.Authority.AuthorIndex
import Sashiko.Db.Embargo
import Sashiko.Db.Projection
import Sashiko.Lib.EditScript
import Sashiko.Lib.JsonText
import Sashiko.Lib.Saturation
import Sashiko.Prior.Budgeted
import Sashiko.Prior.ChangeLines
import Sashiko.Prior.Finalized
import Sashiko.Prior.LineBalance
import Sashiko.Series.LineageReconcile
import Sashiko.Series.Predecessor
import Sashiko.Series.Prerequisite
import Sashiko.Series.Priority
import Sashiko.Workflow.AnswerDecoding
import Sashiko.Ai.Claude
import Sashiko.Ai.ClaudeTurns
import Sashiko.Db.FetchLeases
import Sashiko.Db.PatchworkGuards
import Sashiko.Lib.LookBack
import Sashiko.Lib.Occurrences
import Sashiko.Prior.OwnWords
import Sashiko.Prior.TagNeutral
import Sashiko.Related.ReportAlignment
import Sashiko.Toolbox.GrepHunk
import Sashiko.Toolbox.GrepMatches
import Sashiko.Ingest.FetchLoop
import Sashiko.Ingest.HighWater
import Sashiko.Ingest.Progress
import Sashiko.Ai.Gemini
import Sashiko.Ai.GeminiTurns
import Sashiko.Email.ProseLayout
import Sashiko.Lib.Attempts
import Sashiko.Lib.PostOrder
import Sashiko.Scan.Chunks
import Sashiko.Series.PrerequisiteMetadata
import Sashiko.Series.RequestBudget
import Sashiko.Toolbox.Capture
