import ChapterCheck.Disk
import ChapterCheck.Main
import ChapterCheck.MemoryTree
import ChapterCheck.Pattern.Language
import ChapterCheck.Pattern.Grammar
import ChapterCheck.Proofs.PathComponents
import ChapterCheck.Proofs.PathAncestry
import ChapterCheck.Proofs.MemoryHistory
import ChapterCheck.Proofs.TreeSurvey
import ChapterCheck.Proofs.Discovery
import ChapterCheck.Proofs.MemorySurvey
import ChapterCheck.Proofs.FencePairing
import ChapterCheck.Proofs.ValidationReport
import ChapterCheck.Proofs.ListingOrder
import ChapterCheck.Proofs.RunEnding
import ChapterCheck.Proofs.AddedDocument
import ChapterCheck.Proofs.JsonReading
import ChapterCheck.Proofs.Utf8Codec
import ChapterCheck.Proofs.ExitStatus
import ChapterCheck.Proofs.PatternReading
import ChapterCheck.Proofs.TextLines
import ChapterCheck.Proofs.FenceBlocks
import ChapterCheck.Proofs.FrontmatterKeys
import ChapterCheck.Proofs.FrontmatterBlock
import ChapterCheck.Proofs.PassedRuns
import ChapterCheck.Proofs.BuiltinPatterns
import ChapterCheck.Proofs.LinePatterns
import ChapterCheck.Proofs.LineEndings
import ChapterCheck.Proofs.AppendedText
import ChapterCheck.Proofs.AsciiStretches
import ChapterCheck.Proofs.ByteScan
import ChapterCheck.Proofs.DamagedDocuments
import ChapterCheck.Proofs.ChildListings
import ChapterCheck.Proofs.LimitedSinks
import ChapterCheck.Proofs.SubtreeOrder
import ChapterCheck.Proofs.PathJoining
import ChapterCheck.Proofs.RelativeNames
import ChapterCheck.Proofs.CaseFolding
import ChapterCheck.Proofs.SourceTokens
import ChapterCheck.Proofs.SourceMarks
import ChapterCheck.Proofs.ClassReading
import ChapterCheck.Proofs.SourceMeaning
import ChapterCheck.Proofs.SourceScan
import ChapterCheck.Proofs.ReportFormats
