import ByteRegex.CommandLine
import ByteRegex.Log
import ByteRegex.Main
import ByteRegex.Proofs.BoundTexts
import ByteRegex.Proofs.TermNodes
import ByteRegex.Proofs.ClassTexts
import ByteRegex.Proofs.PatternGrammar
import ByteRegex.Proofs.GrammarSoundness
import ByteRegex.Proofs.GrammarCompleteness
import ByteRegex.Proofs.ParseExactness
import ByteRegex.Proofs.ReaderSteps
import ByteRegex.Proofs.AutomatonSize
import ByteRegex.Proofs.FragmentGraphs
import ByteRegex.Proofs.ArenaEdges
import ByteRegex.Proofs.FragmentWiring
import ByteRegex.Proofs.FragmentLanguage
import ByteRegex.Proofs.AutomatonLanguage
import ByteRegex.Proofs.SearchExactness
import ByteRegex.Proofs.SearchPaths
import ByteRegex.Proofs.SearchBounds
import ByteRegex.Proofs.RecursiveSearch
import ByteRegex.Proofs.MatchLanguage
import ByteRegex.Proofs.FragmentPaths
import ByteRegex.Proofs.TrimAutomata
import ByteRegex.Proofs.FinalErrors
import ByteRegex.Proofs.ReadableTerms
import ByteRegex.Proofs.JoinedPatterns
import ByteRegex.Proofs.EscapedTexts
import ByteRegex.Proofs.DrawingLines
import ByteRegex.Proofs.FaithfulDrawings
import ByteRegex.Proofs.FragmentShifts
import ByteRegex.Proofs.RedundantGroups
import ByteRegex.Proofs.ClassItems
import ByteRegex.Proofs.ClassReading
import ByteRegex.Proofs.OpenClasses
import ByteRegex.Proofs.BoundReading
import ByteRegex.Proofs.InvertedBounds
import ByteRegex.Proofs.FailingSteps
import ByteRegex.Proofs.OpenGroups
import ByteRegex.Proofs.BlamedBytes
import ByteRegex.Proofs.ClassRuns
import ByteRegex.Proofs.ClassSets
import ByteRegex.Proofs.ClassDescriptions
import ByteRegex.Proofs.FragmentCopies
import ByteRegex.Proofs.SelfContainedFragments
import ByteRegex.Proofs.RecursiveReading
import ByteRegex.Proofs.ReadingProgress
import ByteRegex.Proofs.ReadingHeights
import ByteRegex.Proofs.ReadersAtSpots
import ByteRegex.Proofs.FaultlessReading
