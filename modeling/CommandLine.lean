import CommandLine.Main
import CommandLine.Proofs.Aliases
import CommandLine.Proofs.CursorInvariant
import CommandLine.Proofs.DeclaredDefaults
import CommandLine.Proofs.IndentedLines
import CommandLine.Proofs.InsertedAgain
import CommandLine.Proofs.IntegerArguments
import CommandLine.Proofs.JoinedPermissions
import CommandLine.Proofs.LaterFlags
import CommandLine.Proofs.LiteralCompletion
import CommandLine.Proofs.LiteralLines
import CommandLine.Proofs.Monotone
import CommandLine.Proofs.NestedCalls
import CommandLine.Proofs.OfferedFlags
import CommandLine.Proofs.OneChain
import CommandLine.Proofs.OwnFlags
import CommandLine.Proofs.ParameterOrder
import CommandLine.Proofs.QuotedWords
import CommandLine.Proofs.Reachable
import CommandLine.Proofs.ReadPermissions
import CommandLine.Proofs.Refused
import CommandLine.Proofs.ReportedRejections
import CommandLine.Proofs.Respacing
import CommandLine.Proofs.RespelledFlags
import CommandLine.Proofs.SeparateNames
import CommandLine.Proofs.SharedNodes
import CommandLine.Proofs.SharedShorthands
import CommandLine.Proofs.Shell.Team
import CommandLine.Proofs.SplicedSuggestions
import CommandLine.Proofs.SuggestionsTaken
import CommandLine.Proofs.SwitchSpellings
import CommandLine.Proofs.TreeShape
import CommandLine.Proofs.TreeSize
import CommandLine.Proofs.TrialOrder
