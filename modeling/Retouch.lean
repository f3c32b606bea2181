import Retouch.Grammar.CTables
import Retouch.Grammar.Cache
import Retouch.Grammar.Report
import Retouch.Main
import Retouch.Proofs.DoctestFiles
import Retouch.Proofs.ExampleTrees
import Retouch.Proofs.FailedEdits
import Retouch.Proofs.ForgottenLines
import Retouch.Proofs.HeadKinds
import Retouch.Proofs.JoinedTokens
import Retouch.Proofs.NewNames
import Retouch.Proofs.NumberForms
import Retouch.Proofs.ParameterPlaces
import Retouch.Proofs.PuttingBack
import Retouch.Proofs.RenamedModules
import Retouch.Proofs.Repetitions
import Retouch.Proofs.SignedFiles
import Retouch.Proofs.SwitchedFeatures
import Retouch.Proofs.TidyPrograms
import Retouch.Proofs.TokenTurns
import Retouch.Proofs.TouchedImports
import Retouch.Proofs.TupleDisplays
import Retouch.Proofs.WalkOrder
import Retouch.Token.Listing
