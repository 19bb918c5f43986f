import Detent.Guarantees.ClientPairing
import Detent.Guarantees.AuditedWrites
import Detent.Guarantees.RestoreGuard
import Detent.Guarantees.ArmedJournal
import Detent.Guarantees.ContinuedEntries
import Detent.Guarantees.OneResponse
import Detent.Guarantees.DenyGate
import Detent.Guarantees.MarkerCrashes
import Detent.Guarantees.ArmedBackups
import Detent.Guarantees.MountUnits
import Detent.Guarantees.ResolverEdits
import Detent.Guarantees.BinarySwap
import Detent.Guarantees.LoginGuesses
import Detent.Guarantees.CredentialReads
import Detent.Guarantees.CredentialUpdates
import Detent.Guarantees.PasswordFinality
import Detent.Guarantees.CodeReplay
import Detent.Guarantees.SessionOrigins
import Detent.Guarantees.GuardedCallers
import Detent.Guarantees.OneShotApply
import Detent.Guarantees.AuthRotations
import Detent.Guarantees.FrontEnds
import Detent.Guarantees.InclusionPaths
import Detent.Guarantees.RenewalSchedule
import Detent.Guarantees.TsigNames
import Detent.Guarantees.PropagationProbe
import Detent.Guarantees.ReleaseChoice
import Detent.Guarantees.Precertificate
import Detent.Guarantees.EntryFrames
import Detent.Guarantees.QuotedValues
import Detent.Guarantees.KeaHooks
import Detent.Guarantees.MountNames
import Detent.Guarantees.ComparedContents
import Detent.Guarantees.FailureCounts
import Detent.Guarantees.TokenBudgets
import Detent.Guarantees.ZoneFindings
import Detent.Guarantees.IfupdownStanzas
import Detent.Guarantees.NetplanComments
import Detent.Guarantees.KeaDocuments
import Detent.Guarantees.BackoffWaits
import Detent.Guarantees.SecretTexts
import Detent.Guarantees.StoredPairs
import Detent.Guarantees.RunnerConfinement
import Detent.Guarantees.OrderRuns
import Detent.Guarantees.RejectionRecords
import Detent.Guarantees.NoLostUpdate
