import SeamlessWorkflow.Context.System
import SeamlessWorkflow.Proofs.Endpoints
import SeamlessWorkflow.Proofs.LedgerRuns
import SeamlessWorkflow.Proofs.SymbolDocuments
import SeamlessWorkflow.Proofs.RootRuns
import SeamlessWorkflow.Proofs.RecordRuns
import SeamlessWorkflow.Proofs.DeliveredCelltypes
import SeamlessWorkflow.Proofs.ControllerRuns
import SeamlessWorkflow.Proofs.ShareAttends
import SeamlessWorkflow.Proofs.ExchangeTurns
import SeamlessWorkflow.Proofs.HandleExpressions
import SeamlessWorkflow.Proofs.MountOverlaps
import SeamlessWorkflow.Proofs.BarrierRuns
import SeamlessWorkflow.Proofs.PutRefusals
import SeamlessWorkflow.Proofs.WidgetEdits
import SeamlessWorkflow.Proofs.StateGraphRuns
import SeamlessWorkflow.Proofs.UpdateStreams
import SeamlessWorkflow.Proofs.ChainRuns
import SeamlessWorkflow.Proofs.HandleCelltypes
import SeamlessWorkflow.Proofs.TraitLinks
import SeamlessWorkflow.Proofs.ClientRuns
import SeamlessWorkflow.Proofs.PublishedRuns
import SeamlessWorkflow.Proofs.PathTexts
import SeamlessWorkflow.Proofs.DirectoryContained
import SeamlessWorkflow.Proofs.ScratchHolders
import SeamlessWorkflow.Proofs.SettledRuns
import SeamlessWorkflow.Proofs.ValidatedCells
import SeamlessWorkflow.Proofs.ComputingNodes
import SeamlessWorkflow.Proofs.DerivationOrders
import SeamlessWorkflow.Proofs.IngressRuns
