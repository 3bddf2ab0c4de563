import Vle.Cvle.MasterWorker
import Vle.Cvle.Protocol
import Vle.Cvle.Root
import Vle.Cvle.Worker
import Vle.Devs.Coordinator
import Vle.Devs.Executive
import Vle.Devs.Growth
import Vle.Devs.Kernel
import Vle.Devs.Layout
import Vle.Devs.Loading
import Vle.Devs.NextBag
import Vle.Devs.Processing
import Vle.Devs.Routes
import Vle.Devs.Runs
import Vle.Devs.Scheduler
import Vle.Devs.Settled
import Vle.Devs.Simulator
import Vle.Devs.Steps
import Vle.Devs.Thread
import Vle.Devs.Ties
import Vle.Devs.TimedObservation
import Vle.Devs.Trajectory
import Vle.Gvle.DomDiffStack
import Vle.Gvle.FillCondition
import Vle.Gvle.NameProvider
import Vle.Gvle.ValueCodec
import Vle.Gvle.ValueContainers
import Vle.Gvle.ValueNodes
import Vle.Lib.Cells
import Vle.Lib.EState
import Vle.Lib.FirstFrom
import Vle.Lib.Keeps
import Vle.Lib.Kernel
import Vle.Lib.Loops
import Vle.Lib.Places
import Vle.Lib.Queue
import Vle.Lib.Search
import Vle.Lib.Words
import Vle.Manager.AccuMulti
import Vle.Manager.CvleRead
import Vle.Manager.Embedded
import Vle.Manager.Quantile
import Vle.Manager.RunPlan
import Vle.Manager.Scheduling
import Vle.Oov.File
import Vle.Oov.Storage
import Vle.Qss.AdaptativeQuantifier
import Vle.Qss.Integrator
import Vle.Translator.Grid
import Vle.Utils.Array2
import Vle.Utils.DateText
import Vle.Utils.Durations
import Vle.Utils.Filesystem
import Vle.Utils.PackageRoundTrip
import Vle.Utils.RemoteManager
import Vle.Utils.RemoteSelection
import Vle.Utils.Settings
import Vle.Utils.Shell
import Vle.Value.Access
import Vle.Value.Seen
import Vle.Vpz.BaseModel
import Vle.Vpz.BasicConnections
import Vle.Vpz.CoupledModel
import Vle.Vpz.Deletion
import Vle.Vpz.FreshName
import Vle.Vpz.Hierarchy
import Vle.Vpz.Isomorphism
import Vle.Vpz.Lossless
import Vle.Vpz.ModelPortList
import Vle.Vpz.Operations
import Vle.Vpz.Paths
import Vle.Vpz.Ports
import Vle.Vpz.RemoveWalk
import Vle.Vpz.Replacement
import Vle.Vpz.Routing
import Vle.Vpz.Runs
import Vle.Vpz.Symmetry
