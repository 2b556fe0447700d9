import Brocoli.Proofs.Framing
import Brocoli.Proofs.Addressing
import Brocoli.Proofs.ServiceSlots
import Brocoli.Proofs.ServicePorts
import Brocoli.Proofs.SlotLife
import Brocoli.Proofs.BrokerSlots
import Brocoli.Proofs.HubDealer
import Brocoli.Proofs.HubSub
import Brocoli.Proofs.Advertising
import Brocoli.Proofs.BrokerIds
import Brocoli.Proofs.RoundTrip
import Brocoli.Proofs.Delivery
import Brocoli.Proofs.LoopFree
import Brocoli.Proofs.TreeOrder
import Brocoli.Proofs.TreeExpiry
import Brocoli.Proofs.Catalog
import Brocoli.Proofs.Directory
import Brocoli.Proofs.DirectorySweep
import Brocoli.Proofs.DirectoryFresh
import Brocoli.Proofs.Recovery
import Brocoli.Proofs.TornMessages
import Brocoli.Lib.Paths
import Brocoli.Lib.Keyed
import Brocoli.Client
import Brocoli.Proofs.Endpoints
import Brocoli.ConfigWatch
import Brocoli.Lib.Records
import Brocoli.Proofs.ConfigWatch
import Brocoli.Proofs.ConfTrip
import Brocoli.Lib.Bounds
import Brocoli.Proofs.ClientBuffers
import Brocoli.Proofs.RouterBuffers
import Brocoli.Proofs.HubIds
import Brocoli.Proofs.Sending
import Brocoli.Proofs.Traffic
import Brocoli.Lib.Drains
import Brocoli.Proofs.Resync
import Brocoli.Lib.Retry
import Brocoli.RelayLoops
import Brocoli.Proofs.RelaySpec
import Brocoli.Proofs.ResponseRelay
import Brocoli.Lib.Carriage
import Brocoli.Lib.Progress
import Brocoli.Exchange
import Brocoli.Proofs.Exchange
import Brocoli.Proofs.ExchangeProgress
import Brocoli.Server
import Brocoli.Proofs.Answers
import Brocoli.Lib.Lines
import Brocoli.Switch
import Brocoli.Proofs.Switch
import Brocoli.Proofs.SwitchProgress
import Brocoli.Cluster
import Brocoli.Proofs.Cluster
import Brocoli.Proofs.ClusterProgress
import Brocoli.Proofs.ExchangeOrder
import Brocoli.Registration
import Brocoli.Proofs.Registration
