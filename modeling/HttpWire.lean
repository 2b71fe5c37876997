import HttpWire.Capture.Run
import HttpWire.Connection
import HttpWire.Main
import HttpWire.Proofs.ChunkSizes
import HttpWire.Proofs.Closing
import HttpWire.Proofs.FailedHeads
import HttpWire.Proofs.FirstLength
import HttpWire.Proofs.Folds.Joining
import HttpWire.Proofs.Granularity
import HttpWire.Proofs.Guarded
import HttpWire.Proofs.Halting
import HttpWire.Proofs.Handover
import HttpWire.Proofs.Hygiene
import HttpWire.Proofs.Leftovers
import HttpWire.Proofs.Noise
import HttpWire.Proofs.OneLine.Output
import HttpWire.Proofs.Registers
import HttpWire.Proofs.Restoring
import HttpWire.Proofs.Relaxed
import HttpWire.Proofs.Scanning
import HttpWire.Proofs.StartLines
import HttpWire.Proofs.Trailers
import HttpWire.Proofs.VersionSpellings
import HttpWire.Settings
