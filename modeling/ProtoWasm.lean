import ProtoWasm.Execution.HostFunctions
import ProtoWasm.Execution.Interpreter
import ProtoWasm.Execution.Script
import ProtoWasm.Main
import ProtoWasm.Proofs.Body.Listing
import ProtoWasm.Proofs.Body.Phis
import ProtoWasm.Proofs.Body.Completion
import ProtoWasm.Proofs.Code.Relinking
import ProtoWasm.Proofs.Code.Workers
import ProtoWasm.Proofs.Embedding.Closing
import ProtoWasm.Proofs.Module.Arrangement
import ProtoWasm.Proofs.Store.Separation
import ProtoWasm.Proofs.Store.References
import ProtoWasm.Proofs.Binary.Windows
