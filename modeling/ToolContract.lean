import ToolContract.Call.Prepared
import ToolContract.Config.Load
import ToolContract.FileDescriptor.Decode
import ToolContract.Proofs.Call.Encoding
import ToolContract.Proofs.Call.Extraction
import ToolContract.Proofs.Call.Independence
import ToolContract.Proofs.Call.Promotion
import ToolContract.Proofs.Call.Reordering
import ToolContract.Proofs.Call.Termination
import ToolContract.Proofs.Config.ExtraValues
import ToolContract.Proofs.Config.Rules
import ToolContract.Proofs.Contract.Document
import ToolContract.Proofs.Contract.Dots
import ToolContract.Proofs.Contract.Existence
import ToolContract.Proofs.Contract.Locality
import ToolContract.Proofs.Contract.Presence
import ToolContract.Proofs.Contract.Properties
import ToolContract.Proofs.Contract.Satisfiable
import ToolContract.Proofs.Contract.Unions
import ToolContract.Proofs.Descriptor.Registrations
import ToolContract.Proofs.FileDescriptor.Annotations
import ToolContract.Proofs.FileDescriptor.Comments
import ToolContract.Proofs.FileDescriptor.Failures
import ToolContract.Proofs.FileDescriptor.Joined
import ToolContract.Proofs.FileDescriptor.Kinds
import ToolContract.Proofs.FileDescriptor.Registered
import ToolContract.Proofs.Request.Completeness
import ToolContract.Proofs.Request.Soundness
import ToolContract.Proofs.Table.Compilations
import ToolContract.Proofs.Table.Rebuilt
import ToolContract.Proofs.Tool.Fitting
import ToolContract.Proofs.Tool.InputDocument
import ToolContract.Proofs.Tool.Listing
