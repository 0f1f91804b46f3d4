import ElementScript.Files.Tree
import ElementScript.Main
import ElementScript.Piece
import ElementScript.Proofs.SourceMap.Edits
import ElementScript.Proofs.SourceMap.Pieces
import ElementScript.Proofs.Scan.Balance
import ElementScript.Proofs.PassEdits
import ElementScript.Proofs.Relocation
import ElementScript.Proofs.Scan.Ownership
import ElementScript.Proofs.Listener.Rename
import ElementScript.Proofs.Listener.Dispatcher
import ElementScript.Proofs.Comment
import ElementScript.Proofs.Frame
import ElementScript.Proofs.Scan.Leftmost
import ElementScript.Proofs.Cut
import ElementScript.Proofs.Cut.Balance
import ElementScript.Proofs.Cut.Closing
import ElementScript.Proofs.Listener.DispatcherCalls
import ElementScript.Proofs.Stages
import ElementScript.Proofs.Cut.Survivors
import ElementScript.Proofs.Words
import ElementScript.Proofs.LoadHandlerFault
import ElementScript.Proofs.Component.Confinement
import ElementScript.Proofs.Component.Session
import ElementScript.Proofs.Listener.Respelling
import ElementScript.Proofs.Listener.Lines
import ElementScript.Proofs.Listener.Escapes
import ElementScript.Proofs.Comment.Literals
import ElementScript.Proofs.Comment.Rescan
import ElementScript.Proofs.Scan.Extent
import ElementScript.Proofs.Comment.Lines
import ElementScript.Proofs.Lifecycle
import ElementScript.Proofs.Scan.CallSite
import ElementScript.Proofs.Listener.Spacing
import ElementScript.Proofs.Listener.Attribute
import ElementScript.Proofs.Listener.ListenerCall
import ElementScript.Proofs.Listener.Parameters
import ElementScript.Proofs.Listener.DispatcherSignature
import ElementScript.Proofs.LoadHandlerCount
import ElementScript.Proofs.SourceMap.Order
import ElementScript.Proofs.Text.Position
import ElementScript.Proofs.Listener.Repeated
import ElementScript.Proofs.Diagnostic.Caret
import ElementScript.Proofs.CommandLine.Check
import ElementScript.Proofs.Config
