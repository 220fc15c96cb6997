import Rmrf.Runs
import Rmrf.Stateful
import Rmrf.Machine
import Rmrf.Numerals
import Rmrf.Fields
import Rmrf.IoQueue
import Rmrf.IoRecords
import Rmrf.TcpClient
import Rmrf.ClientStatements
import Rmrf.ClientSteps
import Rmrf.OutboundStream
import Rmrf.WriteInterest
import Rmrf.TransientResults
import Rmrf.Destruction
import Rmrf.TcpServerSocket
import Rmrf.LineBuffer
import Rmrf.LineLimit
import Rmrf.SocketAddress
import Rmrf.OutboundConnect
import Rmrf.OutboundLaws
import Rmrf.AddressComponents
import Rmrf.Ip4Canonical
import Rmrf.NumbersAndDots
import Rmrf.StandardAddress
import Rmrf.Inet6
import Rmrf.Ip6Text
import Rmrf.Inet6Scan
import Rmrf.Inet6Laws
import Rmrf.Literals
import Rmrf.ParserBounds
import Rmrf.Ostream
import Rmrf.Hexdump
import Rmrf.HexdumpText
import Rmrf.HexdumpReadback
import Rmrf.HexdumpColumns
import Rmrf.HexdumpRange
import Rmrf.HexdumpStreams
import Rmrf.AcceptedPeers
import Rmrf.Ownership
import Rmrf.AutoFd
import Rmrf.Views
import Rmrf.Conversation
import Rmrf.ConversationLaws
import Rmrf.ConversationProgress
import Rmrf.SearchedLines
import Rmrf.PeerLines
import Rmrf.ColorPairs
import Rmrf.Handles
import Rmrf.SocketHandles
import Rmrf.Ip4Readings
import Rmrf.PeerTexts
import Rmrf.HexdumpPieces
import Rmrf.ServerClients
import Rmrf.ServerHandles
import Rmrf.Forest
import Rmrf.Windows
import Rmrf.WindowOwners
import Rmrf.WindowCalls
import Rmrf.WindowVectors
import Rmrf.WindowModes
import Rmrf.WindowRuns
