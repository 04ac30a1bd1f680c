import Zyre.ForMathlib.AList
import Zyre.ForMathlib.EStateM
import Zyre.ForMathlib.List
import Zyre.ForMathlib.Echo.Growth
import Zyre.ForMathlib.Reading
import Zyre.ForMathlib.Multipart
import Zyre.ForMathlib.Z85
import Zyre.ForMathlib.PropertyTree
import Zyre.CStr
import Zyre.Msg.Recv
import Zyre.Msg.Layout
import Zyre.Msg.Fill
import Zyre.Msg.Send
import Zyre.Msg.Codec
import Zyre.Node.Actor
import Zyre.Mailbox
import Zyre.Node.Alternation
import Zyre.Node.Malformed
import Zyre.Node.Soundness
import Zyre.Node.Survival
import Zyre.Node.Entries
import Zyre.Node.Inbox
import Zyre.Node.Beacon
import Zyre.Node.Secure
import Zyre.Node.Gossip
import Zyre.Node.Rejection
import Zyre.Node.Isolation
import Zyre.Link.Agreement
import Zyre.Link.Loss
import Zyre.Link.Groups
import Zyre.Api
import Zyre.Event
import Zyre.Zpl.RoundTrip
import Zyre.Node.Participation
import Zyre.Net.Basic
import Zyre.Net.Contest
import Zyre.Node.Departure
import Zyre.Link.Names
import Zyre.Link.Handshake
import Zyre.Link.Exchange
import Zyre.Node.Speech
import Zyre.Link.Speech
import Zyre.Link.Applications
import Zyre.Node.Address
import Zyre.Node.Timers
import Zyre.Node.Deadlines
import Zyre.Node.Expiry
import Zyre.Node.Self
import Zyre.ForMathlib.Bucket
import Zyre.Node.Additions
import Zyre.Node.Pass
import Zyre.Node.Silence
import Zyre.Node.Loop
import Zyre.Node.Buffers
import Zyre.Node.Known
import Zyre.Node.Query
import Zyre.Net.Shout
import Zyre.Node.Mailing
import Zyre.Node.Lifetime
import Zyre.Node.Ballot
import Zyre.Node.Enlist
import Zyre.Net.Assembly
import Zyre.Net.Muster
