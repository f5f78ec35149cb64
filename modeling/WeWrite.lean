import WeWrite.Library.Runs
import WeWrite.Library.Splice
import WeWrite.Library.Divergence
import WeWrite.Library.Varint
import WeWrite.Library.WireFormat
import WeWrite.Library.LongestPrefix
import WeWrite.Library.Utf8
import WeWrite.Editor.Text
import WeWrite.Editor.Controller
import WeWrite.Editor.Encoding
import WeWrite.Editor.Handlers
import WeWrite.Editor.Broadcast
import WeWrite.Editor.SingleEditor
import WeWrite.Editor.TextSize
import WeWrite.Editor.Mutators
import WeWrite.Editor.Selection
import WeWrite.Editor.RemoteCaret
import WeWrite.Editor.EchoCaret
import WeWrite.Editor.Replacement
import WeWrite.Editor.ContentEncoding
import WeWrite.Session.Model
import WeWrite.Session.Agreement
import WeWrite.Session.Settling
import WeWrite.Session.Entering
import WeWrite.Session.Typing
import WeWrite.Session.Sequential
import WeWrite.Session.History
import WeWrite.Session.RangeSafety
import WeWrite.Session.Frontier
import WeWrite.Session.Placement
import WeWrite.Session.Deletion
import WeWrite.Entry.SessionEntry
import WeWrite.Entry.Dialogs
import WeWrite.Entry.DialogRuns
import WeWrite.Entry.JoinRequests
import WeWrite.Entry.CreateRequests
import WeWrite.Wire.CodedOutput
import WeWrite.Wire.CodedInput
import WeWrite.Wire.Readers
import WeWrite.Wire.UnknownFields
import WeWrite.Wire.TextChangeMessage
import WeWrite.Wire.Parse
import WeWrite.Wire.Termination
import WeWrite.Wire.RoundTrip
import WeWrite.Wire.Network
import WeWrite.Wire.Utf8Table
import WeWrite.Wire.Utf8Scan
import WeWrite.Wire.StringCheck
