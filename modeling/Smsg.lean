import Smsg.Lib.Machine
import Smsg.Lib.Framing
import Smsg.Ncmd
import Smsg.Proofs.Words
import Smsg.Proofs.NetCmd
import Smsg.Proofs.Iscomplete
import Smsg.Proofs.Drain
import Smsg.Proofs.Fragmentation
import Smsg.Proofs.Handlers
import Smsg.Chatter
import Smsg.Proofs.Agreement
import Smsg.Proofs.Operators
import Smsg.Proofs.Membership
import Smsg.Proofs.Departed
import Smsg.Proofs.Updates
import Smsg.Proofs.Notices
import Smsg.Proofs.Prefs
import Smsg.Proofs.Queue
import Smsg.Proofs.Getqmsg
import Smsg.Proofs.Select
import Smsg.Proofs.Rounds
import Smsg.Proofs.Capacity
import Smsg.Proofs.Client
import Smsg.Proofs.Join
import Smsg.Proofs.Terminals
import Smsg.Proofs.Uses
import Smsg.Proofs.Reports
import Smsg.Proofs.Who
import Smsg.Proofs.Dispatch
import Smsg.Proofs.Store
import Smsg.Proofs.Userlist
import Smsg.Proofs.Cmdline
import Smsg.Proofs.Recalled
import Smsg.Proofs.Completion
import Smsg.Proofs.Malloc
import Smsg.Proofs.Getarg
import Smsg.Proofs.Main
import Smsg.Proofs.Mailbox
import Smsg.Proofs.Conversation
import Smsg.Proofs.Descriptors
import Smsg.Proofs.Announcements
import Smsg.Proofs.Options
import Smsg.Proofs.Smsgwho
import Smsg.Proofs.Traces
import Smsg.Proofs.Daemon
import Smsg.Proofs.TypedChat
