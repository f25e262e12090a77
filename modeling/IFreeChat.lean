import IFreeChat.Basis.Machine
import IFreeChat.Basis.Fifo
import IFreeChat.Basis.Memory
import IFreeChat.Queue.Ring
import IFreeChat.Queue.MsgQueue
import IFreeChat.Ifc.Shutdown
import IFreeChat.MemPool.Pool
import IFreeChat.MemPool.Safety
import IFreeChat.MemPool.Calls
import IFreeChat.MemPool.Sizes
import IFreeChat.Basis.FiniteMap
import IFreeChat.Basis.Update
import IFreeChat.Basis.Links
import IFreeChat.Basis.Lists
import IFreeChat.Basis.Drain
import IFreeChat.Basis.Latest
import IFreeChat.Hash.Table
import IFreeChat.Hash.Map
import IFreeChat.Hash.Slots
import IFreeChat.Hash.Destroy
import IFreeChat.Hash.Rings
import IFreeChat.Hash.Lists
import IFreeChat.Basis.Extents
import IFreeChat.Ifc.PoolBlocks
import IFreeChat.Ifc.Delivery
import IFreeChat.Ifc.Emotion
import IFreeChat.Ifc.Scanner
import IFreeChat.Ifc.Chatboxes
import IFreeChat.Ifc.GroupEntry
import IFreeChat.Ifc.Members
import IFreeChat.Ifc.GroupStore
import IFreeChat.Ifc.Config
import IFreeChat.Ifc.ConfigGroups
import IFreeChat.Ifc.Contacts
import IFreeChat.Ifc.Book
import IFreeChat.Ifc.Moves
import IFreeChat.Ifc.ContactTree
import IFreeChat.Ifc.Stores
import IFreeChat.Basis.Text
import IFreeChat.Basis.Block
import IFreeChat.Basis.Packed
import IFreeChat.Ifc.EntryStore
import IFreeChat.Ifc.Feiq
import IFreeChat.Ifc.FeiqParse
import IFreeChat.Ifc.Address
import IFreeChat.Ifc.FeiqRoundTrip
import IFreeChat.Ifc.FeiqHandlers
import IFreeChat.Ifc.FeiqEntries
import IFreeChat.Ifc.ReceiveLoop
import IFreeChat.Ifc.Outgoing
import IFreeChat.Basis.Tally
import IFreeChat.Basis.Feistel
import IFreeChat.Peer.BlowfishTables
import IFreeChat.Peer.Blowfish
import IFreeChat.Peer.CipherModes
import IFreeChat.Peer.Message
import IFreeChat.Peer.Charsets
import IFreeChat.Peer.MessageBlock
import IFreeChat.Peer.Entry
import IFreeChat.Peer.UserBlock
import IFreeChat.Peer.Latest
import IFreeChat.Peer.Categories
import IFreeChat.Peer.Discovery
import IFreeChat.Peer.Replies
import IFreeChat.Peer.Quiescence
import IFreeChat.Peer.Handlers
import IFreeChat.Peer.Ownership
import IFreeChat.Peer.Bounds
import IFreeChat.Peer.Conversion
import IFreeChat.Peer.Keys
import IFreeChat.Peer.Settled
import IFreeChat.Peer.PackedClient
import IFreeChat.Peer.Unread
import IFreeChat.Peer.GroupMessage
import IFreeChat.Peer.Outgoing
import IFreeChat.Peer.Groups
import IFreeChat.Peer.Receipts
import IFreeChat.Peer.PrivateMessage
import IFreeChat.Basis.Network
import IFreeChat.Mixed.Lan
import IFreeChat.Mixed.Crossing
import IFreeChat.Mixed.Entries
