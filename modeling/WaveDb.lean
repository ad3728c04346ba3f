import WaveDb.Storage.JournalBytes
import WaveDb.Index.SaltGuard
import WaveDb.Storage.Alloc.Run
import WaveDb.Storage.LinearHash
import WaveDb.Client.Drains
import WaveDb.Client.Replay
import WaveDb.Client.Warm
import WaveDb.Collection.Envelope
import WaveDb.Net.WebSocket
import WaveDb.Net.Request
import WaveDb.Watch.Acknowledged
import WaveDb.Watch.Subscribed
import WaveDb.Auth.SingleUse
import WaveDb.Node.Anonymous
import WaveDb.Storage.PageBytes
import WaveDb.Storage.PageCache
import WaveDb.Node.ReadOnly
import WaveDb.Node.UniqueChain
import WaveDb.Node.Mismatched
import WaveDb.Node.Shard
import WaveDb.Node.Valve
import WaveDb.Storage.FirstOpen
import WaveDb.Index.Key
import WaveDb.Index.Stream
import WaveDb.Index.Staging
import WaveDb.Collection.Paging
import WaveDb.Collection.FuzzySearch
import WaveDb.Node.Delivery
import WaveDb.Node.StoredCatchUp
