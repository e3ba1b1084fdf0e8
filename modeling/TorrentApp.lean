import TorrentApp.Foundation.Machine
import TorrentApp.Foundation.Barrier
import TorrentApp.Foundation.Tally
import TorrentApp.Foundation.Buckets
import TorrentApp.Foundation.Rounding
import TorrentApp.Foundation.Bytes
import TorrentApp.Foundation.Blocks
import TorrentApp.Foundation.Bencode
import TorrentApp.Downloader.Worker
import TorrentApp.Downloader.Step
import TorrentApp.Downloader.Slot
import TorrentApp.Downloader.Release
import TorrentApp.Downloader.Selection
import TorrentApp.Downloader.Callbacks
import TorrentApp.Downloader.Sessions
import TorrentApp.Downloader.Swarm
import TorrentApp.Downloader.Completion
import TorrentApp.RootList.Paging
import TorrentApp.Detail.Cache
import TorrentApp.Detail.Linearizable
import TorrentApp.Detail.Page
import TorrentApp.Detail.StoredTorrents
import TorrentApp.Detail.Files
import TorrentApp.Detail.Finished
import TorrentApp.Torrent.FileStorage
import TorrentApp.Torrent.Pieces
import TorrentApp.Torrent.Bdecode
import TorrentApp.Torrent.LoadFile
import TorrentApp.Torrent.Opening
import TorrentApp.Cosxcos.Gumbo
import TorrentApp.Cosxcos.Rows
import TorrentApp.Cosxcos.Scrapers
import TorrentApp.Torrent.Tokens
import TorrentApp.Foundation.Decimal
import TorrentApp.Foundation.SortedMap
import TorrentApp.Torrent.BdecodeNode
import TorrentApp.Torrent.Entry
import TorrentApp.Torrent.EntryCodec
import TorrentApp.Foundation.Image
import TorrentApp.Torrent.Slices
import TorrentApp.Torrent.Buffers
import TorrentApp.Torrent.Disk
import TorrentApp.Torrent.PartFile
import TorrentApp.Torrent.PartFileHeader
import TorrentApp.Torrent.ReadWrite
import TorrentApp.Torrent.DefaultStorage
import TorrentApp.Torrent.StorageRuns
import TorrentApp.Torrent.JobFence
import TorrentApp.Torrent.FileProgress
import TorrentApp.Torrent.QueueProgress
import TorrentApp.Torrent.PieceOrder
import TorrentApp.Torrent.PieceMoves
import TorrentApp.Torrent.PieceRebuild
import TorrentApp.Torrent.PieceCalls
import TorrentApp.Torrent.PieceRuns
