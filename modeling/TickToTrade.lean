import TickToTrade.Dut.AddDelete
import TickToTrade.Dut.BandMoves
import TickToTrade.Dut.BandSettles
import TickToTrade.Dut.BandWords
import TickToTrade.Dut.BookReads
import TickToTrade.Dut.DirectoryBinding
import TickToTrade.Dut.FeedComplete
import TickToTrade.Dut.FreshQuotes
import TickToTrade.Dut.HostileRefs
import TickToTrade.Dut.LateClears
import TickToTrade.Dut.LevelSearch
import TickToTrade.Dut.OwnOrders
import TickToTrade.Dut.PulledQuotes
import TickToTrade.Dut.QuoteMoments
import TickToTrade.Dut.QuoterStrategy
import TickToTrade.Dut.SlotRefs
import TickToTrade.Dut.SocketStamps
import TickToTrade.Dut.StampPairs
import TickToTrade.Dut.TopVersion
import TickToTrade.Dut.TxStamps
import TickToTrade.Dut.WarmUps
import TickToTrade.Dut.WorstSamples
import TickToTrade.Lob.BookRefines
import TickToTrade.Lob.LevelRoom
import TickToTrade.Protocol.EthIpUdp
import TickToTrade.Protocol.MoldPacker
import TickToTrade.Protocol.OuchOptions
import TickToTrade.Protocol.SoupBinTcp
import TickToTrade.Replay.FeedCounts
import TickToTrade.Replay.ItchReaders
import TickToTrade.Sim.ClientPriority
import TickToTrade.Sim.DirectoryRouting
import TickToTrade.Sim.ExchangeSession
import TickToTrade.Sim.ExtractReplay
import TickToTrade.Sim.InboundReads
import TickToTrade.Sim.LevelsJudged
import TickToTrade.Sim.MarketData
import TickToTrade.Sim.MarketReplay
import TickToTrade.Sim.MirroredBook
import TickToTrade.Sim.OnTheWire
import TickToTrade.Sim.OrderEntry
import TickToTrade.Sim.PublishedBook
import TickToTrade.Sim.ReplayLoops
import TickToTrade.Sim.ReplaySources
import TickToTrade.Sim.RequestRouting
import TickToTrade.Sim.VenueLedger
import TickToTrade.Sim.VenueRejects
import TickToTrade.Util.DivWords
import TickToTrade.Util.RingCells
