import TickToTrade.Dut.BookTable
import TickToTrade.Protocol.MoldUdp64

/-!
# The cold shard

A session can leave the books of the cold symbols to a second thread, which gets the
packets of the feed through a bounded queue and applies them to a table of its own.
The packets in the queue are taken to keep their bytes until they are consumed.
-/

namespace TickToTrade.Dut

/-- `ColdShard`. -/
structure ColdShard where
  books : BookTable
  /-- The queue, first frame first; `none` is the mark of a reset. -/
  queue : List (Option (List UInt8)) := []
  /-- How many frames the queue holds. -/
  capacity : ℕ
  /-- From how many queued frames on a frame may have been overwritten. -/
  safeDepth : ℕ
  dropped : ℕ := 0
  packets : ℕ := 0
  stale : ℕ := 0
  /-- The messages applied so far with their numbers in the stream: what the program
  only counts. -/
  log : List (ℕ × List UInt8) := []

namespace ColdShard

/-- `kLifetimeMargin`. -/
def kLifetimeMargin : ℕ := 1024

/-- The constructor. The queue has room for at least one frame. -/
def new (cfg : BookTableConfig) (queueCapacity : ℕ) : ColdShard where
  books := BookTable.new cfg
  capacity := max queueCapacity 1
  safeDepth := if queueCapacity > kLifetimeMargin then queueCapacity - kLifetimeMargin else queueCapacity

/-- Queue a packet, or drop it when the queue is full. -/
def push (c : ColdShard) (pkt : List UInt8) : ColdShard :=
  if c.queue.length < c.capacity then { c with queue := c.queue ++ [some pkt] }
  else { c with dropped := c.dropped + 1 }

/-- Apply one message, the `n`-th of the stream. -/
def applyOne (c : ColdShard) (n : ℕ) (msg : List UInt8) : ColdShard :=
  if msg.length < 11 then c
  else
    match (Itch.decode msg).body with
    | .systemEvent code => if code = .startOfMessages then { c with books := c.books.clearAll } else c
    | .systemEventShort => c
    | _ => { c with books := (c.books.apply (Itch.decode msg)).1, log := c.log ++ [(n, msg)] }

/-- Apply the messages of a packet from the `n`-th of the stream on. -/
def applyAll (c : ColdShard) : ℕ → List (List UInt8) → ColdShard
  | _, [] => c
  | n, msg :: msgs => (c.applyOne n msg).applyAll (n + 1) msgs

/-- Apply a packet. -/
def applyFrame (c : ColdShard) (pkt : List UInt8) : ColdShard :=
  let c := { c with packets := c.packets + 1 }
  if pkt.length < Mold.kHeaderSize then c
  else c.applyAll (Mold.sequenceOf pkt) (Mold.messages pkt)

/-- Take the first frame off the queue. -/
def consume (c : ColdShard) : ColdShard :=
  match c.queue with
  | [] => c
  | none :: queue => { c with books := c.books.clearAll, queue := queue }
  | some pkt :: queue =>
      if c.queue.length > c.safeDepth then { c with stale := c.stale + 1, queue := queue }
      else { c with queue := queue }.applyFrame pkt

/-- Queue the mark of a reset. A full queue is waited for until the thread has taken a
frame off it. -/
def reset (c : ColdShard) : ColdShard :=
  let c := if c.queue.length < c.capacity then c else c.consume
  { c with queue := c.queue ++ [none] }

end ColdShard

end TickToTrade.Dut
