import Perps.Events.Codec
import Perps.Streams.Log

/-! A websocket connection: the channels it asked for, the topics it is subscribed
to, and what it is sent by the live fan-out and by backfill. -/

namespace Perps

abbrev OutputLog : Type := Log (Option EngineOutputEvent)

abbrev OutputEntry : Type := Entry (Option EngineOutputEvent)

namespace Ws

inductive Channel where
  | orderbook
  | trades
  | user
  deriving DecidableEq

def Channel.name : Channel → String
  | .orderbook => "orderbook"
  | .trades => "trades"
  | .user => "user"

def CHANNELS : List Channel := [.orderbook, .trades, .user]

def userTopic (uid : String) : String := "user:" ++ uid

def topicsFor (evt : EngineOutputEvent) : List String :=
  let user (uid : String) := if uid = "" then [] else [userTopic uid]
  match evt.payload with
  | .orderBookDelta _ => ["orderbook"]
  | .orderBookSnapshot _ => ["orderbook"]
  | .tradeExecuted _ => ["trades"]
  | .orderAccepted p => user p.userId
  | .orderRejected p => user p.userId
  | .orderCancelled p => user p.userId
  | .balanceUpdated p => user p.userId
  | .positionUpdated p => user p.userId
  | .positionLiquidated p => user p.userId
  | .commandRejected _ => []

structure SocketData where
  userId : Option String
  /-- In the order of their insertion, without duplicates. -/
  channels : List Channel
  deriving DecidableEq

/-- The topic of a channel. The `userId` of a socket that has none is printed `null`. -/
def SocketData.topic (data : SocketData) : Channel → String
  | .user => userTopic (data.userId.getD "null")
  | ch => ch.name

def deliverable (data : SocketData) (evt : EngineOutputEvent) : Bool :=
  (topicsFor evt).any fun topic =>
    (topic = "orderbook" ∧ .orderbook ∈ data.channels) ∨
      (topic = "trades" ∧ .trades ∈ data.channels) ∨
      (topic = data.topic .user ∧ .user ∈ data.channels)

inductive Frame where
  | welcome (authenticated : Bool)
  | error (error : String)
  | subscribed (channels : List Channel)
  | unsubscribed (channels : List Channel)
  | event (streamId : StreamId) (event : EngineOutputEvent)
  deriving DecidableEq

/-- A backfill first waits for `XRANGE`, then sends what the entries hold. -/
inductive Stage where
  | requested
  | fetched (entries : List OutputEntry)
  | finished (entries : List OutputEntry)
  deriving DecidableEq

structure Backfill where
  sinceId : StreamId
  /-- The channels that the socket has been subscribed to ever since. -/
  channels : List Channel
  stage : Stage

structure Socket where
  data : SocketData
  /-- The server's subscriptions of the socket. -/
  topics : List String
  backfills : List Backfill
  sent : List Frame

structure ClientMessage where
  action : Option String
  channels : Option (List String)
  sinceId : Option StreamId

namespace Socket

def send (s : Socket) (frame : Frame) : Socket := { s with sent := s.sent ++ [frame] }

/-- `open`, after the upgrade. -/
def «open» (userId : Option String) : Socket :=
  send ⟨⟨userId, []⟩, [], [], []⟩ (.welcome userId.isSome)

def insert {α : Type} [DecidableEq α] (x : α) (xs : List α) : List α :=
  if x ∈ xs then xs else xs ++ [x]

def delete {α : Type} [DecidableEq α] (x : α) (xs : List α) : List α := xs.filter (· ≠ x)

def subscribeChannel (s : Socket) (ch : Channel) : Socket :=
  if ch = .user ∧ s.data.userId.getD "" = "" then
    s.send (.error "auth required for user channel")
  else
    { s with
      topics := insert (s.data.topic ch) s.topics
      data := { s.data with channels := insert ch s.data.channels } }

def unsubscribeChannel (s : Socket) (ch : Channel) : Socket :=
  { s with
    topics := delete (s.data.topic ch) s.topics
    data := { s.data with channels := delete ch s.data.channels }
    backfills := s.backfills.map fun b => { b with channels := delete ch b.channels } }

/-- The channels among the strings of a request. -/
def requested (msg : ClientMessage) : List Channel :=
  (msg.channels.getD []).filterMap fun c => CHANNELS.find? fun ch => ch.name = c

/-- A backfill of the channels that the socket is subscribed to now. -/
def startBackfill (s : Socket) (sinceId : StreamId) : Socket :=
  { s with backfills := s.backfills ++ [⟨sinceId, s.data.channels, .requested⟩] }

def subscribe (s : Socket) (channels : List Channel) (sinceId : Option StreamId) : Socket :=
  let s := channels.foldl subscribeChannel s
  let s := s.send (.subscribed s.data.channels)
  match sinceId with
  | some sinceId => s.startBackfill sinceId
  | none => s

/-- The handler of a message, up to the first await. The text is `none` if it is not
JSON. -/
def message (s : Socket) : Option ClientMessage → Socket
  | none => s.send (.error "invalid json")
  | some msg =>
    let channels := requested msg
    if msg.action = some "subscribe" then s.subscribe channels msg.sinceId
    else if msg.action = some "unsubscribe" then
      (channels.foldl unsubscribeChannel s).send (.unsubscribed channels)
    else s

/-- `server.publish` as the socket sees it. -/
def publish (frame : Frame) (s : Socket) (topic : String) : Socket :=
  if topic ∈ s.topics then s.send frame else s

/-- An entry in `consumeOutput`. -/
def fanOut (s : Socket) (m : OutputEntry) : Socket :=
  match decodeOutputEvent m.data with
  | none => s
  | some evt => (topicsFor evt).foldl (publish (.event m.id evt)) s

/-- An entry in `backfill`. -/
def backfillEntry (s : Socket) (e : OutputEntry) : Socket :=
  match decodeOutputEvent e.data with
  | none => s
  | some evt => if deliverable s.data evt then s.send (.event e.id evt) else s

end Socket

end Ws

end Perps
