import SchedArchive.Scheduler.Session

-- The thread that keeps a connection to the block engine and passes on what comes in over it.

abbrev Bytes := List UInt8

-- `JitoUpdate`, with all that the channel carries.
inductive Message
  | builderConfig (key : Pubkey) (commission : Nat)
  | tipConfig (config : TipConfig)
  | recentBlockhash (hash : BitVec 256)
  | packet (data : Bytes)
  | bundle (packets : List Bytes)
  deriving DecidableEq

-- What `drain_jito` makes of a message, where `parse` is what `insert_transaction` makes of the bytes
-- of a packet.
def Message.update (parse : Bytes → Packet) : Message → JitoUpdate
  | builderConfig _ _   => .builderConfig
  | tipConfig config    => .tipConfig config
  | recentBlockhash _   => .recentBlockhash
  | packet data         => .packet (parse data)
  | bundle packets      => .bundle (packets.map parse)

namespace JitoThread

-- `PACKET_DATA_SIZE`.
def packetDataSize : Nat := 1232

-- `Pubkey::new_from_array`.
def pubkeyOf (bytes : Bytes) : Pubkey :=
  BitVec.ofNat 256 <| bytes.foldl (fun n b => 256 * n + b.toNat) 0

-- What is left for the thread to do before it waits again.
inductive Effect
  | send (message : Message)
  | panic
  deriving DecidableEq

-- `on_tip_config`. `data` is `none` when the data of the account cannot be decoded.
def onTipConfig : Option Bytes → List Effect
  | none      => [.panic]
  | some data =>
    if data.length < 72 then
      [.panic]
    else
      [.send <| .tipConfig
        { tipReceiver  := pubkeyOf <| (data.drop 8).take 32
          blockBuilder := pubkeyOf <| (data.drop 40).take 32 }]

def onBundles (bundles : List (Option (List Bytes))) : List Effect :=
  bundles.reduceOption.flatMap fun packets =>
    if packets.any (packetDataSize < ·.length) then [.panic]
    else if packets = [] then []
    else [.send <| .bundle packets]

def onPackets (batch : Option (List Bytes)) : List Effect :=
  (batch.getD []).map (.send <| .packet ·)

-- Where in `run` and `run_until_err` the thread waits, or how it ended.
inductive Phase
  | connecting
  | subscribing
  | streaming
  | sleeping
  | stopped
  | panicked
  deriving DecidableEq

-- What the thread may find when it has waited. `failure` is any error, or a stream that was closed.
inductive Response
  | builderInfo (key : Option Pubkey) (commission : Nat)
  | subscribed
  | blockhash (hash : BitVec 256)
  | tipConfig (data : Option Bytes)
  | bundles (bundles : List (Option (List Bytes)))
  | packets (batch : Option (List Bytes))
  | failure
  | slept

-- The next phase and what to do first, or `none` where the thread does not wait for the response.
def respond : Phase → Response → Option (Phase × List Effect)
  | .connecting, .builderInfo (some key) commission =>
    some (.subscribing, [.send <| .builderConfig key commission])
  | .connecting, .builderInfo none _ => some (.subscribing, [.panic])
  | .subscribing, .subscribed        => some (.streaming, [])
  | .streaming, .blockhash hash      => some (.streaming, [.send <| .recentBlockhash hash])
  | .streaming, .tipConfig data      => some (.streaming, onTipConfig data)
  | .streaming, .bundles bundles     => some (.streaming, onBundles bundles)
  | .streaming, .packets batch       => some (.streaming, onPackets batch)
  | .connecting, .failure | .subscribing, .failure | .streaming, .failure => some (.sleeping, [])
  | .sleeping, .slept                => some (.connecting, [])
  | _, _                             => none

end JitoThread

structure JitoThread where
  phase : JitoThread.Phase
  todo  : List JitoThread.Effect
  deriving DecidableEq

namespace JitoThread

-- The thread is gone, and the sending end of the channel with it.
def ended (j : JitoThread) : Bool :=
  j.phase = .stopped || j.phase = .panicked

def panicked : JitoThread :=
  ⟨.panicked, []⟩

end JitoThread
