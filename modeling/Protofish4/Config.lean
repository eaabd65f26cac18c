import Protofish4.Types

/-!
# Config

The tunable limits of `config.rs`. Every bound is a field, and the two
sinks' presets are the source's.
-/

namespace Protofish4

/-- What a receiver wants out of a transfer. -/
inductive RecvMode where
  | dual
  | relOnly
  deriving DecidableEq, Repr

def RecvMode.wantsUnrel : RecvMode → Bool
  | .dual => true
  | .relOnly => false

structure ReceiverConfig where
  mode : RecvMode
  reorderWindow : Nat
  maxReorderBytes : Nat
  maxNackAttempts : Nat
  nackBackoff : List Duration
  relStallTimeout : Duration
  idleTimeout : Duration
  ackInterval : Duration
  deriving DecidableEq

namespace ReceiverConfig

def audioEngine : ReceiverConfig where
  mode := .dual
  reorderWindow := 1024
  maxReorderBytes := 1024 * 1024
  maxNackAttempts := 3
  nackBackoff := [fromMillis 30, fromMillis 100, fromMillis 300]
  relStallTimeout := fromSecs 5
  idleTimeout := fromSecs 15
  ackInterval := fromMillis 200

def cacheWorker : ReceiverConfig where
  mode := .relOnly
  reorderWindow := 65536
  maxReorderBytes := 32 * 1024 * 1024
  maxNackAttempts := 12
  nackBackoff := [fromMillis 50, fromMillis 200, fromMillis 500, fromSecs 1, fromSecs 2]
  relStallTimeout := fromSecs 60
  idleTimeout := fromSecs 30
  ackInterval := fromMillis 500

/-- The wait before the request after `attempt` earlier ones: the last
backoff entry repeats, and an empty list means 100 ms. -/
def nackDelay (cfg : ReceiverConfig) (attempt : Nat) : Duration :=
  (cfg.nackBackoff[min attempt (cfg.nackBackoff.length - 1)]?).getD (fromMillis 100)

end ReceiverConfig

structure SenderConfig where
  retransRingFrames : Nat := 1024
  retransRingBytes : Nat := 1024 * 1024
  maxOutstanding : Nat := 512
  bufferHighWaterMs : UInt16 := 10000
  bufferLowWaterMs : UInt16 := 5000
  firstAckTimeout : Duration := fromSecs 2
  tailKeepaliveInterval : Duration := fromSecs 5
  finalizeTimeout : Duration := fromSecs 30
  deriving DecidableEq

end Protofish4
