import Perps.Domain.Snapshot

/-! The snapshot store. A file holds a serialized state and its checksum, which a
load compares with the checksum of the state it reads. `save` takes two steps:
it puts the payload together, and when the file is open it writes the payload
out. The serialized state holds the collections of the engine itself, which by
then may have moved on. -/

namespace Perps

open Lib

structure SnapshotFile where
  checksum : String
  savedAt : ℕ
  lastInputId : StreamId
  appliedCount : ℕ
  state : SerializedState
  deriving DecidableEq

def Codec.snapshotFile : Lib.Codec SnapshotFile where
  enc f := .obj
    [("checksum", Lib.Codec.str.enc f.checksum), ("savedAt", Lib.Codec.nat.enc f.savedAt),
      ("lastInputId", streamId.enc f.lastInputId),
      ("appliedCount", Lib.Codec.nat.enc f.appliedCount), ("state", state.enc f.state)]
  dec j := do
    return {
      checksum := ← Lib.Codec.str.readField "checksum" j
      savedAt := ← Lib.Codec.nat.readField "savedAt" j
      lastInputId := ← streamId.readField "lastInputId" j
      appliedCount := ← Lib.Codec.nat.readField "appliedCount" j
      state := ← state.readField "state" j }
  dec_enc f := by simp [Lib.Codec.readField, Json.field, Lib.Codec.dec_enc]

structure LoadedSnapshot where
  state : SerializedState
  lastInputId : StreamId
  file : String

namespace SnapshotStore

/-- The state as it reads when the engine is at `now`: `serialize` has copied the
numbers and the lists of map entries, and passed on the arrays of the book and of
the command ids, and the balance and position objects. -/
def reread (state : SerializedState) (now : EngineState) : SerializedState :=
  { state with
    balances := state.balances.map fun x => (x.1, (now.balances.get? x.1).getD x.2)
    positions := state.positions.map fun x => (x.1, (now.positions.get? x.1).getD x.2)
    bids := now.bids
    asks := now.asks
    appliedCommandIds := now.appliedCommandIds }

section Files

variable (sha256 : Json → String)

def checksum (state : SerializedState) : String := sha256 (Codec.state.enc state)

/-- The payload, before the file is opened. -/
def payload (state : SerializedState) (savedAt : ℕ) : SnapshotFile where
  checksum := checksum sha256 state
  savedAt := savedAt
  lastInputId := state.lastInputId
  appliedCount := state.appliedCount
  state := state

/-- The content of the file: the payload of the state `taken`, written out when
the engine is at `now`. -/
def save (taken now : EngineState) (savedAt : ℕ) : Json :=
  let p := payload sha256 (Engine.snapshot taken) savedAt
  Codec.snapshotFile.enc { p with state := reread p.state now }

/-- One file: `none` if it is unreadable or fails the test. -/
def load (file : String) (content : Json) : Option LoadedSnapshot := do
  let parsed ← Codec.snapshotFile.dec content
  if checksum sha256 parsed.state ≠ parsed.checksum then none
  else some { state := parsed.state, lastInputId := parsed.lastInputId, file := file }

/-- The first of the files, newest first, that passes. -/
def loadLatest (files : List (String × Json)) : Option LoadedSnapshot :=
  files.findSome? fun f => load sha256 f.1 f.2

end Files

end SnapshotStore

end Perps
