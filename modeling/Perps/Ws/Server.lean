import Perps.Ws.Socket
import Perps.Lib.Runs

/-! The websocket server: the output log, the reader that fans its entries out, and
the sockets. A step ends where the source awaits. -/

namespace Perps.Ws

variable {ι : Type}

structure Server (ι : Type) where
  output : OutputLog
  sockets : ι → Option Socket
  /-- The reader's `lastId`. There is none yet while it is `"$"`. -/
  lastId : Option StreamId
  /-- Where the `XREAD` that the reader awaits starts. -/
  call : Option StreamId

namespace Server

def start (output : OutputLog) : Server ι := ⟨output, fun _ => none, none, none⟩

/-- What comes up to here has been fanned out or will never be. A new `XREAD` from
`"$"` passes over the whole log. -/
def position (s : Server ι) : StreamId := s.call.getD (s.lastId.getD s.output.lastId)

end Server

inductive Action (ι : Type) where
  /-- The engine appends an event. -/
  | append (entry : OutputEntry)
  | open (c : ι) (userId : Option String)
  | message (c : ι) (msg : Option ClientMessage)
  | close (c : ι)
  /-- Redis answers the `XRANGE` of a backfill. -/
  | fetch (c : ι) (i : ℕ)
  | finish (c : ι) (i : ℕ)
  /-- The reader calls `XREAD`. -/
  | read
  | receive
  /-- Nothing has come for as long as `XREAD` blocks. -/
  | timeout

section Step

variable [DecidableEq ι]

def Server.set (s : Server ι) (c : ι) (socket : Option Socket) : Server ι :=
  { s with sockets := Function.update s.sockets c socket }

def step (s : Server ι) : Action ι → Option (Server ι)
  | .append entry => (s.output.add entry).map fun output => { s with output := output }
  | .open c userId =>
    match s.sockets c with
    | none => some (s.set c (some (.open userId)))
    | some _ => none
  | .message c msg => (s.sockets c).map fun socket => s.set c (some (socket.message msg))
  | .close c => (s.sockets c).map fun _ => s.set c none
  | .fetch c i =>
    match s.sockets c with
    | none => none
    | some socket =>
      match socket.backfills[i]? with
      | some ⟨sinceId, channels, .requested⟩ =>
        let entries := (s.output.after sinceId).take 500
        some (s.set c (some { socket with
          backfills := socket.backfills.set i ⟨sinceId, channels, .fetched entries⟩ }))
      | _ => none
  | .finish c i =>
    match s.sockets c with
    | none => none
    | some socket =>
      match socket.backfills[i]? with
      | some ⟨sinceId, channels, .fetched entries⟩ =>
        some (s.set c (some { entries.foldl Socket.backfillEntry socket with
          backfills := socket.backfills.set i ⟨sinceId, channels, .finished entries⟩ }))
      | _ => none
  | .read => if s.call = none then some { s with call := some s.position } else none
  | .receive =>
    match s.call with
    | none => none
    | some id =>
      match ((s.output.after id).take 200).getLast? with
      | none => none
      | some last =>
        some { s with
          sockets := fun c => (s.sockets c).map fun socket =>
            ((s.output.after id).take 200).foldl Socket.fanOut socket
          lastId := some last.id
          call := none }
  | .timeout =>
    match s.call with
    | none => none
    | some id => if s.output.after id = [] then some { s with call := none } else none

/-- What a step does. -/
inductive Transition (s : Server ι) : Action ι → Server ι → Prop
  | append {entry : OutputEntry} {output : OutputLog} (h : s.output.add entry = some output) :
      Transition s (.append entry) { s with output := output }
  | open (userId : Option String) {c : ι} (hc : s.sockets c = none) :
      Transition s (.open c userId) (s.set c (some (.open userId)))
  | message (msg : Option ClientMessage) {c : ι} {socket : Socket} (hc : s.sockets c = some socket) :
      Transition s (.message c msg) (s.set c (some (socket.message msg)))
  | close {c : ι} : Transition s (.close c) (s.set c none)
  | fetch {c : ι} {i : ℕ} {socket : Socket} {sinceId : StreamId} {channels : List Channel}
      (hc : s.sockets c = some socket)
      (hi : socket.backfills[i]? = some ⟨sinceId, channels, .requested⟩) :
      Transition s (.fetch c i) (s.set c (some { socket with
        backfills := socket.backfills.set i
          ⟨sinceId, channels, .fetched ((s.output.after sinceId).take 500)⟩ }))
  | finish {c : ι} {i : ℕ} {socket : Socket} {sinceId : StreamId} {channels : List Channel}
      {entries : List OutputEntry} (hc : s.sockets c = some socket)
      (hi : socket.backfills[i]? = some ⟨sinceId, channels, .fetched entries⟩) :
      Transition s (.finish c i) (s.set c (some { entries.foldl Socket.backfillEntry socket with
        backfills := socket.backfills.set i ⟨sinceId, channels, .finished entries⟩ }))
  | read (hcall : s.call = none) : Transition s .read { s with call := some s.position }
  | receive {id : StreamId} {last : OutputEntry} (hcall : s.call = some id)
      (hlast : ((s.output.after id).take 200).getLast? = some last) :
      Transition s .receive { s with
        sockets := fun c => (s.sockets c).map fun socket =>
          ((s.output.after id).take 200).foldl Socket.fanOut socket
        lastId := some last.id
        call := none }
  | timeout {id : StreamId} (hcall : s.call = some id) (hnone : s.output.after id = []) :
      Transition s .timeout { s with call := none }

theorem step_cases {s s' : Server ι} {a : Action ι} (h : step s a = some s') : Transition s a s' := by
  cases a with
  | append entry =>
    obtain ⟨output, houtput, rfl⟩ := Option.map_eq_some_iff.mp h
    exact .append houtput
  | «open» c userId =>
    dsimp only [step] at h
    split at h
    · next hc =>
      obtain rfl := Option.some.inj h
      exact .open userId hc
    · cases h
  | message c msg =>
    obtain ⟨socket, hc, rfl⟩ := Option.map_eq_some_iff.mp h
    exact .message msg hc
  | close c =>
    obtain ⟨socket, hc, rfl⟩ := Option.map_eq_some_iff.mp h
    exact .close
  | fetch c i =>
    dsimp only [step] at h
    split at h
    · cases h
    · next socket hc =>
      split at h
      · next hi =>
        obtain rfl := Option.some.inj h
        exact .fetch hc hi
      · cases h
  | finish c i =>
    dsimp only [step] at h
    split at h
    · cases h
    · next socket hc =>
      split at h
      · next hi =>
        obtain rfl := Option.some.inj h
        exact .finish hc hi
      · cases h
  | read =>
    dsimp only [step] at h
    split_ifs at h with hcall
    obtain rfl := Option.some.inj h
    exact .read hcall
  | receive =>
    dsimp only [step] at h
    split at h
    · cases h
    · next hcall =>
      split at h
      · cases h
      · next hlast =>
        obtain rfl := Option.some.inj h
        exact .receive hcall hlast
  | timeout =>
    dsimp only [step] at h
    split at h
    · cases h
    · next hcall =>
      split_ifs at h with hnone
      obtain rfl := Option.some.inj h
      exact .timeout hcall hnone

end Step

/-- The property holds of every open socket. -/
def Each (s : Server ι) (P : Socket → Prop) : Prop := ∀ c, ∀ socket ∈ s.sockets c, P socket

theorem Each.imp {s : Server ι} {P Q : Socket → Prop} (h : Each s P)
    (hPQ : ∀ socket, P socket → Q socket) : Each s Q :=
  fun c socket hc => hPQ socket (h c socket hc)

theorem Each.set [DecidableEq ι] {s : Server ι} {P : Socket → Prop} {c : ι} {socket : Socket}
    (h : Each s P) (hsocket : P socket) : Each (s.set c (some socket)) P := by
  intro c' socket' hc'
  dsimp only [Server.set] at hc'
  by_cases heq : c' = c
  · subst heq
    rw [Function.update_self] at hc'
    obtain rfl := Option.some.inj hc'
    exact hsocket
  · rw [Function.update_of_ne heq] at hc'
    exact h c' socket' hc'

theorem Each.close [DecidableEq ι] {s : Server ι} {P : Socket → Prop} {c : ι} (h : Each s P) :
    Each (s.set c none) P := by
  intro c' socket' hc'
  dsimp only [Server.set] at hc'
  by_cases heq : c' = c
  · subst heq
    rw [Function.update_self] at hc'
    cases hc'
  · rw [Function.update_of_ne heq] at hc'
    exact h c' socket' hc'

end Perps.Ws
